import Categorial.Proofs.Chart.Arrival

/-! # What offers leave in a beam

Whatever a beam does with the cells on offer, it makes no cell up: what it has are cells that were
offered, or merged from those. So what merging keeps true of cells stays true of a whole chart, in
any order of pruning and without any law of arithmetic.
-/

namespace Categorial

variable {S : Type} [Scalar S]

namespace Beam

section Moves

variable {S : Type} {b : Beam S} {c cell : Cell S} {losers : List (Nat × Held S)}

@[simp]
theorem stock_empty (capacity : Nat) (order : PruneOrder) (separateLexical : Bool) :
    (empty capacity order separateLexical : Beam S).stock = [] := rfl

@[simp]
theorem stock_markPruned_if (b : Beam S) (pruned : Bool) :
    (if pruned then b.markPruned else b).stock = b.stock := by
  cases pruned <;> rfl

theorem mem_stock_of_held {key : Nat} {held : Held S} (h : b.slots.get? key = some held) :
    held.cell ∈ b.stock :=
  List.mem_append_left _ (List.mem_map.mpr ⟨_, mem_entries_iff.mpr ⟨key, held, h, rfl⟩, rfl⟩)

theorem mem_stock_of_bounded {x : Nat × Held S} (h : x ∈ b.bounded) : x.2.cell ∈ b.stock :=
  mem_stock_of_held ((Slots.mem_toList_iff ..).mp (List.mem_filter.mp h).1)

theorem mem_stock_of_remove {key : Nat} (h : c ∈ (b.remove key).stock) : c ∈ b.stock := by
  rcases List.mem_append.mp h with h | h
  · refine List.mem_append_left _ ?_
    cases hk : b.slots.get? key with
    | none =>
      have hsame : b.remove key = b := by simp [remove, hk]
      rwa [hsame] at h
    | some held =>
      obtain ⟨e, he, rfl⟩ := List.mem_map.mp h
      exact List.mem_map.mpr ⟨e, (entries_remove_perm hk).mem_iff.mpr (.tail _ he), rfl⟩
  · rw [setAside_remove] at h
    exact List.mem_append_right _ h

theorem mem_stock_of_turnAway (h : c ∈ (b.turnAway cell).stock) : c = cell ∨ c ∈ b.stock := by
  unfold turnAway at h
  split at h
  · rcases List.mem_append.mp h with h | h
    · exact .inr (List.mem_append_left _ h)
    · exact (List.mem_cons.mp h).imp_right fun h => List.mem_append_right _ h
  · exact .inr h

theorem mem_stock_of_evict (h : c ∈ (b.evict losers).stock) :
    c ∈ b.stock ∨ ∃ x ∈ losers, c = x.2.cell := by
  induction losers generalizing b with
  | nil => exact .inl h
  | cons x losers ih =>
    rcases ih h with h | ⟨y, hy, rfl⟩
    · rcases mem_stock_of_turnAway h with rfl | h
      · exact .inr ⟨x, .head _, rfl⟩
      · exact .inl (mem_stock_of_remove h)
    · exact .inr ⟨y, .tail _ hy, rfl⟩

theorem mem_stock_of_evict_bounded {p : Nat × Held S → Bool}
    (h : c ∈ (b.evict (b.bounded.filter p)).stock) : c ∈ b.stock := by
  rcases mem_stock_of_evict h with h | ⟨x, hx, rfl⟩
  · exact h
  · exact mem_stock_of_bounded (List.mem_filter.mp hx).1

theorem mem_stock_of_insert {unbounded : Bool} (h : c ∈ (b.insert cell unbounded).1.stock) :
    c = cell ∨ c ∈ b.stock :=
  List.mem_cons.mp ((b.stock_insert_perm cell unbounded).mem_iff.mp h)

theorem mem_stock_of_takeBack {cells : List (Cell S)} (h : c ∈ (b.takeBack cells).stock) :
    c ∈ cells ∨ c ∈ b.stock := by
  induction cells generalizing b with
  | nil => exact .inr h
  | cons cell cells ih =>
    rcases ih h with h | h
    · exact .inl (.tail _ h)
    · rcases mem_stock_of_insert h with rfl | h
      · exact .inl (.head _)
      · exact .inr h

theorem mem_stock_of_replace {key : Nat} {held held' : Held S} (numBounded : Nat)
    (hkey : b.slots.get? key = some held) (h : c ∈ (b.replace key held' numBounded).stock) :
    c = held'.cell ∨ c ∈ b.stock := by
  rcases List.mem_append.mp h with h | h
  · obtain ⟨e, he, rfl⟩ := List.mem_map.mp h
    rcases List.mem_cons.mp ((entries_replace_perm hkey held' numBounded).mem_iff.mp he) with
      rfl | he
    · exact .inl rfl
    · exact .inr (mem_stock_of_remove (List.mem_append_left _ (List.mem_map.mpr ⟨e, he, rfl⟩)))
  · exact .inr (List.mem_append_right _ h)

end Moves

variable {b b' : Beam S} {c cell : Cell S} {admission : Admission}

theorem mem_stock_of_evictMinimumTies (h : c ∈ b.evictMinimumTies.1.stock) : c ∈ b.stock := by
  unfold evictMinimumTies at h
  split at h
  · exact h
  · exact mem_stock_of_evict_bounded h

theorem mem_stock_of_rebalance (h : c ∈ b.rebalance.stock) : c ∈ b.stock := by
  unfold rebalance at h
  dsimp only at h
  split at h
  · rcases mem_stock_of_takeBack h with h | h
    · exact List.mem_append_right _ h
    · exact List.mem_append_left _ (by simpa [stock, entries] using h)
  next t _ =>
    rw [List.partition_eq_filter_filter] at h
    have hsub : ∀ threshold c, c ∈ ((b.withThreshold threshold).evict
        (b.bounded.filter (·.2.cell.pruneKey.ble t))).stock → c ∈ b.stock := fun threshold _ hc =>
      mem_stock_of_evict_bounded (b := b.withThreshold threshold) hc
    rcases mem_stock_of_takeBack h with h | h
    · exact hsub _ c (List.mem_append_right _ (List.mem_filter.mp h).1)
    · rcases List.mem_append.mp h with h | h
      · exact hsub _ c (List.mem_append_left _ h)
      · exact hsub _ c (List.mem_append_right _ (List.mem_filter.mp h).1)

theorem mem_stock_of_rebalance_if {p : Prop} [Decidable p]
    (h : c ∈ (if p then b.rebalance else b).stock) : c ∈ b.stock := by
  split_ifs at h
  · exact mem_stock_of_rebalance h
  · exact h

theorem foldl_better_mem {α : Type} (better : α → α → Bool) (first : α) (rest : List α) :
    rest.foldl (fun best x => if better best x then x else best) first ∈ first :: rest := by
  induction rest generalizing first with
  | nil => simp
  | cons y rest ih =>
    rcases List.mem_cons.mp (ih (if better first y then y else first)) with hmem | hmem
    · rw [List.foldl_cons, hmem]
      split_ifs <;> simp
    · exact .tail _ (.tail _ hmem)

theorem mem_bounded_of_latestMinimum? {x : Nat × Held S} (h : b.latestMinimum? = some x) :
    x ∈ b.bounded := by
  unfold latestMinimum? at h
  split at h
  · simp at h
  next first rest hbounded =>
    rw [hbounded, ← Option.some.inj h]
    exact foldl_better_mem _ first rest

/-- The cell counts against the capacity, and its key is above the threshold. -/
structure Competes (b : Beam S) (cell : Cell S) : Prop where
  bounded : (b.separateLexical && cell.hasLexicalStep) = false
  above : b.threshold.any cell.pruneKey.ble = false

/-- The ways of a cell whose category is neither held nor set aside, each with the answer. -/
inductive Accepts (b : Beam S) (cell : Cell S) : Beam S × Admission → Prop
  | sheltered : (b.separateLexical && cell.hasLexicalStep) = true →
      Accepts b cell ((b.insert cell true).1, .inserted b.slots.nextKey)
  | below : (b.separateLexical && cell.hasLexicalStep) = false →
      b.threshold.any cell.pruneKey.ble = true → Accepts b cell (b.turnAway cell, .rejected)
  | roomy : b.Competes cell → b.numBounded < b.capacity →
      Accepts b cell ((b.insert cell false).1, .inserted b.slots.nextKey)
  | crowded : b.Competes cell → b.capacity ≤ b.numBounded → b.order = .orderInvariant →
      Accepts b cell ((b.insert cell false).1.evictMinimumTies.1,
        if (b.insert cell false).1.evictMinimumTies.2.contains b.slots.nextKey then .rejected
        else .inserted b.slots.nextKey)
  | replacing {low : Nat} {held : Held S} : b.Competes cell → b.capacity ≤ b.numBounded →
      b.order = .insertionOrder → b.latestMinimum? = some (low, held) →
      held.cell.pruneKey.blt cell.pruneKey = true →
      Accepts b cell (({ b.remove low with rejected := true }.insert cell false).1,
        .inserted (b.remove low).slots.nextKey)
  | full : b.Competes cell → b.capacity ≤ b.numBounded → b.order = .insertionOrder →
      (∀ x, b.latestMinimum? = some x → x.2.cell.pruneKey.blt cell.pruneKey = false) →
      Accepts b cell ({ b with rejected := true }, .rejected)

theorem accepts (b : Beam S) (cell : Cell S) : b.Accepts cell (b.accept cell) := by
  unfold accept
  split
  next hlex => exact .sheltered hlex
  next hlex =>
    have hbounded := Bool.eq_false_of_not_eq_true hlex
    split
    next hbelow => exact .below hbounded hbelow
    next habove =>
      have hcompetes : b.Competes cell := ⟨hbounded, Bool.eq_false_of_not_eq_true habove⟩
      split
      next ho =>
        dsimp only
        split
        next hover => exact .crowded hcompetes (Nat.lt_succ_iff.mp hover) ho
        next hroom => exact .roomy hcompetes (not_le.mp fun hle => hroom (Nat.lt_succ_of_le hle))
      next ho =>
        split
        next hroom => exact .roomy hcompetes hroom
        next hfull =>
          split
          next low held hlow =>
            split
            next hlt => exact .replacing hcompetes (not_lt.mp hfull) ho hlow hlt
            next hlt =>
              refine .full hcompetes (not_lt.mp hfull) ho fun x hx => ?_
              obtain rfl := Option.some.inj (hlow.symm.trans hx)
              exact Bool.eq_false_of_not_eq_true hlt
          next hnone => exact .full hcompetes (not_lt.mp hfull) ho (by simp [hnone])

theorem mem_stock_of_accept (h : c ∈ (b.accept cell).1.stock) : c = cell ∨ c ∈ b.stock := by
  have haccepts := b.accepts cell
  generalize b.accept cell = answer at h haccepts
  cases haccepts with
  | sheltered _ => exact mem_stock_of_insert h
  | below _ _ => exact mem_stock_of_turnAway h
  | roomy _ _ => exact mem_stock_of_insert h
  | crowded _ _ _ => exact mem_stock_of_insert (mem_stock_of_evictMinimumTies h)
  | replacing _ _ _ _ _ => exact (mem_stock_of_insert h).imp_right mem_stock_of_remove
  | full _ _ _ _ => exact .inr h

def FromOffer (b : Beam S) (cell c : Cell S) : Prop :=
  c ∈ b.stock ∨ c = cell ∨ ∃ d ∈ b.stock, ∃ changed, d.merge cell = .ok (c, changed)

def merged (b : Beam S) (key : Nat) (held : Held S) (m : Cell S) (changed : Bool) : Beam S :=
  let lexical := b.separateLexical && !held.unbounded && m.hasLexicalStep
  let renewed := changed && b.order = .insertionOrder
  { b.replace key ⟨m, if renewed then b.nextSeq + 1 else held.seq, held.unbounded || lexical⟩
      (if lexical then b.numBounded - 1 else b.numBounded) with
    nextSeq := if renewed then b.nextSeq + 1 else b.nextSeq }

theorem mergeHeld_eq_ok {key : Nat} {held : Held S}
    (h : b.mergeHeld key held cell = .ok (b', admission)) :
    ∃ m changed, held.cell.merge cell = .ok (m, changed) ∧
      (b' = if b.separateLexical && !held.unbounded && m.hasLexicalStep &&
          b.order = .orderInvariant then (b.merged key held m changed).rebalance
        else b.merged key held m changed) ∧ admission = .merged key changed := by
  unfold mergeHeld at h
  obtain ⟨⟨m, changed⟩, hmerge, h⟩ := bind_eq_ok.mp h
  simp only [Except.ok.injEq, Prod.mk.injEq] at h
  exact ⟨m, changed, hmerge, h.1.symm, h.2.symm⟩

theorem reconsider_eq_ok {previous : Cell S}
    (h : b.reconsider previous cell = .ok (b', admission)) :
    ∃ m changed b₁, previous.merge cell = .ok (m, changed) ∧
      (b.withAside (b.setAside.filter (·.category != cell.category))).accept m =
        (b₁, admission) ∧
      b' = if b₁.separateLexical && m.hasLexicalStep then b₁.rebalance else b₁ := by
  unfold reconsider at h
  obtain ⟨⟨m, changed⟩, hmerge, h⟩ := bind_eq_ok.mp h
  simp only [Except.ok.injEq, Prod.mk.injEq] at h
  exact ⟨m, changed, _, hmerge, Prod.ext rfl h.2, h.1.symm⟩

theorem fromOffer_of_mergeHeld {key : Nat} {held : Held S} (hkey : b.slots.get? key = some held)
    (h : b.mergeHeld key held cell = .ok (b', admission)) (hc : c ∈ b'.stock) :
    b.FromOffer cell c := by
  obtain ⟨m, changed, hmerge, rfl, _⟩ := mergeHeld_eq_ok h
  have hc : c ∈ (b.merged key held m changed).stock := mem_stock_of_rebalance_if hc
  rcases mem_stock_of_replace b.numBounded hkey hc with rfl | hc
  · exact .inr (.inr ⟨held.cell, mem_stock_of_held hkey, changed, hmerge⟩)
  · exact .inl hc

theorem fromOffer_of_reconsider {previous : Cell S} (hprevious : previous ∈ b.setAside)
    (h : b.reconsider previous cell = .ok (b', admission)) (hc : c ∈ b'.stock) :
    b.FromOffer cell c := by
  obtain ⟨m, changed, b₁, hmerge, haccept, rfl⟩ := reconsider_eq_ok h
  obtain rfl := congrArg Prod.fst haccept
  rcases mem_stock_of_accept (mem_stock_of_rebalance_if hc) with rfl | hc
  · exact .inr (.inr ⟨previous, List.mem_append_right _ hprevious, changed, hmerge⟩)
  · rcases List.mem_append.mp hc with hc | hc
    · exact .inl (List.mem_append_left _ hc)
    · exact .inl (List.mem_append_right _ (List.mem_filter.mp hc).1)

theorem fromOffer_of_offer (h : b.offer cell = .ok (b', admission)) (hc : c ∈ b'.stock) :
    b.FromOffer cell c := by
  unfold offer at h
  split at h
  · split at h
    next held hkey => exact fromOffer_of_mergeHeld hkey h hc
    next =>
      obtain ⟨rfl, rfl⟩ := Prod.mk.inj (Except.ok.inj h)
      exact (mem_stock_of_accept hc).elim (fun h => .inr (.inl h)) .inl
  · split at h
    next previous hfind => exact fromOffer_of_reconsider (List.mem_of_find?_eq_some hfind) h hc
    next =>
      obtain ⟨rfl, rfl⟩ := Prod.mk.inj (Except.ok.inj h)
      exact (mem_stock_of_accept hc).elim (fun h => .inr (.inl h)) .inl

variable {Q : Cell S → Prop} {first last : Nat} {cells : List (Cell S)}
  (hQ : ∀ c d m, Q c → Q d → c.Merges d m → Q m)

include hQ

/-- What merging keeps true of cells is true of all that a beam has after an offer. -/
theorem forall_stock_of_offer (hb : ∀ c ∈ b.stock, Q c) (hcell : Q cell)
    (h : b.offer cell = .ok (b', admission)) : ∀ c ∈ b'.stock, Q c := by
  intro c hc
  rcases fromOffer_of_offer h hc with hc | rfl | ⟨d, hd, changed, hmerge⟩
  · exact hb c hc
  · exact hcell
  · exact hQ d cell c (hb d hd) hcell (Cell.merges_of_merge hmerge)

theorem Takes.forall_stock (h : b.Takes first last cells b') (hb : ∀ c ∈ b.stock, Q c)
    (hcells : ∀ c ∈ cells, Q c) : ∀ c ∈ b'.stock, Q c := by
  induction h with
  | nil b => exact hb
  | @cons b b₁ b' cell cells aside admission hperm _ hoffer _ ih =>
    have haside : ∀ c ∈ (b.withAside aside).stock, Q c := fun c hc =>
      hb c ((hperm.append_left _).mem_iff.mpr hc)
    exact ih (forall_stock_of_offer hQ haside (hcells cell (.head _)) hoffer) fun c hc =>
      hcells c (.tail _ hc)

theorem forall_stock_of_offerAll (h : b.offerAll cells = .ok b') (hb : ∀ c ∈ b.stock, Q c)
    (hcells : ∀ c ∈ cells, Q c) : ∀ c ∈ b'.stock, Q c := by
  induction cells generalizing b with
  | nil =>
    obtain rfl := Except.ok.inj h
    exact hb
  | cons cell cells ih =>
    obtain ⟨b₁, hb₁, hrest⟩ := foldlM_cons_eq_ok.mp h
    obtain ⟨⟨b₁, admission⟩, hoffer, rfl⟩ := map_eq_ok.mp hb₁
    exact ih hrest (forall_stock_of_offer hQ hb (hcells cell (.head _)) hoffer) fun c hc =>
      hcells c (.tail _ hc)

end Beam

end Categorial
