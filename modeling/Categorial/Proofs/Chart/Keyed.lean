import Categorial.Proofs.Chart.Offers

/-! # Offers that cannot fault

Keys are used again once their cells are gone. Still the index of a beam leads to held cells of the
right category only, in either order of pruning and whatever the scores are. So a cell is merged
with none but cells of its own category, and a beam has an answer to every cell of its span.
-/

namespace Categorial

variable {S : Type}

namespace Beam

/-- The index leads to held cells of the right category. -/
def Keyed (b : Beam S) : Prop :=
  ∀ category key, b.index[category]? = some key →
    ∃ held, b.slots.get? key = some held ∧ held.cell.category = category

namespace Keyed

section Moves

variable {b : Beam S}

theorem empty (capacity : Nat) (order : PruneOrder) (separateLexical : Bool) :
    (Beam.empty capacity order separateLexical : Beam S).Keyed := by
  intro category key hkey
  simp [Beam.empty] at hkey

variable (hb : b.Keyed)

include hb

theorem insert (cell : Cell S) (unbounded : Bool) : (b.insert cell unbounded).1.Keyed := by
  intro category key hkey
  show ∃ held, (b.slots.insert ⟨cell, b.nextSeq + 1, unbounded⟩).get? key = some held ∧ _
  replace hkey : (b.index.insert cell.category b.slots.nextKey)[category]? = some key := hkey
  rw [Std.HashMap.getElem?_insert] at hkey
  rw [Slots.get?_insert]
  split at hkey
  next hcat =>
    obtain rfl := Option.some.inj hkey
    exact ⟨_, if_pos rfl, eq_of_beq hcat⟩
  next =>
    -- the new slot was free, so the index did not lead to it
    obtain ⟨held, hheld, hcat⟩ := hb category key hkey
    have hne : key ≠ b.slots.nextKey := by
      rintro rfl
      simp at hheld
    exact ⟨held, (if_neg hne).trans hheld, hcat⟩

theorem remove (key : Nat) : (b.remove key).Keyed := by
  cases hk : b.slots.get? key with
  | none => simpa [Beam.remove, hk] using hb
  | some gone =>
    rw [remove_eq hk]
    intro category k hkey
    replace hkey : (b.index.erase gone.cell.category)[category]? = some k := hkey
    rw [Std.HashMap.getElem?_erase] at hkey
    split at hkey
    next => simp at hkey
    next hcat =>
      obtain ⟨held, hheld, rfl⟩ := hb category k hkey
      have hne : k ≠ key := by
        rintro rfl
        obtain rfl := Option.some.inj (hk.symm.trans hheld)
        exact hcat (beq_self_eq_true _)
      exact ⟨held, (Slots.get?_erase ..).trans ((if_neg hne).trans hheld), rfl⟩

theorem turnAway (cell : Cell S) : (b.turnAway cell).Keyed := by
  unfold Beam.turnAway
  split
  · exact hb
  · exact hb

theorem evict (losers : List (Nat × Held S)) : (b.evict losers).Keyed := by
  induction losers generalizing b with
  | nil => exact hb
  | cons x losers ih => exact ih ((hb.remove x.1).turnAway x.2.cell)

theorem takeBack (cells : List (Cell S)) : (b.takeBack cells).Keyed := by
  induction cells generalizing b with
  | nil => exact hb
  | cons cell cells ih => exact ih (hb.insert cell false)

theorem replace {key : Nat} {held held' : Held S} (hk : b.slots.get? key = some held)
    (hcat : held'.cell.category = held.cell.category) (numBounded : Nat) :
    (b.replace key held' numBounded).Keyed := by
  intro category k hkey
  obtain ⟨x, hx, rfl⟩ := hb category k hkey
  show ∃ y, (b.slots.modify key fun _ => held').get? k = some y ∧ _
  rw [Slots.get?_modify, hx]
  by_cases hkk : key = k
  · subst hkk
    obtain rfl := Option.some.inj (hk.symm.trans hx)
    exact ⟨held', if_pos rfl, hcat⟩
  · exact ⟨x, if_neg hkk, rfl⟩

theorem withAside (cells : List (Cell S)) : (b.withAside cells).Keyed :=
  hb

theorem markPruned_if (pruned : Bool) : (if pruned then b.markPruned else b).Keyed := by
  cases pruned <;> exact hb

end Moves

variable [Scalar S] {b b' : Beam S} {cell : Cell S} {admission : Admission}

section Offers

variable (hb : b.Keyed)

include hb

theorem evictMinimumTies : b.evictMinimumTies.1.Keyed := by
  unfold Beam.evictMinimumTies
  split
  · exact hb
  · exact hb.evict _

theorem rebalance : b.rebalance.Keyed := by
  have hevict : ∀ threshold losers, ((b.withThreshold threshold).evict losers).Keyed :=
    fun threshold => evict (b := b.withThreshold threshold) hb
  unfold Beam.rebalance
  dsimp only
  split
  · refine takeBack ?_ _
    exact hb
  · refine takeBack ?_ _
    exact hevict _ _

theorem accept (cell : Cell S) : (b.accept cell).1.Keyed := by
  have haccepts := b.accepts cell
  generalize b.accept cell = answer at haccepts ⊢
  cases haccepts with
  | sheltered _ => exact hb.insert cell true
  | below _ _ => exact hb.turnAway cell
  | roomy _ _ => exact hb.insert cell false
  | crowded _ _ _ => exact (hb.insert cell false).evictMinimumTies
  | @replacing low _ _ _ _ _ _ => exact Keyed.insert (hb.remove low) cell false
  | full _ _ _ _ => exact hb

theorem rebalance_if {p : Prop} [Decidable p] : (if p then b.rebalance else b).Keyed := by
  split_ifs
  · exact hb.rebalance
  · exact hb

end Offers

theorem mergeHeld (hb : b.Keyed) {key : Nat} {held : Held S} (hk : b.slots.get? key = some held)
    (h : b.mergeHeld key held cell = .ok (b', admission)) : b'.Keyed := by
  obtain ⟨m, changed, hmerge, rfl, _⟩ := mergeHeld_eq_ok h
  have hcat := (Cell.merges_of_merge hmerge).category
  have hmerged : (b.merged key held m changed).Keyed := by
    unfold Beam.merged
    exact hb.replace hk hcat b.numBounded
  exact hmerged.rebalance_if

theorem reconsider (hb : b.Keyed) {previous : Cell S}
    (h : b.reconsider previous cell = .ok (b', admission)) : b'.Keyed := by
  obtain ⟨m, changed, b₁, _, haccept, rfl⟩ := reconsider_eq_ok h
  obtain rfl := congrArg Prod.fst haccept
  exact rebalance_if (accept (hb.withAside _) m)

theorem offer (hb : b.Keyed) (h : b.offer cell = .ok (b', admission)) : b'.Keyed := by
  unfold Beam.offer at h
  split at h
  · split at h
    next hk => exact hb.mergeHeld hk h
    next =>
      obtain ⟨rfl, rfl⟩ := Prod.mk.inj (Except.ok.inj h)
      exact hb.accept cell
  · split at h
    · exact hb.reconsider h
    · obtain ⟨rfl, rfl⟩ := Prod.mk.inj (Except.ok.inj h)
      exact hb.accept cell

theorem takes {first last : Nat} {cells : List (Cell S)} (hb : b.Keyed)
    (h : b.Takes first last cells b') : b'.Keyed := by
  induction h with
  | nil b => exact hb
  | cons _ _ hoffer _ ih => exact ih (offer (hb.withAside _) hoffer)

end Keyed

structure Receptive (b : Beam S) (span : Span) : Prop where
  keyed : b.Keyed
  spans : ∀ c ∈ b.stock, c.span = span

variable {span : Span}

theorem receptive_empty (capacity : Nat) (order : PruneOrder) (separateLexical : Bool)
    (span : Span) : (empty capacity order separateLexical : Beam S).Receptive span where
  keyed := .empty capacity order separateLexical
  spans c hc := by simp at hc

variable [Scalar S] {b b' : Beam S} {cell : Cell S} {cells : List (Cell S)}

namespace Receptive

variable (hb : b.Receptive span)

include hb

theorem mergeHeld {key : Nat} {held : Held S} (hk : b.slots.get? key = some held)
    (hspan : cell.span = span) (hcat : cell.category = held.cell.category) :
    ∃ answer, b.mergeHeld key held cell = .ok answer := by
  have hheld := hb.spans _ (mem_stock_of_held hk)
  obtain ⟨merged, hmerge⟩ := Cell.exists_merge (hspan.trans hheld.symm) hcat
  exact ⟨_, bind_eq_ok.mpr ⟨merged, hmerge, rfl⟩⟩

theorem reconsider {previous : Cell S} (hprevious : previous ∈ b.setAside)
    (hspan : cell.span = span) (hcat : cell.category = previous.category) :
    ∃ answer, b.reconsider previous cell = .ok answer := by
  have haside := hb.spans _ (List.mem_append_right _ hprevious)
  obtain ⟨merged, hmerge⟩ := Cell.exists_merge (hspan.trans haside.symm) hcat
  exact ⟨_, bind_eq_ok.mpr ⟨merged, hmerge, rfl⟩⟩

/-- A cell of the span is merged, taken in or turned away. -/
theorem exists_offer (hspan : cell.span = span) : ∃ answer, b.offer cell = .ok answer := by
  unfold Beam.offer
  split
  next key hkey =>
    obtain ⟨held, hheld, hcat⟩ := hb.keyed _ _ hkey
    rw [hheld]
    exact hb.mergeHeld hheld hspan hcat.symm
  next =>
    split
    next previous hfind =>
      have hcat : previous.category = cell.category := by simpa using List.find?_some hfind
      exact hb.reconsider (List.mem_of_find?_eq_some hfind) hspan hcat.symm
    next => exact ⟨_, rfl⟩

theorem offer (hspan : cell.span = span) :
    ∃ b' admission, b.offer cell = .ok (b', admission) ∧ b'.Receptive span := by
  obtain ⟨⟨b', admission⟩, hoffer⟩ := hb.exists_offer hspan
  refine ⟨b', admission, hoffer, hb.keyed.offer hoffer, ?_⟩
  exact forall_stock_of_offer (fun _ _ _ hc _ hm => hm.span.trans hc) hb.spans hspan hoffer

theorem exists_offerAll (hspans : ∀ c ∈ cells, c.span = span) :
    ∃ b', b.offerAll cells = .ok b' := by
  induction cells generalizing b with
  | nil => exact ⟨b, rfl⟩
  | cons cell cells ih =>
    obtain ⟨b₁, admission, hoffer, hb₁⟩ := hb.offer (hspans cell (.head _))
    obtain ⟨b', hrest⟩ := ih hb₁ fun c hc => hspans c (.tail _ hc)
    exact ⟨b', foldlM_cons_eq_ok.mpr ⟨b₁, map_eq_ok.mpr ⟨_, hoffer, rfl⟩, hrest⟩⟩

end Receptive

end Beam

end Categorial
