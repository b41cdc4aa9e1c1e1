import Categorial.Scalar.Binary64
import Categorial.Proofs.Chart.Consistency
import Categorial.Proofs.Chart.Keyed
import Categorial.Proofs.Chart.Sparing

/-! # What a beam answers

A beam never has more bounded cells than its capacity, and what it answers to an offer is true: the
slot that it names has the cell of the category with all steps on offer, and after a rejection there
is none. Slots are used again and cells move when room is made, so both follow from one invariant of
all moves. Of the prune keys only a total order is needed.
-/

namespace Categorial

variable {S : Type}

theorem Cell.Within.hasLexicalStep [Scalar S] {c d : Cell S} (h : c.Within d)
    (hc : c.hasLexicalStep = true) : d.hasLexicalStep = true := by
  obtain ⟨p, hp, hlexical⟩ := List.any_eq_true.mp hc
  have hd := h.steps _ ((containsStep_iff _ _).mpr (List.mem_map_of_mem hp))
  obtain ⟨q, hq, hmaking⟩ := List.mem_map.mp ((containsStep_iff _ _).mp hd)
  refine List.any_eq_true.mpr ⟨q, hq, ?_⟩
  rwa [Step.isLexical, Step.entry?, hmaking]

theorem countP_above_le {α : Type} {above : α → α → Bool} {xs : List α} {n : Nat} {t : α}
    (hs : xs.Pairwise fun x y => above x y = false) (ht : xs[n]? = some t)
    (hself : above t t = false) : xs.countP (above t) ≤ n := by
  have hdrop : xs.drop n = t :: xs.drop (n + 1) := by
    obtain ⟨hlt, rfl⟩ := List.getElem?_eq_some_iff.mp ht
    exact List.drop_eq_getElem_cons hlt
  have hrest : (xs.drop n).countP (above t) = 0 := by
    have hsorted := hs.sublist (List.drop_sublist n xs)
    rw [hdrop, List.pairwise_cons] at hsorted
    rw [hdrop, List.countP_eq_zero]
    rintro x (_ | ⟨_, hx⟩)
    · simp [hself]
    · simp [hsorted.1 x hx]
  calc
    xs.countP (above t) = (xs.take n ++ xs.drop n).countP (above t) := by
      rw [List.take_append_drop]
    _ = (xs.take n).countP (above t) := by rw [List.countP_append, hrest, Nat.add_zero]
    _ ≤ n := List.countP_le_length.trans (List.length_take_le n xs)

namespace PruneKey

variable [Scalar S] [Std.TransCmp (cmp : PruneKey S → PruneKey S → Ordering)]

theorem countP_blt_le {keys : List (PruneKey S)} {capacity : Nat} {t : PruneKey S}
    (ht : (keys.mergeSort fun x y => y.ble x)[capacity]? = some t) :
    keys.countP t.blt ≤ capacity := by
  have hsorted : (keys.mergeSort fun x y => y.ble x).Pairwise fun x y => y.ble x = true :=
    List.pairwise_mergeSort (fun a b c hab hbc => ble_trans c b a hbc hab)
      (fun a b => ble_total b a) keys
  rw [← (List.mergeSort_perm keys fun x y => y.ble x).countP_eq]
  refine countP_above_le (hsorted.imp fun hle => ?_) ht ?_
  · rw [blt_eq_not_ble, hle, Bool.not_true]
  · have hself := ble_total t t
    rw [Bool.or_self] at hself
    rw [blt_eq_not_ble, hself, Bool.not_true]

end PruneKey

instance : Std.TransCmp (Scalar.cmp : Binary64 → Binary64 → Ordering) :=
  inferInstanceAs (Std.TransCmp (compareOn Binary64.rank))

namespace Beam

section Slots

variable {b : Beam S} {key : Nat} {held : Held S}

theorem slot_insert (h : b.slots.get? key = some held) (cell : Cell S) (unbounded : Bool) :
    (b.insert cell unbounded).1.slots.get? key = some held := by
  have hne : key ≠ b.slots.nextKey := by
    rintro rfl
    simp at h
  exact (Slots.get?_insert ..).trans ((if_neg hne).trans h)

theorem slot_insert_self (b : Beam S) (cell : Cell S) (unbounded : Bool) :
    (b.insert cell unbounded).1.slots.get? b.slots.nextKey =
      some ⟨cell, b.nextSeq + 1, unbounded⟩ :=
  (Slots.get?_insert ..).trans (if_pos rfl)

theorem slot_takeBack (h : b.slots.get? key = some held) (cells : List (Cell S)) :
    (b.takeBack cells).slots.get? key = some held := by
  induction cells generalizing b with
  | nil => exact h
  | cons cell cells ih => exact ih (slot_insert h cell false)

theorem slot_evict {losers : List (Nat × Held S)} (h : b.slots.get? key = some held)
    (hne : ∀ x ∈ losers, x.1 ≠ key) : (b.evict losers).slots.get? key = some held := by
  induction losers generalizing b with
  | nil => exact h
  | cons x losers ih =>
    refine ih ?_ fun y hy => hne y (.tail _ hy)
    rw [slots_turnAway]
    unfold remove
    split
    · exact (Slots.get?_erase ..).trans ((if_neg (hne x (.head _)).symm).trans h)
    · exact h

theorem slot_rebalance [Scalar S] (h : b.slots.get? key = some held)
    (hunbounded : held.unbounded = true) : b.rebalance.slots.get? key = some held := by
  have hne : ∀ {p : Nat × Held S → Bool}, ∀ x ∈ b.bounded.filter p, x.1 ≠ key := by
    rintro p ⟨k, held'⟩ hx rfl
    obtain ⟨hmem, hbounded⟩ := List.mem_filter.mp (List.mem_filter.mp hx).1
    obtain rfl := Option.some.inj (h.symm.trans ((Slots.mem_toList_iff ..).mp hmem))
    simp [hunbounded] at hbounded
  have hevict : ∀ threshold {p}, ((b.withThreshold threshold).evict (b.bounded.filter p)).slots.get?
      key = some held := fun threshold => slot_evict (b := b.withThreshold threshold) h hne
  unfold rebalance
  dsimp only
  split
  · refine slot_takeBack ?_ _
    exact h
  · refine slot_takeBack ?_ _
    exact hevict _

end Slots

/-- A consistent beam whose bounded cells are within its capacity. -/
structure Sound [Scalar S] (b : Beam S) (capacity : Nat) (order : PruneOrder)
    (separateLexical : Bool) : Prop extends b.Consistent capacity order separateLexical where
  numBounded_le : b.numBounded ≤ capacity

/-- What an answer says about the cell on offer. -/
def Grants (b : Beam S) (cell : Cell S) : Admission → Prop
  | .inserted key | .merged key _ =>
    ∃ c, b.find? cell.category = some (key, c) ∧ cell.Within c
  | .rejected => b.find? cell.category = none

theorem Grants.of_within {b : Beam S} {cell m : Cell S} {admission : Admission}
    (h : b.Grants m admission) (hcell : cell.Within m) : b.Grants cell admission := by
  cases admission with
  | inserted key =>
    obtain ⟨c, hc, hm⟩ := h
    exact ⟨c, hcell.category ▸ hc, hcell.trans hm⟩
  | merged key changed =>
    obtain ⟨c, hc, hm⟩ := h
    exact ⟨c, hcell.category ▸ hc, hcell.trans hm⟩
  | rejected => exact (hcell.category ▸ h : b.find? cell.category = none)

theorem grants_inserted {b : Beam S} {cell m : Cell S} {key : Nat} {held : Held S} (hb : b.Indexed)
    (hk : b.slots.get? key = some held) (heq : held.cell = m) (hcell : cell.Within m) :
    b.Grants cell (.inserted key) := by
  subst heq
  have hcell? : b.cell? key = some held.cell := Option.map_eq_some_iff.mpr ⟨held, hk, rfl⟩
  refine ⟨held.cell, ?_, hcell⟩
  rw [← hcell.category, hb.find?_eq hcell?]

section Evictions

variable [Scalar S] {b b' : Beam S} {capacity : Nat} {separateLexical : Bool} {cell : Cell S}
  {key : Nat} {held : Held S}

theorem lowest?_mem {keys : List (PruneKey S)} {low : PruneKey S} (h : lowest? keys = some low) :
    low ∈ keys := by
  cases keys with
  | nil => simp [lowest?] at h
  | cons key rest =>
    rw [← Option.some.inj h]
    exact foldl_better_mem _ key rest

theorem evictMinimumTies_cases (b : Beam S) :
    b.bounded = [] ∧ b.evictMinimumTies = (b, []) ∨ ∃ low ∈ b.bounded, ∃ t,
      let losers := b.bounded.filter (·.2.cell.pruneKey.beq low.2.cell.pruneKey)
      b.evictMinimumTies = ((b.evict losers).withThreshold (some t), losers.map (·.1)) := by
  unfold evictMinimumTies
  split
  next hnone =>
    refine .inl ⟨?_, rfl⟩
    cases hbounded : b.bounded with
    | nil => rfl
    | cons x rest => simp [hbounded, lowest?] at hnone
  next low hlow =>
    obtain ⟨x, hx, rfl⟩ := List.mem_map.mp (lowest?_mem hlow)
    exact .inr ⟨x, hx, _, rfl⟩

omit [Scalar S] in
theorem Evicted.category_ne {losers : List (Nat × Held S)} (hev : b.Evicted losers b')
    (hb : b.Indexed) (hmem : (key, held) ∈ losers) :
    ∀ e ∈ b'.entries, e.1.category ≠ held.cell.category := by
  have hnodup := hb.nodup_categories
  rw [entries, List.map_map, (hev.slots.map _).nodup_iff, List.map_append, List.nodup_append]
    at hnodup
  intro e he hcat
  obtain ⟨x, hx, rfl⟩ := List.mem_map.mp he
  exact hnodup.2.2 _ (List.mem_map_of_mem hmem) _ (List.mem_map_of_mem hx) hcat.symm

theorem Consistent.grants_evictMinimumTies
    (hb : b.Consistent capacity .orderInvariant separateLexical)
    (hk : b.slots.get? key = some held) :
    b.evictMinimumTies.1.Grants held.cell
      (if b.evictMinimumTies.2.contains key then .rejected else .inserted key) := by
  rcases b.evictMinimumTies_cases with ⟨_, heq⟩ | ⟨low, _, t, heq⟩
  · rw [heq]
    exact grants_inserted hb.indexed hk rfl (.refl _)
  · have hs := sifted_evict hb.indexed hb.order_eq fun c => c.pruneKey.beq low.2.cell.pruneKey
    have hslots : ∀ x ∈ b.bounded.filter (·.2.cell.pruneKey.beq low.2.cell.pruneKey),
        b.slots.get? x.1 = some x.2 := fun x hx =>
      (Slots.mem_toList_iff ..).mp (List.mem_filter.mp (List.mem_filter.mp hx).1).1
    rw [heq]
    dsimp only
    split_ifs with hmem
    · obtain ⟨⟨k, gone⟩, hgone, rfl⟩ := List.mem_map.mp (List.contains_iff_mem.mp hmem)
      obtain rfl := Option.some.inj (hk.symm.trans (hslots _ hgone))
      have hsub : (b.bounded.filter (·.2.cell.pruneKey.beq low.2.cell.pruneKey)).Sublist
          b.slots.toList := List.filter_sublist.trans List.filter_sublist
      have hev := evicted_evict hb.indexed hb.order_eq hslots
        (b.slots.nodup_keys_toList.sublist (hsub.map _))
      exact (hs.indexed.withThreshold (some t)).find?_eq_none (hev.category_ne hb.indexed hgone)
    · have hstays := slot_evict hk fun x hx hkey =>
        hmem (List.contains_iff_mem.mpr (List.mem_map.mpr ⟨x, hx, hkey⟩))
      exact grants_inserted (hs.indexed.withThreshold (some t)) hstays rfl (.refl _)

variable [Std.TransCmp (PruneKey.cmp : PruneKey S → PruneKey S → Ordering)]

theorem Consistent.evictMinimumTies (hb : b.Consistent capacity .orderInvariant separateLexical)
    (hnum : b.numBounded ≤ capacity + 1) (hne : b.bounded ≠ []) :
    b.evictMinimumTies.1.Sound capacity .orderInvariant separateLexical := by
  rcases b.evictMinimumTies_cases with ⟨hnil, _⟩ | ⟨low, hlow, t, heq⟩
  · exact absurd hnil hne
  · have hs := sifted_evict hb.indexed hb.order_eq fun c => c.pruneKey.beq low.2.cell.pruneKey
    rw [heq]
    refine ⟨(hb.sifted hs).withThreshold (some t), ?_⟩
    show (b.evict _).numBounded ≤ capacity
    have hgone : low.2.cell ∈ b.competing := by
      rw [← bounded_cells_eq]
      exact List.mem_map_of_mem hlow
    have hfewer : (b.competing.filter fun c =>
        !c.pruneKey.beq low.2.cell.pruneKey).length < b.competing.length :=
      List.length_filter_lt_length_iff_exists.mpr
        ⟨_, hgone, by simp [PruneKey.beq_refl]⟩
    rw [hs.indexed.numBounded_eq, hs.competing_perm.length_eq]
    rw [hb.indexed.numBounded_eq] at hnum
    omega

theorem Sifted.length_le {t : PruneKey S} (ht : b.ranking[capacity]? = some t)
    (hs : b.Sifted (fun c => c.pruneKey.ble t) b') :
    ((b'.setAside.filter fun c => t.blt c.pruneKey) ++ b'.competing).length ≤ capacity := by
  have habove := PruneKey.countP_blt_le ht
  rw [bounded_keys_eq, List.countP_append, List.countP_map, List.countP_map] at habove
  have hstay : b'.competing.length = b.competing.countP (t.blt ∘ Cell.pruneKey) := by
    rw [hs.competing_perm.length_eq, ← List.countP_eq_length_filter]
    exact List.countP_congr fun c _ => by simp [PruneKey.blt_eq_not_ble]
  have hgone : (b.competing.filter fun c => c.pruneKey.ble t).countP
      (fun c => t.blt c.pruneKey) = 0 := by
    rw [List.countP_eq_zero]
    intro c hc
    simpa [PruneKey.blt_eq_not_ble] using (List.mem_filter.mp hc).2
  have haside : (b'.setAside.filter fun c => t.blt c.pruneKey).length =
      b.setAside.countP (t.blt ∘ Cell.pruneKey) := by
    rw [← List.countP_eq_length_filter, hs.setAside.countP_eq, List.countP_append, hgone,
      Nat.zero_add]
    rfl
  rw [List.length_append, hstay, haside]
  omega

/-- Building the bounded part again leaves no more cells than the capacity. -/
theorem Consistent.rebalance (hb : b.Consistent capacity .orderInvariant separateLexical) :
    b.rebalance.Sound capacity .orderInvariant separateLexical := by
  rcases rebalance_cases hb.indexed hb.apart hb.order_eq with
    ⟨hnone, hback⟩ | ⟨t, mid, ht, hs, hback⟩
  · refine ⟨(hb.withThreshold none).takenBack (by rw [List.append_nil]; rfl) hback, ?_⟩
    rw [hback.indexed.numBounded_eq, hback.competing_perm.length_eq, List.length_append]
    rw [ranking, List.getElem?_eq_none_iff, List.length_mergeSort, bounded_keys_eq,
      List.length_append, List.length_map, List.length_map, hb.capacity_eq] at hnone
    exact (Nat.add_comm ..).le.trans hnone
  · have hmid := (hb.withThreshold (some t)).sifted hs
    refine ⟨hmid.takenBack (List.filter_append_perm _ _).symm hback, ?_⟩
    rw [hback.indexed.numBounded_eq, hback.competing_perm.length_eq]
    rw [hb.capacity_eq] at ht
    exact Sifted.length_le (b := b.withThreshold (some t)) ht hs

end Evictions

section Offers

variable [Scalar S] [Std.TransCmp (PruneKey.cmp : PruneKey S → PruneKey S → Ordering)]
  {b b' : Beam S} {capacity : Nat} {order : PruneOrder} {separateLexical : Bool} {cell : Cell S}
  {admission : Admission} {key : Nat} {held : Held S}

theorem Sound.accept (hb : b.Sound capacity order separateLexical)
    (hfresh : ∀ c ∈ b.stock, c.category ≠ cell.category)
    (h : b.accept cell = (b', admission)) :
    b'.Sound capacity order separateLexical ∧ b'.Grants cell admission := by
  have hfresh' : ∀ e ∈ b.entries, e.1.category ≠ cell.category := fun e he =>
    hfresh _ (List.mem_append_left _ (List.mem_map_of_mem he))
  have hinsert := hb.insert hfresh
  have haccepts := b.accepts cell
  rw [h] at haccepts
  have hcap := hb.capacity_eq
  have hle := hb.numBounded_le
  have hbounded : (b.separateLexical && cell.hasLexicalStep) = false →
      (separateLexical && cell.hasLexicalStep) = false := by
    rw [hb.separateLexical_eq]
    exact id
  cases haccepts with
  | sheltered hlex =>
    rw [hb.separateLexical_eq] at hlex
    rw [hlex] at hinsert
    exact ⟨⟨hinsert, hle⟩,
      grants_inserted hinsert.indexed (b.slot_insert_self cell true) rfl (.refl cell)⟩
  | below hlex hbelow =>
    cases order with
    | orderInvariant =>
      have haway := hb.toConsistent.turnAway hfresh (hbounded hlex)
      refine ⟨⟨haway, ?_⟩, haway.indexed.find?_eq_none ?_⟩
      · rw [turnAway_eq hb.order_eq]
        exact hle
      · rw [turnAway_eq hb.order_eq]
        exact hfresh'
    | insertionOrder => simp [(hb.in_turn rfl).2] at hbelow
  | roomy hcompetes hroom =>
    rw [hbounded hcompetes.bounded] at hinsert
    refine ⟨⟨hinsert, ?_⟩,
      grants_inserted hinsert.indexed (b.slot_insert_self cell false) rfl (.refl cell)⟩
    show b.numBounded + 1 ≤ capacity
    omega
  | crowded hcompetes _ ho =>
    obtain rfl := hb.order_eq.symm.trans ho
    rw [hbounded hcompetes.bounded] at hinsert
    have hslot := b.slot_insert_self cell false
    have hne : (b.insert cell false).1.bounded ≠ [] :=
      List.ne_nil_of_mem (List.mem_filter.mpr ⟨(Slots.mem_toList_iff ..).mpr hslot, rfl⟩)
    refine ⟨hinsert.evictMinimumTies ?_ hne, hinsert.grants_evictMinimumTies hslot⟩
    show b.numBounded + 1 ≤ capacity + 1
    omega
  | @replacing low held hcompetes _ _ hlow _ =>
    obtain ⟨hmem, hu⟩ := List.mem_filter.mp (mem_bounded_of_latestMinimum? hlow)
    have hk := (Slots.mem_toList_iff ..).mp hmem
    have hremove := (hb.toConsistent.remove hk).withFlags true (b.remove low).externallyPruned
    have hinsert := hremove.insert fun c hc => hfresh c (mem_stock_of_remove hc)
    rw [hbounded hcompetes.bounded] at hinsert
    refine ⟨⟨hinsert, ?_⟩,
      grants_inserted hinsert.indexed (slot_insert_self _ cell false) rfl (.refl cell)⟩
    have hnum : b.numBounded = (b.remove low).numBounded + 1 := by
      rw [hb.indexed.numBounded_eq, (competing_remove_perm hk).length_eq,
        (hb.indexed.remove hk).numBounded_eq, if_neg (by simpa using hu)]
      rfl
    exact hnum.ge.trans hle
  | full _ _ _ _ =>
    exact ⟨⟨hb.withFlags true b.externallyPruned, hle⟩, hb.indexed.find?_eq_none hfresh'⟩

omit [Std.TransCmp (PruneKey.cmp : PruneKey S → PruneKey S → Ordering)] in
theorem Consistent.merged (hb : b.Consistent capacity order separateLexical) {m : Cell S}
    (hk : b.slots.get? key = some held) (hheld : held.cell.Within m) (changed : Bool) :
    (b.merged key held m changed).Consistent capacity order separateLexical := by
  have hreplace := hb.replace hk hheld.category hheld.hasLexicalStep
    (if changed && b.order = .insertionOrder then b.nextSeq + 1 else held.seq)
  rw [← hb.separateLexical_eq] at hreplace ⊢
  exact ⟨hreplace.capacity_eq, hreplace.order_eq, hreplace.separateLexical_eq,
    ⟨hreplace.indexed.index_iff, hreplace.indexed.numBounded_eq⟩, hreplace.apart,
    hreplace.unbounded_iff, hreplace.aside_bounded, hreplace.in_turn⟩

theorem Sound.mergeHeld (hb : b.Sound capacity order separateLexical)
    (hk : b.slots.get? key = some held) (h : b.mergeHeld key held cell = .ok (b', admission)) :
    b'.Sound capacity order separateLexical ∧ b'.Grants cell admission := by
  obtain ⟨m, changed, hmerge, hb', rfl⟩ := mergeHeld_eq_ok h
  obtain ⟨hheld, hcell⟩ := Cell.within_of_merge hmerge
  have hmerged := hb.toConsistent.merged hk hheld changed
  obtain ⟨x, hx, hxcell, hxu⟩ : ∃ x, (b.merged key held m changed).slots.get? key = some x ∧
      x.cell = m ∧ x.unbounded = (held.unbounded ||
        (b.separateLexical && !held.unbounded && m.hasLexicalStep)) := by
    unfold Beam.merged
    dsimp only [replace]
    rw [Slots.get?_modify, if_pos rfl, hk]
    exact ⟨_, rfl, rfl, rfl⟩
  subst hb'
  split_ifs with hlexical
  · obtain ⟨hlexical, ho⟩ := Bool.and_eq_true_iff.mp hlexical
    obtain rfl := hb.order_eq.symm.trans (of_decide_eq_true ho)
    have hrebalance := hmerged.rebalance
    have hstays := slot_rebalance hx (by rw [hxu, hlexical, Bool.or_true])
    exact ⟨hrebalance, grants_inserted hrebalance.indexed hstays hxcell hcell⟩
  · refine ⟨⟨hmerged, ?_⟩, grants_inserted hmerged.indexed hx hxcell hcell⟩
    show (if _ then b.numBounded - 1 else b.numBounded) ≤ capacity
    split_ifs
    · exact (Nat.sub_le ..).trans hb.numBounded_le
    · exact hb.numBounded_le

theorem Sound.reconsider (hb : b.Sound capacity order separateLexical) {previous : Cell S}
    (hprevious : previous ∈ b.setAside) (hcat : previous.category = cell.category)
    (h : b.reconsider previous cell = .ok (b', admission)) :
    b'.Sound capacity order separateLexical ∧ b'.Grants cell admission := by
  obtain ⟨m, changed, b₁, hmerge, haccept, rfl⟩ := reconsider_eq_ok h
  obtain ⟨hold, hcell⟩ := Cell.within_of_merge hmerge
  cases order with
  | insertionOrder => simp [(hb.in_turn rfl).1] at hprevious
  | orderInvariant =>
    set rest := b.setAside.filter (·.category != cell.category)
    have hsub : rest.Sublist b.setAside := List.filter_sublist
    have hrest : (b.withAside rest).Sound capacity .orderInvariant separateLexical :=
      ⟨hb.forget hsub, hb.numBounded_le⟩
    have hfresh : ∀ c ∈ (b.withAside rest).stock, c.category ≠ m.category := by
      rw [hcell.category]
      intro c hc hceq
      rcases List.mem_append.mp hc with hc | hc
      · have hnodup := hb.apart
        rw [stock, List.map_append, List.nodup_append] at hnodup
        exact hnodup.2.2 _ (List.mem_map_of_mem hc) _ (List.mem_map_of_mem hprevious)
          (hceq.trans hcat.symm)
      · simpa [hceq] using (List.mem_filter.mp hc).2
    obtain ⟨hsound, hgrants⟩ := hrest.accept hfresh haccept
    split_ifs with hlexical
    · have hrebalance := hsound.toConsistent.rebalance
      have hlex : ((b.withAside rest).separateLexical && m.hasLexicalStep) = true := by
        rw [hsound.separateLexical_eq] at hlexical
        rwa [hrest.separateLexical_eq]
      rw [accept_of_lexical hlex] at haccept
      obtain ⟨rfl, rfl⟩ := Prod.mk.inj haccept
      have hstays := slot_rebalance (slot_insert_self (b.withAside rest) m true) rfl
      exact ⟨hrebalance, grants_inserted hrebalance.indexed hstays rfl hcell⟩
    · exact ⟨hsound, hgrants.of_within hcell⟩

/-- An offer keeps a beam sound, and its answer is true. -/
theorem Sound.offer (hb : b.Sound capacity order separateLexical)
    (h : b.offer cell = .ok (b', admission)) :
    b'.Sound capacity order separateLexical ∧ b'.Grants cell admission := by
  cases hb.indexed.meets cell with
  | held hk _ hoffer => exact hb.mergeHeld hk (hoffer.symm.trans h)
  | aside hprevious hcat hoffer => exact hb.reconsider hprevious hcat (hoffer.symm.trans h)
  | fresh hfresh hoffer => exact hb.accept hfresh (Except.ok.inj (hoffer.symm.trans h))

end Offers

section Arrivals

variable [Scalar S] {b b' : Beam S} {capacity : Nat} {separateLexical : Bool} {cell : Cell S}
  {admission : Admission}

/-- Where ties break by arrival, a beam that has not rejected anything has taken in all steps. -/
theorem Consistent.absorbs (hb : b.Consistent capacity .insertionOrder separateLexical)
    (h : b.offer cell = .ok (b', admission)) (hrejected : b'.rejected = false) :
    b.rejected = false ∧ b.Absorbs [cell] b' := by
  obtain ⟨hnil, hnone⟩ := hb.in_turn rfl
  have hcalm : b.Calm := ⟨hb.indexed, hnil⟩
  cases hcalm.responds h with
  | held hk _ hmerge hb' =>
    subst hb'
    obtain ⟨hheld, hcell⟩ := Cell.within_of_merge hmerge
    have hinv : decide (b.order = .orderInvariant) = false := by simp [hb.order_eq]
    rw [hinv, Bool.and_false, if_neg Bool.false_ne_true] at hrejected ⊢
    exact ⟨hrejected, (hcalm.merged hk hheld hcell).2.1⟩
  | fresh hfresh haccept =>
    have haccepts := b.accepts cell
    rw [haccept] at haccepts
    cases haccepts with
    | sheltered _ => exact ⟨hrejected, (hcalm.insert hfresh true).2⟩
    | below _ hbelow => simp [hnone] at hbelow
    | roomy _ _ => exact ⟨hrejected, (hcalm.insert hfresh false).2⟩
    | crowded _ _ ho => exact absurd (hb.order_eq.symm.trans ho) nofun
    | replacing _ _ _ _ _ => exact absurd hrejected nofun
    | full _ _ _ _ => exact absurd hrejected nofun

end Arrivals

section History

variable [Scalar S]

/-- A new beam after offers of cells of one span, with these cells, the last one first. In between
the beam may be marked and closed, and whenever a cell is offered the cells set aside may come in
another order. -/
inductive History (capacity : Nat) (order : PruneOrder) (separateLexical : Bool) (span : Span) :
    List (Cell S) → Beam S → Prop
  | new {b : Beam S} : Beam.new capacity order separateLexical = .ok b →
      History capacity order separateLexical span [] b
  | offer {b b' : Beam S} {offered aside : List (Cell S)} {cell : Cell S} {admission : Admission} :
      History capacity order separateLexical span offered b → b.setAside.Perm aside →
      cell.span = span → (b.withAside aside).offer cell = .ok (b', admission) →
      History capacity order separateLexical span (cell :: offered) b'
  | markPruned {b : Beam S} {offered : List (Cell S)} :
      History capacity order separateLexical span offered b →
      History capacity order separateLexical span offered b.markPruned
  | close {b : Beam S} {offered : List (Cell S)} :
      History capacity order separateLexical span offered b →
      History capacity order separateLexical span offered b.close

variable {b : Beam S} {capacity : Nat} {order : PruneOrder} {separateLexical : Bool} {span : Span}
  {offered : List (Cell S)}

omit [Scalar S] in
theorem new_eq_ok (h : Beam.new capacity order separateLexical = .ok b) :
    b = empty capacity order separateLexical := by
  unfold Beam.new at h
  split_ifs at h
  exact (Except.ok.inj h).symm

namespace History

theorem spans (h : History capacity order separateLexical span offered b) :
    ∀ c ∈ b.stock, c.span = span := by
  induction h with
  | new hnew =>
    obtain rfl := new_eq_ok hnew
    simp
  | @offer b b' offered aside cell admission _ hperm hspan hoffer ih =>
    have haside : ∀ c ∈ (b.withAside aside).stock, c.span = span := fun c hc =>
      ih c ((hperm.append_left _).mem_iff.mpr hc)
    exact forall_stock_of_offer (fun _ _ _ hc _ hm => hm.span.trans hc) haside hspan hoffer
  | markPruned _ ih => exact ih
  | close _ ih =>
    intro c hc
    rcases List.mem_append.mp hc with hc | hc
    · exact ih c (List.mem_append_left _ hc)
    · simp [Beam.close] at hc

variable [Std.TransCmp (PruneKey.cmp : PruneKey S → PruneKey S → Ordering)]

theorem sound (h : History capacity order separateLexical span offered b) :
    b.Sound capacity order separateLexical := by
  induction h with
  | new hnew =>
    obtain rfl := new_eq_ok hnew
    exact ⟨consistent_empty .., Nat.zero_le _⟩
  | offer _ hperm _ hoffer ih =>
    exact (Sound.offer ⟨ih.reordered hperm, ih.numBounded_le⟩ hoffer).1
  | @markPruned b _ _ ih => exact ⟨ih.withFlags b.rejected true, ih.numBounded_le⟩
  | @close b _ _ ih =>
    have hforget := ih.forget (List.nil_sublist _)
    exact ⟨hforget.withFlags (b.rejected || !b.setAside.isEmpty) b.externallyPruned,
      ih.numBounded_le⟩

theorem absorbed (h : History capacity .insertionOrder separateLexical span offered b)
    (hrejected : b.rejected = false) : ∀ c ∈ offered, ∃ x ∈ b.cells, c.Within x.2 := by
  induction h with
  | new _ => simp
  | @offer b b' offered aside cell _ h hperm _ hoffer ih =>
    have hb : (b.withAside aside).Consistent capacity .insertionOrder separateLexical :=
      h.sound.reordered hperm
    obtain ⟨hrejected, habsorbs⟩ := hb.absorbs hoffer hrejected
    have hheld : ∀ c, c ∈ cell :: b.cells.map (·.2) → ∃ x ∈ b'.cells, c.Within x.2 := by
      intro c hc
      obtain ⟨d, hd, hwithin⟩ := habsorbs c hc
      obtain ⟨x, hx, rfl⟩ := List.mem_map.mp hd
      exact ⟨x, hx, hwithin⟩
    rintro c (_ | ⟨_, hc⟩)
    · exact hheld cell (.head _)
    · obtain ⟨x, hx, hwithin⟩ := ih hrejected c hc
      obtain ⟨y, hy, hwithin'⟩ := hheld x.2 (.tail _ (List.mem_map_of_mem hx))
      exact ⟨y, hy, hwithin.trans hwithin'⟩
  | markPruned _ ih => exact ih hrejected
  | close _ ih => exact ih (Bool.or_eq_false_iff.mp hrejected).1

end History

variable [Std.TransCmp (PruneKey.cmp : PruneKey S → PruneKey S → Ordering)]

/-- Whatever has happened to a beam, its parts are in step and its bounded cells are within the
capacity. It answers each further offer of a cell of its span, and the answer is true. And where
ties break by arrival, it holds all steps that it was offered unless it is marked as pruned. -/
theorem admissions_of_history (h : History capacity order separateLexical span offered b) :
    b.Sound capacity order separateLexical ∧
      (∀ aside cell, b.setAside.Perm aside → cell.span = span → ∃ b' admission,
        (b.withAside aside).offer cell = .ok (b', admission) ∧ b'.Grants cell admission) ∧
      (order = .insertionOrder → b.isPruned = false →
        ∀ cell ∈ offered, ∃ x ∈ b.cells, cell.Within x.2) := by
  have hsound := h.sound
  refine ⟨hsound, fun aside cell hperm hspan => ?_, ?_⟩
  · have haside : (b.withAside aside).Sound capacity order separateLexical :=
      ⟨hsound.reordered hperm, hsound.numBounded_le⟩
    have hreceptive : (b.withAside aside).Receptive span :=
      ⟨fun category key hkey => (haside.indexed.index_iff category key).mp hkey,
        fun c hc => h.spans c ((hperm.append_left _).mem_iff.mpr hc)⟩
    obtain ⟨⟨b', admission⟩, hoffer⟩ := hreceptive.exists_offer hspan
    exact ⟨b', admission, hoffer, (haside.offer hoffer).2⟩
  · rintro rfl hpruned
    rw [isPruned, Bool.or_eq_false_iff, Bool.or_eq_false_iff] at hpruned
    exact h.absorbed hpruned.1.1

end History

def sighting (span : Span) (name : String) (score : Float) : Cell Binary64 :=
  .new ⟨⟨.entry ⟨["walk"], ⟨.atom name, some (.const "walk")⟩, "main"⟩, .lexical, span,
    ⟨.atom name, some (.const "walk")⟩, none⟩, true, .empty, .number score⟩ .leaf

theorem admissions_of_history_sightings :
    ∃ (span : Span) (b b' : Beam Binary64) (admission : Admission),
      History 1 .insertionOrder false span [sighting span "N" 1] b ∧ b.isPruned = false ∧
        b.Sound 1 .insertionOrder false ∧ (∃ x ∈ b.cells, (sighting span "N" 1).Within x.2) ∧
        b.offer (sighting span "V" 2) = .ok (b', admission) ∧
        b'.Grants (sighting span "V" 2) admission := by
  let span : Span := ⟨0, 0, 1, le_rfl, one_pos⟩
  have hnew : History 1 .insertionOrder false span []
      (empty 1 .insertionOrder false : Beam Binary64) := .new rfl
  have hoffer : (empty 1 .insertionOrder false).offer (sighting span "N" 1) =
      .ok (((empty 1 .insertionOrder false).insert (sighting span "N" 1) false).1,
        .inserted 0) := by
    simp [offer, accept, empty]
    rfl
  have h := History.offer hnew (.refl _) rfl hoffer
  obtain ⟨hsound, hoffers, habsorbed⟩ := admissions_of_history h
  obtain ⟨b', admission, hoffer', hgrants⟩ := hoffers _ (sighting span "V" 2) (.refl _) rfl
  exact ⟨span, _, b', admission, h, rfl, hsound, habsorbed rfl rfl _ (.head _), hoffer', hgrants⟩

end Beam

end Categorial
