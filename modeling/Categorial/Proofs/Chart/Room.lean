import Categorial.Proofs.Chart.Sparing

/-! # Beams with room for everything

A beam with room for each category that it may be offered never turns a cell away, in either order
of pruning.
-/

namespace Categorial

variable {S : Type}

namespace Beam

/-- All categories come from a list that the beam has room for, and so far it has turned no cell
away. -/
structure Roomy (K : List Category) (b : Beam S) : Prop where
  calm : b.Calm
  threshold : b.threshold = none
  categories : ∀ c ∈ b.cells.map (·.2), c.category ∈ K
  room : K.length ≤ b.capacity

variable {K : List Category} {b b' : Beam S} {cell : Cell S} {cells : List (Cell S)}
  {admission : Admission}

theorem Absorbs.spares (h : b.Absorbs [cell] b') : b.Spares cell b' := by
  intro c hc
  obtain ⟨d, hd, hwithin⟩ := h c (by simpa using hc)
  exact ⟨d, hd, hwithin.category⟩

theorem roomy_empty {capacity : Nat} (h : K.length ≤ capacity) (order : PruneOrder)
    (separateLexical : Bool) : (empty capacity order separateLexical : Beam S).Roomy K where
  calm := calm_empty capacity order separateLexical
  threshold := rfl
  categories c hc := by simp [kept_eq, entries, empty, Slots.toList, Slots.empty] at hc
  room := h

namespace Roomy

theorem markPruned_if (h : b.Roomy K) (pruned : Bool) :
    (if pruned then b.markPruned else b).Roomy K := by
  split
  · exact ⟨⟨⟨h.calm.indexed.index_iff, h.calm.indexed.numBounded_eq⟩, h.calm.setAside⟩, h.threshold,
      h.categories, h.room⟩
  · exact h

theorem numBounded_le (h : b.Roomy K) : b.numBounded ≤ K.length := by
  have hsub : b.entries.map (·.1.category) ⊆ K := by
    intro category hcategory
    obtain ⟨e, he, rfl⟩ := List.mem_map.mp hcategory
    exact h.categories e.1 (kept_eq b ▸ List.mem_map_of_mem he)
  have hle := (h.calm.indexed.nodup_categories.subperm hsub).length_le
  rw [List.length_map] at hle
  rw [h.calm.indexed.numBounded_eq, competing, List.length_map]
  exact (List.length_filter_le _ _).trans hle

theorem insert (h : b.Roomy K) (hcell : cell.category ∈ K)
    (hfresh : ∀ e ∈ b.entries, e.1.category ≠ cell.category) (unbounded : Bool) :
    (b.insert cell unbounded).1.Roomy K where
  calm := (h.calm.insert hfresh unbounded).1
  threshold := h.threshold
  categories c hc := by
    rcases mem_kept_insert.mp hc with rfl | hc
    · exact hcell
    · exact h.categories c hc
  room := h.room

variable [Scalar S]

theorem rebalance_eq (h : b.Roomy K) : b.rebalance = b := by
  have hnone : ((b.bounded.map (·.2.cell.pruneKey) ++ b.setAside.map Cell.pruneKey).mergeSort
      fun x y => y.ble x)[b.capacity]? = none := by
    have hlength : b.bounded.length = b.numBounded := by
      rw [h.calm.indexed.numBounded_eq, ← bounded_cells_eq, List.length_map]
    rw [List.getElem?_eq_none_iff, List.length_mergeSort, h.calm.setAside, List.map_nil,
      List.append_nil, List.length_map, hlength]
    exact h.numBounded_le.trans h.room
  unfold rebalance
  dsimp only
  split
  next ht =>
    obtain ⟨⟨_, haside⟩, hthreshold, _, _⟩ := h
    cases b
    simp_all
  next ht => simp [hnone] at ht

theorem accept (h : b.Roomy K) (hcell : cell.category ∈ K)
    (hfresh : ∀ e ∈ b.entries, e.1.category ≠ cell.category) :
    ∃ unbounded, (b.accept cell).1 = (b.insert cell unbounded).1 := by
  have hroom : b.numBounded < b.capacity :=
    (h.insert hcell hfresh false).numBounded_le.trans h.room
  have haccepts := b.accepts cell
  generalize b.accept cell = answer at haccepts ⊢
  cases haccepts with
  | sheltered _ => exact ⟨true, rfl⟩
  | below _ hbelow => simp [h.threshold] at hbelow
  | roomy _ _ => exact ⟨false, rfl⟩
  | crowded _ hfull _ => exact absurd hroom (not_lt.mpr hfull)
  | replacing _ hfull _ _ _ => exact absurd hroom (not_lt.mpr hfull)
  | full _ hfull _ _ => exact absurd hroom (not_lt.mpr hfull)

/-- No offer costs a cell its place. -/
theorem offer (h : b.Roomy K) (hcell : cell.category ∈ K)
    (hoffer : b.offer cell = .ok (b', admission)) :
    b.Spares cell b' ∧ b'.Roomy K := by
  cases h.calm.responds hoffer with
  | @held key held m changed hk _ hmerge hb' =>
    subst hb'
    obtain ⟨hheld, hmerged⟩ := Cell.within_of_merge hmerge
    obtain ⟨hcalm, habsorbs, hcategories⟩ := @Calm.merged _ _ _ h.calm _ _ _ changed hk hheld
      hmerged
    have hroomy : (b.merged key held m changed).Roomy K := by
      refine ⟨hcalm, h.threshold, fun c hc => ?_, h.room⟩
      obtain ⟨d, hd, hcat⟩ := hcategories c hc
      exact hcat ▸ h.categories d hd
    rw [hroomy.rebalance_eq, ite_self]
    exact ⟨habsorbs.spares, hroomy⟩
  | fresh hfresh haccept =>
    obtain ⟨unbounded, heq⟩ := h.accept hcell hfresh
    obtain rfl : (b.insert cell unbounded).1 = b' :=
      heq.symm.trans (congrArg Prod.fst haccept)
    exact ⟨(h.calm.insert hfresh unbounded).2.spares, h.insert hcell hfresh unbounded⟩

theorem sparesAll (h : b.Roomy K) (hcells : ∀ c ∈ cells, c.category ∈ K) : b.SparesAll cells := by
  induction cells generalizing b with
  | nil => trivial
  | cons cell cells ih =>
    intro b' admission hoffer
    obtain ⟨hspares, hroomy⟩ := h.offer (hcells cell (.head _)) hoffer
    exact ⟨hspares, ih hroomy fun c hc => hcells c (.tail _ hc)⟩

theorem takes {first last : Nat} (h : b.Roomy K) (hcells : ∀ c ∈ cells, c.category ∈ K)
    (htakes : b.Takes first last cells b') : b'.Roomy K := by
  induction htakes with
  | nil b => exact h
  | cons hperm _ hoffer _ ih =>
    rw [h.calm.setAside] at hperm
    rw [hperm.symm.eq_nil, ← h.calm.setAside] at hoffer
    exact ih (h.offer (hcells _ (.head _)) hoffer).2 fun c hc => hcells c (.tail _ hc)

end Roomy

end Beam

end Categorial
