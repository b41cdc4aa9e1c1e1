import Categorial.Proofs.Chart.Admissions
import Categorial.Proofs.Chart.Selection
import Categorial.Proofs.Sorting

/-! # Ranking by key and arrival

A beam that breaks ties by arrival sorts nothing. It only looks for the one cell that has to go, in
slots that are used again. Yet what it holds in the end is what a stable sort by falling prune keys
puts first: whoever is turned away has enough others before it, whatever comes later.
-/

namespace Categorial

open Std (OrientedCmp TransCmp TransOrd)

variable {S : Type}

/-- Cells from the greatest prune key down, in the order in which they came where keys are equal. -/
def ranked [Scalar S] (cells : List (Cell S)) : List (Cell S) :=
  cells.mergeSort fun x y => y.pruneKey.ble x.pruneKey

/-- Which of two entries has to go first: the one with the lower key, or else the later one. -/
def Held.leaves [Scalar S] (x y : Held S) : Ordering :=
  (x.cell.pruneKey.cmp y.cell.pruneKey).then (compare y.seq x.seq)

structure Beam.Queued (b : Beam S) (outside line : List (Held S)) : Prop where
  held : (b.slots.toList.map Prod.snd).Perm (outside ++ line)
  unbounded : ∀ x ∈ outside, x.unbounded = true
  bounded : ∀ x ∈ line, x.unbounded = false
  arrival : line.Pairwise fun x y => x.seq < y.seq
  seq_le : ∀ x ∈ line, x.seq ≤ b.nextSeq

namespace Beam.Queued

variable {b : Beam S} {outside line before after : List (Held S)} {key : Nat} {held : Held S}

theorem bounded_perm (h : b.Queued outside line) : (b.bounded.map Prod.snd).Perm line := by
  have hfilter : b.bounded.map Prod.snd =
      (b.slots.toList.map Prod.snd).filter (!·.unbounded) := by
    rw [Beam.bounded, List.filter_map]
    rfl
  have houtside : outside.filter (!·.unbounded) = [] :=
    List.filter_eq_nil_iff.mpr fun x hx => by simp [h.unbounded x hx]
  have hline : line.filter (!·.unbounded) = line :=
    List.filter_eq_self.mpr fun x hx => by simp [h.bounded x hx]
  have hperm := h.held.filter (!·.unbounded)
  rwa [List.filter_append, houtside, hline, List.nil_append, ← hfilter] at hperm

theorem cells_perm (h : b.Queued outside line) :
    (b.cells.map (·.2)).Perm (outside.map (·.cell) ++ line.map (·.cell)) := by
  have hperm := h.held.map (·.cell)
  rw [List.map_append, List.map_map] at hperm
  rw [cells, List.map_map]
  exact hperm

theorem length_eq (h : b.Queued outside line) (hb : b.Indexed) :
    line.length = b.numBounded := by
  rw [hb.numBounded_eq, ← bounded_cells_eq, List.length_map, ← h.bounded_perm.length_eq,
    List.length_map]

theorem insert_outside (h : b.Queued outside line) (cell : Cell S) :
    (b.insert cell true).1.Queued (⟨cell, b.nextSeq + 1, true⟩ :: outside) line where
  held := ((b.slots.toList_insert_perm _).map Prod.snd).trans (h.held.cons _)
  unbounded x hx := by
    rcases List.mem_cons.mp hx with rfl | hx
    · rfl
    · exact h.unbounded x hx
  bounded := h.bounded
  arrival := h.arrival
  seq_le x hx := (h.seq_le x hx).trans (Nat.le_succ _)

theorem insert_last (h : b.Queued outside line) (cell : Cell S) :
    (b.insert cell false).1.Queued outside (line ++ [⟨cell, b.nextSeq + 1, false⟩]) where
  held := by
    have hperm := ((b.slots.toList_insert_perm ⟨cell, b.nextSeq + 1, false⟩).map Prod.snd).trans
      (h.held.cons _)
    rw [← List.append_assoc]
    exact hperm.trans (List.perm_append_singleton ..).symm
  unbounded := h.unbounded
  bounded x hx := by
    rcases List.mem_append.mp hx with hx | hx
    · exact h.bounded x hx
    · obtain rfl := List.mem_singleton.mp hx
      rfl
  arrival := by
    refine List.pairwise_append.mpr ⟨h.arrival, List.pairwise_singleton .., fun x hx y hy => ?_⟩
    obtain rfl := List.mem_singleton.mp hy
    exact Nat.lt_succ_of_le (h.seq_le x hx)
  seq_le x hx := by
    rcases List.mem_append.mp hx with hx | hx
    · exact (h.seq_le x hx).trans (Nat.le_succ _)
    · obtain rfl := List.mem_singleton.mp hx
      exact le_rfl

theorem remove (h : b.Queued outside (before ++ held :: after))
    (hk : b.slots.get? key = some held) : (b.remove key).Queued outside (before ++ after) where
  held := by
    have hslots := (slots_remove_perm hk).map Prod.snd
    have hmiddle : (outside ++ (before ++ held :: after)).Perm
        (held :: (outside ++ (before ++ after))) := by
      rw [← List.append_assoc, ← List.append_assoc]
      exact List.perm_middle
    exact (hslots.symm.trans (h.held.trans hmiddle)).cons_inv
  unbounded := h.unbounded
  bounded x hx := h.bounded x (List.append_subset.mpr ⟨by simp, by simp⟩ hx)
  arrival := h.arrival.sublist ((List.sublist_cons_self ..).append_left before)
  seq_le x hx := by
    have hseq : (b.remove key).nextSeq = b.nextSeq := by rw [remove_eq hk]
    rw [hseq]
    exact h.seq_le x (List.append_subset.mpr ⟨by simp, by simp⟩ hx)

theorem markRejected (h : b.Queued outside line) :
    { b with rejected := true }.Queued outside line :=
  ⟨h.held, h.unbounded, h.bounded, h.arrival, h.seq_le⟩

end Beam.Queued

theorem contenders_of_sheltered {separateLexical : Bool} {cell : Cell S}
    (h : cell.sheltered separateLexical = true) (offered : List (Cell S)) :
    contenders separateLexical (offered ++ [cell]) = contenders separateLexical offered := by
  simp [contenders, h]

theorem contenders_of_bounded {separateLexical : Bool} {cell : Cell S}
    (h : cell.sheltered separateLexical = false) (offered : List (Cell S)) :
    contenders separateLexical (offered ++ [cell]) =
      contenders separateLexical offered ++ [cell] := by
  simp [contenders, h]

theorem length_contenders {separateLexical : Bool} {cell : Cell S}
    (h : cell.sheltered separateLexical = false) (offered : List (Cell S)) :
    (contenders separateLexical (offered ++ [cell])).length =
      (contenders separateLexical offered).length + 1 := by
  simp [contenders_of_bounded h]

section Places

variable [Scalar S]

/-- Where everybody stands after some cells were offered. All that have a place outside the bound
are there, and for the first few places those in line count as much as all who came. -/
structure Standing (capacity : Nat) (separateLexical : Bool)
    (offered outside line : List (Cell S)) : Prop where
  outside_perm : outside.Perm (offered.filter (·.sheltered separateLexical))
  first : ∀ rest, (ranked (line ++ rest)).take capacity =
    (ranked (contenders separateLexical offered ++ rest)).take capacity
  length_eq : line.length = min capacity (contenders separateLexical offered).length

namespace Standing

variable {capacity : Nat} {separateLexical : Bool} {offered outside line : List (Cell S)}
  {cell : Cell S}

theorem nil (capacity : Nat) (separateLexical : Bool) :
    Standing capacity separateLexical ([] : List (Cell S)) [] [] :=
  ⟨.refl _, fun _ => rfl, (Nat.min_zero capacity).symm⟩

theorem shelter (h : Standing capacity separateLexical offered outside line)
    (hcell : cell.sheltered separateLexical = true) :
    Standing capacity separateLexical (offered ++ [cell]) (cell :: outside) line := by
  have hcontenders := contenders_of_sheltered hcell offered
  constructor
  · rw [List.filter_append, List.filter_cons_of_pos hcell, List.filter_nil]
    exact (h.outside_perm.cons cell).trans (List.perm_append_singleton ..).symm
  · rw [hcontenders]
    exact h.first
  · rw [hcontenders]
    exact h.length_eq

theorem contend (h : Standing capacity separateLexical offered outside line)
    (hcell : cell.sheltered separateLexical = false) {line' : List (Cell S)}
    (hfirst : ∀ rest, (ranked (line' ++ rest)).take capacity =
      (ranked (line ++ cell :: rest)).take capacity)
    (hlength : line'.length = min capacity (line.length + 1)) :
    Standing capacity separateLexical (offered ++ [cell]) outside line' := by
  constructor
  · simpa [List.filter_append, hcell] using h.outside_perm
  · intro rest
    rw [hfirst, h.first, contenders_of_bounded hcell, List.append_assoc]
    rfl
  · rw [hlength, h.length_eq, length_contenders hcell]
    omega

theorem join (h : Standing capacity separateLexical offered outside line)
    (hcell : cell.sheltered separateLexical = false) (hroom : line.length < capacity) :
    Standing capacity separateLexical (offered ++ [cell]) outside (line ++ [cell]) := by
  refine h.contend hcell (fun rest => ?_) ?_
  · rw [List.append_assoc]
    rfl
  · rw [List.length_append, List.length_singleton]
    omega

end Standing

theorem Standing.line_perm {capacity : Nat} {separateLexical : Bool}
    {offered outside line : List (Cell S)}
    (h : Standing capacity separateLexical offered outside line) :
    line.Perm ((ranked (contenders separateLexical offered)).take capacity) := by
  have hall : (ranked line).take capacity = ranked line := by
    apply List.take_of_length_le
    rw [ranked, List.length_mergeSort, h.length_eq]
    exact min_le_left ..
  have hfirst := h.first []
  rw [List.append_nil, List.append_nil, hall] at hfirst
  rw [← hfirst]
  exact (List.mergeSort_perm ..).symm

variable [TransCmp (PruneKey.cmp : PruneKey S → PruneKey S → Ordering)]

/-- A cell that has enough others before it has no place among the first few. -/
theorem take_ranked_drop {before after : List (Cell S)} {cell : Cell S} {n : Nat}
    (hbefore : ∀ x ∈ before, cell.pruneKey.ble x.pruneKey = true)
    (hafter : ∀ x ∈ after, cell.pruneKey.blt x.pruneKey = true)
    (hn : n ≤ before.length + after.length) (rest : List (Cell S)) :
    (ranked (before ++ cell :: (after ++ rest))).take n =
      (ranked (before ++ (after ++ rest))).take n := by
  have hfirst : before.countP (fun x => cell.pruneKey.ble x.pruneKey) = before.length :=
    List.countP_eq_length.mpr hbefore
  have hlast : after.countP (fun x => !x.pruneKey.ble cell.pruneKey) = after.length := by
    refine List.countP_eq_length.mpr fun x hx => ?_
    rw [← PruneKey.blt_eq_not_ble]
    exact hafter x hx
  apply take_mergeSort_middle
  · intro a b c hab hbc
    exact PruneKey.ble_trans _ _ _ hbc hab
  · intro a b
    exact PruneKey.ble_total _ _
  · rw [List.countP_append, hfirst, hlast]
    omega

namespace Standing

variable {capacity : Nat} {separateLexical : Bool} {cell other : Cell S}
  {offered outside line before after : List (Cell S)}

theorem refuse (h : Standing capacity separateLexical offered outside line)
    (hcell : cell.sheltered separateLexical = false) (hfull : capacity ≤ line.length)
    (hline : ∀ x ∈ line, cell.pruneKey.ble x.pruneKey = true) :
    Standing capacity separateLexical (offered ++ [cell]) outside line := by
  refine h.contend hcell (fun rest => ?_) ?_
  · have hnobody : ∀ x ∈ ([] : List (Cell S)), cell.pruneKey.blt x.pruneKey = true := nofun
    exact (take_ranked_drop hline hnobody (by simpa using hfull) rest).symm
  · have hle := h.length_eq
    omega

/-- The last of the least in a full line makes room for a better one. -/
theorem replace (h : Standing capacity separateLexical offered outside (before ++ other :: after))
    (hcell : cell.sheltered separateLexical = false)
    (hfull : capacity ≤ (before ++ other :: after).length)
    (hbefore : ∀ x ∈ before, other.pruneKey.ble x.pruneKey = true)
    (hafter : ∀ x ∈ after, other.pruneKey.blt x.pruneKey = true)
    (hbetter : other.pruneKey.blt cell.pruneKey = true) :
    Standing capacity separateLexical (offered ++ [cell]) outside (before ++ after ++ [cell]) := by
  have hlater : ∀ x ∈ after ++ [cell], other.pruneKey.blt x.pruneKey = true := by
    intro x hx
    rcases List.mem_append.mp hx with hx | hx
    · exact hafter x hx
    · rwa [List.mem_singleton.mp hx]
  have hlength : before.length + (after ++ [cell]).length = (before ++ other :: after).length := by
    simp
  refine h.contend hcell (fun rest => ?_) ?_
  · have hdrop := take_ranked_drop hbefore hlater (hlength ▸ hfull) rest
    simpa [List.append_assoc] using hdrop.symm
  · have hle := h.length_eq
    rw [List.append_assoc, List.length_append, hlength]
    omega

end Standing

instance : TransCmp (Held.leaves : Held S → Held S → Ordering) :=
  letI : Ord (PruneKey S) := ⟨PruneKey.cmp⟩
  haveI : TransOrd (PruneKey S) := inferInstanceAs (TransCmp PruneKey.cmp)
  haveI : TransCmp fun x y : Held S => compare y.seq x.seq :=
    @TransCmp.opposite _ (compareOn Held.seq) inferInstance
  inferInstanceAs (TransCmp (compareLex (compareOn fun x : Held S => x.cell.pruneKey)
    fun x y => compare y.seq x.seq))

end Places

namespace Beam

variable [Scalar S] {b : Beam S} {capacity : Nat} {separateLexical : Bool}
  {offered : List (Cell S)} {cell : Cell S} {outside line : List (Held S)}

/-- A beam in which everybody stands where arrival and prune key put them. -/
structure Ranks (b : Beam S) (capacity : Nat) (separateLexical : Bool) (offered : List (Cell S)) :
    Prop extends b.Sound capacity .insertionOrder separateLexical where
  offered_of_stock : ∀ c ∈ b.stock, c ∈ offered
  standing : ∃ outside line, b.Queued outside line ∧
    Standing capacity separateLexical offered (outside.map (·.cell)) (line.map (·.cell))
  rejected_iff : b.rejected = true ↔ capacity < (contenders separateLexical offered).length
  unmarked : b.externallyPruned = false

theorem ranks_empty (capacity : Nat) (separateLexical : Bool) :
    (empty capacity .insertionOrder separateLexical : Beam S).Ranks capacity separateLexical []
    where
  toSound := ⟨consistent_empty .., Nat.zero_le _⟩
  offered_of_stock := by simp
  standing := ⟨[], [], ⟨.refl _, nofun, nofun, .nil, nofun⟩, .nil capacity separateLexical⟩
  rejected_iff := by simp [empty, contenders]
  unmarked := rfl

theorem Ranks.offer_eq (h : b.Ranks capacity separateLexical offered)
    (hfresh : ∀ c ∈ offered, c.category ≠ cell.category) :
    b.offer cell = .ok (b.accept cell) := by
  have hindex : b.index[cell.category]? = none :=
    h.indexed.index_eq_none_iff.mpr fun e he =>
      hfresh _ (h.offered_of_stock _ (List.mem_append_left _ (List.mem_map_of_mem he)))
  rw [offer, hindex, (h.in_turn rfl).1]
  rfl

variable [TransCmp (PruneKey.cmp : PruneKey S → PruneKey S → Ordering)]

theorem isLE_of_latestMinimum? {x : Nat × Held S} (h : b.latestMinimum? = some x) :
    ∀ y ∈ b.bounded, (x.2.leaves y.2).isLE = true := by
  have hcmp : TransCmp fun x y : Nat × Held S => x.2.leaves y.2 :=
    { eq_swap := OrientedCmp.eq_swap, isLE_trans := TransCmp.isLE_trans }
  unfold latestMinimum? at h
  split at h
  · simp at h
  next first rest hbounded =>
    obtain rfl := Option.some.inj h
    rw [hbounded]
    exact @isLE_foldl_least _ (fun x y => x.2.leaves y.2) hcmp first rest

theorem Queued.exists_latestMinimum (h : b.Queued outside line) (hne : line ≠ []) :
    ∃ low held before after, b.latestMinimum? = some (low, held) ∧
      b.slots.get? low = some held ∧ line = before ++ held :: after ∧
      (∀ x ∈ line, held.cell.pruneKey.ble x.cell.pruneKey = true) ∧
      ∀ x ∈ after, held.cell.pruneKey.blt x.cell.pruneKey = true := by
  have hbounded : b.bounded ≠ [] := by
    intro hnil
    have hperm := h.bounded_perm
    rw [hnil] at hperm
    exact hne hperm.symm.eq_nil
  obtain ⟨⟨low, held⟩, hlow⟩ : ∃ x, b.latestMinimum? = some x := by
    unfold latestMinimum?
    split
    next hnil => exact absurd hnil hbounded
    next => exact ⟨_, rfl⟩
  have hmem := mem_bounded_of_latestMinimum? hlow
  have hleaves : ∀ x ∈ line, (held.leaves x).isLE = true := by
    intro x hx
    obtain ⟨y, hy, rfl⟩ := List.mem_map.mp (h.bounded_perm.mem_iff.mpr hx)
    exact isLE_of_latestMinimum? hlow y hy
  obtain ⟨before, after, rfl⟩ := List.append_of_mem
    (h.bounded_perm.mem_iff.mp (List.mem_map_of_mem hmem))
  have harrival := h.arrival
  rw [List.pairwise_append, List.pairwise_cons] at harrival
  refine ⟨low, held, before, after, hlow,
    (Slots.mem_toList_iff ..).mp (List.mem_filter.mp hmem).1, rfl, fun x hx => ?_, fun x hx => ?_⟩
  · rw [PruneKey.ble_eq_isLE]
    exact (Ordering.isLE_then_iff_and.mp (hleaves x hx)).1
  · -- who came later would have to go first at the same key
    have hseq : compare x.seq held.seq = .gt := compare_gt_iff_gt.mpr (harrival.2.1.1 x hx)
    have hlt := (Ordering.isLE_then_iff_and.mp (hleaves x (by simp [hx]))).2
    rw [hseq] at hlt
    exact beq_iff_eq.mpr (hlt.resolve_right (by decide))

theorem Queued.exists_replaced (h : b.Queued outside line)
    (hstanding : Standing capacity separateLexical offered (outside.map (·.cell))
      (line.map (·.cell)))
    (hcell : cell.sheltered separateLexical = false) (hfull : capacity ≤ line.length)
    (hne : line ≠ []) {low : Nat} {held : Held S} (hlow : b.latestMinimum? = some (low, held))
    (hlt : held.cell.pruneKey.blt cell.pruneKey = true) :
    ∃ line', ({ b.remove low with rejected := true }.insert cell false).1.Queued outside line' ∧
      Standing capacity separateLexical (offered ++ [cell]) (outside.map (·.cell))
        (line'.map (·.cell)) := by
  obtain ⟨low', held', before, after, hlow', hk, rfl, hleast, hafter⟩ := h.exists_latestMinimum hne
  obtain ⟨rfl, rfl⟩ := Prod.mk.inj (Option.some.inj (hlow.symm.trans hlow'))
  have hkept : ∀ x ∈ before.map (·.cell), held.cell.pruneKey.ble x.pruneKey = true :=
    List.forall_mem_map.mpr fun x hx => hleast x (List.mem_append_left _ hx)
  have hahead : ∀ x ∈ after.map (·.cell), held.cell.pruneKey.blt x.pruneKey = true :=
    List.forall_mem_map.mpr hafter
  rw [List.map_append, List.map_cons] at hstanding
  have hmoved := hstanding.replace hcell (by simpa using hfull) hkept hahead hlt
  exact ⟨_, (h.remove hk).markRejected.insert_last cell, by simpa using hmoved⟩

theorem Queued.standing_refuse (h : b.Queued outside line)
    (hstanding : Standing capacity separateLexical offered (outside.map (·.cell))
      (line.map (·.cell)))
    (hcell : cell.sheltered separateLexical = false) (hfull : capacity ≤ line.length)
    (hne : line ≠ [])
    (hlow : ∀ x, b.latestMinimum? = some x → x.2.cell.pruneKey.blt cell.pruneKey = false) :
    Standing capacity separateLexical (offered ++ [cell]) (outside.map (·.cell))
      (line.map (·.cell)) := by
  obtain ⟨low, held, _, _, hlow', _, _, hleast, _⟩ := h.exists_latestMinimum hne
  have hle : cell.pruneKey.ble held.cell.pruneKey = true := by
    have hnot := hlow _ hlow'
    rwa [PruneKey.blt_eq_not_ble, Bool.not_eq_false'] at hnot
  apply hstanding.refuse hcell
  · rwa [List.length_map]
  · exact List.forall_mem_map.mpr fun x hx => PruneKey.ble_trans _ _ _ hle (hleast x hx)

theorem Ranks.accept (h : b.Ranks capacity separateLexical offered) (hcap : 1 ≤ capacity)
    (hfresh : ∀ c ∈ offered, c.category ≠ cell.category) :
    (b.accept cell).1.Ranks capacity separateLexical (offered ++ [cell]) := by
  obtain ⟨outside, line, hqueued, hstanding⟩ := h.standing
  have hsound : (b.accept cell).1.Sound capacity .insertionOrder separateLexical :=
    (h.toSound.accept (fun c hc => hfresh c (h.offered_of_stock c hc)) rfl).1
  have hstock : ∀ c ∈ (b.accept cell).1.stock, c ∈ offered ++ [cell] := by
    intro c hc
    rcases mem_stock_of_accept hc with rfl | hc
    · simp
    · exact List.mem_append_left _ (h.offered_of_stock c hc)
  have hlength := hqueued.length_eq h.indexed
  have hplaces := hstanding.length_eq
  have hrejected := h.rejected_iff
  have hcapacity := h.capacity_eq
  rw [List.length_map] at hplaces
  have hbounded : b.Competes cell → cell.sheltered separateLexical = false := fun hcompetes =>
    h.separateLexical_eq ▸ hcompetes.bounded
  have haccepts := b.accepts cell
  generalize b.accept cell = answer at hsound hstock haccepts ⊢
  cases haccepts with
  | sheltered hlex =>
    have hcell : cell.sheltered separateLexical = true := h.separateLexical_eq ▸ hlex
    refine ⟨hsound, hstock,
      ⟨_, line, hqueued.insert_outside cell, hstanding.shelter hcell⟩, ?_, h.unmarked⟩
    rwa [contenders_of_sheltered hcell]
  | below _ hbelow => simp [(h.in_turn rfl).2] at hbelow
  | roomy hcompetes hroom =>
    have hcell := hbounded hcompetes
    have hjoin := hstanding.join hcell (by rw [List.length_map]; omega)
    refine ⟨hsound, hstock, ⟨outside, _, hqueued.insert_last cell, ?_⟩, ?_, h.unmarked⟩
    · rwa [List.map_append]
    · show b.rejected = true ↔ _
      rw [hrejected, length_contenders hcell]
      omega
  | crowded _ _ ho => exact absurd (h.order_eq.symm.trans ho) (by decide)
  | @replacing low held hcompetes hfull _ hlow hlt =>
    have hcell := hbounded hcompetes
    obtain ⟨line', hmoved, hstanding'⟩ := hqueued.exists_replaced hstanding hcell (by omega)
      (List.ne_nil_of_length_pos (by omega)) hlow hlt
    have hunmarked := (settings_remove b low).externallyPruned.trans h.unmarked
    refine ⟨hsound, hstock, ⟨outside, line', hmoved, hstanding'⟩, iff_of_true rfl ?_, hunmarked⟩
    rw [length_contenders hcell]
    omega
  | full hcompetes hfull _ hlow =>
    have hcell := hbounded hcompetes
    have hrefuse := hqueued.standing_refuse hstanding hcell (by omega)
      (List.ne_nil_of_length_pos (by omega)) hlow
    refine ⟨hsound, hstock, ⟨outside, line, hqueued.markRejected, hrefuse⟩, iff_of_true rfl ?_,
      h.unmarked⟩
    rw [length_contenders hcell]
    omega

/-- Everybody who is offered, one after the other, finds a place or is turned away. -/
theorem Ranks.offerAll {cells : List (Cell S)}
    (h : b.Ranks capacity separateLexical offered) (hcap : 1 ≤ capacity)
    (hapart : ((offered ++ cells).map (·.category)).Nodup) :
    ∃ b', b.offerAll cells = .ok b' ∧ b'.Ranks capacity separateLexical (offered ++ cells) := by
  induction cells generalizing b offered with
  | nil => exact ⟨b, rfl, by rwa [List.append_nil]⟩
  | cons cell cells ih =>
    have hfresh : ∀ c ∈ offered, c.category ≠ cell.category := by
      rw [List.map_append, List.map_cons, List.nodup_append] at hapart
      exact fun c hc => hapart.2.2 _ (List.mem_map_of_mem hc) _ (.head _)
    rw [List.append_cons] at hapart ⊢
    obtain ⟨b', hrest, hranks⟩ := ih (h.accept hcap hfresh) hapart
    refine ⟨b', foldlM_cons_eq_ok.mpr ⟨_, ?_, hrest⟩, hranks⟩
    rw [h.offer_eq hfresh]
    rfl

/-- A beam that breaks ties by arrival is a stable choice of the best. Whatever cells of different
categories it is offered, one after the other, it ends up with the cells that come first when the
contenders are sorted by falling prune keys and equal keys stay in the order of arrival, as many as
its capacity allows. Besides these it holds each cell that has a place outside the bound and nothing
else. It is pruned just if there were more contenders than that. -/
theorem offerAll_ranks {cells : List (Cell S)} (hcap : 1 ≤ capacity) (separateLexical : Bool)
    (hapart : (cells.map (·.category)).Nodup) :
    ∃ b, (Beam.new capacity .insertionOrder separateLexical >>= (·.offerAll cells)) = .ok b ∧
      (b.bounded.map (·.2.cell)).Perm
        ((ranked (contenders separateLexical cells)).take capacity) ∧
      (b.cells.map (·.2)).Perm (cells.filter (·.sheltered separateLexical) ++
        (ranked (contenders separateLexical cells)).take capacity) ∧
      (b.isPruned = true ↔ capacity < (contenders separateLexical cells).length) := by
  obtain ⟨b, hb, hranks⟩ := (ranks_empty capacity separateLexical).offerAll hcap hapart
  have hnew : Beam.new capacity .insertionOrder separateLexical =
      .ok (empty capacity .insertionOrder separateLexical : Beam S) := if_neg (by omega)
  obtain ⟨outside, line, hqueued, hstanding⟩ := hranks.standing
  refine ⟨b, ?_, ?_, ?_, ?_⟩
  · rw [hnew]
    exact hb
  · have hbounded := hqueued.bounded_perm.map (·.cell)
    rw [List.map_map] at hbounded
    exact hbounded.trans hstanding.line_perm
  · exact hqueued.cells_perm.trans (hstanding.outside_perm.append hstanding.line_perm)
  · rw [isPruned, hranks.unmarked, (hranks.in_turn rfl).1]
    simpa using hranks.rejected_iff

theorem offerAll_ranks_sightings : ∃ cells : List (Cell Binary64),
    (cells.map (·.category)).Nodup ∧ ∃ b : Beam Binary64,
      (Beam.new 2 .insertionOrder false >>= (·.offerAll cells)) = .ok b ∧
        (b.bounded.map (·.2.cell)).Perm ((ranked (contenders false cells)).take 2) ∧
        b.isPruned = true := by
  let span : Span := ⟨0, 0, 1, le_rfl, one_pos⟩
  let cells := [sighting span "N" 1, sighting span "V" 2, sighting span "A" 1]
  have hapart : (cells.map (·.category)).Nodup := by
    simp [cells, sighting, Cell.new, Step.root]
  obtain ⟨b, hb, hbounded, _, hpruned⟩ := offerAll_ranks one_le_two false hapart
  exact ⟨cells, hapart, b, hb, hbounded, hpruned.mpr (by simp [contenders, cells, Cell.sheltered])⟩

end Beam

end Categorial
