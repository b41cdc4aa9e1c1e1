import Mathlib.Tactic.Ring
import Categorial.Chart.Basic
import Categorial.Proofs.Chart.Slots
import Categorial.Proofs.Computation

/-! # The triangle of spans

Each span of a sentence has a place of its own in the triangle, and the two listings of the spans
have each of them once. So a beam is read back as it was written, and all others stay.
-/

namespace Categorial

theorem slot_lt_slot {first last first' last' : Nat} (h : first ≤ last) (hlt : last < last') :
    slot first last < slot first' last' := by
  have hstep : last * (last + 1) / 2 + (last + 1) ≤ last' * (last' + 1) / 2 := by
    have hmul : (last + 1) * (last + 2) ≤ last' * (last' + 1) :=
      Nat.mul_le_mul hlt (Nat.succ_le_succ hlt)
    have hsplit : (last + 1) * (last + 2) = last * (last + 1) + 2 * (last + 1) := by ring
    omega
  unfold slot
  omega

theorem slot_inj {first last first' last' : Nat} (h : first ≤ last) (h' : first' ≤ last')
    (heq : slot first last = slot first' last') : first = first' ∧ last = last' := by
  rcases lt_trichotomy last last' with hlt | rfl | hlt
  · exact absurd heq (slot_lt_slot h hlt).ne
  · exact ⟨by unfold slot at heq; omega, rfl⟩
  · exact absurd heq (slot_lt_slot h' hlt).ne'

/-- The triangle has a place for the spans of the sentence and for no others. -/
theorem slot_lt_numSpans_iff {first last size : Nat} (h : first ≤ last) :
    slot first last < numSpans size ↔ last < size := by
  show slot first last < slot 0 size ↔ last < size
  refine ⟨fun hlt => ?_, slot_lt_slot h⟩
  by_contra hge
  rcases eq_or_lt_of_le (not_lt.mp hge) with rfl | hgt
  · exact absurd hlt (by unfold slot; omega)
  · exact absurd hlt (slot_lt_slot (Nat.zero_le size) hgt).not_gt

theorem exists_slot_eq {size i : Nat} (h : i < numSpans size) :
    ∃ first last, first ≤ last ∧ last < size ∧ slot first last = i := by
  induction size with
  | zero => exact absurd h (by simp [numSpans])
  | succ size ih =>
    by_cases hi : i < numSpans size
    · obtain ⟨first, last, hle, hlt, hslot⟩ := ih hi
      exact ⟨first, last, hle, hlt.trans (Nat.lt_succ_self size), hslot⟩
    · -- the last row of the triangle
      have hrow : numSpans (size + 1) = numSpans size + (size + 1) := by
        have hsplit : (size + 1) * (size + 1 + 1) = size * (size + 1) + 2 * (size + 1) := by ring
        unfold numSpans
        omega
      refine ⟨i - numSpans size, size, by omega, Nat.lt_succ_self size, ?_⟩
      show numSpans size + (i - numSpans size) = i
      omega

theorem mem_spansByLength_iff {size first last : Nat} :
    (first, last) ∈ spansByLength size ↔ first ≤ last ∧ last < size := by
  simp only [spansByLength, List.mem_flatMap, List.mem_map, List.mem_range, Prod.mk.injEq]
  constructor
  · rintro ⟨extra, hextra, f, hf, rfl, rfl⟩
    omega
  · rintro ⟨hle, hlt⟩
    exact ⟨last - first, by omega, first, by omega, rfl, by omega⟩

theorem mem_spansByStart_iff {size first last : Nat} :
    (first, last) ∈ spansByStart size ↔ first ≤ last ∧ last < size := by
  simp only [spansByStart, List.mem_flatMap, List.mem_map, List.mem_range, Prod.mk.injEq]
  constructor
  · rintro ⟨f, hf, extra, hextra, rfl, rfl⟩
    omega
  · rintro ⟨hle, hlt⟩
    exact ⟨first, by omega, last - first, by omega, rfl, by omega⟩

theorem nodup_spansByStart (size : Nat) : (spansByStart size).Nodup := by
  rw [spansByStart, List.nodup_flatMap]
  refine ⟨fun first _ => ?_, ?_⟩
  · refine List.Nodup.map (fun a b hab => ?_) List.nodup_range
    simpa using hab
  · refine List.nodup_range.imp fun {a b} hab => ?_
    rintro ⟨f, l⟩ ha hb
    obtain ⟨_, _, ha⟩ := List.mem_map.mp ha
    obtain ⟨_, _, hb⟩ := List.mem_map.mp hb
    exact hab ((Prod.ext_iff.mp ha).1.trans (Prod.ext_iff.mp hb).1.symm)

namespace Chart

variable {S : Type} {chart : Chart S} {first last first' last' : Nat} {beam : Beam S}

theorem beam_eq_ok_iff : chart.beam first last = .ok beam ↔ chart.beam? first last = some beam := by
  unfold Chart.beam
  split
  next b h => rw [h, Except.ok.injEq, Option.some.injEq]
  next h => simp [h]

theorem mem_cells_iff {key : Nat} {cell : Cell S} :
    (key, cell) ∈ beam.cells ↔ beam.cell? key = some cell := by
  simp only [Beam.cells, List.mem_map, Prod.exists, Prod.mk.injEq, Slots.mem_toList_iff, Beam.cell?,
    Option.map_eq_some_iff]
  constructor
  · rintro ⟨k, held, hk, rfl, rfl⟩
    exact ⟨held, hk, rfl⟩
  · rintro ⟨held, hk, rfl⟩
    exact ⟨key, held, hk, rfl, rfl⟩

theorem cell_eq_ok_iff {id : CellId} {cell : Cell S} :
    chart.cell id = .ok cell ↔
      ∃ b, chart.beam? id.first id.last = some b ∧ b.cell? id.key = some cell := by
  rw [Chart.cell, bind_eq_ok]
  refine exists_congr fun b => ?_
  rw [Chart.beam_eq_ok_iff]
  refine and_congr_right fun _ => ?_
  cases b.cell? id.key <;> simp

theorem mem_cellsAt_iff {id : CellId} {cell : Cell S} :
    (id, cell) ∈ chart.cellsAt first last ↔
      id.first = first ∧ id.last = last ∧ chart.cell id = .ok cell := by
  unfold cellsAt
  rw [cell_eq_ok_iff]
  constructor
  · intro h
    split at h
    next b hb =>
      obtain ⟨⟨key, c⟩, hc, he⟩ := List.mem_map.mp h
      obtain ⟨rfl, rfl⟩ := Prod.mk.inj he
      exact ⟨rfl, rfl, b, hb, mem_cells_iff.mp hc⟩
    next => simp at h
  · rintro ⟨rfl, rfl, b, hb, hc⟩
    rw [hb]
    exact List.mem_map.mpr ⟨(id.key, cell), mem_cells_iff.mpr hc, rfl⟩

theorem pairwise_cellsAt (chart : Chart S) (first last : Nat) :
    (chart.cellsAt first last).Pairwise fun x y => x.1.key < y.1.key := by
  unfold cellsAt
  split
  next b _ => exact List.pairwise_map.mpr (List.pairwise_map.mpr b.slots.pairwise_toList)
  next => exact .nil

theorem cellsAt_congr {chart' : Chart S} (h : ∀ id, chart.cell id = chart'.cell id)
    (first last : Nat) : chart.cellsAt first last = chart'.cellsAt first last := by
  have hmem : ∀ x, x ∈ chart.cellsAt first last ↔ x ∈ chart'.cellsAt first last := by
    rintro ⟨id, c⟩
    rw [mem_cellsAt_iff, mem_cellsAt_iff, h]
  have hnodup : ∀ chart : Chart S, (chart.cellsAt first last).Nodup := fun chart =>
    (chart.pairwise_cellsAt first last).imp fun {x y} hlt (he : x = y) => by simp [he] at hlt
  have hperm := (List.perm_ext_iff_of_nodup (hnodup chart) (hnodup chart')).mpr hmem
  exact hperm.eq_of_pairwise (fun _ _ _ _ hlt hgt => absurd hlt hgt.asymm)
    (chart.pairwise_cellsAt first last) (chart'.pairwise_cellsAt first last)

theorem beam?_setBeam_self (h : first ≤ last) (hlt : slot first last < chart.beams.size) :
    (chart.setBeam first last beam).beam? first last = some beam := by
  simp [setBeam, beam?, h, hlt]

theorem beam?_setBeam_ne (h : first ≤ last) (hne : (first', last') ≠ (first, last)) :
    (chart.setBeam first last beam).beam? first' last' = chart.beam? first' last' := by
  unfold beam?
  split_ifs with h'
  · rw [setBeam, Array.getElem?_setIfInBounds_ne]
    exact fun heq => hne (Prod.ext_iff.mpr (slot_inj h' h heq.symm))
  · rfl

theorem new_eq_ok {tokens : List String} {config : ChartConfig}
    (h : Chart.new tokens config = .ok chart) : chart = .empty tokens config := by
  unfold Chart.new at h
  split_ifs at h
  exact (Except.ok.inj h).symm

theorem eq_empty_of_beam? {tokens : List String} {config : ChartConfig}
    (h : (empty tokens config : Chart S).beam? first last = some beam) :
    beam = .empty config.beam config.order config.separateLexical := by
  unfold beam? at h
  split_ifs at h
  obtain ⟨hlt, rfl⟩ := Array.getElem?_eq_some_iff.mp h
  simp [empty]

/-- A chart is told by the beams of its spans. -/
theorem eq_of_beam? {chart' : Chart S} {size : Nat} (htokens : chart.tokens = chart'.tokens)
    (hconfig : chart.config = chart'.config) (hsize : chart.beams.size = numSpans size)
    (hsize' : chart'.beams.size = numSpans size)
    (h : ∀ first last, first ≤ last → last < size →
      chart.beam? first last = chart'.beam? first last) : chart = chart' := by
  obtain ⟨tokens, config, beams⟩ := chart
  obtain ⟨tokens', config', beams'⟩ := chart'
  obtain rfl : tokens = tokens' := htokens
  obtain rfl : config = config' := hconfig
  refine congrArg (Chart.mk tokens config) (Array.ext_getElem? fun i => ?_)
  by_cases hi : i < numSpans size
  · obtain ⟨first, last, hle, hlt, rfl⟩ := exists_slot_eq hi
    have hbeam := h first last hle hlt
    rwa [beam?, beam?, if_pos hle, if_pos hle] at hbeam
  · rw [Array.getElem?_eq_none (hsize ▸ not_lt.mp hi),
      Array.getElem?_eq_none (hsize' ▸ not_lt.mp hi)]

theorem size_setBeam : (chart.setBeam first last beam).beams.size = chart.beams.size := by
  simp [setBeam]

end Chart

end Categorial
