import Mathlib.Logic.Function.Basic
import Categorial.Chart.Outside
import Categorial.Proofs.Chart.Same
import Categorial.Proofs.Chart.Slots

/-! # Outside scores

An outside pass changes nothing but the outside scores, so the chart that it leads to is told by the
chart that it began with and the scores that it gave.
-/

namespace Categorial.Chart

variable {S : Type}

def weigh (outside : CellId → S) (x : CellId × Cell S) : CellId × Cell S :=
  (x.1, { x.2 with logOutside := outside x.1 })

structure Weighed (chart after : Chart S) (outside : CellId → S) : Prop where
  size : after.size = chart.size
  cellsAt : ∀ first last, after.cellsAt first last = (chart.cellsAt first last).map (weigh outside)

def receive [Scalar S] (outside : CellId → S) (updates : List (CellId × S)) : CellId → S :=
  updates.foldl (fun outside u => Function.update outside u.1 (LogSpace.add (outside u.1) u.2))
    outside

variable {chart after : Chart S} {outside : CellId → S} {id : CellId} {c : Cell S}

namespace Weighed

theorem cell (h : chart.Weighed after outside) (hc : chart.cell id = .ok c) :
    after.cell id = .ok { c with logOutside := outside id } := by
  have hmem : (id, c) ∈ chart.cellsAt id.first id.last := mem_cellsAt_iff.mpr ⟨rfl, rfl, hc⟩
  have hmem := List.mem_map_of_mem (f := weigh outside) hmem
  rw [← h.cellsAt] at hmem
  exact (mem_cellsAt_iff.mp hmem).2.2

theorem cells (h : chart.Weighed after outside) :
    after.cells = chart.cells.map (weigh outside) := by
  unfold Chart.cells
  rw [h.size, List.map_flatMap]
  exact List.flatMap_congr fun x _ => h.cellsAt x.1 x.2

end Weighed

section Beams

variable {first last first' last' : Nat} {f : Beam S → Beam S}

theorem beam?_modifyBeam_self (h : first ≤ last) :
    (chart.modifyBeam first last f).beam? first last = (chart.beam? first last).map f := by
  simp [modifyBeam, beam?, h, Array.getElem?_modify]

theorem beam?_modifyBeam_ne (h : first ≤ last) (hne : (first', last') ≠ (first, last)) :
    (chart.modifyBeam first last f).beam? first' last' = chart.beam? first' last' := by
  unfold beam?
  split_ifs with h'
  · rw [modifyBeam, Array.getElem?_modify, if_neg]
    exact fun heq => hne (Prod.ext_iff.mpr (slot_inj h' h heq.symm))
  · rfl

theorem beam?_foldl_modifyBeam {spans : List (Nat × Nat)} (hnodup : spans.Nodup)
    (hle : ∀ x ∈ spans, x.1 ≤ x.2) (f : Nat × Nat → Beam S → Beam S) (chart : Chart S)
    (first last : Nat) :
    (spans.foldl (fun chart x => chart.modifyBeam x.1 x.2 (f x)) chart).beam? first last =
      if (first, last) ∈ spans then (chart.beam? first last).map (f (first, last))
      else chart.beam? first last := by
  induction spans generalizing chart with
  | nil => simp
  | cons x spans ih =>
    obtain ⟨hx, hnodup⟩ := List.nodup_cons.mp hnodup
    rw [List.foldl_cons, ih hnodup fun y hy => hle y (.tail _ hy)]
    have hxle := hle x (.head _)
    by_cases heq : (first, last) = x
    · subst heq
      rw [if_neg hx, if_pos (.head _), beam?_modifyBeam_self hxle]
    · rw [beam?_modifyBeam_ne hxle heq]
      simp only [List.mem_cons, heq, false_or]

end Beams

variable [Scalar S]

def rootScores (chart : Chart S) (first last : Nat) (scorer : Cell S → S) (id : CellId) : S :=
  if id.first = first ∧ id.last = last then
    ((chart.cell id).toOption.map scorer).getD Scalar.negInf
  else Scalar.negInf

theorem beam?_initOutside (chart : Chart S) (first last : Nat) (scorer : Cell S → S) (f l : Nat) :
    (chart.initOutside first last scorer).beam? f l =
      if (f, l) ∈ spansByStart chart.size then (chart.beam? f l).map fun b =>
        { b with
          slots := b.slots.map fun held =>
            let value := if f = first ∧ l = last then scorer held.cell else Scalar.negInf
            { held with cell := { held.cell with logOutside := value } } }
      else chart.beam? f l :=
  beam?_foldl_modifyBeam (nodup_spansByStart chart.size)
    (fun _ hx => (mem_spansByStart_iff.mp hx).1) _ chart f l

theorem weighed_initOutside
    (hwithin : ∀ {id c}, chart.cell id = .ok c → id.first ≤ id.last ∧ id.last < chart.size)
    (first last : Nat) (scorer : Cell S → S) :
    chart.Weighed (chart.initOutside first last scorer) (chart.rootScores first last scorer) := by
  have hsize : ∀ (spans : List (Nat × Nat)) (f : Nat × Nat → Beam S → Beam S) (chart : Chart S),
      (spans.foldl (fun chart x => chart.modifyBeam x.1 x.2 (f x)) chart).size = chart.size := by
    intro spans f
    induction spans with
    | nil => exact fun _ => rfl
    | cons x spans ih => exact fun chart => ih _
  refine ⟨hsize _ _ _, fun f l => ?_⟩
  have hbeam := chart.beam?_initOutside first last scorer f l
  have hcell : ∀ x ∈ chart.cellsAt f l, x.1.first = f ∧ x.1.last = l ∧ chart.cell x.1 = .ok x.2 :=
    fun x hx => mem_cellsAt_iff.mp hx
  by_cases hspan : (f, l) ∈ spansByStart chart.size
  · rw [if_pos hspan] at hbeam
    unfold cellsAt at hcell ⊢
    rw [hbeam]
    cases hb : chart.beam? f l with
    | none => rfl
    | some b =>
      rw [hb] at hcell
      simp only [Option.map_some, Beam.cells, Slots.toList_map, List.map_map] at hcell ⊢
      refine List.map_congr_left fun x hx => ?_
      obtain ⟨_, _, hc⟩ := hcell _ (List.mem_map_of_mem hx)
      simp only [Function.comp_apply] at hc ⊢
      simp [weigh, rootScores, hc, Except.toOption]
  · -- there are no cells outside the sentence
    have hnil : chart.cellsAt f l = [] := by
      refine List.eq_nil_iff_forall_not_mem.mpr fun x hx => hspan ?_
      obtain ⟨rfl, rfl, hc⟩ := hcell x hx
      exact mem_spansByStart_iff.mpr (hwithin hc)
    rw [if_neg hspan] at hbeam
    rw [hnil, List.map_nil, ← hnil]
    unfold cellsAt
    rw [hbeam]

/-- Adding to the outside score of a cell leaves all other cells as they are. -/
theorem exists_addOutside (hc : chart.cell id = .ok c) (mass : S) :
    ∃ after, chart.addOutside id mass = .ok after ∧ after.size = chart.size ∧
      ∀ first last, after.cellsAt first last = (chart.cellsAt first last).map fun x =>
        (x.1, if x.1 = id then x.2.addOutside mass else x.2) := by
  obtain ⟨b, hb, _⟩ := cell_eq_ok_iff.mp hc
  have hle : id.first ≤ id.last := by
    by_contra hgt
    simp [beam?, hgt] at hb
  have hlt : slot id.first id.last < chart.beams.size := by
    simp only [beam?, hle, if_true] at hb
    exact (Array.getElem?_eq_some_iff.mp hb).1
  refine ⟨_, bind_eq_ok.mpr ⟨b, beam_eq_ok_iff.mpr hb, rfl⟩, rfl, fun first last => ?_⟩
  by_cases hspan : (first, last) = (id.first, id.last)
  · obtain ⟨rfl, rfl⟩ := Prod.mk.inj hspan
    unfold cellsAt
    rw [beam?_setBeam_self hle hlt, hb]
    simp only [Beam.cells, Slots.toList_modify, List.map_map]
    refine List.map_congr_left fun x _ => ?_
    have hkey : (⟨id.first, id.last, x.1⟩ : CellId) = id ↔ x.1 = id.key := by
      cases id
      simp
    by_cases hx : x.1 = id.key <;> simp [hkey, hx]
  · have hne : ∀ x ∈ chart.cellsAt first last, x.1 ≠ id := by
      rintro ⟨i, d⟩ hx rfl
      obtain ⟨rfl, rfl, _⟩ := mem_cellsAt_iff.mp hx
      exact hspan rfl
    have hsame : ((chart.cellsAt first last).map fun x =>
        (x.1, if x.1 = id then x.2.addOutside mass else x.2)) = chart.cellsAt first last := by
      refine (List.map_congr_left fun x hx => ?_).trans (List.map_id _)
      rw [if_neg (hne x hx)]
      rfl
    rw [hsame]
    unfold cellsAt
    rw [beam?_setBeam_ne hle hspan]

theorem Weighed.addOutside (h : chart.Weighed after outside) (hc : chart.cell id = .ok c)
    (mass : S) :
    ∃ after', after.addOutside id mass = .ok after' ∧
      chart.Weighed after' (receive outside [(id, mass)]) := by
  obtain ⟨after', hafter, hsize, hcells⟩ := exists_addOutside (h.cell hc) mass
  refine ⟨after', hafter, hsize.trans h.size, fun first last => ?_⟩
  rw [hcells, h.cellsAt, List.map_map]
  refine List.map_congr_left fun x _ => ?_
  by_cases hx : x.1 = id <;> simp [weigh, receive, hx, Cell.addOutside]

theorem Weighed.receive (h : chart.Weighed after outside) {updates : List (CellId × S)}
    (hupdates : ∀ u ∈ updates, ∃ c, chart.cell u.1 = .ok c) :
    ∃ after', updates.foldlM (fun chart u => chart.addOutside u.1 u.2) after = .ok after' ∧
      chart.Weighed after' (receive outside updates) := by
  induction updates generalizing after outside with
  | nil => exact ⟨after, rfl, h⟩
  | cons u updates ih =>
    obtain ⟨c, hc⟩ := hupdates u (.head _)
    obtain ⟨mid, hmid, hweighed⟩ := h.addOutside hc u.2
    obtain ⟨after', hafter, hweighed⟩ := ih hweighed fun v hv => hupdates v (.tail _ hv)
    exact ⟨after', foldlM_cons_eq_ok.mpr ⟨mid, hmid, hafter⟩, hweighed⟩

end Categorial.Chart
