import Categorial.Chart.Outside
import Categorial.Proofs.Chart.Layout

/-! # Charts up to their scores

The passes over a finished chart count its scores afresh, score its steps anew or give its cells
outside scores. None of them adds or takes away a cell or a step, so each handle leads to the same
steps afterwards.
-/

namespace Categorial

variable {S : Type}

structure Outline where
  category : Category
  span : Span
  isFullParse : Bool
  makings : List Making

def Cell.outline (c : Cell S) : Outline :=
  ⟨c.category, c.span, c.isFullParse, c.steps.map (·.step.making)⟩

section Cells

variable {c d : Cell S} (h : d.outline = c.outline)

include h

theorem Cell.category_of_outline : d.category = c.category :=
  congrArg Outline.category h

theorem Cell.span_of_outline : d.span = c.span :=
  congrArg Outline.span h

theorem Cell.exists_step_of_outline {p : PackedStep S} (hp : p ∈ d.steps) :
    ∃ q ∈ c.steps, q.step.making = p.step.making := by
  have hmakings : d.steps.map (·.step.making) = c.steps.map (·.step.making) :=
    congrArg Outline.makings h
  have hmem : p.step.making ∈ d.steps.map (·.step.making) := List.mem_map_of_mem hp
  rw [hmakings] at hmem
  exact List.mem_map.mp hmem

end Cells

def Beam.outline (b : Beam S) : Std.HashMap Category Nat × (Nat → Option Outline) :=
  (b.index, fun key => (b.cell? key).map Cell.outline)

/-- The charts are the same but for their scores. -/
structure Chart.SameOutline (chart after : Chart S) : Prop where
  tokens : after.tokens = chart.tokens
  beams : after.beams.map Beam.outline = chart.beams.map Beam.outline

section Beams

variable {b : Beam S} {f : Held S → Held S}

theorem Beam.outline_map (hf : ∀ held, (f held).cell.outline = held.cell.outline) :
    ({ b with slots := b.slots.map f } : Beam S).outline = b.outline := by
  refine Prod.ext rfl (funext fun key => ?_)
  simp only [Beam.outline, Beam.cell?, Slots.get?_map, Option.map_map]
  exact congrArg (Option.map · _) (funext hf)

theorem Beam.outline_modify {key : Nat}
    (hf : ∀ held, b.slots.get? key = some held → (f held).cell.outline = held.cell.outline) :
    ({ b with slots := b.slots.modify key f } : Beam S).outline = b.outline := by
  refine Prod.ext rfl (funext fun k => ?_)
  simp only [Beam.outline, Beam.cell?, Slots.get?_modify]
  split_ifs with hk
  · subst hk
    cases hget : b.slots.get? key with
    | none => rfl
    | some held => exact congrArg some (hf held hget)
  · rfl

/-- Writing cells under keys that have the same outline already. -/
theorem Beam.outline_foldl_modify {fresh : List (Nat × Cell S)}
    (h : ∀ x ∈ fresh, b.outline.2 x.1 = some x.2.outline) :
    ({ b with
        slots := fresh.foldl
          (fun slots x => slots.modify x.1 fun held => { held with cell := x.2 }) b.slots }
      : Beam S).outline = b.outline := by
  induction fresh generalizing b with
  | nil => rfl
  | cons x fresh ih =>
    let written : Beam S :=
      { b with slots := b.slots.modify x.1 fun held => { held with cell := x.2 } }
    have hwritten : written.outline = b.outline := by
      refine Beam.outline_modify fun held hheld => ?_
      have hx := h x (.head _)
      simp only [Beam.outline, Beam.cell?, hheld, Option.map_some, Option.some.injEq] at hx
      exact hx.symm
    have hrest := ih (b := written) fun y hy => by
      rw [hwritten]
      exact h y (.tail _ hy)
    exact hrest.trans hwritten

end Beams

theorem Beam.key_find? (b : Beam S) (category : Category) :
    (b.find? category).map (·.1) =
      b.outline.1[category]?.filter fun key => (b.outline.2 key).isSome := by
  unfold Beam.find? Beam.outline
  cases b.index[category]? with
  | none => rfl
  | some key => cases hcell : b.cell? key <;> simp [hcell, Option.filter]

namespace Chart

variable {chart mid after : Chart S} {first last : Nat} {id : CellId} {c : Cell S}

namespace SameOutline

theorem refl (chart : Chart S) : chart.SameOutline chart :=
  ⟨rfl, rfl⟩

theorem symm (h : chart.SameOutline after) : after.SameOutline chart :=
  ⟨h.tokens.symm, h.beams.symm⟩

theorem trans (h : chart.SameOutline mid) (h' : mid.SameOutline after) :
    chart.SameOutline after :=
  ⟨h'.tokens.trans h.tokens, h'.beams.trans h.beams⟩

theorem size (h : chart.SameOutline after) : after.size = chart.size :=
  congrArg List.length h.tokens

theorem beam? (h : chart.SameOutline after) (first last : Nat) :
    (after.beam? first last).map Beam.outline = (chart.beam? first last).map Beam.outline := by
  unfold Chart.beam?
  split_ifs
  · rw [← Array.getElem?_map, h.beams, Array.getElem?_map]
  · rfl

theorem exists_beam (h : chart.SameOutline after) {b : Beam S}
    (hb : chart.beam? first last = some b) :
    ∃ b', after.beam? first last = some b' ∧ b'.outline = b.outline := by
  have hbeam := h.beam? first last
  rw [hb] at hbeam
  exact Option.map_eq_some_iff.mp hbeam

theorem exists_cell (h : chart.SameOutline after) (hc : chart.cell id = .ok c) :
    ∃ d, after.cell id = .ok d ∧ d.outline = c.outline := by
  obtain ⟨b, hb, hkey⟩ := cell_eq_ok_iff.mp hc
  obtain ⟨b', hb', hsame⟩ := h.exists_beam hb
  have hat := congrFun (congrArg Prod.snd hsame) id.key
  simp only [Beam.outline, hkey] at hat
  obtain ⟨d, hd, hout⟩ := Option.map_eq_some_iff.mp hat
  exact ⟨d, cell_eq_ok_iff.mpr ⟨b', hb', hd⟩, hout⟩

theorem find (h : chart.SameOutline after) (first last : Nat) (category : Category) :
    after.find first last category = chart.find first last category := by
  have hkey : ∀ b : Beam S, (b.find? category).map
      (fun x => (⟨first, last, x.1⟩ : CellId)) =
        ((b.find? category).map (·.1)).map (⟨first, last, ·⟩) := fun b =>
    (Option.map_map ..).symm
  unfold Chart.find Chart.beam
  have hbeam := h.beam? first last
  cases hb : chart.beam? first last with
  | none =>
    rw [hb] at hbeam
    rw [Option.map_eq_none_iff.mp hbeam]
  | some b =>
    obtain ⟨b', hb', hsame⟩ := h.exists_beam hb
    rw [hb']
    refine congrArg Except.ok ?_
    rw [hkey b', hkey b, Beam.key_find?, Beam.key_find?, hsame]

end SameOutline

section Beams

variable {γ : Type} {φ : Beam S → γ}

theorem map_modifyBeam {f : Beam S → Beam S}
    (hf : ∀ b ∈ chart.beams[slot first last]?, φ (f b) = φ b) :
    (chart.modifyBeam first last f).beams.map φ = chart.beams.map φ := by
  refine Array.ext_getElem? fun i => ?_
  simp only [modifyBeam, Array.getElem?_map, Array.getElem?_modify]
  split_ifs with hi
  · subst hi
    rw [Option.map_map]
    exact Option.map_congr hf
  · rfl

theorem map_setBeam {b b' : Beam S} (hb : chart.beam? first last = some b) (hsame : φ b' = φ b) :
    (chart.setBeam first last b').beams.map φ = chart.beams.map φ := by
  have hat : chart.beams[slot first last]? = some b := by
    unfold beam? at hb
    split_ifs at hb
    exact hb
  refine Array.ext_getElem? fun i => ?_
  simp only [setBeam, Array.getElem?_map, Array.getElem?_setIfInBounds]
  split_ifs with hi hlt
  · subst hi
    rw [hat, Option.map_some, Option.map_some, hsame]
  · subst hi
    rw [Array.getElem?_eq_none (not_lt.mp hlt)]
  · rfl

end Beams

theorem sameOutline_modifyBeam {f : Beam S → Beam S}
    (hf : ∀ b ∈ chart.beams[slot first last]?, (f b).outline = b.outline) :
    chart.SameOutline (chart.modifyBeam first last f) :=
  ⟨rfl, map_modifyBeam hf⟩

theorem sameOutline_setBeam {b b' : Beam S} (hb : chart.beam? first last = some b)
    (hsame : b'.outline = b.outline) : chart.SameOutline (chart.setBeam first last b') :=
  ⟨rfl, map_setBeam hb hsame⟩

theorem sameOutline_mapCells {f : Cell S → Cell S} (hf : ∀ c, (f c).outline = c.outline) :
    chart.SameOutline (chart.mapCells f) where
  tokens := rfl
  beams := by
    rw [mapCells, Array.map_map]
    exact Array.map_congr_left fun b _ => Beam.outline_map fun held => hf held.cell

end Chart

end Categorial
