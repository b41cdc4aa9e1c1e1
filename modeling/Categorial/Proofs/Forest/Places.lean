import Mathlib.Data.Set.Function
import Categorial.Proofs.Chart.Admissions
import Categorial.Proofs.Forest.Requests
import Categorial.Proofs.Parser.Building

/-! # The places of the spans

The spans of a sentence have the places of the triangle one to one, and whatever is done to a chart
leaves it with that many places. So the beam of every span is there to be read, and what is done to
one beam reaches no other.
-/

namespace Categorial

theorem bijOn_slot (size : Nat) :
    Set.BijOn (fun span : Nat × Nat => slot span.1 span.2)
      {span | span.1 ≤ span.2 ∧ span.2 < size} (Set.Iio (numSpans size)) := by
  refine ⟨?_, ?_, ?_⟩
  · rintro ⟨first, last⟩ ⟨hle, hlt⟩
    exact (slot_lt_numSpans_iff hle).mpr hlt
  · rintro ⟨first, last⟩ ⟨hle, _⟩ ⟨first', last'⟩ ⟨hle', _⟩ heq
    exact Prod.ext_iff.mpr (slot_inj hle hle' heq)
  · intro i hi
    obtain ⟨first, last, hle, hlt, rfl⟩ := exists_slot_eq hi
    exact ⟨(first, last), ⟨hle, hlt⟩, rfl⟩

variable {S : Type}

inductive Change (S : Type) where
  | add (cell : Cell S)
  | addAll (first last : Nat) (cells : List (Cell S)) (pruned : Bool)
  | mark (first last : Nat)
  /-- Anything that is done to a beam in place, such as taking away its outside scores. -/
  | revise (first last : Nat) (f : Beam S → Beam S)

namespace Change

def first : Change S → Nat
  | add cell => cell.span.first
  | addAll first .. => first
  | mark first _ => first
  | revise first .. => first

def last : Change S → Nat
  | add cell => cell.span.last
  | addAll _ last .. => last
  | mark _ last => last
  | revise _ last _ => last

variable [Scalar S]

def run : Change S → Chart S → Except Fault (Chart S)
  | add cell, chart => (·.1) <$> chart.add cell
  | addAll first last cells pruned, chart => chart.addAll first last cells pruned
  | mark first last, chart => chart.markPruned first last
  | revise first last f, chart => .ok (chart.modifyBeam first last f)

def onBeam : Change S → Beam S → Except Fault (Beam S)
  | add cell, beam => (·.1) <$> beam.offer cell
  | addAll first last cells pruned, beam => do
    let beam ← cells.foldlM
      (fun beam cell =>
        if cell.span.first = first ∧ cell.span.last = last then (·.1) <$> beam.offer cell
        else .error .misplaced)
      beam
    .ok (if pruned then beam.markPruned else beam)
  | mark .., beam => .ok beam.markPruned
  | revise _ _ f, beam => .ok (f beam)

end Change

section Faults

variable [Scalar S]

theorem Cell.ends_merge (c d : Cell S) :
    Ends (fun _ => True) (· ≠ Fault.noSuchSpan) (c.merge d) := by
  unfold Cell.merge
  dsimp only
  split_ifs
  · trivial
  · trivial
  · exact nofun

theorem Beam.ends_offer (b : Beam S) (cell : Cell S) :
    Ends (fun _ => True) (· ≠ Fault.noSuchSpan) (b.offer cell) := by
  unfold Beam.offer
  split
  · split
    · exact (Cell.ends_merge _ _).bind fun _ _ => trivial
    · trivial
  · split
    · exact (Cell.ends_merge _ _).bind fun _ _ => trivial
    · trivial

theorem Change.ends_onBeam (change : Change S) (b : Beam S) :
    Ends (fun _ => True) (· ≠ Fault.noSuchSpan) (change.onBeam b) := by
  cases change with
  | add cell => exact (b.ends_offer cell).map fun _ _ => trivial
  | addAll first last cells pruned =>
    refine Ends.bind (R := fun _ => True) (Ends.foldlM (fun cell _ b _ => ?_) trivial)
      fun _ _ => trivial
    split_ifs
    · exact (b.ends_offer cell).map fun _ _ => trivial
    · exact nofun
  | mark => trivial
  | revise => trivial

end Faults

namespace Chart

variable {chart mid after : Chart S} {first last : Nat} {beam : Beam S}

theorem modifyBeam_eq_setBeam {f : Beam S → Beam S} (hb : chart.beam? first last = some beam) :
    chart.modifyBeam first last f = chart.setBeam first last (f beam) := by
  have hat : chart.beams[slot first last]? = some beam := by
    unfold beam? at hb
    split_ifs at hb
    exact hb
  refine congrArg (Chart.mk chart.tokens chart.config) (Array.ext_getElem? fun i => ?_)
  rw [Array.getElem?_modify, Array.getElem?_setIfInBounds]
  split_ifs with hi hlt
  · subst hi
    rw [hat, Option.map_some]
  · subst hi
    exact absurd (Array.getElem?_eq_some_iff.mp hat).1 hlt
  · rfl

end Chart

/-- A change works out a new beam for its span and puts it in the place of the old one. -/
theorem Change.run_eq [Scalar S] {chart : Chart S} (change : Change S) {beam : Beam S}
    (hb : chart.beam? change.first change.last = some beam) :
    change.run chart = (chart.setBeam change.first change.last ·) <$> change.onBeam beam := by
  have hread := Chart.beam_eq_ok_iff.mpr hb
  cases change with
  | add cell =>
    have hread : chart.beam cell.span.first cell.span.last = .ok beam := hread
    have hput : ∀ offered : Except Fault (Beam S × Admission),
        (·.1) <$> (do
          let answer ← offered
          .ok (chart.setBeam cell.span.first cell.span.last answer.1, answer.2)) =
        (chart.setBeam cell.span.first cell.span.last ·) <$> (·.1) <$> offered := by
      intro offered
      cases offered <;> rfl
    rw [run, Chart.add, hread]
    exact hput (beam.offer cell)
  | addAll first last cells pruned =>
    have hread : chart.beam first last = .ok beam := hread
    have hput : ∀ loop : Except Fault (Beam S),
        (do
          let beam ← loop
          .ok (chart.setBeam first last (if pruned then beam.markPruned else beam))) =
        (chart.setBeam first last ·) <$> (do
          let beam ← loop
          .ok (if pruned then beam.markPruned else beam)) := by
      intro loop
      cases loop <;> rfl
    rw [run, Chart.addAll, hread]
    exact hput _
  | mark first last =>
    have hread : chart.beam first last = .ok beam := hread
    rw [run, Chart.markPruned, hread]
    rfl
  | revise first last f => exact congrArg Except.ok (Chart.modifyBeam_eq_setBeam hb)

structure Chart.SameTriangle (chart after : Chart S) : Prop where
  tokens : after.tokens = chart.tokens
  places : after.beams.size = chart.beams.size

namespace Chart.SameTriangle

variable {chart mid after : Chart S}

theorem refl (chart : Chart S) : chart.SameTriangle chart :=
  ⟨rfl, rfl⟩

theorem trans (h : chart.SameTriangle mid) (h' : mid.SameTriangle after) :
    chart.SameTriangle after :=
  ⟨h'.tokens.trans h.tokens, h'.places.trans h.places⟩

end Chart.SameTriangle

section Passes

variable {chart after : Chart S}

theorem Chart.sameTriangle_setBeam (first last : Nat) (beam : Beam S) :
    chart.SameTriangle (chart.setBeam first last beam) :=
  ⟨rfl, Chart.size_setBeam⟩

theorem Chart.sameTriangle_modifyBeam (first last : Nat) (f : Beam S → Beam S) :
    chart.SameTriangle (chart.modifyBeam first last f) :=
  ⟨rfl, Array.size_modify⟩

variable [Scalar S]

theorem Change.ends_run (change : Change S) :
    Ends (chart.SameTriangle ·) (fun _ => True) (change.run chart) := by
  cases change with
  | add cell =>
    refine Ends.map (R := fun x => chart.SameTriangle x.1) ?_ fun _ h => h
    exact (Ends.any _).bind fun b _ => (Ends.any _).bind fun x _ =>
      Chart.sameTriangle_setBeam _ _ _
  | addAll first last cells pruned =>
    exact (Ends.any _).bind fun b _ => (Ends.any _).bind fun b' _ =>
      Chart.sameTriangle_setBeam _ _ _
  | mark first last => exact (Ends.any _).bind fun b _ => Chart.sameTriangle_setBeam _ _ _
  | revise first last f => exact Chart.sameTriangle_modifyBeam _ _ _

theorem Chart.ends_recompute :
    Ends (chart.SameTriangle ·) (fun _ => True) chart.recompute := by
  refine Ends.foldlM (fun span _ mid hmid => ?_) (.refl chart)
  exact (Ends.any _).bind fun fresh _ => hmid.trans (Chart.sameTriangle_modifyBeam _ _ _)

theorem Chart.Revised.sameTriangle (h : chart.Revised after) : chart.SameTriangle after := by
  induction h with
  | unchanged => exact .refl chart
  | recomputed _ hok ih => exact ih.trans (Ends.of_eq_ok Chart.ends_recompute hok)
  | @rescored mid _ score _ hok ih =>
    have hscored : mid.SameTriangle (mid.mapCells (·.rescoreSteps score)) :=
      ⟨rfl, Array.size_map⟩
    exact (ih.trans hscored).trans (Ends.of_eq_ok Chart.ends_recompute hok)
  | @expected mid after _ _ _ _ _ hok ih =>
    have hclear := Chart.clearOutside_of_expectedFrom hok
    have htokens := congrArg Chart.tokens hclear
    have hplaces := congrArg (·.beams.size) hclear
    rw [Chart.size_beams_clearOutside, Chart.size_beams_clearOutside] at hplaces
    exact ih.trans ⟨htokens, hplaces⟩

end Passes

/-- The charts that are made for a sentence and have come about by changes to their beams, by being
closed and by passes. -/
inductive Chart.Reached [Scalar S] (tokens : List String) (config : ChartConfig) :
    Chart S → Prop where
  | new {chart : Chart S} : Chart.new tokens config = .ok chart → Reached tokens config chart
  | changed {chart after : Chart S} (change : Change S) :
      Reached tokens config chart → change.run chart = .ok after → Reached tokens config after
  | closed {chart : Chart S} : Reached tokens config chart → Reached tokens config chart.close
  | revised {chart after : Chart S} :
      Reached tokens config chart → chart.Revised after → Reached tokens config after

namespace Chart.Reached

variable [Scalar S] {tokens : List String} {config : ChartConfig} {chart : Chart S}

theorem sameTriangle (h : Chart.Reached tokens config chart) :
    (Chart.empty tokens config).SameTriangle chart := by
  induction h with
  | @new chart hnew =>
    obtain rfl := Chart.new_eq_ok hnew
    exact .refl _
  | changed change _ hrun ih => exact ih.trans (Ends.of_eq_ok change.ends_run hrun)
  | closed _ ih => exact ih.trans ⟨rfl, Array.size_map⟩
  | revised _ hrevised ih => exact ih.trans hrevised.sameTriangle

theorem size_beams (h : Chart.Reached tokens config chart) :
    chart.beams.size = numSpans tokens.length :=
  h.sameTriangle.places.trans (Array.size_replicate ..)

theorem exists_beam (h : Chart.Reached tokens config chart) {first last : Nat}
    (hle : first ≤ last) (hlt : last < tokens.length) :
    ∃ beam, chart.beam? first last = some beam := by
  have hslot : slot first last < chart.beams.size :=
    h.size_beams.symm ▸ (slot_lt_numSpans_iff hle).mpr hlt
  exact ⟨_, (if_pos hle).trans (Array.getElem?_eq_getElem hslot)⟩

theorem of_filled {ctx : Context S} {P : Chart S → Job → Prop} {done : Set Job}
    (h : Filled ctx P done chart) : Chart.Reached ctx.tokens ctx.config chart := by
  induction h with
  | new hnew => exact .new hnew
  | @add _ chart _ job _ _ _ _ _ _ _ hadds ih =>
    obtain ⟨beam, beam', hbeam, _, rfl⟩ := hadds
    rw [← Chart.modifyBeam_eq_setBeam (f := fun _ => _) (Chart.beam_eq_ok_iff.mp hbeam)]
    exact .changed (.revise job.first job.last fun _ => _) ih rfl

theorem of_builds {ctx : Context S} {P : Chart S → Job → Prop} (h : ctx.BuildsWhere P chart) :
    Chart.Reached ctx.tokens ctx.config chart := by
  obtain ⟨_, whole, hwhole, _, rfl⟩ := h.filled
  exact (of_filled hwhole).closed

/-- The spans of a sentence of any length have the places of a triangle one to one. A chart has
these places from the beginning and keeps them. So the beam of every span is read, no change to a
span of the sentence meets a place that is not there, and it changes the beam of that span alone. -/
theorem spans_apart (h : Chart.Reached tokens config chart) :
    (∀ size, Set.BijOn (fun span : Nat × Nat => slot span.1 span.2)
      {span | span.1 ≤ span.2 ∧ span.2 < size} (Set.Iio (size * (size + 1) / 2))) ∧
    chart.beams.size = tokens.length * (tokens.length + 1) / 2 ∧
    (∀ first last, first ≤ last → last < tokens.length →
      ∃ beam, chart.beams[slot first last]? = some beam ∧ chart.beam first last = .ok beam) ∧
    ∀ change : Change S, change.first ≤ change.last → change.last < tokens.length →
      change.run chart ≠ .error .noSuchSpan ∧
      ∀ after, change.run chart = .ok after →
        (∃ beam beam', chart.beam? change.first change.last = some beam ∧
          change.onBeam beam = .ok beam' ∧
          after.beam? change.first change.last = some beam') ∧
        ∀ first last, first ≤ last → (first, last) ≠ (change.first, change.last) →
          after.beam? first last = chart.beam? first last := by
  refine ⟨bijOn_slot, h.size_beams, fun first last hle hlt => ?_, fun change hle hlt => ?_⟩
  · obtain ⟨beam, hbeam⟩ := h.exists_beam hle hlt
    refine ⟨beam, ?_, Chart.beam_eq_ok_iff.mpr hbeam⟩
    rwa [Chart.beam?, if_pos hle] at hbeam
  · obtain ⟨beam, hbeam⟩ := h.exists_beam hle hlt
    have hslot : slot change.first change.last < chart.beams.size :=
      h.size_beams.symm ▸ (slot_lt_numSpans_iff hle).mpr hlt
    rw [change.run_eq hbeam]
    refine ⟨fun herror => ?_, fun after hafter => ?_⟩
    · exact (change.ends_onBeam beam).of_error (map_eq_error.mp herror) rfl
    · obtain ⟨beam', hbeam', rfl⟩ := map_eq_ok.mp hafter
      refine ⟨⟨beam, beam', hbeam, hbeam', Chart.beam?_setBeam_self hle hslot⟩, ?_⟩
      exact fun first last _ hne => Chart.beam?_setBeam_ne hle hne

/-- A word is found after the span of both words has been marked. -/
theorem spans_apart_sighting :
    ∃ chart after : Chart Binary64,
      Chart.Reached ["walk", "on"] ⟨1, .insertionOrder, false⟩ chart ∧ chart.beams.size = 3 ∧
      (Change.add (Beam.sighting ⟨0, 0, 2, le_rfl, two_pos⟩ "N" 1)).run chart = .ok after ∧
      (∃ beam, after.beam? 0 0 = some beam ∧ beam.size = 1) ∧
      ∃ beam, after.beam? 0 1 = some beam ∧ beam.isPruned = true := by
  let word : Cell Binary64 := Beam.sighting ⟨0, 0, 2, le_rfl, two_pos⟩ "N" 1
  let config : ChartConfig := ⟨1, .insertionOrder, false⟩
  let blank : Beam Binary64 := .empty 1 .insertionOrder false
  let chart : Chart Binary64 := (Chart.empty ["walk", "on"] config).setBeam 0 1 blank.markPruned
  have hnew : Chart.Reached ["walk", "on"] config
      (Chart.empty ["walk", "on"] config : Chart Binary64) := .new rfl
  have hreached : Chart.Reached ["walk", "on"] config chart :=
    .changed (.mark 0 1) hnew rfl
  have hblank : chart.beam? 0 0 = some blank := by
    simp [chart, Chart.beam?, Chart.setBeam, Chart.empty, slot, numSpans, blank, config]
  have hoffer : (Change.add word).onBeam blank = .ok (blank.insert word false).1 := by
    simp [Change.onBeam, Beam.offer, Beam.accept, blank, Beam.empty]
  have hrun : (Change.add word).run chart =
      .ok (chart.setBeam 0 0 (blank.insert word false).1) := by
    refine (Change.run_eq (.add word) hblank).trans ?_
    rw [hoffer]
    rfl
  obtain ⟨-, hsize, -, hchange⟩ := spans_apart hreached
  obtain ⟨⟨beam, beam', hbeam, hbeam', hread⟩, hothers⟩ :=
    (hchange (.add word) le_rfl (by decide)).2 _ hrun
  obtain rfl : beam = blank := Option.some.inj (hbeam.symm.trans hblank)
  obtain rfl := Except.ok.inj (hbeam'.symm.trans hoffer)
  exact ⟨chart, _, hreached, hsize, hrun, ⟨_, hread, rfl⟩, blank.markPruned,
    hothers 0 1 zero_le_one (by decide), rfl⟩

end Chart.Reached

end Categorial
