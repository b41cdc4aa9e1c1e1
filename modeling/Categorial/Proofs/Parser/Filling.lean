import Categorial.Proofs.Chart.Arrival
import Categorial.Proofs.Parser.Reading

/-! # Filling a chart

A chart is filled by jobs that are ready, each once and in any order. This is all that the ways to
parse a sentence have in common, and what holds of every chart so filled holds of each of them.
-/

namespace Categorial

variable {S : Type} [Scalar S]

/-- A chart to which these jobs have added their cells. Each of them was done on a chart of a
certain kind. -/
inductive Filled (ctx : Context S) (P : Chart S → Job → Prop) : Set Job → Chart S → Prop where
  | new {chart : Chart S} : Chart.new ctx.tokens ctx.config = .ok chart → Filled ctx P ∅ chart
  | add {done : Set Job} {chart chart' : Chart S} {job : Job} {cells : List (Cell S)}
      {pruned : Bool} :
      Filled ctx P done chart → Ready ctx.size done job → job ∉ done → P chart job →
      ctx.cellsOf chart job = .ok (cells, pruned) →
      chart.Adds job.first job.last cells pruned chart' → Filled ctx P (insert job done) chart'

variable {ctx : Context S} {P : Chart S → Job → Prop} {done : Set Job} {chart chart' : Chart S}
  {job j : Job} {cells : List (Cell S)} {pruned : Bool}

theorem Job.Within.first_le_last {size : Nat} (h : job.Within size) : job.first ≤ job.last := by
  obtain ⟨span, _, hjob⟩ := h
  obtain ⟨hf, hl⟩ := Prod.mk.inj hjob.bounds
  rw [hf, hl]
  exact span.first_le_last

/-- A job that is yet to be done does not change what another one gives. -/
theorem Closed.cellsOf_eq (h : Closed ctx.size done) (hready : Ready ctx.size done job)
    (hnew : job ∉ done) (hadds : chart.Adds job.first job.last cells pruned chart')
    (hj : Ready ctx.size done j) (hne : j ≠ job) : ctx.cellsOf chart' j = ctx.cellsOf chart j := by
  obtain ⟨b, b', _, _, rfl⟩ := hadds
  exact Context.cellsOf_congr fun x hx =>
    Chart.beam?_setBeam_ne hready.within.first_le_last (h.reads_ne hready hnew hj hne hx)

namespace Filled

theorem closed (h : Filled ctx P done chart) : Closed ctx.size done := by
  induction h with
  | new _ => exact fun job hjob => hjob.elim
  | add _ hready _ _ _ _ ih => exact ih.insert hready

theorem tokens (h : Filled ctx P done chart) : chart.tokens = ctx.tokens := by
  induction h with
  | new h =>
    obtain rfl := Chart.new_eq_ok h
    rfl
  | add _ _ _ _ _ hadds ih =>
    obtain ⟨b, b', _, _, rfl⟩ := hadds
    exact ih

theorem size (h : Filled ctx P done chart) : chart.beams.size = numSpans ctx.size := by
  induction h with
  | new h =>
    obtain rfl := Chart.new_eq_ok h
    simp [Chart.empty, Context.size]
  | add _ _ _ _ _ hadds ih =>
    obtain ⟨b, b', _, _, rfl⟩ := hadds
    exact Chart.size_setBeam.trans ih

theorem slot_lt (h : Filled ctx P done chart) {span : Span} (hsize : span.size = ctx.size) :
    slot span.first span.last < chart.beams.size := by
  rw [h.size]
  exact (slot_lt_numSpans_iff span.first_le_last).mpr (lt_of_lt_of_eq span.last_lt_size hsize)

theorem exists_beam (h : Filled ctx P done chart) {span : Span} (hsize : span.size = ctx.size) :
    ∃ b, chart.beam? span.first span.last = some b := by
  have hslot := h.slot_lt hsize
  exact ⟨chart.beams[slot span.first span.last], by simp [Chart.beam?, span.first_le_last, hslot]⟩

end Filled

omit [Scalar S] in
theorem Chart.eq_empty_of_new {tokens : List String} {config : ChartConfig} {first last : Nat}
    {b : Beam S} (h : Chart.new tokens config = .ok chart) (hb : chart.beam? first last = some b) :
    b = .empty config.beam config.order config.separateLexical := by
  obtain rfl := Chart.new_eq_ok h
  exact Chart.eq_empty_of_beam? hb

structure Chart.AddsAt (chart : Chart S) (span : Span) (cells : List (Cell S)) (pruned : Bool)
    (chart' : Chart S) (b b' : Beam S) : Prop where
  beam : chart.beam? span.first span.last = some b
  takes : b.Takes span.first span.last cells b'
  self : chart'.beam? span.first span.last = some (if pruned then b'.markPruned else b')
  others : ∀ other : Span, other.size = span.size → other ≠ span →
    chart'.beam? other.first other.last = chart.beam? other.first other.last

theorem Filled.exists_addsAt (h : Filled ctx P done chart) (hready : Ready ctx.size done job)
    (hadds : chart.Adds job.first job.last cells pruned chart') :
    ∃ span b b', span.size = ctx.size ∧ job.Of span ∧
      chart.AddsAt span cells pruned chart' b b' := by
  obtain ⟨span, hsize, hjob⟩ := hready.within
  obtain ⟨hf, hl⟩ := Prod.mk.inj hjob.bounds
  obtain ⟨b, b', hb, htakes, rfl⟩ := hadds
  rw [hf, hl] at hb htakes ⊢
  refine ⟨span, b, b', hsize, hjob, Chart.beam_eq_ok_iff.mp hb, htakes, ?_,
    fun other hother hne => ?_⟩
  · exact Chart.beam?_setBeam_self span.first_le_last (h.slot_lt hsize)
  · refine Chart.beam?_setBeam_ne span.first_le_last fun he => hne ?_
    obtain ⟨hfirst, hlast⟩ := Prod.mk.inj he
    exact Span.ext_bounds hother hfirst hlast

end Categorial
