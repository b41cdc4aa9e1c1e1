import Categorial.Proofs.Forest.Expectations
import Categorial.Proofs.Forest.Passes

/-! # Requests for expected features

An outside pass begins by giving every cell of the chart an outside score of its own, so it forgets
what earlier passes have left there, and it changes nothing else. Requests for expected features can
then be made in any number and order, and each has the answer that it has on the chart as parsed.
-/

namespace Categorial

variable {S : Type} [Scalar S]

def Cell.clearOutside (c : Cell S) : Cell S :=
  { c with logOutside := Scalar.negInf }

def Held.clearOutside (held : Held S) : Held S :=
  { held with cell := held.cell.clearOutside }

def Beam.clearOutside (b : Beam S) : Beam S :=
  { b with slots := b.slots.map Held.clearOutside }

def Chart.clearOutside (chart : Chart S) : Chart S :=
  chart.mapCells Cell.clearOutside

section Beams

variable {b : Beam S} {f g : Held S → Held S}

theorem Beam.clearOutside_eq_self
    (h : ∀ key c, b.cell? key = some c → c.logOutside = Scalar.negInf) : b.clearOutside = b := by
  refine congrArg (fun slots => { b with slots }) (Slots.map_eq_self fun key held hheld => ?_)
  have hcell := h key held.cell (by rw [Beam.cell?, hheld, Option.map_some])
  rw [Held.clearOutside, Cell.clearOutside, ← hcell]

theorem Beam.clearOutside_map (hf : ∀ held, (f held).clearOutside = held.clearOutside) :
    ({ b with slots := b.slots.map f } : Beam S).clearOutside = b.clearOutside := by
  refine congrArg (fun slots => { b with slots }) ((Slots.map_map _ _ _).trans ?_)
  exact Slots.map_congr fun _ held _ => hf held

theorem Beam.clearOutside_modify {key : Nat}
    (hf : ∀ held, (f held).clearOutside = held.clearOutside) :
    ({ b with slots := b.slots.modify key f } : Beam S).clearOutside = b.clearOutside :=
  congrArg (fun slots => { b with slots }) (Slots.map_modify fun held _ => hf held)

theorem Beam.map_clearOutside (hf : ∀ held, f held.clearOutside = f held) :
    ({ b.clearOutside with slots := b.clearOutside.slots.map f } : Beam S) =
      { b with slots := b.slots.map f } := by
  refine congrArg (fun slots => { b with slots }) ((Slots.map_map _ _ _).trans ?_)
  exact Slots.map_congr fun _ held _ => hf held

end Beams

namespace Chart

variable {chart after : Chart S} {first last : Nat} {scorer scorer' : Cell S → S}
  {id : CellId} {c : Cell S} {expected : LogFeatureVector S}

theorem beams_clearOutside : chart.clearOutside.beams = chart.beams.map Beam.clearOutside := rfl

theorem size_clearOutside : chart.clearOutside.size = chart.size := rfl

theorem size_beams_clearOutside : chart.clearOutside.beams.size = chart.beams.size := by
  rw [beams_clearOutside, Array.size_map]

theorem beam?_clearOutside :
    chart.clearOutside.beam? first last = (chart.beam? first last).map Beam.clearOutside := by
  unfold beam?
  split_ifs
  · rw [beams_clearOutside, Array.getElem?_map]
  · rfl

theorem cellsAt_clearOutside : chart.clearOutside.cellsAt first last =
    (chart.cellsAt first last).map fun x => (x.1, x.2.clearOutside) := by
  unfold cellsAt
  rw [beam?_clearOutside]
  cases chart.beam? first last with
  | none => rfl
  | some b =>
    simp only [Option.map_some, Beam.cells, Beam.clearOutside, Slots.toList_map, List.map_map]
    rfl

theorem categories_fullParses_clearOutside :
    chart.clearOutside.fullParses.map (·.2.category) = chart.fullParses.map (·.2.category) := by
  rw [fullParses, fullParses, size_clearOutside, cellsAt_clearOutside, List.filter_map,
    List.map_map]
  rfl

theorem clearOutside_eq_self (hsize : chart.beams.size = numSpans chart.size)
    (h : ∀ id c, chart.cell id = .ok c → c.logOutside = Scalar.negInf) :
    chart.clearOutside = chart := by
  refine eq_of_beam? rfl rfl (size_beams_clearOutside.trans hsize) hsize fun first last _ _ => ?_
  rw [beam?_clearOutside]
  cases hb : chart.beam? first last with
  | none => rfl
  | some b =>
    refine congrArg some (Beam.clearOutside_eq_self fun key c hc => ?_)
    exact h ⟨first, last, key⟩ c (cell_eq_ok_iff.mpr ⟨b, hb, hc⟩)

theorem clearOutside_initOutside :
    (chart.initOutside first last scorer).clearOutside = chart.clearOutside := by
  unfold initOutside
  generalize spansByStart chart.size = spans
  induction spans generalizing chart with
  | nil => rfl
  | cons x spans ih =>
    rw [List.foldl_cons, ih]
    refine congrArg (fun beams => { chart with beams }) (map_modifyBeam fun b _ => ?_)
    exact Beam.clearOutside_map fun _ => rfl

theorem ends_addOutside (id : CellId) (mass : S) :
    Ends (·.clearOutside = chart.clearOutside) (fun _ => True) (chart.addOutside id mass) := by
  unfold addOutside
  cases hb : chart.beam id.first id.last with
  | error e => trivial
  | ok b =>
    refine congrArg (fun beams => { chart with beams }) (map_setBeam (beam_eq_ok_iff.mp hb) ?_)
    exact Beam.clearOutside_modify fun _ => rfl

theorem ends_propagateSpan (first last : Nat) : Ends (·.clearOutside = chart.clearOutside)
    (fun _ => True) (chart.propagateSpan first last) := by
  unfold propagateSpan
  cases chart.outsideUpdates first last with
  | error e => trivial
  | ok updates =>
    refine Ends.foldlM (fun u _ mid hmid => ?_) rfl
    exact (ends_addOutside u.1 u.2).mono fun _ h => h.trans hmid

theorem ends_propagate :
    Ends (·.clearOutside = chart.clearOutside) (fun _ => True) chart.propagate := by
  refine Ends.foldlM (fun x _ mid hmid => ?_) rfl
  exact (ends_propagateSpan x.1 x.2).mono fun _ h => h.trans hmid

theorem clearOutside_of_expectedFrom
    (h : chart.expectedFrom first last scorer = .ok (expected, after)) :
    after.clearOutside = chart.clearOutside := by
  obtain ⟨mid, hmid, h⟩ := bind_eq_ok.mp h
  obtain ⟨_, _, h⟩ := bind_eq_ok.mp h
  obtain ⟨_, rfl⟩ := Prod.mk.inj (Except.ok.inj h)
  have hends : Ends (·.clearOutside = (chart.initOutside first last scorer).clearOutside)
      (fun _ => True) (.ok mid) := hmid ▸ ends_propagate
  exact Eq.trans hends clearOutside_initOutside

theorem beam?_initOutside_of_lt (chart : Chart S) (first last : Nat) (scorer : Cell S → S)
    {f l : Nat} (hle : f ≤ l) (hlt : l < chart.size) :
    (chart.initOutside first last scorer).beam? f l = (chart.beam? f l).map fun b =>
      { b with
        slots := b.slots.map fun held =>
          let value := if f = first ∧ l = last then scorer held.cell else Scalar.negInf
          { held with cell := { held.cell with logOutside := value } } } := by
  rw [beam?_initOutside, if_pos (mem_spansByStart_iff.mpr ⟨hle, hlt⟩)]

theorem map_initOutside {α : Type} {f : Chart S → α}
    (hf : ∀ chart, f chart.clearOutside = f chart) :
    f (chart.initOutside first last scorer) = f chart := by
  rw [← hf, clearOutside_initOutside, hf]

theorem initOutside_eq {chart' : Chart S} (htokens : chart.tokens = chart'.tokens)
    (hconfig : chart.config = chart'.config) (hsize : chart.beams.size = numSpans chart.size)
    (hsize' : chart'.beams.size = numSpans chart.size)
    (h : ∀ f l, f ≤ l → l < chart.size → (chart.initOutside first last scorer).beam? f l =
      (chart'.initOutside first last scorer').beam? f l) :
    chart.initOutside first last scorer = chart'.initOutside first last scorer' := by
  refine eq_of_beam? ?_ ?_ ?_ ?_ h
  · rw [map_initOutside (f := Chart.tokens) fun _ => rfl, htokens,
      map_initOutside (f := Chart.tokens) fun _ => rfl]
  · rw [map_initOutside (f := Chart.config) fun _ => rfl, hconfig,
      map_initOutside (f := Chart.config) fun _ => rfl]
  · rwa [map_initOutside (f := (·.beams.size)) fun _ => size_beams_clearOutside]
  · rwa [map_initOutside (f := (·.beams.size)) fun _ => size_beams_clearOutside]

/-- A pass does not depend on the outside scores that it finds. -/
theorem initOutside_clearOutside (hsize : chart.beams.size = numSpans chart.size)
    (hscorer : ∀ c, scorer c.clearOutside = scorer c) :
    chart.clearOutside.initOutside first last scorer = chart.initOutside first last scorer := by
  have hsize' := size_beams_clearOutside.trans hsize
  refine initOutside_eq rfl rfl hsize' hsize fun f l hle hlt => ?_
  rw [beam?_initOutside_of_lt _ _ _ _ hle hlt, beam?_initOutside_of_lt chart _ _ _ hle hlt,
    beam?_clearOutside, Option.map_map]
  refine congrArg (Option.map · _) (funext fun b => Beam.map_clearOutside fun held => ?_)
  simp only [Held.clearOutside, hscorer]
  rfl

theorem initOutside_congr (hsize : chart.beams.size = numSpans chart.size)
    (h : ∀ x ∈ chart.cellsAt first last, scorer x.2 = scorer' x.2) :
    chart.initOutside first last scorer = chart.initOutside first last scorer' := by
  refine initOutside_eq rfl rfl hsize hsize fun f l hle hlt => ?_
  rw [beam?_initOutside_of_lt _ _ _ _ hle hlt, beam?_initOutside_of_lt _ _ _ _ hle hlt]
  refine Option.map_congr fun b hb => congrArg (fun slots => { b with slots }) ?_
  refine Slots.map_congr fun key held hheld => ?_
  by_cases hroot : f = first ∧ l = last
  · obtain ⟨rfl, rfl⟩ := hroot
    have hcell : b.cell? key = some held.cell := by rw [Beam.cell?, hheld, Option.map_some]
    have hx := h (⟨f, l, key⟩, held.cell)
      (mem_cellsAt_iff.mpr ⟨rfl, rfl, cell_eq_ok_iff.mpr ⟨b, hb, hcell⟩⟩)
    simp only [and_self, if_true]
    rw [hx]
  · simp only [if_neg hroot]

theorem expectedFrom_clearOutside (hsize : chart.beams.size = numSpans chart.size)
    (hscorer : ∀ c, scorer c.clearOutside = scorer c) :
    chart.clearOutside.expectedFrom first last scorer = chart.expectedFrom first last scorer := by
  rw [expectedFrom, expectedFrom, initOutside_clearOutside hsize hscorer]

theorem expectedFrom_congr (hsize : chart.beams.size = numSpans chart.size)
    (h : ∀ x ∈ chart.cellsAt first last, scorer x.2 = scorer' x.2) :
    chart.expectedFrom first last scorer = chart.expectedFrom first last scorer' := by
  rw [expectedFrom, expectedFrom, initOutside_congr hsize h]

end Chart

/-- What can be asked of the chart of a sentence. -/
inductive Request (S : Type) where
  /-- The derivations at a span, with outside scores by category. -/
  | scored (first last : Nat) (scorer : Category → S)
  /-- The cells over the whole sentence that pass a filter. -/
  | filtered (filter : Category → Bool)
  /-- The full parses that pass a filter. -/
  | passing (filter : Category → Bool)
  | fullParses

namespace Request

def run : Request S → Chart S → Except Fault (LogFeatureVector S × Chart S)
  | scored first last scorer, chart => chart.logExpectedFeatures first last scorer
  | filtered filter, chart => chart.logExpectedFiltered filter
  | passing filter, chart => chart.logExpectedOver filter
  | fullParses, chart => chart.logExpectedFullParses

/-- The answers to requests that are made one after the other, and the chart in the end. -/
def runAll : List (Request S) → Chart S → Except Fault (List (LogFeatureVector S) × Chart S)
  | [], chart => .ok ([], chart)
  | request :: requests, chart => do
    let (expected, chart) ← request.run chart
    let (rest, chart) ← runAll requests chart
    .ok (expected :: rest, chart)

variable {request : Request S} {chart mid after : Chart S}
  {expected : LogFeatureVector S}

theorem exists_expectedFrom (request : Request S) (chart : Chart S) :
    ∃ first last scorer, (∀ c, scorer c.clearOutside = scorer c) ∧
      request.run chart = chart.expectedFrom first last scorer ∧
      request.run chart.clearOutside = chart.clearOutside.expectedFrom first last scorer := by
  cases request with
  | scored first last scorer => exact ⟨first, last, (scorer ·.category), fun _ => rfl, rfl, rfl⟩
  | filtered filter => exact ⟨_, _, _, fun _ => rfl, rfl, rfl⟩
  | passing filter =>
    refine ⟨_, _, _, fun _ => rfl, rfl, ?_⟩
    simp only [run, Chart.logExpectedOver, Chart.categories_fullParses_clearOutside]
    rfl
  | fullParses => exact ⟨_, _, _, fun _ => rfl, rfl, rfl⟩

theorem clearOutside_of_run (h : request.run chart = .ok (expected, after)) :
    after.clearOutside = chart.clearOutside := by
  obtain ⟨first, last, scorer, _, hrun, _⟩ := request.exists_expectedFrom chart
  exact Chart.clearOutside_of_expectedFrom (hrun.symm.trans h)

theorem run_clearOutside (hsize : chart.beams.size = numSpans chart.size) :
    request.run chart.clearOutside = request.run chart := by
  obtain ⟨first, last, scorer, hscorer, hrun, hclear⟩ := request.exists_expectedFrom chart
  rw [hrun, hclear, Chart.expectedFrom_clearOutside hsize hscorer]

theorem run_congr (hsize : chart.beams.size = numSpans chart.size)
    (h : mid.clearOutside = chart.clearOutside) : request.run mid = request.run chart := by
  have hbeams : mid.beams.size = chart.beams.size := by
    rw [← Chart.size_beams_clearOutside, h, Chart.size_beams_clearOutside]
  have hlength : mid.size = chart.size := by
    rw [← Chart.size_clearOutside, h, Chart.size_clearOutside]
  rw [← run_clearOutside (hlength ▸ hbeams.trans hsize), h, run_clearOutside hsize]

/-- Whatever was asked before, each request has the answer that it has on the chart as it was. -/
theorem exists_runAll (requests : List (Request S)) (hlinked : chart.Linked)
    (hsize : chart.beams.size = numSpans chart.size)
    (h : mid.clearOutside = chart.clearOutside) :
    ∃ answers after, runAll requests mid = .ok (answers, after) ∧
      List.Forall₂ (fun request expected => ∃ next, request.run chart = .ok (expected, next))
        requests answers ∧
      after.clearOutside = chart.clearOutside := by
  induction requests generalizing mid with
  | nil => exact ⟨[], mid, rfl, .nil, h⟩
  | cons request requests ih =>
    obtain ⟨first, last, scorer, _, hrun, _⟩ := request.exists_expectedFrom chart
    obtain ⟨expected, next, hok, _⟩ := hlinked.exists_expectedFrom first last scorer
    have hfresh : request.run chart = .ok (expected, next) := hrun.trans hok
    have hmid : request.run mid = .ok (expected, next) := (run_congr hsize h).trans hfresh
    obtain ⟨answers, after, hall, hanswers, hafter⟩ := ih (clearOutside_of_run hfresh)
    refine ⟨expected :: answers, after, ?_, .cons ⟨next, hfresh⟩ hanswers, hafter⟩
    exact bind_eq_ok.mpr ⟨_, hmid, bind_eq_ok.mpr ⟨_, hall, rfl⟩⟩

end Request

namespace Context

variable {ctx : Context S} {chart : Chart S} {P : Chart S → Job → Prop}

theorem BuildsWhere.clearOutside_eq (h : ctx.BuildsWhere P chart) : chart.clearOutside = chart := by
  obtain ⟨done, hgrounded⟩ := h.grounded
  refine Chart.clearOutside_eq_self (h.size_eq ▸ h.size_beams) fun id c hc => ?_
  obtain ⟨_, _, _, _, hg⟩ := hgrounded id c hc
  exact hg.logOutside

theorem BuildsWhere.passing_all_eq (h : ctx.BuildsWhere P chart) :
    (Request.passing fun _ => true).run chart = Request.fullParses.run chart := by
  refine Chart.expectedFrom_congr (h.size_eq ▸ h.size_beams) fun x hx => ?_
  refine congrArg Chart.indicator ?_
  dsimp only
  rw [Bool.and_true, Bool.eq_iff_iff, decide_eq_true_iff]
  exact h.mem_categories_fullParses_iff hx

/-- Requests for expected features are all answered, each as if it was the first, and they change
nothing but outside scores. All full parses are asked for by no filter as well as by one that
everything passes. -/
theorem requests_independent (h : ctx.Builds chart) (requests : List (Request S)) :
    ∃ answers after, Request.runAll requests chart = .ok (answers, after) ∧
      List.Forall₂ (fun request expected => ∃ next, request.run chart = .ok (expected, next))
        requests answers ∧
      after.clearOutside = chart ∧
      (∀ request : Request S, request.run after = request.run chart) ∧
      (Request.passing fun _ => true).run after = Request.fullParses.run after := by
  have hfresh := BuildsWhere.clearOutside_eq h
  have hsize : chart.beams.size = numSpans chart.size :=
    (BuildsWhere.size_beams h).trans (congrArg numSpans (BuildsWhere.size_eq h).symm)
  obtain ⟨answers, after, hall, hanswers, hafter⟩ :=
    Request.exists_runAll requests (BuildsWhere.rooted h).linked hsize rfl
  have hsame : ∀ request : Request S, request.run after = request.run chart :=
    fun request => Request.run_congr hsize hafter
  refine ⟨answers, after, hall, hanswers, hafter.trans hfresh, hsame, ?_⟩
  rw [hsame, hsame]
  exact BuildsWhere.passing_all_eq h

theorem requests_independent_sheWalks : ∃ chart, sheWalks.Builds chart ∧ chart.fullParses ≠ [] ∧
    ∃ first second after,
      Request.runAll [.scored 0 0 fun _ => Scalar.zero, .fullParses] chart =
        .ok ([first, second], after) ∧
      (∃ next, chart.logExpectedFullParses = .ok (second, next)) ∧ after.clearOutside = chart := by
  obtain ⟨chart, hbuilds, x, _, hx, _⟩ := exists_fullParse_sheWalks
  obtain ⟨answers, after, hall, hanswers, hafter, _⟩ :=
    requests_independent hbuilds [.scored 0 0 fun _ => Scalar.zero, .fullParses]
  cases hanswers with
  | cons _ hrest =>
    cases hrest with
    | cons hsecond hnil =>
      cases hnil
      exact ⟨chart, hbuilds, List.ne_nil_of_mem hx, _, _, after, hall, hsecond, hafter⟩

end Context

end Categorial
