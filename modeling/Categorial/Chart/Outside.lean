import Categorial.Chart.Basic
import Categorial.Features.LogVector

/-! # Outside scores and expected features

An outside pass gives every cell the log mass of what surrounds it in the trees of some root cells,
from the longest spans down. Inside and outside scores together weigh the features of every step.
-/

namespace Categorial.Chart

variable {S : Type} [Scalar S]

/-- Gives the cells of the root span their outside scores and takes away all others. -/
def initOutside (chart : Chart S) (first last : Nat) (scorer : Cell S → S) : Chart S :=
  (spansByStart chart.size).foldl
    (fun chart (f, l) => chart.modifyBeam f l fun beam =>
      { beam with
        slots := beam.slots.map fun held =>
          let value := if f = first ∧ l = last then scorer held.cell else Scalar.negInf
          { held with cell := { held.cell with logOutside := value } } })
    chart

/-- What a step passes on to its children: the mass around it and the mass inside of the other
child. -/
def stepUpdates (chart : Chart S) (outside : S) (step : Step S) :
    Except Fault (List (CellId × S)) :=
  match step.making.source with
  | .entry _ => .ok []
  | .cells left right => do
    let rightInside := (← chart.cell right).logInside
    let leftInside := (← chart.cell left).logInside
    .ok [(left, outside + step.localScore + Scalar.sum [rightInside]),
      (right, outside + step.localScore + Scalar.sum [leftInside])]

/-- Whether any of the trees at the roots goes through a cell. -/
def hasOutside (cell : Cell S) : Bool :=
  !Scalar.beq cell.logOutside Scalar.negInf

/-- What the cells of a span pass on to their children. -/
def outsideUpdates (chart : Chart S) (first last : Nat) : Except Fault (List (CellId × S)) := do
  let updates ← ((chart.cellsAt first last).filter (hasOutside ·.2)).mapM fun (_, cell) => do
    .ok (← cell.steps.mapM fun p => chart.stepUpdates cell.logOutside p.step).flatten
  .ok updates.flatten

def addOutside (chart : Chart S) (id : CellId) (mass : S) : Except Fault (Chart S) := do
  let beam ← chart.beam id.first id.last
  .ok (chart.setBeam id.first id.last
    { beam with
      slots := beam.slots.modify id.key fun held =>
        { held with cell := held.cell.addOutside mass } })

/-- Passes the outside mass of one span on. -/
def propagateSpan (chart : Chart S) (first last : Nat) : Except Fault (Chart S) := do
  let updates ← chart.outsideUpdates first last
  updates.foldlM (fun chart (id, mass) => chart.addOutside id mass) chart

/-- All spans of a sentence, the longest first and then from left to right. -/
def spansFromLongest (size : Nat) : List (Nat × Nat) :=
  (List.range size).reverse.flatMap fun extra =>
    (List.range (size - extra)).map fun first => (first, first + extra)

/-- Passes outside mass on from long spans to short ones. Children sit in shorter spans, so a span
is final once all longer ones are done. -/
def propagate (chart : Chart S) : Except Fault (Chart S) :=
  (spansFromLongest chart.size).foldlM
    (fun chart (first, last) => chart.propagateSpan first last) chart

/-- Log of the mass of the trees through a step. -/
def stepWeight (chart : Chart S) (outside : S) (step : Step S) : Except Fault S := do
  let inside ← step.children.mapM fun child => Cell.logInside <$> chart.cell child
  .ok (outside + step.localScore + Scalar.sum inside)

/-- The features of all steps, each weighed by the trees through it. -/
def collect (chart : Chart S) : Except Fault (LogFeatureVector S) :=
  (chart.cells.filter (hasOutside ·.2)).foldlM
    (fun expected (_, cell) =>
      cell.steps.foldlM
        (fun expected p => do
          let weight ← chart.stepWeight cell.logOutside p.step
          .ok (expected.addScaled weight p.step.features))
        expected)
    .empty

/-- Outside pass from the cells of a span, and the expected features that follow from it. -/
def expectedFrom (chart : Chart S) (first last : Nat) (scorer : Cell S → S) :
    Except Fault (LogFeatureVector S × Chart S) := do
  let chart ← (chart.initOutside first last scorer).propagate
  let expected ← chart.collect
  .ok (expected, chart)

/-- Log of the expected feature values over the derivations at a span, not normalised. The scorer
gives each category its outside score, and `negInf` leaves it out. -/
def logExpectedFeatures (chart : Chart S) (first last : Nat) (scorer : Category → S) :
    Except Fault (LogFeatureVector S × Chart S) :=
  chart.expectedFrom first last (scorer ·.category)

def indicator (b : Bool) : S :=
  if b then Scalar.zero else Scalar.negInf

/-- Over the cells of the whole sentence whose category passes a filter. -/
def logExpectedFiltered (chart : Chart S) (filter : Category → Bool) :
    Except Fault (LogFeatureVector S × Chart S) :=
  chart.logExpectedFeatures 0 (chart.size - 1) fun category => indicator (filter category)

/-- Over the full parses. -/
def logExpectedFullParses (chart : Chart S) : Except Fault (LogFeatureVector S × Chart S) :=
  chart.expectedFrom 0 (chart.size - 1) fun cell => indicator cell.isFullParse

end Categorial.Chart
