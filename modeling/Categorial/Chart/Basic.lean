import Categorial.Chart.Beam

/-! # Charts

A chart is a packed forest: one beam of cells per span of a sentence, laid out as a triangle.
-/

namespace Categorial

structure ChartConfig where
  beam : Nat
  order : PruneOrder
  /-- Lexical cells are kept outside the beam, so that they are never starved out. -/
  separateLexical : Bool
  deriving DecidableEq, Repr

structure Chart (S : Type) where
  tokens : List String
  config : ChartConfig
  /-- One beam per span, at the place that `slot` gives. -/
  beams : Array (Beam S)

/-- The place of a span in the triangle. -/
def slot (first last : Nat) : Nat :=
  last * (last + 1) / 2 + first

/-- The number of spans of a sentence. -/
def numSpans (size : Nat) : Nat :=
  size * (size + 1) / 2

/-- All spans of a sentence, the shortest first and then from left to right. -/
def spansByLength (size : Nat) : List (Nat × Nat) :=
  (List.range size).flatMap fun extra =>
    (List.range (size - extra)).map fun first => (first, first + extra)

/-- All spans of a sentence by their first and then by their last token. -/
def spansByStart (size : Nat) : List (Nat × Nat) :=
  (List.range size).flatMap fun first =>
    (List.range (size - first)).map fun extra => (first, first + extra)

namespace Chart

variable {S : Type} [Scalar S]

def empty (tokens : List String) (config : ChartConfig) : Chart S :=
  ⟨tokens, config, Array.replicate (numSpans tokens.length)
    (.empty config.beam config.order config.separateLexical)⟩

/-- An empty chart. Its beams have room for something, if it has any. -/
def new (tokens : List String) (config : ChartConfig) : Except Fault (Chart S) :=
  if config.beam = 0 ∧ tokens ≠ [] then .error .noCapacity else .ok (empty tokens config)

def size (chart : Chart S) : Nat :=
  chart.tokens.length

def beam? (chart : Chart S) (first last : Nat) : Option (Beam S) :=
  if first ≤ last then chart.beams[slot first last]? else none

def beam (chart : Chart S) (first last : Nat) : Except Fault (Beam S) :=
  match chart.beam? first last with
  | some beam => .ok beam
  | none => .error .noSuchSpan

def setBeam (chart : Chart S) (first last : Nat) (beam : Beam S) : Chart S :=
  { chart with beams := chart.beams.setIfInBounds (slot first last) beam }

def modifyBeam (chart : Chart S) (first last : Nat) (f : Beam S → Beam S) : Chart S :=
  { chart with beams := chart.beams.modify (slot first last) f }

/-- Offers a cell to the beam of its span. -/
def add (chart : Chart S) (cell : Cell S) : Except Fault (Chart S × Admission) := do
  let beam ← chart.beam cell.span.first cell.span.last
  let (beam, admission) ← beam.offer cell
  .ok (chart.setBeam cell.span.first cell.span.last beam, admission)

/-- Offers a batch of cells to one span, and marks the span if the batch is incomplete. -/
def addAll (chart : Chart S) (first last : Nat) (cells : List (Cell S)) (pruned : Bool) :
    Except Fault (Chart S) := do
  let beam ← chart.beam first last
  let beam ← cells.foldlM
    (fun beam cell =>
      if cell.span.first = first ∧ cell.span.last = last then (·.1) <$> beam.offer cell
      else .error .misplaced)
    beam
  .ok (chart.setBeam first last (if pruned then beam.markPruned else beam))

def markPruned (chart : Chart S) (first last : Nat) : Except Fault (Chart S) := do
  let beam ← chart.beam first last
  .ok (chart.setBeam first last beam.markPruned)

/-- The chart once nothing more will be added. -/
def close (chart : Chart S) : Chart S :=
  { chart with beams := chart.beams.map Beam.close }

/-- The cells of a span that the chart has, with their handles. -/
def cellsAt (chart : Chart S) (first last : Nat) : List (CellId × Cell S) :=
  match chart.beam? first last with
  | some beam => beam.cells.map fun (key, cell) => (⟨first, last, key⟩, cell)
  | none => []

/-- All cells, those of the shortest spans first. -/
def cells (chart : Chart S) : List (CellId × Cell S) :=
  (spansByLength chart.size).flatMap fun (first, last) => chart.cellsAt first last

def cell (chart : Chart S) (id : CellId) : Except Fault (Cell S) := do
  let beam ← chart.beam id.first id.last
  match beam.cell? id.key with
  | some cell => .ok cell
  | none => .error (.dangling id)

def find (chart : Chart S) (first last : Nat) (category : Category) :
    Except Fault (Option CellId) := do
  let beam ← chart.beam first last
  .ok ((beam.find? category).map fun (key, _) => ⟨first, last, key⟩)

/-- The spans whose cells are incomplete. -/
def prunedSpans (chart : Chart S) : List (Nat × Nat) :=
  (spansByStart chart.size).filter fun (first, last) =>
    (chart.beam? first last).any Beam.isPruned

/-- No span was pruned, so the chart holds every derivation. -/
def isExact (chart : Chart S) : Bool :=
  chart.prunedSpans.isEmpty

/-- The cells over the whole sentence that count as results. -/
def fullParses (chart : Chart S) : List (CellId × Cell S) :=
  (chart.cellsAt 0 (chart.size - 1)).filter (·.2.isFullParse)

/-- Log of the mass of the cells of a span that pass a filter. -/
def logNorm (chart : Chart S) (first last : Nat) (filter : Cell S → Bool) : Except Fault S := do
  let beam ← chart.beam first last
  .ok (LogSpace.sum ((beam.cells.map (·.2)).filter filter |>.map Cell.logInside))

/-- Fresh scores of the children of each step of a cell. -/
def childScores (chart : Chart S) (cell : Cell S) : Except Fault (List (ChildScores S)) :=
  cell.steps.mapM fun p => ChildScores.ofCells <$> p.step.children.mapM chart.cell

/-- Counts the scores of one span afresh. -/
def recomputeSpan (chart : Chart S) (first last : Nat) : Except Fault (Chart S) := do
  let fresh ← (chart.cellsAt first last).mapM fun (id, cell) => do
    .ok (id.key, cell.recompute (← chart.childScores cell))
  .ok (chart.modifyBeam first last fun beam =>
    { beam with
      slots := fresh.foldl
        (fun slots (key, cell) => slots.modify key fun held => { held with cell }) beam.slots })

/-- Counts all scores afresh from the steps, those of the shortest spans first. -/
def recompute (chart : Chart S) : Except Fault (Chart S) :=
  (spansByLength chart.size).foldlM (fun chart (first, last) => chart.recomputeSpan first last)
    chart

def mapCells (chart : Chart S) (f : Cell S → Cell S) : Chart S :=
  { chart with
    beams := chart.beams.map fun beam =>
      { beam with slots := beam.slots.map fun held => { held with cell := f held.cell } } }

/-- Scores every step anew from its features and counts everything afresh. -/
def rescore (chart : Chart S) (score : FeatureVector S → S) : Except Fault (Chart S) :=
  (chart.mapCells (·.rescoreSteps score)).recompute

/-- The tokens `first` to `last` as one text. -/
def textOf (chart : Chart S) (first last : Nat) : String :=
  LexicalEntry.joinTokens ((chart.tokens.drop first).take (last + 1 - first))

/-- One line per cell, the best first, and the pruned spans at the end. -/
def render (chart : Chart Binary64) : String :=
  let better (a b : CellId × Cell Binary64) : Bool :=
    (b.2.pruneKey.cmp a.2.pruneKey).then (a.1.cmp b.1) != .gt
  let lines := (chart.cells.mergeSort better).map fun (_, cell) =>
    chart.textOf cell.span.first cell.span.last ++ " :- " ++ cell.render ++ "\n"
  let pruned := chart.prunedSpans.map fun (first, last) => Span.bounds first last
  String.join lines ++ "Spans pruned: [" ++ String.intercalate ", " pruned ++ "]"

end Chart

end Categorial
