import Categorial.Chart.Step

/-! # Cells

A cell packs all steps that build one category over one span, with the scores and counts of the
trees that they stand for.
-/

namespace Categorial

/-- Counts stop at this value. -/
def countLimit : Nat := Nat.pow 2 64 - 1

def addCounts (a b : Nat) : Nat :=
  min (a + b) countLimit

def mulCounts (a b : Nat) : Nat :=
  min (a * b) countLimit

/-- The scores of a step's children taken together. -/
structure ChildScores (S : Type) where
  viterbi : S
  logInside : S
  numParses : Nat
  numViterbiParses : Nat

/-- A step and the scores of its children. -/
structure PackedStep (S : Type) where
  step : Step S
  children : ChildScores S

namespace PackedStep

variable {S : Type} [Scalar S]

/-- Score of the best tree of this step. -/
def viterbi (p : PackedStep S) : S :=
  p.step.localScore + p.children.viterbi

/-- Log of the mass of the trees of this step. -/
def logInside (p : PackedStep S) : S :=
  p.step.localScore + p.children.logInside

end PackedStep

/-- What is counted over the steps of a cell as they come: the best score, all trees, and the trees
and steps that reach the best score. -/
structure Tally (S : Type) where
  viterbi : S
  numParses : Nat
  numViterbiParses : Nat
  numViterbiSteps : Nat

namespace Tally

variable {S : Type} [Scalar S]

def empty : Tally S :=
  ⟨Scalar.negInf, 0, 0, 0⟩

/-- Whether a step reaches the best score so far. -/
def reached (t : Tally S) (p : PackedStep S) : Bool :=
  Scalar.beq p.viterbi t.viterbi || Scalar.blt t.viterbi p.viterbi

def add (t : Tally S) (p : PackedStep S) : Tally S :=
  let numParses := addCounts t.numParses p.children.numParses
  if Scalar.beq p.viterbi t.viterbi then
    ⟨t.viterbi, numParses, addCounts t.numViterbiParses p.children.numViterbiParses,
      t.numViterbiSteps + 1⟩
  else if Scalar.blt t.viterbi p.viterbi then
    ⟨p.viterbi, numParses, p.children.numViterbiParses, 1⟩
  else { t with numParses }

def ofSteps (steps : List (PackedStep S)) : Tally S :=
  steps.foldl add empty

end Tally

structure Cell (S : Type) where
  category : Category
  span : Span
  isFullParse : Bool
  /-- In the order in which they were added, each once. -/
  steps : List (PackedStep S)
  tally : Tally S
  logInside : S
  /-- Log mass of what surrounds the cell, once an outside pass has been made. -/
  logOutside : S

namespace Cell

variable {S : Type} [Scalar S]

/-- Sums the steps from the smallest up, so that the result does not depend on the order in which
they were added. -/
def sumInside (steps : List (PackedStep S)) : S :=
  ((steps.map PackedStep.logInside).mergeSort fun a b => Scalar.cmp a b != .gt).foldl
    LogSpace.add Scalar.negInf

/-- A cell with these steps, all scores counted afresh. -/
def withSteps (cell : Cell S) (steps : List (PackedStep S)) : Cell S :=
  { cell with steps, tally := .ofSteps steps, logInside := sumInside steps }

def new (step : Step S) (children : ChildScores S) : Cell S :=
  let steps := [⟨step, children⟩]
  { category := step.root
    span := step.span
    isFullParse := step.isFullParse
    steps
    tally := .ofSteps steps
    logInside := sumInside steps
    logOutside := Scalar.negInf }

def viterbi (cell : Cell S) : S := cell.tally.viterbi

def numParses (cell : Cell S) : Nat := cell.tally.numParses

def numViterbiParses (cell : Cell S) : Nat := cell.tally.numViterbiParses

def numSteps (cell : Cell S) : Nat := cell.steps.length

def containsStep (cell : Cell S) (making : Making) : Bool :=
  cell.steps.any (·.step.making == making)

def hasLexicalStep (cell : Cell S) : Bool :=
  cell.steps.any (·.step.isLexical)

def pruneKey (cell : Cell S) : PruneKey S :=
  ⟨cell.viterbi, cell.logInside⟩

/-- Whether a step reaches the best score of the cell. -/
def isViterbi (cell : Cell S) (p : PackedStep S) : Bool :=
  Scalar.beq p.viterbi cell.viterbi

/-- The steps that reach the best score, in the order of `steps`. -/
def viterbiSteps (cell : Cell S) : List (Step S) :=
  (cell.steps.filter cell.isViterbi).map (·.step)

/-- The names of the rules that built this cell, in order and each once. -/
def ruleNames (cell : Cell S) : List RuleName :=
  ((cell.steps.map (·.step.rule)).mergeSort RuleName.ble).eraseReps

/-- Adds a step unless it is there already, and tells whether it reached the best score. The mass is
left for later. -/
def addStep (cell : Cell S) (p : PackedStep S) : Cell S × Bool :=
  if cell.containsStep p.step.making then (cell, false)
  else
    ({ cell with steps := cell.steps ++ [p], tally := cell.tally.add p }, cell.tally.reached p)

/-- Adds steps one after the other, and tells whether any of them reached the best score when it was
added. -/
def addSteps (cell : Cell S) : List (PackedStep S) → Cell S × Bool
  | [] => (cell, false)
  | p :: rest =>
    let (cell, reached) := cell.addStep p
    let (cell, later) := addSteps cell rest
    (cell, reached || later)

/-- Adds the steps of another cell of the same category and span, and tells whether any of them
reached the best score. -/
def merge (cell other : Cell S) : Except Fault (Cell S × Bool) :=
  if other.span = cell.span ∧ other.category = cell.category then
    let (merged, changed) := cell.addSteps other.steps
    if merged.numSteps = cell.numSteps then .ok (cell, changed)
    else .ok ({ merged with logInside := sumInside merged.steps }, changed)
  else .error (.mergedApart other.span other.category cell.span cell.category)

/-- Scores every step anew from its features. The scores of the cell stay as they are. -/
def rescoreSteps (cell : Cell S) (score : FeatureVector S → S) : Cell S :=
  { cell with
    steps := cell.steps.map fun p =>
      { p with step := { p.step with localScore := score p.step.features } } }

/-- Takes fresh scores of the children, step by step, and counts everything afresh. -/
def recompute (cell : Cell S) (children : List (ChildScores S)) : Cell S :=
  cell.withSteps (cell.steps.zipWith (fun p scores => { p with children := scores }) children)

def addOutside (cell : Cell S) (mass : S) : Cell S :=
  { cell with logOutside := LogSpace.add cell.logOutside mass }

def render (cell : Cell Binary64) : String :=
  "[" ++ cell.span.render ++ " : " ++ cell.category.render ++ " : viterbi=" ++
    cell.viterbi.fixed 3 ++ " : inside=" ++ cell.logInside.fixed 3 ++
    " : parses=" ++ toString cell.numParses ++ " : viterbiParses=" ++
    toString cell.numViterbiParses ++ " : " ++
    String.intercalate ", " (cell.viterbiSteps.map Step.render) ++ "]"

end Cell

namespace ChildScores

variable {S : Type} [Scalar S]

/-- No children. -/
def leaf : ChildScores S :=
  ⟨Scalar.zero, Scalar.zero, 1, 1⟩

def join (scores : ChildScores S) (cell : Cell S) : ChildScores S where
  viterbi := scores.viterbi + cell.viterbi
  logInside := scores.logInside + cell.logInside
  numParses := mulCounts scores.numParses cell.numParses
  numViterbiParses := mulCounts scores.numViterbiParses cell.numViterbiParses

def ofCells (cells : List (Cell S)) : ChildScores S :=
  cells.foldl join leaf

end ChildScores

end Categorial
