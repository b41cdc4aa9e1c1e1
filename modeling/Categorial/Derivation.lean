import Std.Data.HashMap
import Std.Data.HashSet
import Categorial.Chart.Outside
import Categorial.Forest

/-! # Derivations

What a finished chart says about its sentence: the full parses, the best of them, and everything
below each of them.
-/

namespace Categorial

/-- A full parse: a cell over the whole sentence, with the chart below it. -/
structure Derivation (S : Type) where
  chart : Chart S
  id : CellId
  cell : Cell S

/-- One rule applied in a best tree, with the spans it joined or, for a lexical step, its own. -/
structure RuleUsage where
  rule : RuleName
  spans : List (Nat × Nat)
  deriving DecidableEq

namespace RuleUsage

def ofMaking (m : Making) : RuleUsage :=
  match m.source with
  | .entry _ => ⟨m.rule, [(m.span.first, m.span.last)]⟩
  | .cells left right => ⟨m.rule, [(left.first, left.last), (right.first, right.last)]⟩

def render (usage : RuleUsage) : String :=
  usage.rule.render ++
    String.join (usage.spans.map fun (first, last) => " " ++ Span.bounds first last)

end RuleUsage

namespace Chart

variable {S : Type} [Scalar S]

/-- Every full parse, in the order of the chart. -/
def allDerivations (chart : Chart S) : List (Derivation S) :=
  chart.fullParses.map fun (id, cell) => ⟨chart, id, cell⟩

def derivations (chart : Chart S) (filter : Category → Bool) : List (Derivation S) :=
  chart.allDerivations.filter (filter ·.cell.category)

/-- Keeps the derivations tied for the best score as they come. -/
def keepBest (best : List (Derivation S)) (derivation : Derivation S) : List (Derivation S) :=
  match best with
  | [] => [derivation]
  | first :: _ =>
    if Scalar.blt derivation.cell.viterbi first.cell.viterbi then best
    else if Scalar.beq derivation.cell.viterbi first.cell.viterbi then best ++ [derivation]
    else [derivation]

/-- The derivations tied for the best score among those that pass a filter. -/
def maxDerivations (chart : Chart S) (filter : Category → Bool) : List (Derivation S) :=
  (chart.derivations filter).foldl keepBest []

def bestDerivations (chart : Chart S) : List (Derivation S) :=
  chart.maxDerivations fun _ => true

/-- Log of the mass of the full parses that pass a filter. -/
def logNormFiltered (chart : Chart S) (filter : Category → Bool) : Except Fault S :=
  chart.logNorm 0 (chart.size - 1) fun cell => cell.isFullParse && filter cell.category

/-- Expected features over the full parses that pass a filter. -/
def logExpectedOver (chart : Chart S) (filter : Category → Bool) :
    Except Fault (LogFeatureVector S × Chart S) :=
  let roots := chart.fullParses.map (·.2.category)
  chart.logExpectedFiltered fun category => category ∈ roots && filter category

/-- Expected features over cells of the whole sentence, with outside scores by category. -/
def logExpectedScored (chart : Chart S) (scorer : Category → S) :
    Except Fault (LogFeatureVector S × Chart S) :=
  chart.logExpectedFeatures 0 (chart.size - 1) scorer

/-- Expected feature values under the distribution over the full parses. -/
def expectedFeatures (chart : Chart S) : Except Fault (FeatureVector S × Chart S) := do
  let norm ← chart.logNormFiltered fun _ => true
  let (expected, chart) ← chart.logExpectedFullParses
  .ok (expected.expNormalized norm, chart)

/-- The cells seen on a walk and the steps visited, the last one in front. -/
structure Walk (S : Type) where
  seen : Std.HashSet CellId
  visited : List (Step S)

/-- The steps of a cell that a walk follows. -/
def followed (viterbiOnly : Bool) (cell : Cell S) : List (Step S) :=
  if viterbiOnly then cell.viterbiSteps else cell.steps.map (·.step)

/-- Visits the steps of every cell once, each after the steps below it. -/
def walkWithin (chart : Chart S) (viterbiOnly : Bool) :
    Nat → CellId → Walk S → Except Fault (Walk S)
  | 0, _, _ => .error .endless
  | width + 1, id, walk =>
    if walk.seen.contains id then .ok walk
    else do
      let cell ← chart.cell id
      (followed viterbiOnly cell).foldlM
        (fun walk step => do
          let walk ← step.children.foldlM
            (fun walk child => chart.walkWithin viterbiOnly width child walk) walk
          .ok { walk with visited := step :: walk.visited })
        { walk with seen := walk.seen.insert id }

/-- Averages of the features below cells, as far as they are known. -/
abbrev Averages (S : Type) := Std.HashMap CellId (FeatureVector S)

/-- The sum of the averages below the best steps of a cell, divided by their number. -/
def averageOf (numSteps : Nat) (sum : FeatureVector S) : FeatureVector S :=
  if 1 < numSteps then sum.divideBy (Scalar.ofNat numSteps) else sum

/-- The features of the best trees, averaged over the best steps at every cell. Each cell is worked
out once. -/
def averageWithin (chart : Chart S) :
    Nat → CellId → Averages S → Except Fault (FeatureVector S × Averages S)
  | 0, _, _ => .error .endless
  | width + 1, id, known =>
    match known[id]? with
    | some features => .ok (features, known)
    | none => do
      let cell ← chart.cell id
      let steps := cell.viterbiSteps
      let (sum, known) ← steps.foldlM
        (fun (sum, known) step => do
          let (sum, known) ← step.children.foldlM
            (fun (sum, known) child => do
              let (features, known) ← chart.averageWithin width child known
              .ok (sum.addTimes Scalar.one features, known))
            (sum, known)
          .ok (sum.addTimes Scalar.one step.features, known))
        ((.empty : FeatureVector S), known)
      let features := averageOf steps.length sum
      .ok (features, known.insert id features)

end Chart

namespace Derivation

variable {S : Type} [Scalar S]

def category (d : Derivation S) : Category := d.cell.category

/-- The score of the best tree. -/
def score (d : Derivation S) : S := d.cell.viterbi

def steps (d : Derivation S) (viterbiOnly : Bool) : Except Fault (List (Step S)) := do
  let walk ← d.chart.walkWithin viterbiOnly d.id.length d.id ⟨∅, []⟩
  .ok walk.visited.reverse

/-- Every step of every cell below. -/
def allSteps (d : Derivation S) : Except Fault (List (Step S)) :=
  d.steps false

/-- The best steps of every cell that best steps reach. -/
def maxSteps (d : Derivation S) : Except Fault (List (Step S)) :=
  d.steps true

/-- The entries that some tree uses. -/
def allEntries (d : Derivation S) : Except Fault (List LexicalEntry) := do
  .ok (distinct ((← d.allSteps).filterMap Step.entry?))

/-- The entries that some best tree uses. -/
def maxEntries (d : Derivation S) : Except Fault (List LexicalEntry) := do
  .ok (distinct ((← d.maxSteps).filterMap Step.entry?))

/-- The rules that best trees use. -/
def maxRulesUsed (d : Derivation S) : Except Fault (List RuleUsage) := do
  .ok (distinct ((← d.maxSteps).map fun step => .ofMaking step.making))

/-- The features of the best trees, averaged over the best steps at every cell. -/
def averageMaxFeatures (d : Derivation S) : Except Fault (FeatureVector S) := do
  let (features, _) ← d.chart.averageWithin d.id.length d.id ∅
  .ok features

def viterbiTree (d : Derivation S) : Except Fault (Option DerivationTree) :=
  d.chart.viterbiTree d.id

def trees (d : Derivation S) : Except Fault (List (ScoredTree S)) :=
  d.chart.trees d.id

end Derivation

end Categorial
