import Categorial.Chart.Basic
import Categorial.Choices
import Categorial.Tree

/-! # Unpacking trees

A chart stands for the trees that it packs. These walks make them explicit: the first best tree of a
cell, or all of its trees. They go from a cell to cells of shorter spans, so the number of its
tokens bounds them.
-/

namespace Categorial

/-- The category built at a node and the rule that built it. -/
structure DerivationNode where
  rule : RuleName
  category : Category
  deriving DecidableEq

namespace DerivationNode

def render (node : DerivationNode) : String :=
  node.category.render ++ " [" ++ node.rule.render ++ "]"

end DerivationNode

abbrev DerivationTree := Tree DerivationNode String

/-- A tree with its score and the sum of the features of its steps. -/
structure ScoredTree (S : Type) where
  tree : DerivationTree
  score : S
  features : FeatureVector S

namespace Step

variable {S : Type}

/-- The tree of a step over the trees of its children. A unary rule folded into the step has a node
of its own above that of the base rule. -/
def tree (step : Step S) (children : List DerivationTree) : DerivationTree :=
  let below := match step.entry? with
    | some entry => [.leaf (LexicalEntry.joinTokens entry.tokens) step.span]
    | none => children
  match step.rule.unary, step.intermediate with
  | some unary, some intermediate =>
    .branch ⟨.plain unary, step.root⟩ step.span
      [.branch ⟨.plain step.rule.base, intermediate⟩ step.span below]
  | _, _ => .branch ⟨step.rule, step.root⟩ step.span below

end Step

namespace Chart

variable {S : Type} [Scalar S]

/-- The tree of the first best step at every cell. -/
def viterbiTreeWithin (chart : Chart S) : Nat → CellId → Except Fault (Option DerivationTree)
  | 0, _ => .error .endless
  | width + 1, id => do
    let cell ← chart.cell id
    match cell.viterbiSteps with
    | [] => .ok none
    | step :: _ =>
      let children ← step.children.mapM (chart.viterbiTreeWithin width)
      .ok ((children.mapM fun child => child).map step.tree)

/-- The best tree of a cell, none if some cell on the way has no best step. -/
def viterbiTree (chart : Chart S) (id : CellId) : Except Fault (Option DerivationTree) :=
  chart.viterbiTreeWithin id.length id

/-- The scored tree of a step over scored trees of its children. -/
def joinTrees (step : Step S) (children : List (ScoredTree S)) : ScoredTree S where
  tree := step.tree (children.map ScoredTree.tree)
  score := children.foldl (fun score child => score + child.score) step.localScore
  features :=
    children.foldl (fun features child => features.addTimes Scalar.one child.features) step.features

/-- The trees of a step, given those of its children. -/
def treesOfStep (step : Step S) (children : List (List (ScoredTree S))) : List (ScoredTree S) :=
  (if children.isEmpty then [[]] else choices children).map (joinTrees step)

def treesWithin (chart : Chart S) : Nat → CellId → Except Fault (List (ScoredTree S))
  | 0, _ => .error .endless
  | width + 1, id => do
    let cell ← chart.cell id
    let trees ← cell.steps.mapM fun p => do
      .ok (treesOfStep p.step (← p.step.children.mapM (chart.treesWithin width)))
    .ok trees.flatten

/-- Every tree packed in a cell. Their number is exponential in general. -/
def trees (chart : Chart S) (id : CellId) : Except Fault (List (ScoredTree S)) :=
  chart.treesWithin id.length id

end Chart

end Categorial
