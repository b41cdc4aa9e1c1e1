import Categorial.Model
import Categorial.Rule.Combinators

/-! # Steps

A step is one way of building a cell: a lexical entry, or a rule applied to two cells of shorter
spans. A unary rule is folded into the step that it applies to, so that a step never has a child in
its own span.
-/

namespace Categorial

/-- What a step builds on. -/
inductive Source where
  | entry (entry : LexicalEntry)
  | cells (left right : CellId)
  deriving DecidableEq

namespace Source

def children : Source → List CellId
  | entry _ => []
  | cells left right => [left, right]

def entry? : Source → Option LexicalEntry
  | entry e => some e
  | cells .. => none

end Source

/-- What makes a step the step that it is. Features and score follow from it. -/
structure Making where
  source : Source
  rule : RuleName
  span : Span
  root : Category
  /-- The category between the base rule and the unary rule folded into the step. -/
  intermediate : Option Category
  deriving DecidableEq

namespace Making

def view (m : Making) : StepView :=
  ⟨m.rule, m.span, m.root, m.source.entry?⟩

end Making

structure Step (S : Type) where
  making : Making
  isFullParse : Bool
  features : FeatureVector S
  localScore : S

namespace Step

variable {S : Type}

def rule (s : Step S) : RuleName := s.making.rule

def span (s : Step S) : Span := s.making.span

def root (s : Step S) : Category := s.making.root

def intermediate (s : Step S) : Option Category := s.making.intermediate

def entry? (s : Step S) : Option LexicalEntry := s.making.source.entry?

def children (s : Step S) : List CellId := s.making.source.children

def isLexical (s : Step S) : Bool := s.entry?.isSome

def scored (model : Model S) (making : Making) (isFullParse : Bool) : Step S :=
  let features := model.features making.view
  ⟨making, isFullParse, features, model.score features⟩

def lexical (model : Model S) (entry : LexicalEntry) (span : Span) (isFullParse : Bool) : Step S :=
  scored model ⟨.entry entry, .lexical, span, entry.category, none⟩ isFullParse

def binary (model : Model S) (result : RuleResult) (span : Span) (left right : CellId)
    (isFullParse : Bool) : Step S :=
  scored model ⟨.cells left right, result.name, span, result.category, none⟩ isFullParse

/-- This step followed by a unary rule. -/
def overload (model : Model S) (s : Step S) (unary : RuleResult) (isFullParse : Bool) :
    Except Fault (Step S) := do
  let name ← s.rule.overload unary.name
  .ok (scored model ⟨s.making.source, name, s.span, unary.category, some s.root⟩ isFullParse)

def render (s : Step Binary64) : String :=
  let source := match s.making.source with
    | .entry entry => entry.render
    | .cells left right => left.render ++ ", " ++ right.render
  s.rule.render ++ "[" ++ source ++ "] : " ++ s.localScore.fixed 3

end Step

end Categorial
