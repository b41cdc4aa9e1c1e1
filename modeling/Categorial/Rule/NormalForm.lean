import Categorial.Rule.Name

/-! # Normal form

Constraints that reject combinations known to add only spurious ambiguity. A constraint sees the
names of the rules that built each argument.
-/

namespace Categorial

/-- A check of the rules to combine. What it sees of each argument are the names of the rules that
built it. -/
structure Constraint where
  allowsBinary (left right : List RuleName) (rule : RuleName) : Bool
  allowsUnary (child : List RuleName) (rule : RuleName) : Bool

namespace Constraint

/-- Whether any of the names ends in a composition in this direction whose order passes `p`. -/
def anyComposed (names : List RuleName) (direction : Direction) (p : Nat → Bool) : Bool :=
  names.any fun name =>
    let last := name.outermost
    last.label == RuleName.compositionLabel && last.direction == some direction && p last.order

def allowsComposition (left right : List RuleName) (rule : BaseName) : Bool :=
  match rule.direction with
  | none => true
  | some direction =>
    let (primary, secondary) := match direction with
      | .forward => (left, right)
      | .backward => (right, left)
    let isComposition := rule.label == RuleName.compositionLabel
    let isApplication := rule.label == RuleName.applicationLabel
    !((isApplication || (isComposition && rule.order == 0)) &&
        anyComposed primary direction fun _ => true) &&
      !(isComposition && anyComposed primary direction (· == 0)) &&
      !(isComposition && anyComposed secondary direction (· < rule.order))

/-- The primary functor of an application or of a composition of order zero does not come from
composition in the same direction, that of any composition does not come from composition of order
zero in the same direction, and the secondary functor of a composition does not come from
composition of a lower order in the same direction. -/
def composition : Constraint where
  allowsBinary left right rule := allowsComposition left right rule.base
  allowsUnary _ _ := true

/-- No unary rule applies to what any of these rules built. -/
def unary (banned : List RuleName) : Constraint where
  allowsBinary _ _ _ := true
  allowsUnary child _ := !child.any fun name => .plain name.outermost ∈ banned

end Constraint

/-- All constraints hold. -/
structure NormalForm where
  constraints : List Constraint

namespace NormalForm

def allowsBinary (nf : NormalForm) (left right : List RuleName) (rule : RuleName) : Bool :=
  nf.constraints.all (·.allowsBinary left right rule)

def allowsUnary (nf : NormalForm) (child : List RuleName) (rule : RuleName) : Bool :=
  nf.constraints.all (·.allowsUnary child rule)

end NormalForm

end Categorial
