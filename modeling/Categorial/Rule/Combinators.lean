import Categorial.Fault

/-! # Rules

Binary rules combine the categories of two adjacent constituents, unary rules change the category of
one. A rule may decline, and a rule of the caller may also raise a fault.
-/

namespace Categorial

/-- What a rule produced, and the name to record for it. -/
structure RuleResult where
  name : RuleName
  category : Category
  deriving DecidableEq

structure BinaryRule where
  name : RuleName
  apply : Category → Category → Span → Except Fault (Option RuleResult)

structure UnaryRule where
  name : RuleName
  /-- Whether the rule could take this category at all. -/
  accepts : Category → Span → Except Fault Bool
  apply : Category → Span → Except Fault (Option RuleResult)

namespace Category

/-- The semantics of a combination: none unless both parts have some. -/
def combine (op : Term → Term → Term) (f a : Category) : Option Term :=
  match f.semantics, a.semantics with
  | some f, some a => some (op f a)
  | _, _ => none

end Category

namespace BinaryRule

/-- A rule that depends on the two categories alone and reports under its own name. -/
def ofCombine (name : RuleName) (combine : Category → Category → Option Category) :
    BinaryRule where
  name := name
  apply left right _ := .ok ((combine left right).map (⟨name, ·⟩))

/-- `X/Y Y => X` -/
def combineForward (left right : Category) : Option Category :=
  match left.type with
  | .complex result .forward arg =>
    if arg = right.type then some ⟨result, Category.combine .app left right⟩ else none
  | _ => none

/-- `Y X\Y => X` -/
def combineBackward (left right : Category) : Option Category :=
  match right.type with
  | .complex result .backward arg =>
    if arg = left.type then some ⟨result, Category.combine .app right left⟩ else none
  | _ => none

/-- `X/Y Y/Z => X/Z` -/
def composeForward (left right : Category) : Option Category :=
  match left.type, right.type with
  | .complex x .forward y, .complex y' .forward z =>
    if y = y' then some ⟨.complex x .forward z, Category.combine .comp left right⟩ else none
  | _, _ => none

/-- `Y\Z X\Y => X\Z` -/
def composeBackward (left right : Category) : Option Category :=
  match left.type, right.type with
  | .complex y .backward z, .complex x .backward y' =>
    if y = y' then some ⟨.complex x .backward z, Category.combine .comp right left⟩ else none
  | _, _ => none

/-- Backward skipping is `EMPTY X => X`, forward skipping is `X EMPTY => X`. -/
def skip (direction : Direction) (left right : Category) : Option Category :=
  match direction with
  | .backward => if left = .empty then some right else none
  | .forward => if right = .empty then some left else none

def forwardApplication : BinaryRule :=
  ofCombine (.directed RuleName.applicationLabel .forward) combineForward

def backwardApplication : BinaryRule :=
  ofCombine (.directed RuleName.applicationLabel .backward) combineBackward

def forwardComposition : BinaryRule :=
  ofCombine (.directed RuleName.compositionLabel .forward) composeForward

def backwardComposition : BinaryRule :=
  ofCombine (.directed RuleName.compositionLabel .backward) composeBackward

/-- Drops an empty neighbour. -/
def skipping (direction : Direction) : BinaryRule :=
  ofCombine (.directed RuleName.skippingLabel direction) (skip direction)

end BinaryRule

namespace UnaryRule

/-- The semantics of a shifted category: those of the argument, or `fn` applied to them. -/
def shiftSemantics (fn : Option Term) (semantics : Option Term) : Option Term :=
  match fn with
  | some f => semantics.map (.app f)
  | none => semantics

/-- Changes one type into another. -/
def typeShift (label : String) (source target : SynType) (fn : Option Term) : UnaryRule where
  name := .simple label
  accepts category _ := .ok (category.type = source)
  apply category _ :=
    .ok (if category.type = source then
      some ⟨.simple label, ⟨target, shiftSemantics fn category.semantics⟩⟩
    else none)

end UnaryRule

end Categorial
