import Categorial.Span
import Categorial.Category.Basic
import Categorial.Rule.Name

/-! # Faults

A fault is a broken promise between parts of the parser, or one that a rule or filter of the caller
raises. It ends the computation that meets it.
-/

namespace Categorial

inductive Fault where
  | invalidSpan (first last size : Nat)
  | splitOutOfRange (k : Nat) (span : Span)
  | overloadedTwice (name unary : RuleName)
  | noCapacity
  | mergedApart (span : Span) (category : Category) (intoSpan : Span) (intoCategory : Category)
  | dangling (id : CellId)
  | notAdjacent (rule : RuleName) (left right : Span)
  | unregistered (first last : Nat)
  /-- A job that the span no longer waits for: a split, or the lexical job where none is given. -/
  | notPending (split : Option Nat) (first last : Nat)
  | outOfTurn (first last : Nat)
  | unfinished (count : Nat)
  /-- Raised by a rule or a filter of the caller. -/
  | raised (text : String)
  /-- A span that the chart does not have. -/
  | noSuchSpan
  /-- A cell in a batch for another span. -/
  | misplaced
  /-- A step below which there are no shorter spans. -/
  | endless
  deriving DecidableEq

namespace Fault

/-- The text of a fault, for those that have one. -/
def message? : Fault → Option String
  | invalidSpan first last size =>
    some ("invalid span " ++ Span.bounds first last ++ " in sentence of length " ++ toString size)
  | splitOutOfRange k span => some ("split " ++ toString k ++ " out of range for " ++ span.render)
  | overloadedTwice name unary =>
    some ("can't overload " ++ name.render ++ " with " ++ unary.render)
  | noCapacity => some "cell queue needs a positive capacity"
  | mergedApart span category intoSpan intoCategory =>
    some ("merging cell " ++ span.render ++ " " ++ category.render ++ " into " ++
      intoSpan.render ++ " " ++ intoCategory.render)
  | dangling id => some ("dangling cell reference " ++ id.render)
  | notAdjacent rule left right =>
    some (rule.render ++ " can't combine non-adjacent spans " ++ left.render ++ " and " ++
      right.render)
  | unregistered first last => some ("span " ++ Span.bounds first last ++ " isn't registered")
  | notPending split first last =>
    let job := match split with
      | some k => "Split(" ++ toString k ++ ")"
      | none => "Lexical"
    some (job ++ " for span " ++ Span.bounds first last ++ " wasn't pending")
  | outOfTurn first last => some ("span " ++ Span.bounds first last ++ " finished out of turn")
  | unfinished count => some (toString count ++ " spans never finished")
  | raised text => some text
  | noSuchSpan => none
  | misplaced => none
  | endless => none

end Fault

namespace Span

def ofBounds (first last size : Nat) : Except Fault Span :=
  match ofBounds? first last size with
  | some span => .ok span
  | none => .error (.invalidSpan first last size)

def splitAt (s : Span) (k : Nat) : Except Fault (Span × Span) :=
  if h : k < s.numSplits then .ok (s.split k h) else .error (.splitOutOfRange k s)

def join (left right : Span) : Except Fault Span :=
  ofBounds left.first right.last left.size

end Span

namespace RuleName

def overload (n unary : RuleName) : Except Fault RuleName :=
  match n.overload? unary with
  | some name => .ok name
  | none => .error (.overloadedTwice n unary)

end RuleName

end Categorial
