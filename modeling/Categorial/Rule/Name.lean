/-! # Rule names

The name of a rule has a label, a direction and an order. A step that applies a unary rule right
after another rule is recorded under both names at once.
-/

namespace Categorial

inductive Direction where
  | forward
  | backward
  deriving DecidableEq, Hashable, Repr

namespace Direction

def symbol : Direction → String
  | forward => ">"
  | backward => "<"

/-- No direction comes first, then forward, then backward. -/
def rank : Option Direction → Nat
  | none => 0
  | some forward => 1
  | some backward => 2

end Direction

/-- The name of one rule. -/
structure BaseName where
  label : String
  direction : Option Direction
  order : Nat
  deriving DecidableEq, Hashable, Repr

namespace BaseName

def cmp (a b : BaseName) : Ordering :=
  (compare a.label b.label).then
    ((compare (Direction.rank a.direction) (Direction.rank b.direction)).then
      (compare a.order b.order))

def render (n : BaseName) : String :=
  (n.direction.map Direction.symbol).getD "" ++ n.label ++
    (if n.order = 0 then "" else toString n.order)

end BaseName

/-- The name of one rule, or of a rule and the unary rule folded into the same step. -/
structure RuleName where
  base : BaseName
  unary : Option BaseName
  deriving DecidableEq, Hashable, Repr

namespace RuleName

def applicationLabel : String := "apply"

def compositionLabel : String := "comp"

def lexicalLabel : String := "lex"

def skippingLabel : String := "skip"

def plain (base : BaseName) : RuleName :=
  ⟨base, none⟩

def directed (label : String) (direction : Direction) : RuleName :=
  plain ⟨label, some direction, 0⟩

def simple (label : String) : RuleName :=
  plain ⟨label, none, 0⟩

def lexical : RuleName :=
  simple lexicalLabel

def isOverloaded (n : RuleName) : Bool :=
  n.unary.isSome

def isLexical (n : RuleName) : Bool :=
  !n.isOverloaded && n.base.label == lexicalLabel

/-- The rule applied last: the unary rule if there is one. -/
def outermost (n : RuleName) : BaseName :=
  n.unary.getD n.base

/-- One rule followed by a unary rule. Neither may have been folded already. -/
def overload? (n unary : RuleName) : Option RuleName :=
  if n.isOverloaded || unary.isOverloaded then none else some ⟨n.base, some unary.base⟩

def cmp (a b : RuleName) : Ordering :=
  (a.base.cmp b.base).then
    (match a.unary, b.unary with
      | none, none => .eq
      | none, some _ => .lt
      | some _, none => .gt
      | some u, some v => u.cmp v)

def ble (a b : RuleName) : Bool :=
  a.cmp b != .gt

def render (n : RuleName) : String :=
  match n.unary with
  | none => n.base.render
  | some u => n.base.render ++ "+" ++ u.render

end RuleName

end Categorial
