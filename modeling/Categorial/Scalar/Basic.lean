/-! # Scalars

What scores and feature values are made of. All of the chart's arithmetic goes through this
interface and assumes no law of it, so that the same definitions run on binary64 numbers and can be
read in exact arithmetic.
-/

namespace Categorial

/-- Numbers with a least value `negInf`, elementary functions, and two ways to compare: `beq`, `blt`
and `ble` by value, where an undefined value is related to nothing, and the total order `cmp`. -/
class Scalar (S : Type) extends Add S, Sub S, Mul S, Div S, Neg S where
  zero : S
  one : S
  /-- What an empty sum is. -/
  negZero : S
  negInf : S
  ofNat : Nat → S
  abs : S → S
  exp : S → S
  log : S → S
  /-- `exp x - 1` -/
  expm1 : S → S
  /-- `log (1 + x)` -/
  log1p : S → S
  isInfinite : S → Bool
  beq : S → S → Bool
  blt : S → S → Bool
  ble : S → S → Bool
  cmp : S → S → Ordering

namespace Scalar

variable {S : Type} [Scalar S]

def sum (xs : List S) : S :=
  xs.foldl (· + ·) negZero

/-- The greater of two values, ignoring an undefined one. -/
def max (a b : S) : S :=
  if blt a b || !beq a a then b else a

end Scalar

/-- What a beam orders cells by: the best score, and the log of the summed mass among equals. -/
structure PruneKey (S : Type) where
  primary : S
  secondary : S

namespace PruneKey

variable {S : Type} [Scalar S]

def cmp (a b : PruneKey S) : Ordering :=
  (Scalar.cmp a.primary b.primary).then (Scalar.cmp a.secondary b.secondary)

def beq (a b : PruneKey S) : Bool :=
  a.cmp b == .eq

def blt (a b : PruneKey S) : Bool :=
  a.cmp b == .lt

def ble (a b : PruneKey S) : Bool :=
  a.cmp b != .gt

end PruneKey

end Categorial
