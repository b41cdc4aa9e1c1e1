import Categorial.Scalar.Basic

/-! # Sums and differences in log space

Masses are kept as logarithms, with `negInf` for no mass at all.
-/

namespace Categorial.LogSpace

open Scalar

variable {S : Type} [Scalar S]

/-- `log (exp a + exp b)`, exact when either side is `negInf`. -/
def add (a b : S) : S :=
  if beq a negInf then b
  else if beq b negInf then a
  else if ble b a then a + log1p (exp (b - a))
  else b + log1p (exp (a - b))

/-- A difference `log (exp left - exp right)` that was asked for without `right ≤ left`. -/
structure NegativeDifference (S : Type) where
  left : S
  right : S

/-- `log (exp a - exp b)` for `b ≤ a`. Equal sides give `negInf`. -/
def sub (a b : S) : Except (NegativeDifference S) S :=
  if !ble b a then .error ⟨a, b⟩
  else if beq b negInf then .ok a
  else .ok (a + log (-expm1 (b - a)))

/-- The log of the sum of any number of masses. An empty sum is `negInf`. -/
def sum (xs : List S) : S :=
  let top := xs.foldl Scalar.max negInf
  if isInfinite top then top
  else top + log (Scalar.sum (xs.map fun x => exp (x - top)))

end Categorial.LogSpace
