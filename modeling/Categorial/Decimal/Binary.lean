/-! # Binary numbers taken apart

A binary64 number is a NaN, an infinity, or a sign with a whole significand and a power of two.
-/

namespace Categorial.Decimal

/-- The number `± significand * 2 ^ exponent`, or one of the values beyond the numbers. -/
inductive Binary where
  | nan
  | infinite (negative : Bool)
  | finite (negative : Bool) (significand : Nat) (exponent : Int)
  deriving DecidableEq, Repr

/-- Reads the fields of the binary64 format: the sign in one bit, the exponent in 11 and the
fraction in 52. -/
def Binary.ofBits (bits : Nat) : Binary :=
  let fraction : Nat := bits % Nat.pow 2 52
  let biased : Nat := bits / Nat.pow 2 52 % Nat.pow 2 11
  let negative := bits / Nat.pow 2 63 % 2 == 1
  if biased == 2047 then
    if fraction == 0 then .infinite negative else .nan
  else if biased == 0 then .finite negative fraction (-1074)
  else .finite negative (Nat.pow 2 52 + fraction) ((biased : Int) - 1075)

def Binary.ofFloat (x : Float) : Binary :=
  .ofBits x.toBits.toNat

/-- The size of `significand * 2 ^ exponent` as a fraction of natural numbers. -/
def magnitude (significand : Nat) (exponent : Int) : Nat × Nat :=
  (significand * Nat.pow 2 exponent.toNat, Nat.pow 2 (-exponent).toNat)

/-- The whole number nearest to `num / den`, the even one of two equally near. -/
def roundHalfEven (num den : Nat) : Nat :=
  let q := num / den
  let r := num % den
  if 2 * r < den || (2 * r == den && q % 2 == 0) then q else q + 1

end Categorial.Decimal
