import Categorial.Decimal.Binary

/-! # Decimals with a fixed number of places

The exact binary value is rounded once, and a half goes to the even neighbour.
-/

namespace Categorial.Decimal

def sign (negative : Bool) : String :=
  if negative then "-" else ""

def zeros (n : Nat) : String :=
  String.ofList (List.replicate n '0')

/-- Writes `scaled / 10 ^ places` with exactly that many places after the point. -/
def withPoint (places scaled : Nat) : String :=
  if places == 0 then toString scaled
  else
    let whole := toString (scaled / Nat.pow 10 places)
    let part := toString (scaled % Nat.pow 10 places)
    whole ++ "." ++ zeros (places - part.length) ++ part

def Binary.fixed (places : Nat) : Binary → String
  | .nan => "NaN"
  | .infinite negative => sign negative ++ "inf"
  | .finite negative significand exponent =>
    let (num, den) := magnitude significand exponent
    sign negative ++ withPoint places (roundHalfEven (num * Nat.pow 10 places) den)

/-- The text of a number with `places` places. The sign of a negative number stays when it rounds
to zero. -/
def fixed (places : Nat) (x : Float) : String :=
  (Binary.ofFloat x).fixed places

end Categorial.Decimal
