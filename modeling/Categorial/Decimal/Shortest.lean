import Categorial.Decimal.Fixed

/-! # Shortest decimals

The decimal with the fewest digits that reads back as the same binary64 number, and of those the
nearest one. It is written without an exponent, however long that makes it.
-/

namespace Categorial.Decimal

/-- The reals that round to a number lie between the midpoints to its two neighbours. All bounds
are over the denominator `den`, and the ends belong to the interval when the significand is even. -/
structure Interval where
  low : Nat
  value : Nat
  high : Nat
  den : Nat
  closed : Bool

/-- Below a power of two the neighbours are twice as close, except at the bottom of the range. -/
def interval (significand : Nat) (exponent : Int) : Interval :=
  let (num, den) := magnitude (4 * significand) exponent
  let (unit, _) := magnitude 1 exponent
  let below := if significand == Nat.pow 2 52 && exponent != -1074 then unit else 2 * unit
  { low := num - below, value := num, high := num + 2 * unit, den := 4 * den,
    closed := significand % 2 == 0 }

/-- Whether `num / den` lies in the interval. -/
def Interval.contains (i : Interval) (num den : Nat) : Bool :=
  let x := num * i.den
  let low := i.low * den
  let high := i.high * den
  if i.closed then low ≤ x && x ≤ high else low < x && x < high

/-- The point of the grid of multiples of `10 ^ place` that stands for the interval's value, as the
multiple: the nearer of its two neighbours that lie in the interval, the upper one of two equally
near. -/
def Interval.onGrid? (i : Interval) (place : Int) : Option Nat :=
  let unit := Nat.pow 10 place.toNat
  let parts := Nat.pow 10 (-place).toNat
  let lower := i.value * parts / (i.den * unit)
  let rest := i.value * parts % (i.den * unit)
  let downFits := i.contains (lower * unit) parts
  let upFits := i.contains ((lower + 1) * unit) parts
  if upFits && (!downFits || i.den * unit ≤ 2 * rest) then some (lower + 1)
  else if downFits then some lower
  else none

/-- The number of decimal digits before the point of `num / den`, or minus the number of zeros
after it: the least `k` with `num / den < 10 ^ k`. -/
def decimalExponent (num den : Nat) : Int :=
  if den ≤ num then (Nat.toDigits 10 (num / den)).length
  else
    let up := (Nat.toDigits 10 ((den - 1) / num)).length
    if num * Nat.pow 10 up < den then -up else 1 - (up : Int)

/-- The first grid with a point in the interval, coarse to fine. -/
def Interval.shortest (i : Interval) (top : Int) : Nat → Nat × Int
  | 0 => (0, 0)
  | fuel + 1 =>
    match i.onGrid? top with
    | some digits => (digits, top)
    | none => i.shortest (top - 1) fuel

/-- Digits and place of the shortest decimal of a number that is not zero. The first grid is that of
the power of ten above the number, and seventeen digits always suffice. -/
def shortestDigits (significand : Nat) (exponent : Int) : Nat × Int :=
  let i := interval significand exponent
  i.shortest (decimalExponent i.value i.den) 18

/-- Writes `digits * 10 ^ place` without an exponent and without needless zeros. -/
def positional (digits : Nat) (place : Int) : String :=
  if 0 ≤ place then toString (digits * Nat.pow 10 place.toNat)
  else withPoint (-place).toNat digits

def Binary.shortest : Binary → String
  | .nan => "NaN"
  | .infinite negative => sign negative ++ "inf"
  | .finite negative significand exponent =>
    if significand == 0 then sign negative ++ "0"
    else
      let (digits, place) := shortestDigits significand exponent
      sign negative ++ positional digits place

/-- The text of a number with as few digits as tell it apart from all others. -/
def shortest (x : Float) : String :=
  (Binary.ofFloat x).shortest

end Categorial.Decimal
