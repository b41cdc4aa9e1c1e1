import Categorial.Scalar.LogSpace
import Categorial.Scalar.Elementary
import Categorial.Decimal.Shortest

/-! # Binary64 scalars

The scalars that the parser runs on: binary64 numbers, and undefined values that have a sign. The
total order puts `-0` below `0`, a negative undefined value below all numbers and a positive one
above them.
-/

namespace Categorial

/-- A number, or the outcome of an operation that has no value. -/
inductive Binary64 where
  | number (x : Float)
  | undefined (negative : Bool)

namespace Binary64

/-- The outcome of an operation on numbers. If it has no value, the sign is negative. -/
def ofFloat (x : Float) : Binary64 :=
  if x.isNaN then undefined true else number x

def toFloat : Binary64 → Float
  | number x => x
  | undefined _ => 0.0 / 0.0

/-- An operation on numbers. An undefined operand is passed on with its sign. -/
def map (f : Float → Float) : Binary64 → Binary64
  | number x => ofFloat (f x)
  | undefined negative => undefined negative

/-- An operation on two numbers. Of two undefined operands the left one is passed on. -/
def map₂ (f : Float → Float → Float) : Binary64 → Binary64 → Binary64
  | number x, number y => ofFloat (f x y)
  | undefined negative, _ => undefined negative
  | number _, undefined negative => undefined negative

def neg : Binary64 → Binary64
  | number x => number (-x)
  | undefined negative => undefined !negative

def abs : Binary64 → Binary64
  | number x => number x.abs
  | undefined _ => undefined false

def isInfinite : Binary64 → Bool
  | number x => x.isInf
  | undefined _ => false

/-- A comparison by value, to which undefined values do not belong. -/
def relates (r : Float → Float → Bool) : Binary64 → Binary64 → Bool
  | number x, number y => r x y
  | _, _ => false

/-- Position in the total order: the bit patterns of negative numbers run downwards. -/
def rank : Binary64 → Nat
  | number x =>
    let bits := x.toBits.toNat
    if bits < Nat.pow 2 63 then Nat.pow 2 63 + bits else Nat.pow 2 64 - 1 - bits
  | undefined negative => if negative then 0 else Nat.pow 2 64

instance : Scalar Binary64 where
  add := map₂ (· + ·)
  sub := map₂ (· - ·)
  mul := map₂ (· * ·)
  div := map₂ (· / ·)
  neg := neg
  zero := number 0.0
  one := number 1.0
  negZero := number (-0.0)
  negInf := number (-1.0 / 0.0)
  ofNat n := number (Float.ofNat n)
  abs := abs
  exp := map Float.exp
  log := map Float.log
  expm1 := map Elementary.expm1
  log1p := map Elementary.log1p
  isInfinite := isInfinite
  beq := relates (· == ·)
  blt := relates (· < ·)
  ble := relates (· ≤ ·)
  cmp a b := compare a.rank b.rank

/-- The text with `places` places after the point. -/
def fixed (places : Nat) (x : Binary64) : String :=
  Decimal.fixed places x.toFloat

/-- The text with as few digits as tell a number apart from all others. -/
def shortest (x : Binary64) : String :=
  Decimal.shortest x.toFloat

end Binary64

namespace LogSpace

def NegativeDifference.message (d : NegativeDifference Binary64) : String :=
  "log_diff_exp(" ++ d.left.shortest ++ ", " ++ d.right.shortest ++
    ") of a negative difference"

end LogSpace

end Categorial
