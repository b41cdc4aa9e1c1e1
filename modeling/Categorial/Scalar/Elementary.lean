/-! # Two elementary functions near zero

`log1p x` is `log (1 + x)` and `expm1 x` is `exp x - 1`, both without the loss of digits that the
plain formulas have for small arguments. The argument is reduced by a multiple of `log 2`, split
into a high and a low part, and the rest is a rational approximation on the reduced range.
-/

namespace Categorial.Elementary

/-- Sign, exponent and leading twenty bits of the fraction. -/
def highWord (x : Float) : UInt32 :=
  (x.toBits >>> 32).toUInt32

def withHighWord (x : Float) (high : UInt32) : Float :=
  Float.ofBits ((high.toUInt64 <<< 32) ||| (x.toBits &&& 0xFFFFFFFF))

/-- High part of `log 2`: its last 32 bits are zero, so small multiples of it are exact. -/
def ln2High : Float := Float.ofBits 0x3FE62E42FEE00000

def ln2Low : Float := Float.ofBits 0x3DEA39EF35793C76

def invLn2 : Float := Float.ofBits 0x3FF71547652B82FE

/-- The even part of `log ((1 + s) / (1 - s)) / s` less its constant, at `z = s * s`. -/
def logSeries (z : Float) : Float :=
  let r1 := z * Float.ofBits 0x3FE5555555555593
  let z2 := z * z
  let r2 := Float.ofBits 0x3FD999999997FA04 + z * Float.ofBits 0x3FD2492494229359
  let z4 := z2 * z2
  let r3 := Float.ofBits 0x3FCC71C51D8E78AF + z * Float.ofBits 0x3FC7466496CB03DE
  let z6 := z4 * z2
  let r4 := Float.ofBits 0x3FC39A09D078C69F + z * Float.ofBits 0x3FC2F112DF3E5244
  r1 + z2 * r2 + z4 * r3 + z6 * r4

/-- `k * log 2 + log (1 + f) + c`, for a small `c`. `tiny` says that `f` is below `2 ^ -20`. -/
def logReduced (k : Float) (f c : Float) (tiny : Bool) : Float :=
  let hfsq := 0.5 * f * f
  if tiny then
    if f == 0 then
      if k == 0 then 0 else k * ln2High + (c + k * ln2Low)
    else
      let r := hfsq * (1.0 - 0.66666666666666666 * f)
      if k == 0 then f - r else k * ln2High - ((r - (k * ln2Low + c)) - f)
  else
    let s := f / (2.0 + f)
    let r := logSeries (s * s)
    if k == 0 then f - (hfsq - s * (hfsq + r))
    else k * ln2High - ((hfsq - (s * (hfsq + r) + (k * ln2Low + c))) - f)

/-- Splits `1 + x` into a power of two and a rest near one, with the rounding error of the sum. -/
def log1pReduce (x : Float) : Float :=
  let u := if x < 9007199254740992.0 then 1.0 + x else x
  let k : Int := ((highWord u) >>> 20).toNat - 1023
  let c :=
    if x < 9007199254740992.0 then (if 0 < k then 1.0 - (u - x) else x - (u - 1.0)) / u else 0
  let fraction := highWord u &&& 0x000FFFFF
  if fraction < 0x6A09E then
    logReduced (Float.ofInt k) (withHighWord u (fraction ||| 0x3FF00000) - 1.0) c (fraction == 0)
  else
    logReduced (Float.ofInt (k + 1)) (withHighWord u (fraction ||| 0x3FE00000) - 1.0) c
      ((0x00100000 - fraction) >>> 2 == 0)

def log1p (x : Float) : Float :=
  let magnitude := highWord x &&& 0x7FFFFFFF
  if x.isNaN then x
  else if x < -1.0 then 0.0 / 0.0
  else if x == -1.0 then -1.0 / 0.0
  else if x.isInf then x
  else if magnitude < 0x3C900000 then x
  else if magnitude < 0x3E200000 then x - x * x * 0.5
  else if (0 < x && magnitude < 0x3FDA827A) || (x < 0 && highWord x ≤ 0xBFD2BEC3) then
    logReduced 0 x 0 false
  else log1pReduce x

/-- The approximation of `expm1` on the reduced range: the pair of `x * x / 2` and the quotient
that corrects it. -/
def expSeries (x : Float) : Float × Float :=
  let hfx := 0.5 * x
  let hxs := x * hfx
  let r1 := 1.0 + hxs * Float.ofBits 0xBFA11111111110F4
  let h2 := hxs * hxs
  let r2 := Float.ofBits 0x3F5A01A019FE5585 + hxs * Float.ofBits 0xBF14CE199EAADBB7
  let h4 := h2 * h2
  let r3 := Float.ofBits 0x3ED0CFCA86E65239 + hxs * Float.ofBits 0xBE8AFDB76E09C32D
  let r := r1 + h2 * r2 + h4 * r3
  let t := 3.0 - r * hfx
  (hxs, hxs * ((r - t) / (6.0 - x * t)))

/-- `2 ^ k * exp (x + c) - 1` for a reduced `x` and the rounding error `c` of the reduction. -/
def expScaled (k : Int) (x c : Float) : Float :=
  let (hxs, e) := expSeries x
  if k == 0 then x - (x * e - hxs)
  else
    let e := (x * (e - c) - c) - hxs
    let shift (y : Float) := withHighWord y (highWord y + (Int32.ofInt k <<< 20).toUInt32)
    if k == -1 then 0.5 * (x - e) - 0.5
    else if k == 1 then if x < -0.25 then -2.0 * (e - (x + 0.5)) else 1.0 + 2.0 * (x - e)
    else if k ≤ -2 || 56 < k then shift (1.0 - (e - x)) - 1.0
    else if k < 20 then
      let unit : UInt32 := 0x200000
      shift (withHighWord 1.0 (0x3FF00000 - (unit >>> UInt32.ofNat k.toNat)) - (e - x))
    else
      shift (x - (e + withHighWord 1.0 ((0x3FF - UInt32.ofNat k.toNat) <<< 20)) + 1.0)

def expm1 (x : Float) : Float :=
  let magnitude := highWord x &&& 0x7FFFFFFF
  let negative := x < 0
  if x.isNaN then x
  else if 0x4043687A ≤ magnitude && negative then -1.0
  else if 709.782712893383973096 < x then 1.0 / 0.0
  else if 0x3FD62E42 < magnitude then
    let k : Int :=
      if magnitude < 0x3FF0A2B2 then (if negative then -1 else 1)
      else
        let q := invLn2 * x + (if negative then -0.5 else 0.5)
        if negative then -((-q).toUInt64.toNat : Int) else q.toUInt64.toNat
    let t := Float.ofInt k
    let high := x - t * ln2High
    let low := t * ln2Low
    let reduced := high - low
    expScaled k reduced ((high - reduced) - low)
  else if magnitude < 0x3C900000 then x
  else expScaled 0 x 0

end Categorial.Elementary
