import Categorial.Features.Vector

/-! # Feature vectors in log space

Values that may be negative, kept as logarithms. What was added above and below zero is summed apart
and only combined when a value is read.
-/

namespace Categorial

inductive Sign where
  | positive
  | negative
  deriving DecidableEq, Repr

structure LogFeatureVector (S : Type) where
  positive : FeatureVector S
  negative : FeatureVector S

namespace LogFeatureVector

open LogSpace (NegativeDifference)

variable {S : Type}

def empty : LogFeatureVector S :=
  ⟨.empty, .empty⟩

/-- Two increasing lists of keys as one, without repetitions. -/
def mergeKeys : List String → List String → List String
  | [], bs => bs
  | a :: as, bs => insertKey a (mergeKeys as bs)
where
  insertKey (a : String) : List String → List String
    | [] => [a]
    | b :: bs => if a = b then b :: bs else if a < b then a :: b :: bs else b :: insertKey a bs

def keys (v : LogFeatureVector S) : List String :=
  mergeKeys v.positive.keys v.negative.keys

def size (v : LogFeatureVector S) : Nat :=
  v.keys.length

def isEmpty (v : LogFeatureVector S) : Bool :=
  v.positive.isEmpty && v.negative.isEmpty

variable [Scalar S]

/-- One more mass, given as a logarithm, under a key of a one-sided vector. -/
def accumulate (v : FeatureVector S) (key : String) (mass : S) : FeatureVector S :=
  v.set key (LogSpace.add (v.getD key Scalar.negInf) mass)

/-- Adds `exp logWeight * value` to the value of `key`. Zeros contribute nothing. -/
def addOne (v : LogFeatureVector S) (logWeight : S) (key : String) (value : S) :
    LogFeatureVector S :=
  let mass := logWeight + Scalar.log (Scalar.abs value)
  if Scalar.blt Scalar.zero value then { v with positive := accumulate v.positive key mass }
  else if Scalar.blt value Scalar.zero then { v with negative := accumulate v.negative key mass }
  else v

/-- Adds `exp logWeight * features`. -/
def addScaled (v : LogFeatureVector S) (logWeight : S) (features : FeatureVector S) :
    LogFeatureVector S :=
  features.entries.foldl (fun v (key, value) => v.addOne logWeight key value) v

/-- Sign and log magnitude of the value of `key`. Zero has the positive sign and the magnitude
`negInf`. -/
def signed (v : LogFeatureVector S) (key : String) :
    Except (NegativeDifference S) (Sign × S) :=
  let above := v.positive.getD key Scalar.negInf
  let below := v.negative.getD key Scalar.negInf
  if Scalar.ble below above then (LogSpace.sub above below).map (.positive, ·)
  else (LogSpace.sub below above).map (.negative, ·)

/-- Log of the value of `key`, none if the value is negative. -/
def logValue? (v : LogFeatureVector S) (key : String) :
    Except (NegativeDifference S) (Option S) :=
  (v.signed key).map fun
    | (.positive, magnitude) => some magnitude
    | (.negative, _) => none

def isNegative (v : LogFeatureVector S) (key : String) : Except (NegativeDifference S) Bool :=
  (v.signed key).map (·.1 == .negative)

/-- The values divided by `exp logNorm`. -/
def expNormalized (v : LogFeatureVector S) (logNorm : S) : FeatureVector S :=
  let side (w : FeatureVector S) (key : String) :=
    Scalar.exp (w.getD key Scalar.negInf - logNorm)
  .ofList (v.keys.map fun key => (key, side v.positive key - side v.negative key))

def render (v : LogFeatureVector Binary64) : Except (NegativeDifference Binary64) String := do
  let parts ← v.keys.mapM fun key => do
    let (sign, magnitude) ← v.signed key
    let mark := if sign = .negative then "-" else ""
    .ok (key ++ "=" ++ mark ++ "exp(" ++ magnitude.shortest ++ ")")
  .ok ("\x7b" ++ String.intercalate ", " parts ++ "\x7d")

end LogFeatureVector

end Categorial
