import Categorial.Scalar.Binary64

/-! # Feature vectors

A sparse vector from feature names to scalars. The entries are kept in increasing order of their
names, so that sums over a vector and its text do not depend on how it was filled.
-/

namespace Categorial

structure FeatureVector (S : Type) where
  entries : List (String × S)
  keys_sorted : (entries.map Prod.fst).Pairwise (· < ·)

namespace FeatureVector

variable {S : Type}

def empty : FeatureVector S :=
  ⟨[], .nil⟩

def get? (v : FeatureVector S) (key : String) : Option S :=
  (v.entries.find? (·.1 == key)).map (·.2)

def getD (v : FeatureVector S) (key : String) (default : S) : S :=
  (v.get? key).getD default

/-- Changes the value at `key`, which is none where there is no entry. -/
def alterEntries (key : String) (f : Option S → S) : List (String × S) → List (String × S)
  | [] => [(key, f none)]
  | (k, x) :: rest =>
    if k = key then (k, f (some x)) :: rest
    else if key < k then (key, f none) :: (k, x) :: rest
    else (k, x) :: alterEntries key f rest

theorem mem_keys_alterEntries {key : String} {f : Option S → S} {entries : List (String × S)}
    {k : String} (h : k ∈ (alterEntries key f entries).map Prod.fst) :
    k = key ∨ k ∈ entries.map Prod.fst := by
  fun_induction alterEntries key f entries <;> grind

theorem alterEntries_sorted {key : String} {f : Option S → S} {entries : List (String × S)}
    (h : (entries.map Prod.fst).Pairwise (· < ·)) :
    ((alterEntries key f entries).map Prod.fst).Pairwise (· < ·) := by
  fun_induction alterEntries key f entries with
  | case1 => simp
  | case2 x rest => exact h
  | case3 k x rest _ hlt =>
    refine .cons (fun a ha => ?_) h
    rcases List.mem_cons.1 ha with rfl | ha
    · exact hlt
    · exact String.lt_trans hlt (List.rel_of_pairwise_cons h ha)
  | case4 k x rest hne hlt ih =>
    refine .cons (fun a ha => ?_) (ih h.of_cons)
    rcases mem_keys_alterEntries ha with rfl | ha
    · exact Decidable.byContradiction fun hge =>
        hne (String.le_antisymm (String.not_lt.1 hlt) (String.not_lt.1 hge))
    · exact List.rel_of_pairwise_cons h ha

def alter (v : FeatureVector S) (key : String) (f : Option S → S) : FeatureVector S :=
  ⟨alterEntries key f v.entries, alterEntries_sorted v.keys_sorted⟩

@[simp]
theorem get?_empty (key : String) : (empty : FeatureVector S).get? key = none := rfl

theorem find?_alterEntries {key : String} {f : Option S → S} {entries : List (String × S)}
    (h : (entries.map Prod.fst).Pairwise (· < ·)) (k : String) :
    ((alterEntries key f entries).find? (·.1 == k)).map (·.2) =
      if k = key then some (f ((entries.find? (·.1 == key)).map (·.2)))
      else (entries.find? (·.1 == k)).map (·.2) := by
  fun_induction alterEntries key f entries with
  | case1 => grind
  | case2 => grind
  | case3 k' x rest hne hlt =>
    have hnone : ((k', x) :: rest).find? (·.1 == key) = none := by
      refine List.find?_eq_none.2 fun p hp heq => ?_
      obtain rfl : p.1 = key := by simpa using heq
      rcases List.mem_cons.1 hp with rfl | hp
      · exact hne rfl
      · exact String.lt_irrefl _
          (String.lt_trans hlt (List.rel_of_pairwise_cons h (List.mem_map_of_mem hp)))
    grind
  | case4 k' x rest hne hlt ih =>
    have := ih h.of_cons
    grind

theorem get?_alter (v : FeatureVector S) (key : String) (f : Option S → S) (k : String) :
    (v.alter key f).get? k = if k = key then some (f (v.get? key)) else v.get? k :=
  find?_alterEntries v.keys_sorted k

def set (v : FeatureVector S) (key : String) (value : S) : FeatureVector S :=
  v.alter key fun _ => value

def keys (v : FeatureVector S) : List String :=
  v.entries.map (·.1)

def size (v : FeatureVector S) : Nat :=
  v.entries.length

def isEmpty (v : FeatureVector S) : Bool :=
  v.entries.isEmpty

variable [Scalar S]

def get (v : FeatureVector S) (key : String) : S :=
  v.getD key Scalar.zero

def add (v : FeatureVector S) (key : String) (value : S) : FeatureVector S :=
  v.alter key fun old => old.getD Scalar.zero + value

/-- Collects pairs, adding up those with the same key. -/
def ofList (pairs : List (String × S)) : FeatureVector S :=
  pairs.foldl (fun v (key, value) => v.add key value) empty

/-- `v + factor * other` -/
def addTimes (v : FeatureVector S) (factor : S) (other : FeatureVector S) : FeatureVector S :=
  other.entries.foldl (fun v (key, value) => v.add key (factor * value)) v

def divideBy (v : FeatureVector S) (divisor : S) : FeatureVector S :=
  ⟨v.entries.map fun (key, value) => (key, value / divisor), by
    simpa [Function.comp_def] using v.keys_sorted⟩

def dot (v w : FeatureVector S) : S :=
  Scalar.sum (v.entries.map fun (key, value) => value * w.get key)

/-- The same keys with the same values. -/
def beq (v w : FeatureVector S) : Bool :=
  v.keys == w.keys &&
    (v.entries.zip w.entries).all fun (a, b) => Scalar.beq a.2 b.2

def render (v : FeatureVector Binary64) : String :=
  "\x7b" ++ String.intercalate ", "
    (v.entries.map fun (key, value) => key ++ "=" ++ value.shortest) ++ "\x7d"

end FeatureVector

end Categorial
