/-! # Slots

A table whose entries keep their keys. The key of a removed entry is used again, the one freed last
first, and only without free keys does the table grow. What `get?` finds after each operation says
all that the rest of the chart relies on.
-/

namespace Categorial

structure Slots (α : Type) where
  cells : Array (Option α)
  /-- Free keys, the one freed last in front. -/
  free : List Nat
  free_vacant : ∀ key ∈ free, cells[key]? = some none
  free_nodup : free.Nodup

namespace Slots

variable {α : Type}

def empty : Slots α :=
  ⟨#[], [], by simp, .nil⟩

def get? (t : Slots α) (key : Nat) : Option α :=
  t.cells[key]?.join

/-- The key that the next entry will get. -/
def nextKey (t : Slots α) : Nat :=
  t.free.headD t.cells.size

/-- Adds an entry under `nextKey`. -/
def insert (t : Slots α) (a : α) : Slots α :=
  match h : t.free with
  | key :: free =>
    { cells := t.cells.setIfInBounds key (some a)
      free
      free_vacant k hk := by
        have hne : key ≠ k := fun e => (List.nodup_cons.1 (h ▸ t.free_nodup)).1 (e ▸ hk)
        rw [Array.getElem?_setIfInBounds_ne hne]
        exact t.free_vacant k (h ▸ .tail _ hk)
      free_nodup := (List.nodup_cons.1 (h ▸ t.free_nodup)).2 }
  | [] =>
    { cells := t.cells.push (some a)
      free := []
      free_vacant := by simp
      free_nodup := .nil }

def erase (t : Slots α) (key : Nat) : Slots α :=
  match h : t.get? key with
  | some _ =>
    { cells := t.cells.setIfInBounds key none
      free := key :: t.free
      free_vacant k hk := by
        obtain ⟨e, he⟩ : ∃ e, t.cells[key]? = some e := by
          cases he : t.cells[key]? with
          | some e => exact ⟨e, rfl⟩
          | none => simp [get?, he] at h
        by_cases hne : key = k
        · subst hne
          simp [(Array.getElem?_eq_some_iff.1 he).1]
        · rw [Array.getElem?_setIfInBounds_ne hne]
          exact t.free_vacant k ((List.mem_cons.1 hk).resolve_left (Ne.symm hne))
      free_nodup := List.nodup_cons.2
        ⟨fun hk => by simp [get?, t.free_vacant key hk] at h, t.free_nodup⟩ }
  | none => t

def modify (t : Slots α) (key : Nat) (f : α → α) : Slots α where
  cells := t.cells.modify key (·.map f)
  free := t.free
  free_vacant k hk := by
    rw [Array.getElem?_modify, t.free_vacant k hk]
    split <;> rfl
  free_nodup := t.free_nodup

def map (t : Slots α) (f : α → α) : Slots α where
  cells := t.cells.map (·.map f)
  free := t.free
  free_vacant k hk := by simp [t.free_vacant k hk]
  free_nodup := t.free_nodup

/-- Keys and entries, by increasing key. -/
def toList (t : Slots α) : List (Nat × α) :=
  t.cells.toList.zipIdx.filterMap fun (entry, key) => entry.map (key, ·)

def size (t : Slots α) : Nat :=
  t.toList.length

@[simp]
theorem get?_empty (key : Nat) : (empty : Slots α).get? key = none := rfl

/-- An entry never takes the key of another. -/
@[simp]
theorem get?_nextKey (t : Slots α) : t.get? t.nextKey = none := by
  unfold get? nextKey
  cases h : t.free with
  | nil => simp
  | cons key free => simp [t.free_vacant key (h ▸ .head _)]

theorem get?_insert (t : Slots α) (a : α) (key : Nat) :
    (t.insert a).get? key = if key = t.nextKey then some a else t.get? key := by
  unfold insert nextKey get?
  split
  next k free h =>
    have hk := t.free_vacant k (h ▸ .head _)
    have hlt := (Array.getElem?_eq_some_iff.1 hk).1
    by_cases hne : key = k
    · simp [h, hne, hlt]
    · simp [h, hne, Array.getElem?_setIfInBounds_ne (Ne.symm hne)]
  next h =>
    simp only [h, List.headD_nil, Array.getElem?_push]
    split <;> simp

theorem get?_erase (t : Slots α) (key k : Nat) :
    (t.erase key).get? k = if k = key then none else t.get? k := by
  unfold erase
  split
  next h =>
    by_cases hne : k = key
    · simp only [get?, hne, ↓reduceIte, Array.getElem?_setIfInBounds]
      split <;> simp
    · simp [get?, hne, Array.getElem?_setIfInBounds_ne (Ne.symm hne)]
  next h =>
    split
    next hk => rw [hk, h]
    next => rfl

theorem get?_modify (t : Slots α) (key : Nat) (f : α → α) (k : Nat) :
    (t.modify key f).get? k = if key = k then (t.get? k).map f else t.get? k := by
  unfold modify get?
  rw [Array.getElem?_modify]
  split
  next => cases t.cells[k]? with
    | none => rfl
    | some e => rfl
  next => rfl

theorem get?_map (t : Slots α) (f : α → α) (k : Nat) :
    (t.map f).get? k = (t.get? k).map f := by
  unfold map get?
  rw [Array.getElem?_map]
  cases t.cells[k]? with
  | none => rfl
  | some e => rfl

theorem mem_toList_iff (t : Slots α) (key : Nat) (a : α) :
    (key, a) ∈ t.toList ↔ t.get? key = some a := by
  simp [toList, get?, List.mem_zipIdx_iff_getElem?, Option.join_eq_some_iff]

end Slots

end Categorial
