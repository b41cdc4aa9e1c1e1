import Mathlib.Data.List.Nodup
import Mathlib.Tactic.Common
import Categorial.Chart.Slots

/-! # What is in the slots

The listing of a table has every key once. Each operation changes it by one entry, up to the order
in which the keys come.
-/

namespace Categorial.Slots

variable {α β : Type}

theorem pairwise_toList (t : Slots α) : t.toList.Pairwise fun x y => x.1 < y.1 := by
  have hsnd : (t.cells.toList.zipIdx.map (·.2)).Pairwise (· < ·) := by
    rw [List.zipIdx_map_snd]
    exact List.pairwise_lt_range'
  have hlt := List.pairwise_map.mp hsnd
  unfold toList
  apply List.pairwise_filterMap.mpr
  refine hlt.imp ?_
  rintro ⟨e, k⟩ ⟨e', k'⟩ hk b hb b' hb'
  obtain ⟨_, _, rfl⟩ := Option.map_eq_some_iff.mp hb
  obtain ⟨_, _, rfl⟩ := Option.map_eq_some_iff.mp hb'
  exact hk

theorem nodup_keys_toList (t : Slots α) : (t.toList.map (·.1)).Nodup :=
  List.pairwise_map.mpr (t.pairwise_toList.imp Nat.ne_of_lt)

theorem nodup_toList (t : Slots α) : t.toList.Nodup :=
  t.nodup_keys_toList.of_map

/-- Two tables that differ in what is found under one key alone list the same other entries. -/
theorem toList_perm_cons {t u : Slots α} {key : Nat} {a : α} (hnone : u.get? key = none)
    (h : ∀ k, t.get? k = if k = key then some a else u.get? k) :
    t.toList.Perm ((key, a) :: u.toList) := by
  have hfresh : (key, a) ∉ u.toList := by
    simp [mem_toList_iff, hnone]
  apply (List.perm_ext_iff_of_nodup t.nodup_toList (u.nodup_toList.cons hfresh)).mpr
  rintro ⟨k, b⟩
  rw [List.mem_cons, mem_toList_iff, mem_toList_iff, h k, Prod.mk.injEq]
  by_cases hk : k = key
  · simp [hk, hnone, eq_comm]
  · simp [hk]

theorem toList_insert_perm (t : Slots α) (a : α) :
    (t.insert a).toList.Perm ((t.nextKey, a) :: t.toList) :=
  toList_perm_cons t.get?_nextKey (t.get?_insert a)

theorem toList_erase_perm {t : Slots α} {key : Nat} {a : α} (h : t.get? key = some a) :
    t.toList.Perm ((key, a) :: (t.erase key).toList) := by
  apply toList_perm_cons
  · simp [get?_erase]
  · intro k
    rw [get?_erase]
    split_ifs with hk
    · rw [hk, h]
    · rfl

theorem toList_modify_perm {t : Slots α} {key : Nat} {a : α} (h : t.get? key = some a)
    (f : α → α) : (t.modify key f).toList.Perm ((key, f a) :: (t.erase key).toList) := by
  apply toList_perm_cons
  · simp [get?_erase]
  · intro k
    rw [get?_erase, get?_modify]
    by_cases hk : k = key
    · simp [hk, h]
    · simp [hk, Ne.symm hk]

def image (t : Slots α) (f : α → β) : Slots β where
  cells := t.cells.map (·.map f)
  free := t.free
  free_vacant k hk := by simp [t.free_vacant k hk]
  free_nodup := t.free_nodup

theorem toList_image (t : Slots α) (f : α → β) :
    (t.image f).toList = t.toList.map fun x => (x.1, f x.2) := by
  unfold toList image
  rw [Array.toList_map, List.zipIdx_map, List.filterMap_map, List.map_filterMap]
  refine List.filterMap_congr ?_
  rintro ⟨_ | a, k⟩ _
  · rfl
  · rfl

theorem toList_map (t : Slots α) (f : α → α) :
    (t.map f).toList = t.toList.map fun x => (x.1, f x.2) :=
  t.toList_image f

theorem toList_modify (t : Slots α) (key : Nat) (f : α → α) :
    (t.modify key f).toList = t.toList.map fun x => (x.1, if x.1 = key then f x.2 else x.2) := by
  have hindexed : (t.cells.toList.modify key (·.map f)).zipIdx =
      t.cells.toList.zipIdx.map fun x => (if x.2 = key then x.1.map f else x.1, x.2) := by
    refine List.ext_getElem? fun i => ?_
    simp only [List.getElem?_zipIdx, List.getElem?_modify, List.getElem?_map, Nat.zero_add]
    by_cases hi : i = key
    · cases t.cells.toList[i]? <;> simp [hi]
    · cases t.cells.toList[i]? <;> simp [hi, Ne.symm hi]
  unfold toList modify
  rw [Array.toList_modify, hindexed, List.filterMap_map, List.map_filterMap]
  refine List.filterMap_congr ?_
  rintro ⟨_ | a, k⟩ _
  · simp
  · by_cases hk : k = key <;> simp [hk]

section Image

theorem eq_of_cells {t u : Slots α} (hcells : t.cells = u.cells) (hfree : t.free = u.free) :
    t = u := by
  obtain ⟨cells, free, _, _⟩ := t
  obtain ⟨cells', free', _, _⟩ := u
  obtain rfl : cells = cells' := hcells
  obtain rfl : free = free' := hfree
  rfl

variable {t : Slots α} {f : α → β} {key : Nat} {a : α}

theorem get?_image (t : Slots α) (f : α → β) (k : Nat) :
    (t.image f).get? k = (t.get? k).map f := by
  unfold image get?
  rw [Array.getElem?_map]
  rcases t.cells[k]? with _ | _ | a <;> rfl

theorem free_insert (t : Slots α) (a : α) : (t.insert a).free = t.free.tail := by
  unfold insert
  split <;> simp_all

theorem cells_insert (t : Slots α) (a : α) : (t.insert a).cells =
    match t.free with
    | key :: _ => t.cells.setIfInBounds key (some a)
    | [] => t.cells.push (some a) := by
  unfold insert
  split <;> simp_all

theorem image_insert (t : Slots α) (f : α → β) (a : α) :
    (t.insert a).image f = (t.image f).insert (f a) := by
  refine eq_of_cells ?_ ?_
  · show (t.insert a).cells.map (Option.map f) = _
    rw [cells_insert, cells_insert]
    show _ = match t.free with
      | key :: _ => (t.cells.map (Option.map f)).setIfInBounds key (some (f a))
      | [] => (t.cells.map (Option.map f)).push (some (f a))
    cases t.free with
    | nil => simp
    | cons key free => simp
  · rw [free_insert]
    exact t.free_insert a

theorem free_erase (h : t.get? key = some a) : (t.erase key).free = key :: t.free := by
  unfold erase
  split <;> simp_all

theorem cells_erase (h : t.get? key = some a) :
    (t.erase key).cells = t.cells.setIfInBounds key none := by
  unfold erase
  split <;> simp_all

theorem erase_of_none (h : t.get? key = none) : t.erase key = t := by
  unfold erase
  split <;> simp_all

theorem image_erase (t : Slots α) (f : α → β) (key : Nat) :
    (t.erase key).image f = (t.image f).erase key := by
  cases h : t.get? key with
  | none =>
    rw [erase_of_none h, erase_of_none]
    rw [get?_image, h, Option.map_none]
  | some a =>
    have h' : (t.image f).get? key = some (f a) := by rw [get?_image, h, Option.map_some]
    refine eq_of_cells ?_ ?_
    · show (t.erase key).cells.map (·.map f) = _
      rw [cells_erase h, cells_erase h', Array.map_setIfInBounds]
      rfl
    · rw [free_erase h']
      exact free_erase h

theorem cell_congr {γ : Type} {g h : α → γ} (hgh : ∀ a, t.get? key = some a → g a = h a) :
    t.cells[key]?.map (Option.map g) = t.cells[key]?.map (Option.map h) := by
  rcases hget : t.cells[key]? with _ | _ | a
  · rfl
  · rfl
  · simp [hgh a (by simp [get?, hget])]

theorem image_modify {g : α → α} {g' : β → β} (h : ∀ a, t.get? key = some a → f (g a) = g' (f a)) :
    (t.modify key g).image f = (t.image f).modify key g' := by
  refine eq_of_cells ?_ rfl
  refine Array.ext_getElem? fun i => ?_
  simp only [image, modify, Array.getElem?_map, Array.getElem?_modify]
  split_ifs with hi
  · subst hi
    simpa [Function.comp_def] using cell_congr h
  · rfl

/-- The entry that was removed last comes back to its place. -/
theorem insert_erase (h : t.get? key = some a) : (t.erase key).insert a = t := by
  have hcell : t.cells[key]? = some (some a) := by
    rwa [get?, Option.join_eq_some_iff] at h
  refine eq_of_cells ?_ ?_
  · rw [cells_insert, free_erase h, cells_erase h]
    refine Array.ext_getElem? fun i => ?_
    by_cases hi : key = i
    · subst hi
      obtain ⟨hlt, hval⟩ := Array.getElem?_eq_some_iff.mp hcell
      simp [hlt, hval]
    · simp only [Array.getElem?_setIfInBounds_ne hi]
  · rw [free_insert, free_erase h, List.tail_cons]

theorem modify_eq_self {g : α → α} (h : ∀ a, t.get? key = some a → g a = a) :
    t.modify key g = t := by
  refine eq_of_cells (Array.ext_getElem? fun i => ?_) rfl
  simp only [modify, Array.getElem?_modify]
  split_ifs with hi
  · subst hi
    simpa using cell_congr (h := id) h
  · rfl

theorem map_modify {g h : α → α} (hg : ∀ a, t.get? key = some a → h (g a) = h a) :
    (t.modify key g).map h = t.map h := by
  have himage : (t.modify key g).image h = (t.image h).modify key id := image_modify hg
  exact himage.trans (modify_eq_self fun _ _ => rfl)

theorem map_congr {g h : α → α} (hgh : ∀ key a, t.get? key = some a → g a = h a) :
    t.map g = t.map h := by
  refine eq_of_cells (Array.ext_getElem? fun i => ?_) rfl
  simp only [map, Array.getElem?_map]
  exact cell_congr (hgh i)

theorem map_map (t : Slots α) (g h : α → α) : (t.map g).map h = t.map (h ∘ g) := by
  refine eq_of_cells ?_ rfl
  simp [map, Array.map_map]

theorem map_eq_self {g : α → α} (hg : ∀ key a, t.get? key = some a → g a = a) : t.map g = t := by
  refine (map_congr hg).trans (eq_of_cells ?_ rfl)
  simp [map]

end Image

end Categorial.Slots
