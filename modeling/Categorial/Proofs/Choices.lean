import Mathlib.Algebra.BigOperators.Group.List.Basic
import Mathlib.Data.List.Sections
import Mathlib.Tactic.Common
import Categorial.Choices

/-! # Choices by number

The choices from several lists are numbered by the places that they take their elements from. The
places are the digits of the number with the lengths of the lists as radices, the lowest first. Each
row of places has a number of its own, so every choice is made once.
-/

namespace Categorial

variable {α : Type} {lists : List (List α)} {choice : List α} {i k : Nat}

theorem choices_eq_sections (h : lists ≠ []) : choices lists = lists.sections := by
  fun_induction choices lists with
  | case1 => exact absurd rfl h
  | case2 head => simp [List.sections]
  | case3 head tail hne ih => rw [List.sections, ih fun htail => hne htail]

theorem length_sections (lists : List (List α)) :
    lists.sections.length = (lists.map List.length).prod := by
  induction lists with
  | nil => rfl
  | cons head tail ih => simp [List.sections, List.length_flatMap, ih, Nat.mul_comm]

theorem getElem?_flatMap_map {β γ : Type} (f : β → α → γ) (xs : List β) (block : List α) (i : Nat) :
    (xs.flatMap fun x => block.map (f x))[i]? =
      xs[i / block.length]?.bind fun x => block[i % block.length]?.map (f x) := by
  induction xs generalizing i with
  | nil => rfl
  | cons x xs ih =>
    rw [List.flatMap_cons, List.getElem?_append, List.length_map]
    split_ifs with hi
    · rw [Nat.div_eq_of_lt hi, Nat.mod_eq_of_lt hi, List.getElem?_map]
      rfl
    · obtain ⟨m, rfl⟩ := Nat.exists_eq_add_of_le (Nat.le_of_not_lt hi)
      rw [Nat.add_sub_cancel_left, ih]
      rcases Nat.eq_zero_or_pos block.length with hnone | hpos
      · simp [List.length_eq_zero_iff.mp hnone]
      · rw [Nat.add_div_left _ hpos, Nat.add_mod_left, List.getElem?_cons_succ]

theorem getElem?_of_getElem?_sections (h : lists.sections[i]? = some choice) :
    ∀ j list, lists[j]? = some list →
      choice[j]? = list[i / ((lists.take j).map List.length).prod % list.length]? := by
  induction lists generalizing i choice with
  | nil => nofun
  | cons head tail ih =>
    rw [List.sections, getElem?_flatMap_map] at h
    obtain ⟨rest, hrest, h⟩ := Option.bind_eq_some_iff.mp h
    obtain ⟨a, ha, rfl⟩ := Option.map_eq_some_iff.mp h
    rintro (_ | j) list hlist
    · obtain rfl : head = list := by simpa using hlist
      simp [ha]
    · rw [List.getElem?_cons_succ] at hlist ⊢
      rw [ih hrest j list hlist, List.take_succ_cons, List.map_cons, List.prod_cons,
        Nat.div_div_eq_div_mul]

theorem eq_of_places (hi : i < (lists.map List.length).prod) (hk : k < (lists.map List.length).prod)
    (h : ∀ j list, lists[j]? = some list →
      i / ((lists.take j).map List.length).prod % list.length =
        k / ((lists.take j).map List.length).prod % list.length) : i = k := by
  induction lists generalizing i k with
  | nil => exact (Nat.lt_one_iff.mp hi).trans (Nat.lt_one_iff.mp hk).symm
  | cons head tail ih =>
    rw [List.map_cons, List.prod_cons] at hi hk
    have hlow : i % head.length = k % head.length := by simpa using h 0 head rfl
    have hhigh : i / head.length = k / head.length := by
      refine ih (Nat.div_lt_of_lt_mul hi) (Nat.div_lt_of_lt_mul hk) fun j list hlist => ?_
      have hplace := h (j + 1) list hlist
      rwa [List.take_succ_cons, List.map_cons, List.prod_cons, ← Nat.div_div_eq_div_mul,
        ← Nat.div_div_eq_div_mul] at hplace
    rw [← Nat.mod_add_div i head.length, hlow, hhigh, Nat.mod_add_div]

theorem map_length_ranges (lists : List (List α)) :
    (lists.map fun list => List.range list.length).map List.length = lists.map List.length := by
  simp [Function.comp_def]

theorem exists_places {places : List Nat}
    (h : List.Forall₂ (fun place list => place < list.length) places lists) :
    ∃ i < (lists.map List.length).prod, ∀ j list, lists[j]? = some list →
      places[j]? = some (i / ((lists.take j).map List.length).prod % list.length) := by
  -- the row is itself a choice, from the places that there are in each list
  have hmem : places ∈ (lists.map fun list => List.range list.length).sections := by
    rw [List.mem_sections, List.forall₂_map_right_iff]
    exact h.imp fun _ _ hlt => List.mem_range.mpr hlt
  obtain ⟨i, hi⟩ := List.mem_iff_getElem?.mp hmem
  refine ⟨i, ?_, fun j list hlist => ?_⟩
  · have hlt := (List.getElem?_eq_some_iff.mp hi).1
    rwa [length_sections, map_length_ranges] at hlt
  · have hrange : (lists.map fun list => List.range list.length)[j]? =
        some (List.range list.length) := by rw [List.getElem?_map, hlist, Option.map_some]
    have hplace := getElem?_of_getElem?_sections hi j _ hrange
    have hlt : j < places.length := h.length_eq ▸ (List.getElem?_eq_some_iff.mp hlist).1
    rw [← List.map_take, map_length_ranges, List.length_range,
      List.getElem?_eq_getElem hlt] at hplace
    obtain ⟨_, heq⟩ := List.getElem?_eq_some_iff.mp hplace.symm
    rw [List.getElem?_eq_getElem hlt, ← heq, List.getElem_range]

/-- There are as many choices as the product of the numbers of elements, each with one element from
every list. The choice with number `i` takes its elements from the places that are the digits of
`i`, those from the first list varying fastest. Each row of places has one number, and where a list
is empty there is no choice. -/
theorem choices_by_number (h : lists ≠ []) :
    (choices lists).length = (lists.map List.length).prod ∧
    (∀ i < (lists.map List.length).prod, ∃ choice, (choices lists)[i]? = some choice ∧
      choice.length = lists.length ∧ ∀ j list, lists[j]? = some list →
        choice[j]? = list[i / ((lists.take j).map List.length).prod % list.length]?) ∧
    (∀ places, List.Forall₂ (fun place list => place < list.length) places lists →
      ∃! i, i < (lists.map List.length).prod ∧ ∀ j list, lists[j]? = some list →
        places[j]? = some (i / ((lists.take j).map List.length).prod % list.length)) ∧
    ([] ∈ lists → choices lists = []) := by
  rw [choices_eq_sections h]
  refine ⟨length_sections lists, fun i hi => ?_, fun places hplaces => ?_, fun hempty => ?_⟩
  · obtain ⟨choice, hchoice⟩ : ∃ choice, lists.sections[i]? = some choice :=
      ⟨_, List.getElem?_eq_getElem ((length_sections lists).symm ▸ hi)⟩
    have hlength := List.mem_sections_length (List.mem_of_getElem? hchoice)
    exact ⟨choice, hchoice, hlength, getElem?_of_getElem?_sections hchoice⟩
  · obtain ⟨i, hi, hplace⟩ := exists_places hplaces
    refine ⟨i, ⟨hi, hplace⟩, fun k ⟨hk, hsame⟩ => eq_of_places hk hi fun j list hlist => ?_⟩
    exact Option.some.inj ((hsame j list hlist).symm.trans (hplace j list hlist))
  · rw [← List.length_eq_zero_iff, length_sections, List.prod_eq_zero_iff_exists_zero_nat]
    exact ⟨0, List.mem_map.mpr ⟨[], hempty, rfl⟩, rfl⟩

def phrase : List (List String) :=
  [["see", "saw"], ["her"], ["duck", "bird", "fowl"]]

theorem choices_by_number_phrase : phrase ≠ [] ∧ (choices phrase).length = 6 ∧
    (∃ choice, (choices phrase)[3]? = some choice ∧ choice.length = 3 ∧
      choice[0]? = some "saw" ∧ choice[1]? = some "her" ∧ choice[2]? = some "bird") ∧
    ∃! i, i < 6 ∧ ∀ j list, phrase[j]? = some list →
      [1, 0, 2][j]? = some (i / ((phrase.take j).map List.length).prod % list.length) := by
  have hne : phrase ≠ [] := List.cons_ne_nil _ _
  obtain ⟨hlength, hnumber, hrow, _⟩ := choices_by_number hne
  obtain ⟨choice, hchoice, hthree, hplace⟩ := hnumber 3 (by decide)
  refine ⟨hne, hlength, ⟨choice, hchoice, hthree, ?_, ?_, ?_⟩, hrow [1, 0, 2] ?_⟩
  · exact hplace 0 _ rfl
  · exact hplace 1 _ rfl
  · exact hplace 2 _ rfl
  · exact .cons (by decide) (.cons (by decide) (.cons (by decide) .nil))

end Categorial
