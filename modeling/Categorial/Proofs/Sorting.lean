import Mathlib.Data.List.Sort
import Mathlib.Tactic.Common

/-! # Sorted lists

Where only equal elements compare as equal, a list in ascending order is determined by its elements.
Where others do, a stable sort puts an element behind those before it that are no greater, and
behind those after it that are smaller. What is far enough behind can be left out of a list of which
only the first few elements are needed.
-/

namespace Categorial

section Comparison

open Std (LawfulEqCmp OrientedCmp TransCmp)

variable {α : Type} {cmp : α → α → Ordering}

theorem cmp_bne_gt_eq_isLE (a b : α) : (cmp a b != .gt) = (cmp a b).isLE := by
  cases cmp a b <;> rfl

variable [TransCmp cmp]

theorem pairwise_mergeSort_cmp (xs : List α) :
    (xs.mergeSort fun a b => cmp a b != .gt).Pairwise fun a b => (cmp a b).isLE = true := by
  simp only [cmp_bne_gt_eq_isLE]
  apply List.pairwise_mergeSort
  · intro a b c hab hbc
    exact TransCmp.isLE_trans hab hbc
  · intro a b
    have hswap : cmp b a = (cmp a b).swap := OrientedCmp.eq_swap
    rw [hswap]
    cases cmp a b <;> rfl

theorem isLE_foldl_least (first : α) (rest : List α) :
    let least := rest.foldl (fun low x => if cmp x low == .lt then x else low) first
    ∀ x ∈ first :: rest, (cmp least x).isLE = true := by
  induction rest generalizing first with
  | nil =>
    intro _ x hx
    obtain rfl := List.mem_singleton.mp hx
    have hself : cmp x x = .eq := Std.ReflCmp.compare_self
    show (cmp x x).isLE = true
    rw [hself]
    rfl
  | cons y rest ih =>
    intro least
    -- the lesser one of the first two elements is at the head of the search that is left
    let lesser := if cmp y first == .lt then y else first
    have hlesser : (cmp lesser first).isLE = true ∧ (cmp lesser y).isLE = true := by
      have hswap : cmp first y = (cmp y first).swap := OrientedCmp.eq_swap
      have hself (x : α) : cmp x x = .eq := Std.ReflCmp.compare_self
      cases hcmp : cmp y first <;> simp [lesser, hcmp, hself, hswap]
    have hleast : ∀ x ∈ lesser :: rest, (cmp least x).isLE = true := ih lesser
    rintro x (_ | ⟨_, _ | ⟨_, hx⟩⟩)
    · exact TransCmp.isLE_trans (hleast lesser (.head _)) hlesser.1
    · exact TransCmp.isLE_trans (hleast lesser (.head _)) hlesser.2
    · exact hleast x (.tail _ hx)

theorem mem_eraseReps_loop [DecidableEq α] {a x : α} {xs acc : List α} :
    x ∈ List.eraseRepsBy.loop (· == ·) a xs acc ↔ x = a ∨ x ∈ xs ∨ x ∈ acc := by
  induction xs generalizing a acc with
  | nil => simp [List.eraseRepsBy.loop, or_comm]
  | cons y xs ih =>
    rw [List.eraseRepsBy.loop]
    split
    next h =>
      obtain rfl : a = y := by simpa using h
      rw [ih, List.mem_cons]
      tauto
    next => simp only [ih, List.mem_cons, or_left_comm, or_assoc]

theorem mem_eraseReps [DecidableEq α] {x : α} {xs : List α} : x ∈ xs.eraseReps ↔ x ∈ xs := by
  cases xs with
  | nil => rfl
  | cons a xs => simp [List.eraseReps, List.eraseRepsBy, mem_eraseReps_loop]

variable [LawfulEqCmp cmp]

theorem pairwise_eraseReps_loop [DecidableEq α] {a : α} {xs acc : List α}
    (hacc : (a :: acc).Pairwise fun x y => cmp y x = .lt)
    (hxs : (a :: xs).Pairwise fun x y => (cmp x y).isLE = true) :
    (List.eraseRepsBy.loop (· == ·) a xs acc).Pairwise fun x y => cmp x y = .lt := by
  induction xs generalizing a acc with
  | nil => exact List.pairwise_reverse.mpr hacc
  | cons y xs ih =>
    rw [List.pairwise_cons] at hxs
    obtain ⟨hle, hsorted⟩ := hxs
    rw [List.eraseRepsBy.loop]
    split
    next h =>
      obtain rfl : a = y := by simpa using h
      exact ih hacc hsorted
    next h =>
      have hlt : cmp a y = .lt := by
        have hay := hle y (.head _)
        cases hcmp : cmp a y with
        | lt => rfl
        | eq => simp [LawfulEqCmp.eq_of_compare hcmp] at h
        | gt => simp [hcmp] at hay
      refine ih (List.pairwise_cons.mpr ⟨?_, hacc⟩) hsorted
      rintro x (_ | ⟨_, hx⟩)
      · exact hlt
      · exact TransCmp.lt_trans ((List.pairwise_cons.mp hacc).1 x hx) hlt

theorem pairwise_eraseReps [DecidableEq α] {xs : List α}
    (h : xs.Pairwise fun x y => (cmp x y).isLE = true) :
    xs.eraseReps.Pairwise fun x y => cmp x y = .lt := by
  cases xs with
  | nil => exact .nil
  | cons a xs => exact pairwise_eraseReps_loop (List.pairwise_singleton _ _) h

theorem eq_of_ascending {xs ys : List α} (hx : xs.Pairwise fun x y => cmp x y = .lt)
    (hy : ys.Pairwise fun x y => cmp x y = .lt) (h : ∀ x, x ∈ xs ↔ x ∈ ys) : xs = ys := by
  have : Std.Irrefl fun x y => cmp x y = .lt := ⟨fun x => by simp [Std.ReflCmp.compare_self]⟩
  have : Std.Antisymm fun x y => cmp x y = .lt :=
    ⟨fun x y hxy hyx => by simp [OrientedCmp.eq_swap (a := y) (b := x), hxy] at hyx⟩
  exact hx.eq_of_mem_iff hy h

end Comparison

section Stable

variable {α : Type} {le : α → α → Bool} (htrans : ∀ a b c, le a b → le b c → le a c)
  (htotal : ∀ a b, le a b || le b a)

include htrans htotal

/-- In a stable sort the first element comes right after those that have to be before it. -/
theorem mergeSort_cons_eq (a : α) (xs : List α) :
    (a :: xs).mergeSort le =
        (xs.mergeSort le).filter (fun x => !le a x) ++ a :: (xs.mergeSort le).filter (le a) ∧
      xs.mergeSort le =
        (xs.mergeSort le).filter (fun x => !le a x) ++ (xs.mergeSort le).filter (le a) := by
  obtain ⟨before, after, hcons, htail, hbefore⟩ := List.mergeSort_cons htrans htotal a xs
  have hsorted := List.pairwise_mergeSort htrans htotal (a :: xs)
  rw [hcons, List.pairwise_append, List.pairwise_cons] at hsorted
  have hafter : ∀ x ∈ after, le a x = true := hsorted.2.1.1
  have hfirst : (xs.mergeSort le).filter (fun x => !le a x) = before := by
    rw [htail, List.filter_append, List.filter_eq_self.mpr hbefore,
      List.filter_eq_nil_iff.mpr fun x hx => by simp [hafter x hx], List.append_nil]
  have hlast : (xs.mergeSort le).filter (le a) = after := by
    rw [htail, List.filter_append, List.filter_eq_self.mpr hafter,
      List.filter_eq_nil_iff.mpr fun x hx => by simpa using hbefore x hx, List.nil_append]
  rw [hfirst, hlast]
  exact ⟨hcons, htail⟩

/-- An element can be left out of a stable sort. Before it are at least as many as there are earlier
ones that are no greater and later ones that are smaller. -/
theorem exists_mergeSort_middle (as : List α) (x : α) (bs : List α) : ∃ before after,
    (as ++ x :: bs).mergeSort le = before ++ x :: after ∧
      (as ++ bs).mergeSort le = before ++ after ∧
      as.countP (fun a => le a x) + bs.countP (fun b => !le x b) ≤ before.length := by
  induction as with
  | nil =>
    obtain ⟨hwith, hwithout⟩ := mergeSort_cons_eq htrans htotal x bs
    refine ⟨_, _, hwith, hwithout, ?_⟩
    rw [← List.countP_eq_length_filter, (List.mergeSort_perm bs le).countP_eq]
    simp
  | cons a as ih =>
    obtain ⟨before, after, hwith, hwithout, hlength⟩ := ih
    have hsorted := List.pairwise_mergeSort htrans htotal (as ++ x :: bs)
    rw [hwith, List.pairwise_append] at hsorted
    have hbefore : ∀ b ∈ before, le b x = true := fun b hb => hsorted.2.2 b hb x (.head _)
    simp only [List.cons_append, (mergeSort_cons_eq htrans htotal a _).1, hwith, hwithout]
    cases hax : le a x with
    | true =>
      refine ⟨before.filter (fun b => !le a b) ++ after.filter (fun b => !le a b) ++
        a :: before.filter (le a), after.filter (le a), ?_, ?_, ?_⟩
      · simp [hax]
      · simp
      · have hpart := List.length_eq_length_filter_add (le a) (l := before)
        simp only [List.length_append, List.length_cons, List.countP_cons, hax, if_true]
        omega
    | false =>
      have hall : before.filter (fun b => !le a b) = before := by
        refine List.filter_eq_self.mpr fun b hb => ?_
        cases hab : le a b with
        | true => simp [htrans a b x hab (hbefore b hb)] at hax
        | false => rfl
      refine ⟨before, after.filter (fun b => !le a b) ++
        a :: (before.filter (le a) ++ after.filter (le a)), ?_, ?_, ?_⟩
      · simp [hax, hall]
      · simp [hall]
      · simpa [hax] using hlength

theorem take_mergeSort_middle {as : List α} {x : α} {bs : List α} {n : Nat}
    (h : n ≤ as.countP (fun a => le a x) + bs.countP (fun b => !le x b)) :
    ((as ++ x :: bs).mergeSort le).take n = ((as ++ bs).mergeSort le).take n := by
  obtain ⟨before, after, hwith, hwithout, hlength⟩ :=
    exists_mergeSort_middle htrans htotal as x bs
  have hn := h.trans hlength
  rw [hwith, hwithout, List.take_append_of_le_length hn, List.take_append_of_le_length hn]

end Stable

end Categorial
