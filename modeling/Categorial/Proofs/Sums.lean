import Mathlib.Algebra.BigOperators.Ring.List
import Mathlib.Data.List.Nodup
import Mathlib.Data.List.ProdSigma
import Mathlib.Data.Real.Basic
import Mathlib.Tactic.Ring
import Categorial.Proofs.Computation

/-! # Sums over lists

Sums of real numbers over what is chained, filtered or found in one place, and sums that a
computation adds up on its way.
-/

namespace Categorial

theorem sum_map_flatMap {α β : Type} (f : α → List β) (w : β → ℝ) (xs : List α) :
    ((xs.flatMap f).map w).sum = (xs.map fun x => ((f x).map w).sum).sum := by
  rw [List.map_flatMap, List.flatMap_def, List.sum_flatten, List.map_map]
  rfl

theorem sum_map_filter {α : Type} {p : α → Bool} {w : α → ℝ} {xs : List α}
    (h : ∀ x ∈ xs, p x = false → w x = 0) : ((xs.filter p).map w).sum = (xs.map w).sum := by
  induction xs with
  | nil => rfl
  | cons x xs ih =>
    rw [List.map_cons, List.sum_cons, ← ih fun y hy => h y (.tail _ hy)]
    cases hp : p x with
    | false => rw [List.filter_cons_of_neg (by simp [hp]), h x (.head _) hp, zero_add]
    | true => rw [List.filter_cons_of_pos hp, List.map_cons, List.sum_cons]

theorem sum_map_single {α : Type} [DecidableEq α] {a : α} {w : α → ℝ} {xs : List α}
    (hnodup : xs.Nodup) (h : ∀ x ∈ xs, x ≠ a → w x = 0) (ha : a ∉ xs → w a = 0) :
    (xs.map w).sum = w a := by
  rw [List.sum_map_eq_nsmul_single a w fun x hne hx => h x hx hne]
  by_cases hmem : a ∈ xs
  · rw [List.count_eq_one_of_mem hnodup hmem, one_nsmul]
  · rw [List.count_eq_zero_of_not_mem hmem, zero_nsmul, ha hmem]

section Pairs

variable {α β : Type} {a f : α → ℝ} {b g : β → ℝ} {xs : List α} {ys : List β}

theorem sum_product_mul (a : α → ℝ) (b : β → ℝ) (xs : List α) (ys : List β) :
    ((xs.product ys).map fun x => a x.1 * b x.2).sum = (xs.map a).sum * (ys.map b).sum := by
  rw [List.product, sum_map_flatMap]
  simp only [List.map_map, Function.comp_def, List.sum_map_mul_left, List.sum_map_mul_right]

/-- The mean of a sum over independent choices. -/
theorem sum_product_mean (ha : (xs.map a).sum = 1) (hb : (ys.map b).sum = 1) (v : ℝ) :
    ((xs.product ys).map fun x => a x.1 * b x.2 * (v + (f x.1 + g x.2))).sum =
      v + ((xs.map fun x => a x * f x).sum + (ys.map fun y => b y * g y).sum) := by
  have hterm : ∀ x : α × β, a x.1 * b x.2 * (v + (f x.1 + g x.2)) =
      v * (a x.1 * b x.2) + (a x.1 * f x.1 * b x.2 + a x.1 * (b x.2 * g x.2)) := fun x => by ring
  simp only [hterm, List.sum_map_add, List.sum_map_mul_left]
  rw [sum_product_mul, sum_product_mul (fun x => a x * f x) b,
    sum_product_mul a fun y => b y * g y, ha, hb]
  ring

end Pairs

theorem exists_foldlM {ε α β κ : Type} {f : β → α → Except ε β} {V : β → κ → ℝ} {w : α → κ → ℝ}
    {xs : List α} (h : ∀ x ∈ xs, ∀ b, ∃ b', f b x = .ok b' ∧ ∀ k, V b' k = V b k + w x k) (b : β) :
    ∃ b', xs.foldlM f b = .ok b' ∧ ∀ k, V b' k = V b k + (xs.map (w · k)).sum := by
  induction xs generalizing b with
  | nil => exact ⟨b, rfl, fun k => by simp⟩
  | cons x xs ih =>
    obtain ⟨c, hc, hvalue⟩ := h x (.head _) b
    obtain ⟨b', hb', hrest⟩ := ih (fun y hy => h y (.tail _ hy)) c
    refine ⟨b', foldlM_cons_eq_ok.mpr ⟨c, hc, hb'⟩, fun k => ?_⟩
    rw [hrest, hvalue, List.map_cons, List.sum_cons, add_assoc]

end Categorial
