import Mathlib.Data.List.Sort
import Mathlib.Data.Prod.Lex
import Mathlib.Order.WithBot
import Mathlib.Tactic.Common
import Categorial.Scalar.LogSpace

/-! # Scalars with an order

The laws that beams rely on. In an ordered scalar all comparisons agree with one linear order, so
there is neither an undefined value nor a second zero. In an exact scalar a sum of masses does not
drop when a mass is added. Prune keys of ordered scalars form a linear order. Where only `cmp` is a
total order, keys are compared in one as well. Comparisons by value need less: they may follow
values on a line that not every scalar has.
-/

namespace Categorial

/-- All ways to compare agree with one linear order. -/
class OrderedScalar (S : Type) extends Scalar S, LinearOrder S where
  beq_iff : ∀ a b : S, Scalar.beq a b = true ↔ a = b
  blt_iff : ∀ a b : S, Scalar.blt a b = true ↔ a < b
  cmp_eq : ∀ a b : S, Scalar.cmp a b = compare a b

/-- Scalars are compared by the order of their values. Undefined scalars, whose value is `⊥`, are
related to nothing, not even to themselves. -/
structure Scalar.ComparedBy {S V : Type} [Scalar S] [LinearOrder V] (value : S → WithBot V) :
    Prop where
  beq_iff : ∀ a b, Scalar.beq a b = true ↔ value a ≠ ⊥ ∧ value a = value b
  blt_iff : ∀ a b, Scalar.blt a b = true ↔ value a ≠ ⊥ ∧ value a < value b
  negInf : value Scalar.negInf ≠ ⊥

theorem OrderedScalar.comparedBy {S : Type} [OrderedScalar S] :
    Scalar.ComparedBy (WithBot.some : S → WithBot S) where
  beq_iff a b := by simp [OrderedScalar.beq_iff]
  blt_iff a b := by simp [OrderedScalar.blt_iff]
  negInf := WithBot.coe_ne_bot

namespace LogSpace

variable {S : Type} [Scalar S]

def sumSorted (xs : List S) : S :=
  (xs.mergeSort fun a b => Scalar.cmp a b != .gt).foldl add Scalar.negInf

end LogSpace

class ExactScalar (S : Type) extends OrderedScalar S where
  sumSorted_le_cons : ∀ (x : S) (xs : List S),
    LogSpace.sumSorted xs ≤ LogSpace.sumSorted (x :: xs)

theorem pairwise_le_mergeSort {α : Type} [LinearOrder α] {r : α → α → Bool}
    (hr : ∀ a b, r a b = true ↔ a ≤ b) (xs : List α) : (xs.mergeSort r).Pairwise (· ≤ ·) := by
  have htrans (a b c : α) (hab : r a b = true) (hbc : r b c = true) : r a c = true :=
    (hr a c).mpr (((hr a b).mp hab).trans ((hr b c).mp hbc))
  have htotal (a b : α) : (r a b || r b a) = true := by
    rw [Bool.or_eq_true, hr, hr]
    exact le_total a b
  exact (List.pairwise_mergeSort htrans htotal xs).imp fun hab => (hr _ _).mp hab

theorem mergeSort_eq_of_perm {α : Type} [LinearOrder α] {r : α → α → Bool}
    (hr : ∀ a b, r a b = true ↔ a ≤ b) {xs ys : List α} (h : xs.Perm ys) :
    xs.mergeSort r = ys.mergeSort r :=
  List.Perm.eq_of_pairwise (fun _ _ _ _ hab hba => le_antisymm hab hba)
    (pairwise_le_mergeSort hr xs) (pairwise_le_mergeSort hr ys)
    ((List.mergeSort_perm xs r).trans (h.trans (List.mergeSort_perm ys r).symm))

variable {S : Type}

def PruneKey.parts (key : PruneKey S) : S ×ₗ S :=
  toLex (key.primary, key.secondary)

theorem PruneKey.parts_injective : Function.Injective (parts : PruneKey S → S ×ₗ S) := by
  rintro ⟨a, b⟩ ⟨c, d⟩ h
  simpa [parts] using h

open Std (TransCmp OrientedCmp ReflCmp TransOrd)

section Total

variable [Scalar S]

/-- Keys are in a total order if their parts are. -/
instance [h : TransCmp (Scalar.cmp : S → S → Ordering)] :
    TransCmp (PruneKey.cmp : PruneKey S → PruneKey S → Ordering) :=
  letI : Ord S := ⟨Scalar.cmp⟩
  haveI : TransOrd S := h
  inferInstanceAs
    (TransCmp (compareLex (compareOn PruneKey.primary) (compareOn PruneKey.secondary)))

namespace PruneKey

variable [TransCmp (cmp : PruneKey S → PruneKey S → Ordering)]

theorem beq_refl (a : PruneKey S) : a.beq a = true :=
  beq_iff_eq.mpr (@ReflCmp.compare_self _ cmp _ a)

omit [TransCmp (cmp : PruneKey S → PruneKey S → Ordering)] in
theorem ble_eq_isLE (a b : PruneKey S) : a.ble b = (a.cmp b).isLE := by
  rw [ble]
  cases a.cmp b <;> rfl

theorem blt_eq_not_ble (a b : PruneKey S) : a.blt b = !b.ble a := by
  have hswap : a.cmp b = (b.cmp a).swap := OrientedCmp.eq_swap
  rw [blt, ble, hswap]
  cases b.cmp a <;> rfl

theorem ble_total (a b : PruneKey S) : (a.ble b || b.ble a) = true := by
  have hswap : b.cmp a = (a.cmp b).swap := OrientedCmp.eq_swap
  rw [ble, ble, hswap]
  cases a.cmp b <;> rfl

theorem ble_trans (a b c : PruneKey S) (hab : a.ble b = true) (hbc : b.ble c = true) :
    a.ble c = true := by
  rw [ble_eq_isLE] at hab hbc ⊢
  exact TransCmp.isLE_trans hab hbc

end PruneKey

end Total

variable [OrderedScalar S]

instance : TransCmp (Scalar.cmp : S → S → Ordering) := by
  have hcmp : (Scalar.cmp : S → S → Ordering) = compare := funext₂ OrderedScalar.cmp_eq
  rw [hcmp]
  infer_instance

theorem cmp_ne_gt_iff (a b : S) : (Scalar.cmp a b != .gt) = true ↔ a ≤ b := by
  rw [OrderedScalar.cmp_eq, bne_iff_ne, ← not_lt]
  exact not_congr compare_gt_iff_gt

theorem LogSpace.sumSorted_perm {xs ys : List S} (h : xs.Perm ys) :
    sumSorted xs = sumSorted ys := by
  unfold sumSorted
  rw [mergeSort_eq_of_perm cmp_ne_gt_iff h]

namespace PruneKey

instance : LinearOrder (PruneKey S) :=
  LinearOrder.lift' parts parts_injective

theorem lt_iff {a b : PruneKey S} :
    a < b ↔ a.primary < b.primary ∨ a.primary = b.primary ∧ a.secondary < b.secondary :=
  Prod.Lex.lt_iff

theorem le_iff {a b : PruneKey S} :
    a ≤ b ↔ a.primary < b.primary ∨ a.primary = b.primary ∧ a.secondary ≤ b.secondary :=
  Prod.Lex.le_iff

theorem blt_iff (a b : PruneKey S) : a.blt b = true ↔ a < b := by
  rw [lt_iff, blt, cmp, beq_iff_eq, OrderedScalar.cmp_eq, OrderedScalar.cmp_eq,
    Ordering.then_eq_lt, compare_lt_iff_lt, compare_eq_iff_eq, compare_lt_iff_lt]

theorem beq_iff (a b : PruneKey S) : a.beq b = true ↔ a = b := by
  rw [beq, cmp, beq_iff_eq, OrderedScalar.cmp_eq, OrderedScalar.cmp_eq, Ordering.then_eq_eq,
    compare_eq_iff_eq, compare_eq_iff_eq]
  cases a
  cases b
  simp

theorem ble_iff (a b : PruneKey S) : a.ble b = true ↔ a ≤ b := by
  have hgt : a.cmp b = .gt ↔ b < a := by
    rw [lt_iff, cmp, OrderedScalar.cmp_eq, OrderedScalar.cmp_eq, Ordering.then_eq_gt,
      compare_gt_iff_gt, compare_eq_iff_eq, compare_gt_iff_gt, eq_comm (a := a.primary)]
  rw [ble, bne_iff_ne, ← not_lt]
  exact not_congr hgt

theorem ble_eq (a b : PruneKey S) : a.ble b = decide (a ≤ b) := by
  rw [Bool.eq_iff_iff, ble_iff, decide_eq_true_eq]

theorem le_of_parts {a b : PruneKey S} (hp : a.primary ≤ b.primary)
    (hs : a.secondary ≤ b.secondary) : a ≤ b := by
  rcases lt_or_eq_of_le hp with h | h
  · exact le_iff.mpr (.inl h)
  · exact le_iff.mpr (.inr ⟨h, hs⟩)

end PruneKey

end Categorial
