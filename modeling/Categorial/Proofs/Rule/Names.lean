import Mathlib.Tactic.Common
import Categorial.Rule.Name

/-! # The order of rule names

Names are compared part by part, and two names that compare as equal are the same.
-/

namespace Categorial

open Std (LawfulEqCmp TransCmp TransOrd)

theorem Direction.rank_injective : Function.Injective Direction.rank := by
  rintro (_ | _ | _) (_ | _ | _) h <;> simp_all [rank]

instance : TransCmp BaseName.cmp :=
  inferInstanceAs (TransCmp (compareLex (compareOn BaseName.label)
    (compareLex (compareOn fun n => Direction.rank n.direction) (compareOn BaseName.order))))

instance : LawfulEqCmp BaseName.cmp where
  eq_of_compare {a b} h := by
    simp only [BaseName.cmp, Ordering.then_eq_eq, Std.compare_eq_iff_eq] at h
    obtain ⟨hlabel, hrank, horder⟩ := h
    have hdirection := Direction.rank_injective hrank
    cases a
    cases b
    simp_all

instance : TransCmp RuleName.cmp :=
  letI : Ord BaseName := ⟨BaseName.cmp⟩
  haveI : TransOrd BaseName := inferInstanceAs (TransCmp BaseName.cmp)
  inferInstanceAs (TransCmp (compareLex (compareOn RuleName.base) (compareOn RuleName.unary)))

instance : LawfulEqCmp RuleName.cmp where
  eq_of_compare {a b} h := by
    obtain ⟨base, unary⟩ := a
    obtain ⟨base', unary'⟩ := b
    obtain ⟨hbase, hunary⟩ := Ordering.then_eq_eq.mp h
    obtain rfl : base = base' := LawfulEqCmp.eq_of_compare hbase
    cases unary with
    | none => cases unary' <;> simp_all
    | some u =>
      cases unary' with
      | none => simp at hunary
      | some v =>
        have heq : u.cmp v = .eq := hunary
        rw [LawfulEqCmp.eq_of_compare heq]

end Categorial
