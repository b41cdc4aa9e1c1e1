import Categorial.Rule.NormalForm

/-! # What the normal form looks at

The two standard constraints look at the rules that the names end in. What passes with some names
passes with fewer of them, so a check of all names of a cell is a check of the name at the root of
each of its trees.
-/

namespace Categorial

/-- Each of the names ends in the same rule as one of the others. -/
def RuleName.EndIn (names others : List RuleName) : Prop :=
  ∀ name ∈ names, ∃ other ∈ others, name.outermost = other.outermost

theorem RuleName.EndIn.of_subset {names others : List RuleName}
    (h : ∀ name ∈ names, name ∈ others) : EndIn names others :=
  fun name hname => ⟨name, h name hname, rfl⟩

theorem RuleName.EndIn.singleton {base : BaseName} {name : RuleName} {others : List RuleName}
    (hname : name ∈ others) (hbase : name.outermost = base) : EndIn [plain base] others := by
  intro other hother
  obtain rfl := List.mem_singleton.mp hother
  exact ⟨name, hname, hbase.symm⟩

open RuleName

variable {left right left' right' names names' : List RuleName}

namespace Constraint

theorem anyComposed_mono (h : EndIn names names') {direction : Direction} {p : Nat → Bool}
    (hany : anyComposed names direction p = true) : anyComposed names' direction p = true := by
  obtain ⟨name, hname, hcomp⟩ := List.any_eq_true.mp hany
  obtain ⟨name', hname', heq⟩ := h name hname
  exact List.any_eq_true.mpr ⟨name', hname', heq ▸ hcomp⟩

theorem not_anyComposed (h : EndIn names names') {direction : Direction} {p : Nat → Bool}
    (hnot : anyComposed names' direction p = false) : anyComposed names direction p = false := by
  rw [Bool.eq_false_iff] at hnot ⊢
  exact fun hany => hnot (anyComposed_mono h hany)

theorem allowsComposition_of_endIn (hl : EndIn left left') (hr : EndIn right right')
    {rule : BaseName} (h : allowsComposition left' right' rule = true) :
    allowsComposition left right rule = true := by
  unfold allowsComposition at h ⊢
  cases hdirection : rule.direction with
  | none => rfl
  | some direction =>
    rw [hdirection] at h
    cases direction with
    | forward =>
      simp only [Bool.and_eq_true, Bool.not_eq_true', Bool.and_eq_false_iff] at h ⊢
      obtain ⟨⟨hprimary, hzero⟩, hsecondary⟩ := h
      exact ⟨⟨hprimary.imp_right (not_anyComposed hl), hzero.imp_right (not_anyComposed hl)⟩,
        hsecondary.imp_right (not_anyComposed hr)⟩
    | backward =>
      simp only [Bool.and_eq_true, Bool.not_eq_true', Bool.and_eq_false_iff] at h ⊢
      obtain ⟨⟨hprimary, hzero⟩, hsecondary⟩ := h
      exact ⟨⟨hprimary.imp_right (not_anyComposed hr), hzero.imp_right (not_anyComposed hr)⟩,
        hsecondary.imp_right (not_anyComposed hl)⟩

/-- One of the constraints that come with the parser. -/
inductive Standard : Constraint → Prop where
  | composition : Standard composition
  | unary (banned : List RuleName) : Standard (unary banned)

end Constraint

namespace NormalForm

def Standard (nf : NormalForm) : Prop :=
  ∀ c ∈ nf.constraints, c.Standard

namespace Standard

variable {nf : NormalForm} (hstd : nf.Standard) {rule : RuleName}

include hstd

theorem allowsBinary_of_endIn (hl : EndIn left left') (hr : EndIn right right')
    (h : nf.allowsBinary left' right' rule = true) : nf.allowsBinary left right rule = true := by
  refine List.all_eq_true.mpr fun c hc => ?_
  have hallows := List.all_eq_true.mp h c hc
  cases hstd c hc with
  | composition => exact Constraint.allowsComposition_of_endIn hl hr hallows
  | unary banned => rfl

theorem allowsUnary_of_endIn (hn : EndIn names names') (h : nf.allowsUnary names' rule = true) :
    nf.allowsUnary names rule = true := by
  refine List.all_eq_true.mpr fun c hc => ?_
  have hallows := List.all_eq_true.mp h c hc
  cases hstd c hc with
  | composition => rfl
  | unary banned =>
    simp only [Constraint.unary, Bool.not_eq_true', List.any_eq_false] at hallows ⊢
    intro name hname
    obtain ⟨name', hname', heq⟩ := hn name hname
    rw [heq]
    exact hallows name' hname'

theorem allowsUnary_of_forall (h : ∀ name ∈ names, nf.allowsUnary [name] rule = true) :
    nf.allowsUnary names rule = true := by
  refine List.all_eq_true.mpr fun c hc => ?_
  have hallows : ∀ name ∈ names, c.allowsUnary [name] rule = true :=
    fun name hname => List.all_eq_true.mp (h name hname) c hc
  cases hstd c hc with
  | composition => rfl
  | unary banned => simpa [Constraint.unary] using hallows

end Standard

end NormalForm

end Categorial
