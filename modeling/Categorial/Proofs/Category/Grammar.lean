import Categorial.Category.Reader
import Categorial.Proofs.Text.Cuts

/-! # The grammar of types and terms

What the texts of types and terms are, apart from how they are read. Slashes and applications
associate to the left, so the arguments of a type or a term are spelled one after the other at the
end of a chain. Two constants next to each other need spacing between them, or they would be one.
-/

namespace Categorial

open Text

def NameClass.Names (cls : NameClass) (u : List Char) : Prop :=
  ∃ c r, u = c :: r ∧ cls.starts c = true ∧ ∀ d ∈ r, cls.continues d = true

/-- Whether a spelling is one part, or one part with others after it. -/
inductive Extent where
  | primary
  | chain
  deriving DecidableEq

namespace SynType

inductive Spells : Extent → List Char → SynType → Prop
  | name {u : List Char} (hu : NameClass.atom.Names u) :
      Spells .primary u (ofName (String.ofList u))
  | group {w u w' : List Char} {t : SynType} (hw : Spacing w) (hu : Spells .chain u t)
      (hw' : Spacing w') : Spells .primary ('(' :: (w ++ (u ++ (w' ++ [')'])))) t
  | single {u : List Char} {t : SynType} (hu : Spells .primary u t) : Spells .chain u t
  | slash {u w w' v : List Char} {t arg : SynType} (hu : Spells .chain u t) (hw : Spacing w)
      (slash : Slash) (hw' : Spacing w') (hv : Spells .primary v arg) :
      Spells .chain (u ++ (w ++ slash.symbol :: (w' ++ v))) (.complex t slash arg)

/-- All names in the type are atoms, and none is the name of the empty type. -/
def Named : SynType → Prop
  | atom name => name ≠ emptyName ∧ NameClass.atom.Names name.toList
  | complex result _ arg => result.Named ∧ arg.Named
  | empty => True

end SynType

namespace Term

/-- No constant that begins `v` runs on from one that ends `u`. -/
def Apart (u v : List Char) : Prop :=
  ∀ c ∈ u.getLast?, NameClass.constant.starts c = true → Stops NameClass.constant.starts v

/-- `u` spells the term. A chain is a head with its arguments. -/
inductive Spells : Extent → List Char → Term → Prop
  | name {u : List Char} (hu : NameClass.constant.Names u) :
      Spells .primary u (.const (String.ofList u))
  | comp {w u w₁ w₂ v w₃ : List Char} {outer inner : Term} (hw : Spacing w)
      (hu : Spells .primary u outer) (hw₁ : Spacing w₁) (hw₂ : Spacing w₂)
      (hv : Spells .primary v inner) (hw₃ : Spacing w₃) :
      Spells .primary ('(' :: (w ++ (u ++ (w₁ ++ '.' :: (w₂ ++ (v ++ (w₃ ++ [')'])))))))
        (.comp outer inner)
  | group {w u w' : List Char} {t : Term} (hw : Spacing w) (hu : Spells .chain u t)
      (hw' : Spacing w') : Spells .primary ('(' :: (w ++ (u ++ (w' ++ [')'])))) t
  | single {u : List Char} {t : Term} (hu : Spells .primary u t) : Spells .chain u t
  | app {u w v : List Char} {fn arg : Term} (hu : Spells .chain u fn) (hw : Spacing w)
      (hv : Spells .primary v arg) (hapart : Apart u (w ++ v)) :
      Spells .chain (u ++ (w ++ v)) (.app fn arg)

def names : Term → List String
  | const name => [name]
  | app fn arg => fn.names ++ arg.names
  | comp outer inner => outer.names ++ inner.names

end Term

namespace NameClass

variable {cls : NameClass} {c : Char}

theorem isLetter_iff : isLetter c = true ↔
    (97 ≤ c.toNat ∧ c.toNat ≤ 122) ∨ (65 ≤ c.toNat ∧ c.toNat ≤ 90) := by
  simp only [isLetter, Bool.or_eq_true, Bool.and_eq_true, decide_eq_true_eq, Char.le_def,
    UInt32.le_iff_toNat_le, Char.toNat_val]
  rfl

theorem isBlank_of_starts (h : cls.starts c = true) : isBlank c = false := by
  cases cls with
  | atom =>
    have hletter := isLetter_iff.mp h
    simp only [isBlank, Bool.or_eq_false_iff, Bool.and_eq_false_iff, decide_eq_false_iff_not,
      beq_eq_false_iff_ne]
    omega
  | constant => simpa using (Bool.and_eq_true_iff.mp h).1
  | origin => simpa using (Bool.and_eq_true_iff.mp h).1

theorem isSpacing_of_starts (h : cls.starts c = true) : isSpacing c = false := by
  rw [Bool.eq_false_iff]
  exact fun hspacing => Bool.false_ne_true
    ((isBlank_of_starts h).symm.trans (isBlank_of_isSpacing hspacing))

theorem starts_of_isSpacing (h : isSpacing c = true) : cls.starts c = false := by
  rw [Bool.eq_false_iff]
  exact fun hc => Bool.false_ne_true ((isSpacing_of_starts hc).symm.trans h)

theorem isBlank_of_continues (h : cls.continues c = true) : isBlank c = false := by
  cases cls with
  | atom =>
    have hcode : isLetter c = true ∨ (48 ≤ c.toNat ∧ c.toNat ≤ 57) ∨
        c = '_' ∨ c = '-' ∨ c = '[' ∨ c = ']' := by
      simpa [continues, or_assoc, Char.le_def, UInt32.le_iff_toNat_le] using h
    rcases hcode with hletter | hdigit | rfl | rfl | rfl | rfl
    · have hstarts : atom.starts c = true := hletter
      exact isBlank_of_starts hstarts
    · simp only [isBlank, Bool.or_eq_false_iff, Bool.and_eq_false_iff, decide_eq_false_iff_not,
        beq_eq_false_iff_ne]
      omega
    all_goals decide
  | constant =>
    have hstarts : constant.starts c = true := h
    exact isBlank_of_starts hstarts
  | origin =>
    have hstarts : origin.starts c = true := h
    exact isBlank_of_starts hstarts

theorem continues_of_isSpacing (h : isSpacing c = true) : cls.continues c = false := by
  rw [Bool.eq_false_iff]
  exact fun hc => Bool.false_ne_true
    ((isBlank_of_continues hc).symm.trans (isBlank_of_isSpacing h))

theorem continues_of_starts (h : cls.starts c = true) : cls.continues c = true := by
  cases cls with
  | atom =>
    have hletter : isLetter c = true := h
    simp [continues, hletter]
  | constant => exact h
  | origin => exact h

variable {u : List Char}

theorem names_cons {r : List Char} (hc : cls.starts c = true) (hr : r.all cls.continues = true) :
    cls.Names (c :: r) :=
  ⟨c, r, rfl, hc, List.all_eq_true.mp hr⟩

theorem Names.ne_nil (h : cls.Names u) : u ≠ [] := by
  obtain ⟨c, r, rfl, -⟩ := h
  exact List.cons_ne_nil c r

theorem Names.length_pos (h : cls.Names u) : 0 < u.length :=
  List.length_pos_iff.mpr h.ne_nil

theorem Names.continues (h : cls.Names u) : ∀ c ∈ u, cls.continues c = true := by
  obtain ⟨c, r, rfl, hc, hr⟩ := h
  exact List.forall_mem_cons.mpr ⟨continues_of_starts hc, hr⟩

end NameClass

end Categorial
