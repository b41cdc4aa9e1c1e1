import Categorial.Proofs.Lexicon.Groups
import Categorial.Proofs.Lexicon.Lines
import Mathlib.Data.List.ReduceOption

/-! # The texts of lexicons

A text is read as a lexicon just where each of its lines is blank or spells an entry, and then the
lexicon holds these entries. Otherwise the error is about the first line that is neither.
-/

namespace Categorial

open Text

namespace Lexicon

variable {line s rest : List Char} {ls : List (List Char)} {e : LexicalEntry}
  {lexicon result : Lexicon} {found : Option LexicalEntry} {founds : List (Option LexicalEntry)}
  {error : ReadError} {number : Nat}

/-- `s` is what a line holds apart from a comment and the blanks around it. -/
inductive Holds : List Char → List Char → Prop
  | whole {line : List Char} (h : ¬ commentMark <:+: line) : Holds line (trim line)
  | commented {line before comment : List Char} (h : CutsAt commentMark line before comment) :
      Holds line (trim before)

theorem holds_iff : Holds line s ↔ content line = s := by
  constructor
  · rintro (h | h)
    · rw [content, cutAt?_eq_none.mpr h]
    · rw [content, cutAt?_eq_some.mpr h]
  · rintro rfl
    unfold content
    split
    · next hcut => exact .commented (cutAt?_eq_some.mp hcut)
    · next hcut => exact .whole (cutAt?_eq_none.mp hcut)

inductive LineSpells : List Char → Option LexicalEntry → Prop
  | blank {line : List Char} (h : Holds line []) : LineSpells line none
  | entry {line s : List Char} {e : LexicalEntry} (h : Holds line s)
      (hspells : LexicalEntry.Spells s e) : LineSpells line (some e)

theorem LineSpells.unique {found' : Option LexicalEntry} (h : LineSpells line found)
    (h' : LineSpells line found') : found = found' := by
  cases h with
  | blank h =>
    cases h' with
    | blank => rfl
    | entry h' hspells =>
      exact absurd ((holds_iff.mp h').symm.trans (holds_iff.mp h)) hspells.ne_nil
  | entry h hspells =>
    cases h' with
    | blank h' => exact absurd ((holds_iff.mp h).symm.trans (holds_iff.mp h')) hspells.ne_nil
    | entry h' hspells' =>
      obtain rfl := (holds_iff.mp h).symm.trans (holds_iff.mp h')
      exact congrArg some (hspells.unique hspells')

theorem LineSpells.readLines_cons (h : LineSpells line found) :
    readLines number lexicon (line :: ls) =
      readLines (number + 1) (found.elim lexicon lexicon.add) ls := by
  cases h with
  | blank h =>
    have hblank : (content line).isEmpty = true := List.isEmpty_iff.mpr (holds_iff.mp h)
    exact if_pos hblank
  | entry h hspells =>
    have hsome : ¬ (content line).isEmpty = true := by
      rw [List.isEmpty_iff, holds_iff.mp h]
      exact hspells.ne_nil
    refine (if_neg hsome).trans ?_
    rw [holds_iff.mp h, LexicalEntry.ofLine_of_spells hspells]
    rfl

theorem readLines_cons_of_not (h : ¬ ∃ found, LineSpells line found) :
    ∃ cause, LexicalEntry.ofLine (content line) = .error cause ∧
      readLines number lexicon (line :: ls) = .error (.atLine number cause) := by
  cases hline : LexicalEntry.ofLine (content line) with
  | ok e =>
    exact absurd ⟨some e, .entry (holds_iff.mpr rfl) (LexicalEntry.ofLine_eq_ok.mp hline)⟩ h
  | error cause =>
    have hsome : ¬ (content line).isEmpty = true := fun hblank =>
      h ⟨none, .blank (holds_iff.mpr (List.isEmpty_iff.mp hblank))⟩
    refine ⟨cause, rfl, (if_neg hsome).trans ?_⟩
    rw [hline]

theorem readLines_eq_ok : readLines number lexicon ls = .ok result ↔
    ∃ founds, List.Forall₂ LineSpells ls founds ∧
      result = founds.reduceOption.foldl add lexicon := by
  induction ls generalizing number lexicon with
  | nil =>
    constructor
    · intro h
      exact ⟨[], .nil, (Except.ok.inj h).symm⟩
    · rintro ⟨_, ⟨⟩, rfl⟩
      rfl
  | cons line ls ih =>
    by_cases hline : ∃ found, LineSpells line found
    · obtain ⟨found, hfound⟩ := hline
      have hadd : ∀ founds : List (Option LexicalEntry), (found :: founds).reduceOption.foldl add
          lexicon = founds.reduceOption.foldl add (found.elim lexicon lexicon.add) := fun _ => by
        cases found <;> rfl
      rw [hfound.readLines_cons, ih]
      constructor
      · rintro ⟨founds, hfounds, rfl⟩
        exact ⟨found :: founds, .cons hfound hfounds, (hadd founds).symm⟩
      · rintro ⟨_, h, rfl⟩
        cases h with
        | cons hfound' hfounds =>
          obtain rfl := hfound'.unique hfound
          exact ⟨_, hfounds, hadd _⟩
    · obtain ⟨cause, -, herror⟩ := readLines_cons_of_not hline
      rw [herror]
      refine ⟨nofun, ?_⟩
      rintro ⟨_, h, -⟩
      cases h with
      | cons hfound => exact absurd ⟨_, hfound⟩ hline

/-- What is wrong with the lines is wrong with the first of them that is neither blank nor spells an
entry. -/
theorem readLines_eq_error : readLines number lexicon ls = .error error ↔
    ∃ before line after cause, ls = before ++ line :: after ∧
      (∀ l ∈ before, ∃ found, LineSpells l found) ∧ (¬ ∃ found, LineSpells line found) ∧
      LexicalEntry.ofLine (content line) = .error cause ∧
      error = .atLine (number + before.length) cause := by
  induction ls generalizing number lexicon with
  | nil =>
    refine ⟨nofun, ?_⟩
    rintro ⟨before, line, after, -, h, -⟩
    exact absurd h.symm (by simp)
  | cons line ls ih =>
    by_cases hline : ∃ found, LineSpells line found
    · obtain ⟨found, hfound⟩ := hline
      rw [hfound.readLines_cons, ih]
      constructor
      · rintro ⟨before, l, after, cause, rfl, hbefore, hl, hcause, rfl⟩
        refine ⟨line :: before, l, after, cause, rfl, ?_, hl, hcause, ?_⟩
        · exact List.forall_mem_cons.mpr ⟨⟨found, hfound⟩, hbefore⟩
        · rw [List.length_cons, Nat.add_right_comm, Nat.add_assoc]
      · rintro ⟨_ | ⟨first, before⟩, l, after, cause, heq, hbefore, hl, hcause, rfl⟩
        · exact absurd ⟨found, (List.cons.inj heq).1 ▸ hfound⟩ hl
        · refine ⟨before, l, after, cause, (List.cons.inj heq).2,
            fun l hl => hbefore l (.tail _ hl), hl, hcause, ?_⟩
          rw [List.length_cons, Nat.add_right_comm, Nat.add_assoc]
    · obtain ⟨cause, hcause, herror⟩ : ∃ cause, LexicalEntry.ofLine (content line) = .error cause ∧
          readLines number lexicon (line :: ls) = .error (.atLine number cause) :=
        readLines_cons_of_not hline
      rw [herror]
      constructor
      · intro h
        exact ⟨[], line, ls, cause, rfl, nofun, hline, hcause, (Except.error.inj h).symm⟩
      · rintro ⟨_ | ⟨first, before⟩, l, after, cause', heq, hbefore, hl, hcause', rfl⟩
        · obtain ⟨rfl, -⟩ := List.cons.inj heq
          rw [Except.error.inj (hcause.symm.trans hcause')]
          rfl
        · exact absurd ((List.cons.inj heq).1 ▸ hbefore first (.head _)) hline

/-- A text is a lexicon of the entries that its lines spell, or one of its lines is at fault. -/
structure ReadAsSpelled (text : String) : Prop where
  accepted : ∀ lexicon, ofString text = .ok lexicon ↔
    ∃ founds, List.Forall₂ LineSpells (lines text.toList) founds ∧
      lexicon = grouped founds.reduceOption
  fits : (∃ lexicon, ofString text = .ok lexicon) ↔
    ∀ line ∈ lines text.toList, ∃ found, LineSpells line found
  rejected : ∀ error, ofString text = .error error ↔
    ∃ before line after cause, lines text.toList = before ++ line :: after ∧
      (∀ l ∈ before, ∃ found, LineSpells l found) ∧ (¬ ∃ found, LineSpells line found) ∧
      LexicalEntry.ofLine (content line) = .error cause ∧
      error = .atLine (before.length + 1) cause
  /-- An error gives the number of its line, and is none that the allowance of the readers makes. -/
  reported : ∀ error, ofString text = .error error → ∃ number cause, cause ≠ .exhausted ∧
    error.message = "line " ++ toString number ++ ": " ++ cause.message ∧
    error = .atLine number cause

theorem readAsSpelled (text : String) : ReadAsSpelled text where
  accepted lexicon := by
    show readLines 1 empty _ = _ ↔ _
    simp only [readLines_eq_ok, ← ofEntries_eq_grouped]
    rfl
  fits := by
    constructor
    · rintro ⟨lexicon, h⟩ line hline
      obtain ⟨founds, hfounds, -⟩ := readLines_eq_ok.mp h
      obtain ⟨hlength, hget⟩ := List.forall₂_iff_get.mp hfounds
      obtain ⟨i, hi, rfl⟩ := List.getElem_of_mem hline
      exact ⟨_, hget i hi (hlength ▸ hi)⟩
    · intro h
      choose! found hfound using h
      refine ⟨_, readLines_eq_ok.mpr ⟨(lines text.toList).map found, ?_, rfl⟩⟩
      exact List.forall₂_map_right_iff.mpr (List.forall₂_same.mpr hfound)
  rejected error := by
    show readLines 1 empty _ = _ ↔ _
    simp only [readLines_eq_error, Nat.add_comm 1]
  reported error h := by
    obtain ⟨before, line, after, cause, -, -, -, hcause, rfl⟩ := readLines_eq_error.mp h
    refine ⟨_, cause, ?_, rfl, rfl⟩
    rintro rfl
    exact LexicalEntry.ofLine_ne_exhausted hcause

end Lexicon

end Categorial
