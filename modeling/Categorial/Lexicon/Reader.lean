import Categorial.Category.Reader
import Categorial.Lexicon.Basic

/-! # Reading lexicons

One entry per line, `tokens :- category` with an optional origin in braces. Two slashes start a
comment, and blank lines are skipped.
-/

namespace Categorial

open Text

namespace LexicalEntry

/-- The origin of entries that name none. -/
def defaultOrigin : String := "lexicon"

/-- What separates the tokens from the category. -/
def mark : List Char := [':', '-']

/-- The semantics after a colon, if there is one. -/
def readSemantics (s : List Char) : Except ReadError (Option Term × List Char) :=
  match s with
  | ':' :: s => do
    let (term, s) ← Term.read (skipSpacing s)
    .ok (some term, s)
  | s => .ok (none, s)

/-- The origin in braces, if there is one. -/
def readOrigin (s : List Char) : Except ReadError (String × List Char) :=
  match s with
  | '\x7b' :: s => do
    let (name, s) ← readName .origin (skipSpacing s)
    let s ← readCloser .origin s
    .ok (name, s)
  | s => .ok (defaultOrigin, s)

/-- The entry that a line spells. -/
def ofLine (line : List Char) : Except ReadError LexicalEntry := do
  let some (tokens, s) := cutAt? mark line | .error (.noMark line)
  let tokens := words tokens
  if tokens.isEmpty then .error (.noTokens line)
  else
    let (type, s) ← SynType.read (skipSpacing s)
    let (semantics, s) ← readSemantics (skipSpacing s)
    let (origin, s) ← readOrigin (skipSpacing s)
    let s := skipSpacing s
    let category : Category := ⟨type, semantics⟩
    if !s.isEmpty then .error (.trailingEntry s)
    else if !category.isWellFormed then .error (.needsSemantics category)
    else .ok ⟨tokens.map String.ofList, category, origin⟩

end LexicalEntry

namespace Lexicon

def commentMark : List Char := ['/', '/']

/-- What a line holds apart from a comment and the blanks around it. -/
def content (line : List Char) : List Char :=
  match cutAt? commentMark line with
  | some (before, _) => trim before
  | none => trim line

/-- Reads lines from line `number` on and adds their entries. -/
def readLines (number : Nat) (lexicon : Lexicon) : List (List Char) → Except ReadError Lexicon
  | [] => .ok lexicon
  | line :: rest =>
    if (content line).isEmpty then readLines (number + 1) lexicon rest
    else
      match LexicalEntry.ofLine (content line) with
      | .ok entry => readLines (number + 1) (lexicon.add entry) rest
      | .error error => .error (.atLine number error)

def ofChars (text : List Char) : Except ReadError Lexicon :=
  readLines 1 empty (lines text)

def ofString (text : String) : Except ReadError Lexicon :=
  ofChars text.toList

end Lexicon

end Categorial
