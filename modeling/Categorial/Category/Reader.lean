import Categorial.Category.Basic
import Categorial.Text.Blank
import Categorial.Text.Quoted

/-! # Reading types and terms

Slashes associate to the left, so `S\NP/NP` is `(S\NP)/NP`. A term is a constant, an application
`(f a b)` of any number of arguments, or a composition `(f . g)`. Every reader returns what it read
and the text after it.
-/

namespace Categorial

open Text

/-- The classes of names, each read as long as it goes. -/
inductive NameClass where
  | atom
  | constant
  | origin
  deriving DecidableEq, Repr

namespace NameClass

def isLetter (c : Char) : Bool :=
  ('a' ≤ c && c ≤ 'z') || ('A' ≤ c && c ≤ 'Z')

def starts : NameClass → Char → Bool
  | atom, c => isLetter c
  | constant, c => !isBlank c && !(['(', ')', '\x7b', '\x7d', '.'].contains c)
  | origin, c => !isBlank c && !(['\x7b', '\x7d'].contains c)

def continues : NameClass → Char → Bool
  | atom, c => isLetter c || ('0' ≤ c && c ≤ '9') || ['_', '-', '[', ']'].contains c
  | cls, c => cls.starts c

def render : NameClass → String
  | atom => "atom: couldn't match [a-zA-Z][a-zA-Z0-9_\\-\\[\\]]*"
  | constant => "term: couldn't match [^\\s()\x7b\x7d.]+"
  | origin => "origin: couldn't match [^\\s\x7b\x7d]+"

end NameClass

/-- Where a closing character is missing. -/
inductive Opened where
  | category
  | composition
  | origin
  deriving DecidableEq, Repr

namespace Opened

def closer : Opened → Char
  | category => ')'
  | composition => ')'
  | origin => '\x7d'

def render : Opened → String
  | category => "category: couldn't match )"
  | composition => "composition: couldn't match )"
  | origin => "couldn't match \x7d"

end Opened

/-- Why a text is not a type, a term or a lexicon. -/
inductive ReadError where
  | noName (cls : NameClass) (rest : List Char)
  | notClosed (opened : Opened) (rest : List Char)
  | unclosedApplication
  | trailingCategory (rest : List Char)
  | trailingTerm (rest : List Char)
  | trailingEntry (rest : List Char)
  | noMark (line : List Char)
  | noTokens (line : List Char)
  | needsSemantics (category : Category)
  | atLine (number : Nat) (error : ReadError)
  /-- The reader ran out of its allowance, which covers every text. -/
  | exhausted
  deriving DecidableEq, Repr

namespace ReadError

def message : ReadError → String
  | noName cls rest => cls.render ++ " at " ++ quote rest
  | notClosed opened rest => opened.render ++ " at " ++ quote rest
  | unclosedApplication => "unclosed application"
  | trailingCategory rest => "trailing input after category: " ++ quote rest
  | trailingTerm rest => "trailing input after term: " ++ quote rest
  | trailingEntry rest => "trailing input " ++ quote rest
  | noMark line => "missing ':-' in " ++ quote line
  | noTokens line => "no tokens in " ++ quote line
  | needsSemantics category => category.render ++ " needs semantics"
  | atLine number error => "line " ++ toString number ++ ": " ++ error.message
  | exhausted => "text too long"

end ReadError

abbrev Reader (α : Type) := List Char → Except ReadError (α × List Char)

/-- Reads the longest name of a class. -/
def readName (cls : NameClass) : Reader String
  | c :: s =>
    if cls.starts c then
      .ok (String.ofList (c :: s.takeWhile cls.continues), s.dropWhile cls.continues)
    else .error (.noName cls (c :: s))
  | [] => .error (.noName cls [])

/-- Reads the character that closes what was opened, after any spacing. -/
def readCloser (opened : Opened) (s : List Char) : Except ReadError (List Char) :=
  match skipSpacing s with
  | c :: rest => if c = opened.closer then .ok rest else .error (.notClosed opened (c :: rest))
  | [] => .error (.notClosed opened [])

def readSlash? : List Char → Option (Slash × List Char)
  | '/' :: s => some (.forward, s)
  | '\\' :: s => some (.backward, s)
  | _ => none

namespace SynType

def ofName (name : String) : SynType :=
  if name = emptyName then .empty else .atom name

mutual

/-- An atom, the empty type, or a type in parentheses. -/
def readPrimary : Nat → Reader SynType
  | 0, _ => .error .exhausted
  | fuel + 1, s =>
    match s with
    | '(' :: s => do
      let (t, s) ← readChain fuel (skipSpacing s)
      let s ← readCloser .category s
      .ok (t, s)
    | s => do
      let (name, s) ← readName .atom s
      .ok (ofName name, s)

/-- A primary and the slashes that follow it. -/
def readChain : Nat → Reader SynType
  | 0, _ => .error .exhausted
  | fuel + 1, s => do
    let (t, s) ← readPrimary fuel s
    readSlashes fuel t s

/-- The slashes and arguments that follow `t`. Spacing after the last argument is not consumed. -/
def readSlashes : Nat → SynType → Reader SynType
  | 0, _, _ => .error .exhausted
  | fuel + 1, t, s =>
    match readSlash? (skipSpacing s) with
    | none => .ok (t, s)
    | some (slash, rest) => do
      let (arg, rest) ← readPrimary fuel (skipSpacing rest)
      readSlashes fuel (.complex t slash arg) rest

end

def read : Reader SynType := fun s =>
  readChain (2 * s.length + 2) s

/-- The type that a whole text spells, blanks around it aside. -/
def ofChars (s : List Char) : Except ReadError SynType := do
  let (t, rest) ← read (trim s)
  if rest.isEmpty then .ok t else .error (.trailingCategory rest)

def ofString (s : String) : Except ReadError SynType :=
  ofChars s.toList

end SynType

namespace Term

mutual

def readTerm : Nat → Reader Term
  | 0, _ => .error .exhausted
  | fuel + 1, s =>
    match s with
    | '(' :: s => do
      let (head, s) ← readTerm fuel (skipSpacing s)
      match skipSpacing s with
      | '.' :: s => do
        let (inner, s) ← readTerm fuel (skipSpacing s)
        let s ← readCloser .composition s
        .ok (.comp head inner, s)
      | s => readArgs fuel head s
    | s => do
      let (name, s) ← readName .constant s
      .ok (.const name, s)

/-- The arguments of `fn` up to the closing parenthesis. -/
def readArgs : Nat → Term → Reader Term
  | 0, _, _ => .error .exhausted
  | fuel + 1, fn, s =>
    match skipSpacing s with
    | ')' :: s => .ok (fn, s)
    | [] => .error .unclosedApplication
    | s => do
      let (arg, s) ← readTerm fuel s
      readArgs fuel (.app fn arg) s

end

def read : Reader Term := fun s =>
  readTerm (2 * s.length + 2) s

/-- The term that a whole text spells, blanks around it aside. -/
def ofChars (s : List Char) : Except ReadError Term := do
  let (t, rest) ← read (trim s)
  if rest.isEmpty then .ok t else .error (.trailingTerm rest)

def ofString (s : String) : Except ReadError Term :=
  ofChars s.toList

end Term

end Categorial
