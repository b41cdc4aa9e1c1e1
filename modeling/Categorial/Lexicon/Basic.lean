import Categorial.Category.Basic

/-! # Lexicons

A lexicon holds lexical entries grouped by their tokens. Groups and the entries of a group keep the
order in which they came, and no entry is held twice.
-/

namespace Categorial

/-- A lexical item of one or more tokens. Equal items of different sources are told apart by their
origin. -/
structure LexicalEntry where
  tokens : List String
  category : Category
  origin : String
  deriving DecidableEq, Repr

namespace LexicalEntry

/-- The tokens of an entry, or of any stretch of a sentence, as one text. -/
def joinTokens (tokens : List String) : String :=
  String.intercalate " " tokens

def render (e : LexicalEntry) : String :=
  joinTokens e.tokens ++ " :- " ++ e.category.render ++ " \x7b" ++ e.origin ++ "\x7d"

end LexicalEntry

/-- Adds an element at the end unless it is there already. -/
def insertLast {α : Type} [DecidableEq α] (xs : List α) (x : α) : List α :=
  if x ∈ xs then xs else xs ++ [x]

/-- The elements of a list at the places where they come first. -/
def distinct {α : Type} [DecidableEq α] (xs : List α) : List α :=
  xs.foldl insertLast []

/-- The entries for one sequence of tokens. -/
structure EntryGroup where
  tokens : List String
  entries : List LexicalEntry
  deriving DecidableEq, Repr

structure Lexicon where
  groups : List EntryGroup
  deriving DecidableEq, Repr

namespace Lexicon

def empty : Lexicon :=
  ⟨[]⟩

def entries (lexicon : Lexicon) : List LexicalEntry :=
  lexicon.groups.flatMap EntryGroup.entries

def entriesFor (lexicon : Lexicon) (tokens : List String) : List LexicalEntry :=
  match lexicon.groups.find? (·.tokens == tokens) with
  | some group => group.entries
  | none => []

def contains (lexicon : Lexicon) (entry : LexicalEntry) : Bool :=
  entry ∈ lexicon.entriesFor entry.tokens

/-- Adds an entry to the first group with its tokens, or to a new group at the end. -/
def addToGroups (entry : LexicalEntry) : List EntryGroup → List EntryGroup
  | [] => [⟨entry.tokens, [entry]⟩]
  | group :: rest =>
    if group.tokens = entry.tokens then ⟨group.tokens, insertLast group.entries entry⟩ :: rest
    else group :: addToGroups entry rest

def add (lexicon : Lexicon) (entry : LexicalEntry) : Lexicon :=
  ⟨addToGroups entry lexicon.groups⟩

def ofEntries (entries : List LexicalEntry) : Lexicon :=
  entries.foldl add empty

def size (lexicon : Lexicon) : Nat :=
  lexicon.entries.length

def isEmpty (lexicon : Lexicon) : Bool :=
  lexicon.size == 0

/-- The number of tokens of the longest entry. -/
def maxTokens (lexicon : Lexicon) : Nat :=
  lexicon.groups.foldl (fun longest group => max longest group.tokens.length) 0

/-- One entry per line. -/
def render (lexicon : Lexicon) : String :=
  String.join (lexicon.entries.map fun entry => entry.render ++ "\n")

end Lexicon

/-- Anything that proposes lexical entries for a sequence of tokens. -/
structure EntrySource where
  entriesFor : List String → List LexicalEntry
  size : Nat

namespace EntrySource

def ofLexicon (lexicon : Lexicon) : EntrySource :=
  ⟨lexicon.entriesFor, lexicon.size⟩

/-- The union of several sources: each entry once, at its place in the first source that has it. -/
def union (sources : List EntrySource) : EntrySource where
  entriesFor tokens := distinct (sources.flatMap (·.entriesFor tokens))
  size := sources.foldl (fun total source => total + source.size) 0

end EntrySource

/-- Builds extra entries from the sentence to be parsed. -/
abbrev SentenceGenerator := List String → Lexicon

namespace SentenceGenerator

def skippingOrigin : String := "skipping"

/-- Lets every token be skipped by giving it the empty category. -/
def skipping : SentenceGenerator := fun tokens =>
  .ofEntries (tokens.map fun token => ⟨[token], .empty, skippingOrigin⟩)

end SentenceGenerator

end Categorial
