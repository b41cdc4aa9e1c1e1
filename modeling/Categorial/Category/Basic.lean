/-! # Categories

A category pairs a syntactic type with a semantic term. Categories are what the chart packs on:
two constituents over the same tokens with equal categories share one cell.
-/

namespace Categorial

/-- Where a complex type looks for its argument: `X/Y` on the right, `X\Y` on the left. -/
inductive Slash where
  | forward
  | backward
  deriving DecidableEq, Hashable, Repr

namespace Slash

def symbol : Slash → Char
  | forward => '/'
  | backward => '\\'

end Slash

/-- A syntactic type. The empty type is the only one that may carry no semantics. -/
inductive SynType where
  | atom (name : String)
  | complex (result : SynType) (slash : Slash) (arg : SynType)
  | empty
  deriving DecidableEq, Hashable, Repr

namespace SynType

def isEmpty : SynType → Bool
  | empty => true
  | _ => false

def isComplex : SynType → Bool
  | complex .. => true
  | _ => false

def parts? : SynType → Option (SynType × Slash × SynType)
  | complex result slash arg => some (result, slash, arg)
  | _ => none

/-- The name of the empty type. -/
def emptyName : String := "EMPTY"

def enclose (inner : List Char) : List Char :=
  '(' :: inner ++ [')']

def chars : SynType → List Char
  | atom name => name.toList
  | complex result slash arg =>
    (if result.isComplex then enclose result.chars else result.chars) ++
      slash.symbol :: (if arg.isComplex then enclose arg.chars else arg.chars)
  | empty => emptyName.toList

/-- A complex part of a complex type stands in parentheses. -/
def render (t : SynType) : String :=
  String.ofList t.chars

end SynType

/-- An uninterpreted term, enough to tell derivations apart. -/
inductive Term where
  | const (name : String)
  | app (fn arg : Term)
  | comp (outer inner : Term)
  deriving DecidableEq, Hashable, Repr

namespace Term

def chars : Term → List Char
  | const name => name.toList
  | app fn arg => '(' :: chars fn ++ ' ' :: chars arg ++ [')']
  | comp outer inner => '(' :: chars outer ++ " . ".toList ++ chars inner ++ [')']

def render (t : Term) : String :=
  String.ofList t.chars

end Term

/-- A syntactic type with its semantics, the unit of packing in the chart. -/
structure Category where
  type : SynType
  semantics : Option Term
  deriving DecidableEq, Hashable, Repr

namespace Category

/-- The category of what can be skipped. -/
def empty : Category :=
  ⟨.empty, none⟩

/-- Only the empty type can do without semantics. -/
def isWellFormed (c : Category) : Bool :=
  c.semantics.isSome || c.type.isEmpty

def chars (c : Category) : List Char :=
  match c.semantics with
  | some term => c.type.chars ++ " : ".toList ++ term.chars
  | none => c.type.chars

def render (c : Category) : String :=
  String.ofList c.chars

end Category

end Categorial
