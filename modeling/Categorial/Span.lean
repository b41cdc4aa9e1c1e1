/-! # Spans

A span is a contiguous run of tokens inside a sentence, given by its first and its last token.
-/

namespace Categorial

/-- The tokens `first` to `last`, both included, of a sentence of `size` tokens. -/
structure Span where
  first : Nat
  last : Nat
  size : Nat
  first_le_last : first ≤ last
  last_lt_size : last < size
  deriving DecidableEq, Repr

namespace Span

def ofBounds? (first last size : Nat) : Option Span :=
  if h : first ≤ last ∧ last < size then some ⟨first, last, size, h.1, h.2⟩ else none

/-- Number of tokens covered. -/
def length (s : Span) : Nat :=
  s.last - s.first + 1

/-- Covers the whole sentence. -/
def isComplete (s : Span) : Bool :=
  s.first == 0 && s.last + 1 == s.size

def isSingle (s : Span) : Bool :=
  s.first == s.last

/-- Number of places where the span can be cut in two. -/
def numSplits (s : Span) : Nat :=
  s.last - s.first

/-- The part up to token `first + k` and the part after it. -/
def split (s : Span) (k : Nat) (h : k < s.numSplits) : Span × Span :=
  (⟨s.first, s.first + k, s.size, Nat.le_add_right .., by
      have := s.last_lt_size; unfold numSplits at h; omega⟩,
   ⟨s.first + k + 1, s.last, s.size, by unfold numSplits at h; omega, s.last_lt_size⟩)

/-- Whether `right` begins directly after this span ends. -/
def meets (left right : Span) : Bool :=
  left.last + 1 == right.first

/-- By first token, then last token, then sentence. -/
def cmp (a b : Span) : Ordering :=
  (compare a.first b.first).then ((compare a.last b.last).then (compare a.size b.size))

def bounds (first last : Nat) : String :=
  toString first ++ ".." ++ toString last

def render (s : Span) : String :=
  bounds s.first s.last

theorem length_pos (s : Span) : 0 < s.length :=
  Nat.succ_pos _

/-- The two parts of a span have all of its tokens between them. -/
theorem length_split (s : Span) {k : Nat} (h : k < s.numSplits) :
    (s.split k h).1.length + (s.split k h).2.length = s.length := by
  unfold numSplits at h
  simp only [split, length]
  omega

theorem meets_split (s : Span) {k : Nat} (h : k < s.numSplits) :
    (s.split k h).1.meets (s.split k h).2 := by
  simp [split, meets]

end Span

/-- The handle of a cell: its span and its slot in that span's beam. -/
structure CellId where
  first : Nat
  last : Nat
  key : Nat
  deriving DecidableEq, Hashable, Repr

namespace CellId

/-- Number of tokens covered. -/
def length (id : CellId) : Nat :=
  id.last - id.first + 1

def cmp (a b : CellId) : Ordering :=
  (compare a.first b.first).then ((compare a.last b.last).then (compare a.key b.key))

def render (id : CellId) : String :=
  Span.bounds id.first id.last ++ "#" ++ toString id.key

end CellId

end Categorial
