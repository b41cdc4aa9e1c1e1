/-! # Blanks, words and lines

Blanks are the characters with the Unicode property White_Space. A text is cut at blanks into
words and at line feeds into lines.
-/

namespace Categorial.Text

/-- The Unicode property White_Space. -/
def isBlank (c : Char) : Bool :=
  let n := c.toNat
  (9 ≤ n && n ≤ 13) || n == 0x20 || n == 0x85 || n == 0xA0 || n == 0x1680 ||
    (0x2000 ≤ n && n ≤ 0x200A) || n == 0x2028 || n == 0x2029 || n == 0x202F || n == 0x205F ||
    n == 0x3000

/-- A space or a tab, the only blanks allowed between the parts of one line. -/
def isSpacing (c : Char) : Bool :=
  c == ' ' || c == '\t'

def skipSpacing (s : List Char) : List Char :=
  s.dropWhile isSpacing

def trimStart (s : List Char) : List Char :=
  s.dropWhile isBlank

def trimEnd (s : List Char) : List Char :=
  (s.reverse.dropWhile isBlank).reverse

def trim (s : List Char) : List Char :=
  trimEnd (trimStart s)

/-- A character put in front of the first piece, or a cut before it. -/
def addToPieces (p : Char → Bool) (c : Char) : List (List Char) → List (List Char)
  | [] => [[c]]
  | r :: rs => if p c then [] :: r :: rs else (c :: r) :: rs

/-- The pieces of a text between the characters in `p`, the empty ones included. -/
def pieces (p : Char → Bool) (s : List Char) : List (List Char) :=
  s.foldr (addToPieces p) [[]]

/-- The words of a text: its maximal runs of characters that are not blank. -/
def words (s : List Char) : List (List Char) :=
  (pieces isBlank s).filter (!·.isEmpty)

/-- A carriage return belongs to the line feed after it. -/
def dropReturn (line : List Char) : List Char :=
  if line.getLast? = some '\r' then line.dropLast else line

/-- The lines of a text, without their line feeds. A text that ends with a line feed has no
empty line after it. -/
def lines (s : List Char) : List (List Char) :=
  let ps := pieces (· == '\n') s
  ps.dropLast.map dropReturn ++ ps.getLast?.toList.filter (!·.isEmpty)

/-- Cuts a text at the first place where `mark` stands: what is before it and what is after it. -/
def cutAt? (mark : List Char) : List Char → Option (List Char × List Char)
  | [] => if mark.isEmpty then some ([], []) else none
  | c :: s =>
    if mark.isPrefixOf (c :: s) then some ([], (c :: s).drop mark.length)
    else (cutAt? mark s).map fun (before, after) => (c :: before, after)

/-- Whether `part` stands somewhere in `s`. -/
def contains (s part : String) : Bool :=
  (cutAt? part.toList s.toList).isSome

end Categorial.Text
