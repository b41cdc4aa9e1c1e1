import Categorial.Text.Hidden

/-! # Quoted texts

A text as it is shown in a message: between double quotes, with short escapes for the common
controls and a code point in braces for every other hidden character.
-/

namespace Categorial.Text

/-- The digits of `n` in base sixteen, in lower case and without padding. -/
def hexDigits (n : Nat) : List Char :=
  Nat.toDigits 16 n

def quoteChar (c : Char) : List Char :=
  match c with
  | '"' => ['\\', '"']
  | '\\' => ['\\', '\\']
  | '\t' => ['\\', 't']
  | '\n' => ['\\', 'n']
  | '\r' => ['\\', 'r']
  | '\x00' => ['\\', '0']
  | c => if isHidden c then ['\\', 'u', '\x7b'] ++ hexDigits c.toNat ++ ['\x7d'] else [c]

def quote (s : List Char) : String :=
  String.ofList ('"' :: s.flatMap quoteChar ++ ['"'])

end Categorial.Text
