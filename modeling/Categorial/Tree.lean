import Categorial.Span
import Categorial.Text.Blank

/-! # Trees over spans

A tree has a value and a span at every branch and at every leaf.
-/

namespace Categorial

inductive Tree (α β : Type) where
  | branch (value : α) (span : Span) (children : List (Tree α β))
  | leaf (value : β) (span : Span)

namespace Tree

variable {α β γ δ : Type}

def isLeaf : Tree α β → Bool
  | leaf .. => true
  | branch .. => false

def span : Tree α β → Span
  | branch _ span _ => span
  | leaf _ span => span

mutual

/-- Words and their spans from left to right. -/
def leaves : Tree α β → List (β × Span)
  | leaf value span => [(value, span)]
  | branch _ _ children => leavesOf children

def leavesOf : List (Tree α β) → List (β × Span)
  | [] => []
  | t :: ts => leaves t ++ leavesOf ts

end

mutual

/-- Number of branches on the longest path from the root. -/
def depth : Tree α β → Nat
  | leaf .. => 0
  | branch _ _ children => depthOf children + 1

def depthOf : List (Tree α β) → Nat
  | [] => 0
  | t :: ts => max (depth t) (depthOf ts)

end

mutual

def map (onBranch : α → Span → γ) (onLeaf : β → Span → δ) : Tree α β → Tree γ δ
  | leaf value span => leaf (onLeaf value span) span
  | branch value span children =>
    branch (onBranch value span) span (mapAll onBranch onLeaf children)

def mapAll (onBranch : α → Span → γ) (onLeaf : β → Span → δ) :
    List (Tree α β) → List (Tree γ δ)
  | [] => []
  | t :: ts => map onBranch onLeaf t :: mapAll onBranch onLeaf ts

end

mutual

def beq [BEq α] [BEq β] : Tree α β → Tree α β → Bool
  | leaf v s, leaf w t => v == w && s == t
  | branch v s ts, branch w t us => v == w && s == t && beqAll ts us
  | _, _ => false

def beqAll [BEq α] [BEq β] : List (Tree α β) → List (Tree α β) → Bool
  | [], [] => true
  | t :: ts, u :: us => beq t u && beqAll ts us
  | _, _ => false

end

/-- A value after the span that it stands on. -/
def label (span : Span) (text : String) : String :=
  span.render ++ ": " ++ text

/-- A text on lines of its own, two spaces further in. -/
def indent (text : String) : String :=
  String.join ((Text.lines text.toList).map fun line => "\n  " ++ String.ofList line)

mutual

/-- A branch over a single leaf is written on one line, and any other branch has one line per
branch and leaf below it. -/
def render (onBranch : α → String) (onLeaf : β → String) : Tree α β → String
  | leaf value span => label span (onLeaf value)
  | branch value span [leaf word place] =>
    "(" ++ label span (onBranch value) ++ " (" ++ label place (onLeaf word) ++ "))"
  | branch value span children =>
    "(" ++ label span (onBranch value) ++ renderIndented onBranch onLeaf children ++ ")"

def renderIndented (onBranch : α → String) (onLeaf : β → String) : List (Tree α β) → String
  | [] => ""
  | t :: ts => indent (render onBranch onLeaf t) ++ renderIndented onBranch onLeaf ts

end

end Tree

end Categorial
