/-! # Choices

All ways to choose one element from each of several lists.
-/

namespace Categorial

variable {α : Type}

/-- The sequences that take one element from each list, the first list varying fastest. Without
lists there is nothing to choose. -/
def choices : List (List α) → List (List α)
  | [] => []
  | [head] => head.map ([·])
  | head :: tail => (choices tail).flatMap fun rest => head.map (· :: rest)

end Categorial
