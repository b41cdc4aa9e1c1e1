import Categorial.Parser.Work

/-! # Parsing one job after the other

Shortest spans first. Each span gets its lexical cells, then those of every split, then those of the
unary rules.
-/

namespace Categorial

namespace Job

/-- The jobs of one span, in order. -/
def ofSpan (first last : Nat) : List Job :=
  lexical first last :: (List.range (last - first)).map (split first last) ++ [unary first last]

/-- The jobs of a sentence, in order. -/
def ofSentence (size : Nat) : List Job :=
  (spansByLength size).flatMap fun (first, last) => ofSpan first last

end Job

namespace Context

variable {S : Type} [Scalar S]

/-- The finished chart of a sentence. -/
def parseSequentially (ctx : Context S) : Except Fault (Chart S) := do
  let chart ← (Job.ofSentence ctx.size).foldlM ctx.run (← Chart.new ctx.tokens ctx.config)
  .ok chart.close

end Context

end Categorial
