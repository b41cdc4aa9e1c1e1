import Categorial.Parser.Schedule
import Categorial.Parser.Sequential

/-! # Parsers

A parser is a grammar that was found in order, with or without a pool of workers.
-/

namespace Categorial

/-- The workers of a parser. Once they are shut down they cannot be used again. -/
structure Pool where
  threads : Nat
  isShutDown : Bool
  deriving DecidableEq, Repr

structure Parser where
  grammar : Grammar
  pool : Option Pool

namespace Parser

/-- A parser that works out one job after the other. -/
def sequential (g : Grammar) : Except ParserError Parser := do
  g.check
  .ok ⟨g, none⟩

/-- A parser with a pool of workers. -/
def pooled (g : Grammar) (threads : Nat) : Except ParserError Parser := do
  if threads = 0 then .error .invalidThreads
  else
    g.check
    .ok ⟨g, some ⟨threads, false⟩⟩

/-- Stops the workers, if there are any. -/
def shutDown (p : Parser) : Parser :=
  { p with pool := p.pool.map ({ · with isShutDown := true }) }

variable {S : Type} [Scalar S]

def parse (p : Parser) (tokens : List String) (model : Model S) (options : ParseOptions) :
    Except Failure (Chart S) :=
  if p.pool.any Pool.isShutDown then .error (.error .shutdown)
  else
    match Context.new p.grammar tokens model options with
    | .error error => .error (.error error)
    | .ok ctx =>
      if p.pool.isSome then ctx.parseByTasks
      else ctx.parseSequentially.mapError .fault

end Parser

end Categorial
