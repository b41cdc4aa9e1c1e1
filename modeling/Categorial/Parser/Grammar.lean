import Categorial.Chart.Basic
import Categorial.Rule.NormalForm
import Categorial.Parser.Job

/-! # Grammars

The rules of a parser, what counts as a result, and how its charts are pruned.
-/

namespace Categorial

/-- A candidate for the chart: a category, where it stands, and the rule that made it. -/
structure Candidate where
  category : Category
  span : Span
  rule : RuleName

namespace Candidate

def render (c : Candidate) : String :=
  c.rule.render ++ " " ++ c.span.render ++ " " ++ c.category.render

end Candidate

/-- Says no to a candidate that is to be dropped. -/
abbrev PruningFilter := Candidate → Except Fault Bool

/-- Says whether a category over the whole sentence is a result. -/
abbrev CategoryFilter := Category → Except Fault Bool

structure Grammar where
  binaryRules : List BinaryRule
  unaryRules : List UnaryRule
  normalForm : Option NormalForm
  /-- The greatest number of cells per span. -/
  beam : Nat
  /-- Lexical cells compete for the beam like all others. -/
  pruneLexical : Bool
  /-- Cells go one at a time, and ties break by arrival. -/
  breakTies : Bool
  /-- The cells that a job hands to the chart are bounded, too. -/
  preChartPruning : Bool
  isComplete : CategoryFilter
  generators : List SentenceGenerator
  /-- Only used for sloppy parses. -/
  sloppyGenerators : List SentenceGenerator

namespace Grammar

def defaultBeam : Nat := 50

/-- A grammar without rules that takes every category for a result and prunes at the default beam
only. -/
def default : Grammar where
  binaryRules := []
  unaryRules := []
  normalForm := none
  beam := defaultBeam
  pruneLexical := false
  breakTies := false
  preChartPruning := false
  isComplete := fun _ => .ok true
  generators := []
  sloppyGenerators := []

def ruleNames (g : Grammar) : List RuleName :=
  g.binaryRules.map (·.name) ++ g.unaryRules.map (·.name)

/-- The first name in the list that an earlier one equals. -/
def firstRepeated? (seen : List RuleName) : List RuleName → Option RuleName
  | [] => none
  | name :: rest => if name ∈ seen then some name else firstRepeated? (name :: seen) rest

/-- A beam has room, and no two rules share a name. -/
def check (g : Grammar) : Except ParserError Unit :=
  if g.beam = 0 then .error .invalidBeam
  else match firstRepeated? [] g.ruleNames with
    | some name => .error (.duplicateRule name)
    | none => .ok ()

def chartConfig (g : Grammar) (beam : Nat) : ChartConfig where
  beam := beam
  order := if g.breakTies then .insertionOrder else .orderInvariant
  separateLexical := !g.pruneLexical

/-- The lexicons made from the sentence itself, the sloppy ones first. -/
def sentenceLexicons (g : Grammar) (tokens : List String) (sloppy : Bool) : List Lexicon :=
  (if sloppy then g.sloppyGenerators.map (· tokens) else []) ++ g.generators.map (· tokens)

end Grammar

/-- What is special to one parse. -/
structure ParseOptions where
  filter : Option PruningFilter
  /-- Entries for this parse only, after those of the model. -/
  extraLexicon : Option EntrySource
  /-- In place of the beam of the grammar. -/
  beam : Option Nat
  sloppy : Bool

namespace ParseOptions

def default : ParseOptions :=
  ⟨none, none, none, false⟩

end ParseOptions

/-- All that a job has to know about the sentence. -/
structure Context (S : Type) where
  grammar : Grammar
  tokens : List String
  config : ChartConfig
  model : Model S
  lexicon : EntrySource
  filter : Option PruningFilter

namespace Context

variable {S : Type}

def new (g : Grammar) (tokens : List String) (model : Model S) (options : ParseOptions) :
    Except ParserError (Context S) :=
  let beam := options.beam.getD g.beam
  if tokens.isEmpty then .error .emptyInput
  else if beam = 0 then .error .invalidBeam
  else
    let sources := (g.sentenceLexicons tokens options.sloppy).map EntrySource.ofLexicon ++
      model.lexicon :: options.extraLexicon.toList
    .ok ⟨g, tokens, g.chartConfig beam, model, .union sources, options.filter⟩

def size (ctx : Context S) : Nat :=
  ctx.tokens.length

def tokensOf (ctx : Context S) (span : Span) : List String :=
  (ctx.tokens.drop span.first).take span.length

end Context

end Categorial
