import Categorial.Derivation
import Categorial.Lexicon.Reader
import Categorial.Parser.Basic

/-! # The console

A session reads sentences line by line and answers each with its best derivations. Everything that
it prints is worked out here, apart from how long a parse took.
-/

namespace Categorial.Console

structure Options where
  /-- Print the chart of every sentence. -/
  showChart : Bool
  /-- Print all trees of a derivation in place of the best one. -/
  allTrees : Bool
  /-- Label the nodes of trees with their syntactic types only. -/
  typesOnly : Bool
  beam : Nat
  /-- Number of workers. Without it there is no pool. -/
  threads : Option Nat

/-- Application, composition and skipping in both directions, bare nouns as noun phrases, and
compositions in normal form. -/
def grammar (beam : Nat) : Grammar :=
  { Grammar.default with
    binaryRules := [
      .forwardApplication, .backwardApplication, .forwardComposition, .backwardComposition,
      .skipping .forward, .skipping .backward]
    unaryRules := [.typeShift "shift" (.atom "N") (.atom "NP") none]
    normalForm := some ⟨[.composition]⟩
    beam }

/-- Why a session cannot begin. -/
inductive StartError where
  | lexicon (error : ReadError)
  | parser (error : ParserError)

namespace StartError

def render : StartError → String
  | lexicon error => "Error: " ++ Text.quote error.message.toList ++ "\n"
  | parser error => "Error: " ++ error.kind ++ "\n"

end StartError

structure Session where
  options : Options
  parser : Parser
  model : Model Binary64

def start (options : Options) (lexicon : String) : Except StartError Session := do
  let lexicon ← (Lexicon.ofString lexicon).mapError .lexicon
  let grammar := grammar options.beam
  let parser ← (match options.threads with
    | some threads => Parser.pooled grammar threads
    | none => Parser.sequential grammar).mapError .parser
  .ok ⟨options, parser, (LinearModel.withDefaultFeatures lexicon).toModel⟩

/-- The words of a line in lower case, as far as they are plain letters. -/
def sentenceOf (line : String) : List String :=
  (Text.words (line.toList.map Char.toLower)).map String.ofList

def renderTree (options : Options) (tree : DerivationTree) : String :=
  tree.render
    (fun node => if options.typesOnly then node.category.type.render else node.render) id

def renderTrees (options : Options) (derivation : Derivation Binary64) : Except Fault String := do
  if options.allTrees then
    let trees ← derivation.trees
    .ok (String.join (trees.map fun scored =>
      renderTree options scored.tree ++ "\nscore=" ++ scored.score.shortest ++ "\n\n"))
  else
    match ← derivation.viterbiTree with
    | some tree => .ok (renderTree options tree ++ "\n")
    | none => .ok ""

def renderDerivation (options : Options) (derivation : Derivation Binary64) :
    Except Fault String := do
  let trees ← renderTrees options derivation
  .ok (derivation.category.render ++ " score=" ++ derivation.score.shortest ++
    " parses=" ++ toString derivation.cell.numParses ++ "\n" ++ trees ++ "\n")

/-- What is printed for a finished chart. -/
def renderChart (options : Options) (duration : String) (chart : Chart Binary64) :
    Except Fault String := do
  let best := chart.bestDerivations
  let shown := if options.showChart then "chart:\n" ++ chart.render ++ "\n\n" else ""
  let derivations ← best.mapM (renderDerivation options)
  .ok (shown ++ "Parsed " ++ toString best.length ++
    (if best.length = 1 then " tree" else " trees") ++ " in " ++ duration ++
    (if chart.isExact then "" else " (pruned)") ++ "\n" ++
    String.join derivations)

/-- Texts for the two output streams. -/
structure Printed where
  out : String
  err : String

def renderFailure : Failure → String
  | .error error => "error: " ++ error.message ++ "\n"
  | .fault fault => "fault: " ++ fault.message?.getD "" ++ "\n"

def Session.parse (session : Session) (sentence : List String) : Except Failure (Chart Binary64) :=
  session.parser.parse sentence session.model .default

/-- The answer to the outcome of a parse that took `duration`. -/
def Session.print (session : Session) (duration : String)
    (outcome : Except Failure (Chart Binary64)) : Printed :=
  match outcome with
  | .error failure => ⟨"", renderFailure failure⟩
  | .ok chart =>
    match renderChart session.options duration chart with
    | .ok text => ⟨text, ""⟩
    | .error fault => ⟨"", renderFailure (.fault fault)⟩

/-- The answer to one line of input. A line without words has none. -/
def Session.answer (session : Session) (duration : String) (line : String) : Printed :=
  match sentenceOf line with
  | [] => ⟨"", ""⟩
  | sentence => session.print duration (session.parse sentence)

/-- Printed before every line that is read, and before the end of the input. -/
def prompt : String := "> "

/-- The whole of a session. -/
structure Transcript where
  code : Nat
  out : String
  err : String

def transcript (options : Options) (lexicon input duration : String) : Transcript :=
  match start options lexicon with
  | .error error => ⟨1, "", error.render⟩
  | .ok session =>
    let answers := (Text.lines input.toList).map fun line =>
      session.answer duration (String.ofList line)
    ⟨0, String.join (answers.map fun answer => prompt ++ answer.out) ++ prompt,
      String.join (answers.map Printed.err)⟩

end Categorial.Console
