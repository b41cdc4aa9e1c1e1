import Categorial.Fault

/-! # Jobs and failures

The work on a span falls into jobs: its lexical entries, one job per split, and the unary rules at
last.
-/

namespace Categorial

/-- One piece of work on the span `first` to `last`. -/
inductive Job where
  | lexical (first last : Nat)
  | split (first last k : Nat)
  | unary (first last : Nat)
  deriving DecidableEq, Repr

namespace Job

def first : Job → Nat
  | lexical first _ => first
  | split first _ _ => first
  | unary first _ => first

def last : Job → Nat
  | lexical _ last => last
  | split _ last _ => last
  | unary _ last => last

def render : Job → String
  | lexical first last => "lexical " ++ Span.bounds first last
  | split first last k => "split " ++ Span.bounds first last ++ "/" ++ toString k
  | unary first last => "unary " ++ Span.bounds first last

end Job

/-- Why a parser cannot be made, or cannot parse. -/
inductive ParserError where
  | invalidBeam
  | invalidThreads
  | duplicateRule (name : RuleName)
  | emptyInput
  | jobFailed (job : Job) (fault : Fault)
  | shutdown
  deriving DecidableEq

namespace ParserError

def kind : ParserError → String
  | invalidBeam => "InvalidBeam"
  | invalidThreads => "InvalidThreads"
  | duplicateRule _ => "DuplicateRule"
  | emptyInput => "EmptyInput"
  | jobFailed .. => "JobFailed"
  | shutdown => "Shutdown"

def message : ParserError → String
  | invalidBeam => "beam size must be positive"
  | invalidThreads => "need at least one worker thread"
  | duplicateRule name => "rule `" ++ name.render ++ "` registered twice"
  | emptyInput => "can't parse an empty sentence"
  | jobFailed job fault => "parse job failed: " ++ job.render ++ ": " ++ fault.message?.getD ""
  | shutdown => "parser has been shut down"

end ParserError

/-- How a parse ends without a chart: by an error that is reported, or by a fault that nobody
caught. -/
inductive Failure where
  | error (error : ParserError)
  | fault (fault : Fault)
  deriving DecidableEq

end Categorial
