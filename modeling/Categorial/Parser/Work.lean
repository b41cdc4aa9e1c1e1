import Categorial.Parser.Grammar

/-! # Working out a job

A job works out its cells from finished spans and then hands them to the chart in one go.
-/

namespace Categorial

/-- The cells that a job has made so far, in a list or in a beam of their own. -/
inductive Batch (S : Type) where
  /-- The last cell in front. -/
  | all (cells : List (Cell S))
  | best (beam : Beam S)

namespace Batch

variable {S : Type} [Scalar S]

def push (batch : Batch S) (cell : Cell S) : Except Fault (Batch S) :=
  match batch with
  | all cells => .ok (all (cell :: cells))
  | best beam => do
    let (beam, _) ← beam.offer cell
    .ok (best beam)

/-- The cells and whether any were dropped. -/
def finish : Batch S → List (Cell S) × Bool
  | all cells => (cells.reverse, false)
  | best beam => (beam.cells.map (·.2), beam.isPruned)

end Batch

namespace Context

variable {S : Type} [Scalar S]

def isFullParse (ctx : Context S) (span : Span) (category : Category) : Except Fault Bool :=
  if span.isComplete then ctx.grammar.isComplete category else .ok false

/-- Whether a candidate can be part of no parse: it lacks semantics without being empty, or the
filter of the caller says no. -/
def hardPrunes (ctx : Context S) (c : Candidate) : Except Fault Bool :=
  match c.category.semantics, ctx.filter with
  | none, _ => .ok (!c.category.type.isEmpty)
  | some _, none => .ok false
  | some _, some filter => (!·) <$> filter c

/-- Whether any unary rule could take a candidate. -/
def anyAccepts (c : Candidate) : List UnaryRule → Except Fault Bool
  | [] => .ok false
  | rule :: rest => do
    if ← rule.accepts c.category c.span then .ok true else anyAccepts c rest

/-- Hard pruning and, over the whole sentence, dropping what is no full parse. Before the unary
rules such a candidate stays if one of them could still make it a full parse. -/
def prunes (ctx : Context S) (c : Candidate) (beforeUnary : Bool) : Except Fault Bool := do
  if ← ctx.hardPrunes c then .ok true
  else if !c.span.isComplete then .ok false
  else if ← ctx.isFullParse c.span c.category then .ok false
  else if beforeUnary then (!·) <$> anyAccepts c ctx.grammar.unaryRules
  else .ok true

/-- An empty batch for a split or for the unary rules. -/
def batch (ctx : Context S) : Except Fault (Batch S) :=
  if ctx.grammar.preChartPruning then
    .best <$> Beam.new (addCounts (mulCounts ctx.config.beam 2) 1) .orderInvariant false
  else .ok (.all [])

/-- An empty batch for lexical cells. When they are pruned, a span gets no more of them than the
beam. -/
def lexicalBatch (ctx : Context S) : Except Fault (Batch S) :=
  if ctx.grammar.pruneLexical then .best <$> Beam.new ctx.config.beam ctx.config.order false
  else .ok (.all [])

def pushEntry (ctx : Context S) (span : Span) (batch : Batch S) (entry : LexicalEntry) :
    Except Fault (Batch S) := do
  if ← ctx.hardPrunes ⟨entry.category, span, .lexical⟩ then .ok batch
  else
    let full ← ctx.isFullParse span entry.category
    batch.push (.new (.lexical ctx.model entry span full) .leaf)

def lexicalCells (ctx : Context S) (span : Span) : Except Fault (List (Cell S) × Bool) := do
  let batch ← (ctx.lexicon.entriesFor (ctx.tokensOf span)).foldlM (ctx.pushEntry span)
    (← ctx.lexicalBatch)
  .ok batch.finish

/-- A cell that rules are applied to, with its handle and the names of the rules that built it. -/
structure Argument (S : Type) where
  id : CellId
  cell : Cell S
  ruleNames : List RuleName

def arguments (chart : Chart S) (first last : Nat) : Except Fault (List (Argument S)) := do
  let beam ← chart.beam first last
  .ok (beam.cells.map fun (key, cell) => ⟨⟨first, last, key⟩, cell, cell.ruleNames⟩)

/-- A binary rule as the chart applies it: to adjacent cells and subject to the normal form. -/
def applyBinary (ctx : Context S) (rule : BinaryRule) (left right : Argument S) :
    Except Fault (Option RuleResult) := do
  if !left.cell.span.meets right.cell.span then
    .error (.notAdjacent rule.name left.cell.span right.cell.span)
  else if ctx.grammar.normalForm.any
      (!·.allowsBinary left.ruleNames right.ruleNames rule.name) then .ok none
  else
    let span ← left.cell.span.join right.cell.span
    rule.apply left.cell.category right.cell.category span

def pushBinary (ctx : Context S) (span : Span) (left right : Argument S) (batch : Batch S)
    (rule : BinaryRule) : Except Fault (Batch S) := do
  match ← ctx.applyBinary rule left right with
  | none => .ok batch
  | some result =>
    if ← ctx.prunes ⟨result.category, span, rule.name⟩ true then .ok batch
    else
      let full ← ctx.isFullParse span result.category
      let step := .binary ctx.model result span left.id right.id full
      batch.push (.new step (.ofCells [left.cell, right.cell]))

/-- Combines every cell left of a split with every cell right of it by every binary rule. -/
def splitCells (ctx : Context S) (chart : Chart S) (span : Span) (k : Nat) :
    Except Fault (List (Cell S) × Bool) := do
  let (leftSpan, rightSpan) ← span.splitAt k
  let lefts ← arguments chart leftSpan.first leftSpan.last
  let rights ← arguments chart rightSpan.first rightSpan.last
  let batch ← lefts.foldlM
    (fun batch left => rights.foldlM
      (fun batch right => ctx.grammar.binaryRules.foldlM (ctx.pushBinary span left right) batch)
      batch)
    (← ctx.batch)
  .ok batch.finish

def applyUnary (ctx : Context S) (rule : UnaryRule) (argument : Argument S) :
    Except Fault (Option RuleResult) :=
  if ctx.grammar.normalForm.any (!·.allowsUnary argument.ruleNames rule.name) then .ok none
  else rule.apply argument.cell.category argument.cell.span

/-- The steps of a cell that a unary rule can be folded into. Unary steps do not chain. -/
def plainSteps (cell : Cell S) : List (PackedStep S) :=
  cell.steps.filter (!·.step.rule.isOverloaded)

def pushUnary (ctx : Context S) (span : Span) (argument : Argument S) (batch : Batch S)
    (rule : UnaryRule) : Except Fault (Batch S) := do
  match ← ctx.applyUnary rule argument with
  | none => .ok batch
  | some result =>
    if ← ctx.prunes ⟨result.category, span, rule.name⟩ false then .ok batch
    else
      let full ← ctx.isFullParse span result.category
      (plainSteps argument.cell).foldlM
        (fun batch p => do
          let step ← p.step.overload ctx.model result full
          batch.push (.new step p.children))
        batch

/-- Applies the unary rules to the cells of a span once its lexical and binary cells are in. -/
def unaryCells (ctx : Context S) (chart : Chart S) (span : Span) :
    Except Fault (List (Cell S) × Bool) := do
  let arguments ← arguments chart span.first span.last
  let batch ← arguments.foldlM
    (fun batch argument => ctx.grammar.unaryRules.foldlM (ctx.pushUnary span argument) batch)
    (← ctx.batch)
  .ok batch.finish

/-- The cells that a job makes, and whether it dropped any. -/
def cellsOf (ctx : Context S) (chart : Chart S) (job : Job) :
    Except Fault (List (Cell S) × Bool) := do
  let span ← Span.ofBounds job.first job.last ctx.size
  match job with
  | .lexical .. => ctx.lexicalCells span
  | .split _ _ k => ctx.splitCells chart span k
  | .unary .. => ctx.unaryCells chart span

/-- Works a job out and adds its cells. -/
def run (ctx : Context S) (chart : Chart S) (job : Job) : Except Fault (Chart S) := do
  let (cells, pruned) ← ctx.cellsOf chart job
  chart.addAll job.first job.last cells pruned

end Context

end Categorial
