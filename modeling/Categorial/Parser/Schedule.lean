import Categorial.Parser.Work

/-! # Parsing on several workers

The jobs of a sentence, done in any order that respects what they wait for. A span is built from its
lexical job and one job per split, in any order, and then from its unary job. A finished span is
paired with every finished neighbour to issue the split jobs of the span that covers both.

A state holds the shared data and the tasks in flight. Each step moves one task by one action that
nothing can interrupt, and any task may be the next to move.
-/

namespace Categorial

/-- What a span waits for before its unary job. -/
inductive Pending where
  | lexical
  | split (k : Nat)
  deriving DecidableEq, Repr

/-- A span that is not finished, with what it waits for. -/
structure Waiting where
  first : Nat
  last : Nat
  pending : List Pending
  deriving DecidableEq, Repr

/-- The finished spans that meet after one token. -/
structure Boundary where
  /-- First tokens of the spans that end there. -/
  ending : List Nat
  /-- Last tokens of the spans that start there. -/
  starting : List Nat
  deriving DecidableEq, Repr

/-- How far a task has come. -/
inductive Phase (S : Type) where
  | issued
  /-- The parse had not failed when the task began. -/
  | begun
  | computed (cells : List (Cell S)) (pruned : Bool)
  | added
  /-- The span is finished and is to be recorded where it ends. -/
  | finished
  /-- The span is to be recorded where it starts. -/
  | recorded (found : List Job)
  | issuing (jobs : List Job)

structure Task (S : Type) where
  job : Job
  phase : Phase S

structure Schedule (S : Type) where
  chart : Chart S
  registry : List Waiting
  boundaries : Array Boundary
  failure : Option (Job × Fault)
  /-- Tasks in flight, the one issued last in front. -/
  tasks : List (Task S)

namespace Phase

variable {S : Type}

def isIssued : Phase S → Bool
  | issued => true
  | _ => false

/-- What is left to do when these jobs are to be issued. -/
def issue? : List Job → Option (Phase S)
  | [] => none
  | jobs => some (issuing jobs)

end Phase

namespace Schedule

variable {S : Type} [Scalar S]

/-- Every span waits for its lexical job and its splits. -/
def initialRegistry (size : Nat) : List Waiting :=
  (spansByStart size).map fun (first, last) =>
    ⟨first, last, .lexical :: (List.range (last - first)).map .split⟩

/-- The lexical jobs of all spans are issued at the start. -/
def new (ctx : Context S) : Except Fault (Schedule S) := do
  let chart ← Chart.new ctx.tokens ctx.config
  .ok {
    chart
    registry := initialRegistry ctx.size
    boundaries := Array.replicate (ctx.size - 1) ⟨[], []⟩
    failure := none
    tasks := ((spansByStart ctx.size).map fun (first, last) =>
      ⟨.lexical first last, .issued⟩).reverse }

def waitingFor? (s : Schedule S) (first last : Nat) : Option Waiting :=
  s.registry.find? fun w => w.first == first && w.last == last

/-- Ticks off one of the jobs that a span waits for. The unary job is issued after the last one. -/
def resolve (s : Schedule S) (first last : Nat) (done : Pending) :
    Except Fault (Schedule S × List Job) :=
  match s.waitingFor? first last with
  | none => .error (.unregistered first last)
  | some w =>
    if done ∈ w.pending then
      let pending := w.pending.erase done
      let registry := s.registry.map fun w =>
        if w.first = first ∧ w.last = last then { w with pending } else w
      .ok ({ s with registry }, if pending.isEmpty then [.unary first last] else [])
    else
      let split := match done with
        | .lexical => none
        | .split k => some k
      .error (.notPending split first last)

/-- Takes a span that waits for nothing more off the registry. -/
def retire (s : Schedule S) (first last : Nat) : Except Fault (Schedule S) :=
  if (s.waitingFor? first last).any (·.pending.isEmpty) then
    .ok { s with registry := s.registry.filter fun w => !(w.first == first && w.last == last) }
  else .error (.outOfTurn first last)

/-- Records a finished span where it ends, and finds the splits with the spans that start there. -/
def recordEnd (s : Schedule S) (first last : Nat) : Schedule S × List Job :=
  match s.boundaries[last]? with
  | none => (s, [])
  | some boundary =>
    ({ s with
        boundaries := s.boundaries.setIfInBounds last
          { boundary with ending := boundary.ending ++ [first] } },
      boundary.starting.map fun rightLast => .split first rightLast (last - first))

/-- Records a finished span where it starts, and finds the splits with the spans that end there. -/
def recordStart (s : Schedule S) (first last : Nat) : Schedule S × List Job :=
  if first = 0 then (s, [])
  else match s.boundaries[first - 1]? with
    | none => (s, [])
    | some boundary =>
      ({ s with
          boundaries := s.boundaries.setIfInBounds (first - 1)
            { boundary with starting := boundary.starting ++ [last] } },
        boundary.ending.map fun leftFirst => .split leftFirst last (first - 1 - leftFirst))

/-- Updates the registry for a job whose cells are in the chart. -/
def complete (s : Schedule S) (job : Job) : Except Fault (Schedule S × Option (Phase S)) :=
  match job with
  | .lexical first last => do
    let (s, jobs) ← s.resolve first last .lexical
    .ok (s, Phase.issue? jobs)
  | .split first last k => do
    let (s, jobs) ← s.resolve first last (.split k)
    .ok (s, Phase.issue? jobs)
  | .unary first last => do
    let s ← s.retire first last
    .ok (s, some .finished)

/-- The next action of a task: the new shared data, the phase that the task is in then, if it is not
done, and a job that it issued. -/
def advance (ctx : Context S) (s : Schedule S) (task : Task S) :
    Except Fault (Schedule S × Option (Phase S) × Option Job) :=
  match task.phase with
  | .issued => .ok (s, if s.failure.isSome then none else some .begun, none)
  | .begun => do
    let (cells, pruned) ← ctx.cellsOf s.chart task.job
    .ok (s, some (.computed cells pruned), none)
  | .computed cells pruned => do
    let chart ← s.chart.addAll task.job.first task.job.last cells pruned
    .ok ({ s with chart }, some .added, none)
  | .added => do
    let (s, phase) ← s.complete task.job
    .ok (s, phase, none)
  | .finished =>
    let (s, found) := s.recordEnd task.job.first task.job.last
    .ok (s, some (.recorded found), none)
  | .recorded found =>
    let (s, more) := s.recordStart task.job.first task.job.last
    .ok (s, Phase.issue? (found ++ more), none)
  | .issuing [] => .ok (s, none, none)
  | .issuing (job :: jobs) => .ok (s, Phase.issue? jobs, some job)

/-- Moves the task at a place in the list of tasks. A fault ends the task, and the first one is kept
as the failure of the parse. -/
def step (ctx : Context S) (s : Schedule S) (i : Nat) : Option (Schedule S) :=
  match s.tasks[i]? with
  | none => none
  | some task =>
    match s.advance ctx task with
    | .error fault =>
      some { s with
        failure := s.failure <|> some (task.job, fault)
        tasks := s.tasks.eraseIdx i }
    | .ok (t, phase, issued) =>
      let tasks := match phase with
        | some phase => s.tasks.set i { task with phase }
        | none => s.tasks.eraseIdx i
      some { t with tasks := (issued.toList.map fun job => ⟨job, .issued⟩) ++ tasks }

/-- What a single worker does next: it goes on with the task that it has begun, or else begins the
one issued last. -/
def nextOfOne (s : Schedule S) : Nat :=
  (s.tasks.findIdx? (!·.phase.isIssued)).getD 0

/-- Moves tasks until none is left, at most `fuel` times. -/
def runOne (ctx : Context S) : Nat → Schedule S → Schedule S
  | 0, s => s
  | fuel + 1, s =>
    match s.step ctx s.nextOfOne with
    | none => s
    | some s => runOne ctx fuel s

/-- More steps than all jobs of a sentence take together. -/
def allowance (size : Nat) : Nat :=
  7 * Nat.pow (size + 1) 3

/-- The outcome once no task is left: the first failure, or the finished chart. -/
def outcome (s : Schedule S) : Except Failure (Chart S) :=
  match s.failure with
  | some (job, fault) => .error (.error (.jobFailed job fault))
  | none =>
    if s.registry.isEmpty then .ok s.chart.close
    else .error (.fault (.unfinished s.registry.length))

end Schedule

namespace Context

variable {S : Type} [Scalar S]

/-- The finished chart of a sentence, worked out by tasks. -/
def parseByTasks (ctx : Context S) : Except Failure (Chart S) :=
  match Schedule.new ctx with
  | .error fault => .error (.fault fault)
  | .ok s => (s.runOne ctx (Schedule.allowance ctx.size)).outcome

end Context

end Categorial
