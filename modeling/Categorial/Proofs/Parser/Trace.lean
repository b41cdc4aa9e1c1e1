import Categorial.Parser.Schedule
import Categorial.Proofs.Chart.Arrival

/-! # Traces of a schedule

A trace is a state of the schedule with all that has happened before it. Any task may be the next to
move, and what is kept in a hash table may come in any order.
-/

namespace Categorial

variable {S : Type}

/-- What a task does in one move. -/
inductive Action where
  | spawn
  | begin
  | compute
  | add
  /-- The registry is told that the cells of a job are in. -/
  | settle
  /-- A finished span is recorded where it ends. -/
  | recordEnd
  /-- A finished span is recorded where it starts. -/
  | recordStart
  deriving DecidableEq, Repr

abbrev Event := Action × Job

/-- What has happened, the latest first, and the state that it led to. -/
structure Trace (S : Type) where
  log : List Event
  state : Schedule S

/-- The jobs that a task has found but not yet issued. -/
def Phase.promised : Phase S → List Job
  | recorded found => found
  | issuing jobs => jobs
  | _ => []

theorem Phase.mem_issue? {jobs : List Job} {phase : Phase S} :
    phase ∈ issue? jobs ↔ jobs ≠ [] ∧ phase = issuing jobs := by
  cases jobs with
  | nil => simp [issue?]
  | cons job jobs => simp [issue?, eq_comm]

theorem Schedule.phase_of_complete {s t : Schedule S} {job : Job} {phase : Option (Phase S)}
    (h : s.complete job = .ok (t, phase)) :
    ∀ p ∈ phase, p = .finished ∨ ∃ jobs, jobs ≠ [] ∧ p = .issuing jobs := by
  cases job with
  | lexical first last =>
    obtain ⟨⟨t', jobs⟩, _, h⟩ := bind_eq_ok.mp h
    obtain ⟨rfl, rfl⟩ := Prod.mk.inj (Except.ok.inj h)
    exact fun p hp => .inr ⟨jobs, Phase.mem_issue?.mp hp⟩
  | split first last k =>
    obtain ⟨⟨t', jobs⟩, _, h⟩ := bind_eq_ok.mp h
    obtain ⟨rfl, rfl⟩ := Prod.mk.inj (Except.ok.inj h)
    exact fun p hp => .inr ⟨jobs, Phase.mem_issue?.mp hp⟩
  | unary first last =>
    obtain ⟨t', _, h⟩ := bind_eq_ok.mp h
    obtain ⟨rfl, rfl⟩ := Prod.mk.inj (Except.ok.inj h)
    rintro p ⟨⟩
    exact .inl rfl

namespace Task

/-- What the next move of a task is, unless it only drops the job of a parse that failed. -/
def event? (task : Task S) (failed : Bool) : Option Event :=
  match task.phase with
  | .issued => if failed then none else some (.begin, task.job)
  | .begun => some (.compute, task.job)
  | .computed .. => some (.add, task.job)
  | .added => some (.settle, task.job)
  | .finished => some (.recordEnd, task.job)
  | .recorded _ => some (.recordStart, task.job)
  | .issuing [] => none
  | .issuing (job :: _) => some (.spawn, job)

end Task

variable [Scalar S]

/-- What a task may do next: the new shared data, its next phase and the job that it issues. The
cells set aside in a beam may come in any order whenever a cell is added to it. -/
inductive Schedule.Acts (ctx : Context S) (s : Schedule S) :
    Task S → Schedule S → Option (Phase S) → Option Job → Prop where
  | skip {job : Job} : s.failure.isSome = true → Acts ctx s ⟨job, .issued⟩ s none none
  | begin {job : Job} : s.failure = none → Acts ctx s ⟨job, .issued⟩ s (some .begun) none
  | compute {job : Job} {cells : List (Cell S)} {pruned : Bool} :
      ctx.cellsOf s.chart job = .ok (cells, pruned) →
      Acts ctx s ⟨job, .begun⟩ s (some (.computed cells pruned)) none
  | add {job : Job} {cells : List (Cell S)} {pruned : Bool} {chart : Chart S} :
      s.chart.Adds job.first job.last cells pruned chart →
      Acts ctx s ⟨job, .computed cells pruned⟩ { s with chart } (some .added) none
  | settle {job : Job} {t : Schedule S} {phase : Option (Phase S)} :
      s.complete job = .ok (t, phase) → Acts ctx s ⟨job, .added⟩ t phase none
  | recordEnd {job : Job} :
      Acts ctx s ⟨job, .finished⟩ (s.recordEnd job.first job.last).1
        (some (.recorded (s.recordEnd job.first job.last).2)) none
  | recordStart {job : Job} {found : List Job} :
      Acts ctx s ⟨job, .recorded found⟩ (s.recordStart job.first job.last).1
        (Phase.issue? (found ++ (s.recordStart job.first job.last).2)) none
  | idle {job : Job} : Acts ctx s ⟨job, .issuing []⟩ s none none
  | spawn {job issued : Job} {jobs : List Job} :
      Acts ctx s ⟨job, .issuing (issued :: jobs)⟩ s (Phase.issue? jobs) (some issued)

/-- What a task does next is one of the things that it may do. -/
theorem Schedule.acts_of_advance {ctx : Context S} {s t : Schedule S} {task : Task S}
    {phase : Option (Phase S)} {issued : Option Job}
    (h : s.advance ctx task = .ok (t, phase, issued)) : s.Acts ctx task t phase issued := by
  obtain ⟨job, p⟩ := task
  cases p with
  | issued =>
    simp only [advance] at h
    split_ifs at h with hf
    · obtain ⟨rfl, rfl, rfl⟩ := h
      exact .skip hf
    · obtain ⟨rfl, rfl, rfl⟩ := h
      exact .begin (by simpa using hf)
  | begun =>
    obtain ⟨⟨cells, pruned⟩, hcells, h⟩ := bind_eq_ok.mp h
    obtain ⟨rfl, rfl, rfl⟩ := h
    exact .compute hcells
  | computed cells pruned =>
    obtain ⟨chart, hchart, h⟩ := bind_eq_ok.mp h
    obtain ⟨rfl, rfl, rfl⟩ := h
    exact .add (Chart.adds_of_addAll hchart)
  | added =>
    obtain ⟨⟨t', p⟩, hcomplete, h⟩ := bind_eq_ok.mp h
    obtain ⟨rfl, rfl, rfl⟩ := h
    exact .settle hcomplete
  | finished =>
    obtain ⟨rfl, rfl, rfl⟩ := h
    exact .recordEnd
  | recorded found =>
    obtain ⟨rfl, rfl, rfl⟩ := h
    exact .recordStart
  | issuing jobs =>
    cases jobs with
    | nil =>
      obtain ⟨rfl, rfl, rfl⟩ := h
      exact .idle
    | cons job jobs =>
      obtain ⟨rfl, rfl, rfl⟩ := h
      exact .spawn

def Schedule.moved (s t : Schedule S) (i : Nat) (task : Task S) (phase : Option (Phase S))
    (issued : Option Job) : Schedule S :=
  { t with
    tasks := (issued.toList.map fun job => ⟨job, .issued⟩) ++
      match phase with
      | some phase => s.tasks.set i { task with phase }
      | none => s.tasks.eraseIdx i }

def Schedule.failed (s : Schedule S) (i : Nat) (job : Job) (fault : Fault) : Schedule S :=
  { s with failure := s.failure <|> some (job, fault), tasks := s.tasks.eraseIdx i }

namespace Trace

inductive Moves (ctx : Context S) (tr : Trace S) : Trace S → Prop where
  | act {i : Nat} {task : Task S} {t : Schedule S} {phase : Option (Phase S)}
    {issued : Option Job} :
      tr.state.tasks[i]? = some task → tr.state.Acts ctx task t phase issued →
      Moves ctx tr ⟨(task.event? tr.state.failure.isSome).toList ++ tr.log,
        tr.state.moved t i task phase issued⟩
  | fault {i : Nat} {task : Task S} {fault : Fault} :
      tr.state.tasks[i]? = some task → tr.state.advance ctx task = .error fault →
      Moves ctx tr ⟨tr.log, tr.state.failed i task.job fault⟩

def start (size : Nat) (s : Schedule S) : Trace S :=
  ⟨(spansByStart size).reverse.map fun x => (.spawn, .lexical x.1 x.2), s⟩

/-- A trace that some interleaving leads to. -/
def Reachable (ctx : Context S) (tr : Trace S) : Prop :=
  ∃ s, Schedule.new ctx = .ok s ∧ Relation.ReflTransGen (Moves ctx) (start ctx.size s) tr

theorem moves_of_step {ctx : Context S} {tr : Trace S} {i : Nat} {t : Schedule S}
    (h : tr.state.step ctx i = some t) : ∃ log, Moves ctx tr ⟨log, t⟩ := by
  unfold Schedule.step at h
  split at h
  · simp at h
  next task htask =>
    split at h
    next fault hfault =>
      obtain rfl := Option.some.inj h
      exact ⟨_, .fault htask hfault⟩
    next t' phase issued hok =>
      obtain rfl := Option.some.inj h
      exact ⟨_, .act htask (Schedule.acts_of_advance hok)⟩

end Trace

end Categorial
