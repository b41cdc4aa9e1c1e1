import Categorial.Proofs.Parser.Interleaving

/-! # No parse gets stuck

While no job faults, each move of a task leaves an event in the log, and the log cannot grow for
ever. Whatever turns the tasks take, once none of them is left every job of the sentence has been
done once and no span is waiting any more.
-/

namespace Categorial

variable {S : Type}

def Phase.isWorking : Phase S → Bool
  | begun => true
  | computed .. => true
  | _ => false

namespace Job

def isLexical : Job → Bool
  | lexical .. => true
  | _ => false

theorem nodup_ofSentence (size : Nat) : (ofSentence size).Nodup :=
  (pairwise_ofSentence size).imp And.left

theorem length_spansByLength (size : Nat) : (spansByLength size).length = numSpans size := by
  have hsum : ∀ n, ((List.range n).map fun extra => n - extra).sum = n * (n + 1) / 2 := by
    intro n
    induction n with
    | zero => rfl
    | succ n ih =>
      have hshift : (fun extra => n + 1 - extra) ∘ Nat.succ = fun extra => n - extra := by
        funext extra
        simp
      have hnext : (n + 1) * (n + 1 + 1) = n * (n + 1) + 2 * (n + 1) := by ring
      rw [List.range_succ_eq_map, List.map_cons, List.map_map, hshift, List.sum_cons, ih, hnext]
      omega
  simpa [spansByLength, List.length_flatMap, numSpans] using hsum size

theorem countP_ofSentence {p : Job → Bool} (size : Nat)
    (hp : ∀ first last, (ofSpan first last).countP p = 1) :
    (ofSentence size).countP p = numSpans size := by
  rw [ofSentence, List.countP_flatMap, ← length_spansByLength]
  simp [hp, Function.comp_def]

theorem countP_isLexical (size : Nat) : (ofSentence size).countP isLexical = numSpans size := by
  refine countP_ofSentence size fun first last => ?_
  simp [ofSpan, List.countP_cons, isLexical, Function.comp_def]

theorem countP_isUnary (size : Nat) : (ofSentence size).countP isUnary = numSpans size := by
  refine countP_ofSentence size fun first last => ?_
  simp [ofSpan, isUnary, List.countP_map, Function.comp_def]

end Job

namespace Trace

def jobs (action : Action) (log : List Event) : List Job :=
  (log.filter (·.1 = action)).map (·.2)

theorem mem_jobs {action : Action} {log : List Event} {job : Job} :
    job ∈ jobs action log ↔ (action, job) ∈ log := by
  simp [jobs]

theorem nodup_jobs {action : Action} {log : List Event} (h : log.Nodup) :
    (jobs action log).Nodup := by
  refine (h.filter _).map_on fun e he e' he' heq => ?_
  have ha : e.1 = action := by simpa using (List.mem_filter.mp he).2
  have ha' : e'.1 = action := by simpa using (List.mem_filter.mp he').2
  exact Prod.ext (ha.trans ha'.symm) heq

def stages : List Action :=
  [.spawn, .begin, .compute, .add, .settle]

variable [Scalar S] {ctx : Context S} {tr tr' : Trace S} {i : Nat} {task : Task S} {job : Job}
  {fault : Fault}

/-- One task moves, and it is not the work of a job that meets a fault. -/
inductive Proceeds (ctx : Context S) (tr : Trace S) : Trace S → Prop where
  | act {i : Nat} {task : Task S} {t : Schedule S} {phase : Option (Phase S)}
    {issued : Option Job} :
      tr.state.tasks[i]? = some task → tr.state.Acts ctx task t phase issued →
      Proceeds ctx tr ⟨(task.event? tr.state.failure.isSome).toList ++ tr.log,
        tr.state.moved t i task phase issued⟩
  | fault {i : Nat} {task : Task S} {fault : Fault} :
      tr.state.tasks[i]? = some task → task.phase.isWorking = false →
      tr.state.advance ctx task = .error fault →
      Proceeds ctx tr ⟨tr.log, tr.state.failed i task.job fault⟩

def ProceedsTo (ctx : Context S) (tr : Trace S) : Prop :=
  ∃ s, Schedule.new ctx = .ok s ∧ Relation.ReflTransGen (Proceeds ctx) (start ctx.size s) tr

/-- The work of a job meets a fault in some interleaving. -/
def Panics (ctx : Context S) (job : Job) (fault : Fault) : Prop :=
  ∃ tr, ∃ i : Nat, ∃ task, Reachable ctx tr ∧ tr.state.tasks[i]? = some task ∧ task.job = job ∧
    task.phase.isWorking = true ∧ tr.state.advance ctx task = .error fault

theorem Proceeds.moves (h : Proceeds ctx tr tr') : Moves ctx tr tr' := by
  cases h with
  | act htask hacts => exact .act htask hacts
  | fault htask _ hfault => exact .fault htask hfault

theorem ProceedsTo.reachable (h : ProceedsTo ctx tr) : Reachable ctx tr := by
  obtain ⟨s, hnew, hmoves⟩ := h
  exact ⟨s, hnew, Relation.ReflTransGen.mono (fun _ _ hm => Proceeds.moves hm) _ _ hmoves⟩

theorem Reachable.isWorking (h : Reachable ctx tr) (htask : tr.state.tasks[i]? = some task)
    (hfault : tr.state.advance ctx task = .error fault) : task.phase.isWorking = true := by
  obtain ⟨job, phase⟩ := task
  cases phase with
  | issued => exact absurd hfault nofun
  | begun => rfl
  | computed cells pruned => rfl
  | added =>
    obtain ⟨t, phase, hok, _⟩ := (h.inOrder.perm (Schedule.tasks_perm htask)).settle
    have hadvance : tr.state.advance ctx ⟨job, .added⟩ = .ok (t, phase, none) :=
      bind_eq_ok.mpr ⟨_, hok, rfl⟩
    exact absurd (hadvance.symm.trans hfault) nofun
  | finished => exact absurd hfault nofun
  | recorded found => exact absurd hfault nofun
  | issuing jobs => cases jobs <;> exact absurd hfault nofun

theorem ProceedsTo.failure (h : ProceedsTo ctx tr) : tr.state.failure = none := by
  obtain ⟨s, hnew, hmoves⟩ := h
  induction hmoves with
  | refl => exact Schedule.failure_of_new hnew
  | tail hsteps hmove ih =>
    have hreach := ProceedsTo.reachable ⟨s, hnew, hsteps⟩
    cases hmove with
    | act htask hacts => exact (hreach.inOrder.failure_eq htask hacts).trans ih
    | fault htask hphase hfault =>
      exact absurd ((hreach.isWorking htask hfault).symm.trans hphase) nofun

theorem Reachable.proceedsTo (h : Reachable ctx tr) (hfailure : tr.state.failure = none) :
    ProceedsTo ctx tr := by
  induction h using Reachable.induct with
  | start s hnew => exact ⟨s, hnew, .refl⟩
  | move tr tr' hreach hmove ih =>
    have hnone := hmove.failure_eq hreach.inOrder hfailure
    obtain ⟨s, hnew, hsteps⟩ := ih hnone
    refine ⟨s, hnew, hsteps.tail ?_⟩
    cases hmove with
    | act htask hacts => exact .act htask hacts
    | fault _ _ => simp [Schedule.failed, hnone] at hfailure

inductive Met (ctx : Context S) (job : Job) (fault : Fault) : Trace S → Prop where
  | now {tr : Trace S} {i : Nat} {phase : Phase S} : Reachable ctx tr →
      tr.state.tasks[i]? = some ⟨job, phase⟩ → phase.isWorking = true →
      tr.state.advance ctx ⟨job, phase⟩ = .error fault →
      Met ctx job fault ⟨tr.log, tr.state.failed i job fault⟩
  | later {tr tr' : Trace S} : Met ctx job fault tr → Moves ctx tr tr' → Met ctx job fault tr'

theorem Met.reachable (h : Met ctx job fault tr) : Reachable ctx tr := by
  induction h with
  | now hreach htask _ hfault => exact hreach.move (.fault htask hfault)
  | later _ hmove ih => exact ih.move hmove

/-- What is kept as the failure of a parse is a fault that the work of a job met. -/
theorem Reachable.met (h : Reachable ctx tr) (hfailure : tr.state.failure = some (job, fault)) :
    Met ctx job fault tr := by
  induction h using Reachable.induct with
  | start s hnew => exact absurd (hfailure.symm.trans (Schedule.failure_of_new hnew)) nofun
  | move tr tr' hreach hmove ih =>
    cases hmove with
    | act htask hacts =>
      have hkept := hreach.inOrder.failure_eq htask hacts
      exact (ih (hkept.symm.trans hfailure)).later (.act htask hacts)
    | @fault i task f htask hfault =>
      have hfirst : (tr.state.failure <|> some (task.job, f)) = some (job, fault) := hfailure
      cases hf : tr.state.failure with
      | some x =>
        rw [hf] at hfirst
        exact (ih (hf.trans hfirst)).later (.fault htask hfault)
      | none =>
        rw [hf] at hfirst
        obtain ⟨rfl, rfl⟩ := Prod.mk.inj (Option.some.inj hfirst)
        exact .now hreach htask (hreach.isWorking htask hfault) hfault

theorem Met.panics (h : Met ctx job fault tr) : Panics ctx job fault := by
  induction h with
  | now hreach htask hworking hfault =>
    exact ⟨_, _, _, hreach, htask, rfl, hworking, hfault⟩
  | later _ _ ih => exact ih

theorem exists_moves (h : tr.state.tasks ≠ []) : ∃ tr', Moves ctx tr tr' := by
  cases hstep : tr.state.step ctx tr.state.nextOfOne with
  | none => exact absurd (Schedule.step_nextOfOne_eq_none hstep) h
  | some t =>
    obtain ⟨log, hmove⟩ := moves_of_step hstep
    exact ⟨_, hmove⟩

/-- Nothing is left to do, and everything was done once. -/
structure Complete (ctx : Context S) (tr : Trace S) : Prop where
  /-- No span waits for a job. -/
  registry : tr.state.registry = []
  /-- Each job of the sentence went through each stage once, and no other job did. -/
  executed : ∀ action ∈ stages, ∀ job,
    tr.log.count (action, job) = if job ∈ Job.ofSentence ctx.size then 1 else 0
  lexical : ∀ action ∈ stages,
    (jobs action tr.log).countP Job.isLexical = ctx.size * (ctx.size + 1) / 2
  unary : ∀ action ∈ stages,
    (jobs action tr.log).countP Job.isUnary = ctx.size * (ctx.size + 1) / 2
  split : ∀ action ∈ stages, ∀ first last k, first + k < last → last < ctx.size →
    tr.log.count (action, .split first last k) = 1
  outcome : tr.state.outcome = .ok tr.state.chart.close

/-- An interleaving goes on until nothing is left to do. -/
structure Unstuck (ctx : Context S) (tr : Trace S) : Prop where
  bounded : tr.log.length ≤ Schedule.allowance ctx.size
  progress : ∀ tr', Proceeds ctx tr tr' → tr'.log.length = tr.log.length + 1
  goes_on : tr.state.tasks ≠ [] → ∃ tr', Moves ctx tr tr'
  complete : tr.state.tasks = [] → Complete ctx tr

theorem Reachable.complete (h : Reachable ctx tr) (hfailure : tr.state.failure = none)
    (hend : tr.state.tasks = []) : Complete ctx tr := by
  have hfounded := h.inOrder.orderly.founded
  obtain ⟨hregistry, houtcome, hdone⟩ := h.ended hfailure hend
  have hmem : ∀ action ∈ stages, ∀ job, (action, job) ∈ tr.log ↔ job ∈ Job.ofSentence ctx.size := by
    intro action haction job
    rw [Job.mem_ofSentence_iff]
    refine ⟨fun hm => (hfounded.due_of_spawned (hfounded.spawned_of_mem hm)).within, fun hjob => ?_⟩
    have hsettled := (hdone job hjob).1
    have hadded := hfounded.added_of_settled hsettled
    have hcomputed := hfounded.computed_of_added hadded
    simp only [stages, List.mem_cons, List.not_mem_nil, or_false] at haction
    rcases haction with rfl | rfl | rfl | rfl | rfl
    · exact hfounded.spawned_of_settled hsettled
    · exact hfounded.begun_of_computed hcomputed
    · exact hcomputed
    · exact hadded
    · exact hsettled
  have hperm : ∀ action ∈ stages, (jobs action tr.log).Perm (Job.ofSentence ctx.size) := by
    intro action haction
    refine (List.perm_ext_iff_of_nodup (nodup_jobs hfounded.nodup)
      (Job.nodup_ofSentence _)).mpr fun job => ?_
    rw [mem_jobs, hmem action haction]
  refine ⟨hregistry, fun action haction job => ?_, fun action haction => ?_,
    fun action haction => ?_, fun action haction first last k hk hlast => ?_, houtcome⟩
  · split_ifs with hjob
    · exact List.count_eq_one_of_mem hfounded.nodup ((hmem action haction job).mpr hjob)
    · exact List.count_eq_zero_of_not_mem fun hm => hjob ((hmem action haction job).mp hm)
  · exact ((hperm action haction).countP_eq _).trans (Job.countP_isLexical _)
  · exact ((hperm action haction).countP_eq _).trans (Job.countP_isUnary _)
  · refine List.count_eq_one_of_mem hfounded.nodup ((hmem action haction _).mpr ?_)
    have hspan : first ≤ last := by omega
    refine Job.mem_ofSentence_iff.mpr ⟨⟨first, last, ctx.size, hspan, hlast⟩, rfl, .inl (.split ?_)⟩
    show k < last - first
    omega

end Trace

variable [Scalar S] {ctx : Context S} {g : Grammar} {tokens : List String} {model : Model S}
  {options : ParseOptions}

/-- No interleaving without a panicking job gets stuck: it goes on until everything is done, and
then the parse has a chart. A parse without a chart reports a job that met a fault. -/
theorem Context.never_stuck (hnew : Context.new g tokens model options = .ok ctx) :
    (∀ tr, Trace.ProceedsTo ctx tr → tr.Unstuck ctx) ∧
      ((∃ chart, ctx.parseByTasks = .ok chart) ∨ ∃ job fault, Trace.Panics ctx job fault ∧
        ctx.parseByTasks = .error (.error (.jobFailed job fault))) := by
  constructor
  · intro tr htr
    have hreach := htr.reachable
    refine ⟨hreach.inOrder.orderly.founded.length_le, fun tr' hmove => ?_, Trace.exists_moves,
      hreach.complete htr.failure⟩
    obtain ⟨s, hs, hmoves⟩ := htr
    exact hreach.length_succ hmove.moves (Trace.ProceedsTo.failure ⟨s, hs, hmoves.tail hmove⟩)
  · obtain ⟨hpos, s, hs⟩ := exists_schedule hnew
    obtain ⟨tr, hreach, hparse, hend⟩ := parseByTasks_ends hpos hs
    rw [hparse]
    cases hfailure : tr.state.failure with
    | none => exact .inl ⟨_, (hreach.ended hfailure (hend hfailure)).2.1⟩
    | some x =>
      obtain ⟨job, fault⟩ := x
      exact .inr ⟨job, fault, (hreach.met hfailure).panics, by simp [Schedule.outcome, hfailure]⟩

theorem Context.never_stuck_sheWalks : ∃ tr,
    Context.new shifting ["she", "walks"] telling .default = .ok sheWalks ∧
      Trace.ProceedsTo sheWalks tr ∧ tr.state.tasks = [] ∧ tr.Unstuck sheWalks := by
  obtain ⟨hctx, _⟩ := regular_of_new new_sheWalks rfl
  obtain ⟨hpos, s, hs⟩ := exists_schedule new_sheWalks
  obtain ⟨tr, hreach, _, hend⟩ := parseByTasks_ends hpos hs
  have hfailure := hreach.unfailing hctx (faultless_sheWalks.works hctx)
  have hproceeds := hreach.proceedsTo hfailure
  exact ⟨tr, new_sheWalks, hproceeds, hend hfailure, (never_stuck new_sheWalks).1 tr hproceeds⟩

end Categorial
