import Categorial.Parser.Basic
import Categorial.Proofs.Parser.Progress

/-! # Parses that fail

Once a job has met a fault no chart comes of the parse any more, whatever turns the tasks take, and
what is reported is a job that met one. Where the sequential parse comes to such a job, every
interleaving meets a fault too, and where it comes to none, no interleaving does.
-/

namespace Categorial

section Traces

variable {S : Type} [Scalar S] {ctx : Context S} {job : Job} {fault : Fault}

theorem Schedule.Acts.length_lt {s t : Schedule S} {task : Task S} {phase : Option (Phase S)}
    {issued : Option Job} (h : s.Acts ctx task t phase issued) :
    issued.toList.length + phase.toList.length <
      1 + 2 * (task.event? s.failure.isSome).toList.length := by
  have hphase : phase.toList.length ≤ 1 := by cases phase <;> simp
  have hissued : issued.toList.length ≤ 1 := by cases issued <;> simp
  cases h with
  | skip hfailed => simp [Task.event?, hfailed]
  | begin hnone => simp [Task.event?, hnone]
  | compute _ => simp [Task.event?]
  | idle => simp [Task.event?]
  | add _ => simp [Task.event?]
  | settle _ => exact Nat.lt_succ_of_le ((Nat.zero_add _).trans_le (hphase.trans one_le_two))
  | recordEnd => simp [Task.event?]
  | recordStart => exact Nat.lt_succ_of_le ((Nat.zero_add _).trans_le (hphase.trans one_le_two))
  | spawn => exact Nat.lt_succ_of_le (Nat.add_le_add hissued hphase)

omit [Scalar S] in
theorem Schedule.outcome_eq_of_failure {s : Schedule S} (h : s.failure = some (job, fault)) :
    s.outcome = .error (.error (.jobFailed job fault)) := by
  simp [outcome, h]

namespace Trace

variable {tr tr' : Trace S}

theorem Met.failure_ne_none (h : Met ctx job fault tr) : tr.state.failure ≠ none := by
  induction h with
  | @now tr _ _ _ _ _ _ =>
    show (tr.state.failure <|> some (job, fault)) ≠ none
    cases tr.state.failure <;> simp
  | later hmet hmove ih => exact mt (hmove.failure_eq hmet.reachable.inOrder) ih

/-- A bound on the moves that are left. Events count twice, since one of them may make a task. -/
def remaining (size : Nat) (tr : Trace S) : Nat :=
  2 * (Schedule.allowance size - tr.log.length) + tr.state.tasks.length

/-- No interleaving goes on for ever, whether it fails or not. -/
theorem Reachable.remaining_lt (h : Reachable ctx tr) (hmove : Moves ctx tr tr') :
    tr'.remaining ctx.size < tr.remaining ctx.size := by
  have hbound := (h.move hmove).inOrder.orderly.founded.length_le
  cases hmove with
  | fault htask _ =>
    have htasks := (Schedule.tasks_perm htask).length_eq
    simp only [List.length_cons] at htasks
    simp only [remaining, Schedule.failed]
    omega
  | @act i task t phase issued htask hacts =>
    have htasks := (Schedule.tasks_perm htask).length_eq
    have hmoved : (tr.state.moved t i task phase issued).tasks.length = _ :=
      (Schedule.moved_tasks_perm t htask).length_eq
    have hevents := hacts.length_lt
    rw [List.length_append] at hbound
    simp only [List.length_cons, List.length_append, List.length_map, Orderly.goesOn]
      at htasks hmoved
    simp only [remaining, List.length_append]
    omega

end Trace

end Traces

variable {S : Type} [ExactScalar S] {ctx : Context S} {job : Job} {fault : Fault}

namespace Context

/-- The sequential parse comes to a job that cannot work out its cells. -/
def FaultsAt (ctx : Context S) (job : Job) (fault : Fault) : Prop :=
  ∃ before after start part, Job.ofSentence ctx.size = before ++ job :: after ∧
    Chart.new ctx.tokens ctx.config = .ok start ∧ before.foldlM ctx.run start = .ok part ∧
      ctx.cellsOf part job = .error fault

theorem parseSequentially_eq_error_iff (hctx : ctx.Regular) :
    ctx.parseSequentially = .error fault ↔ ∃ job, ctx.FaultsAt job fault := by
  have hstart : Filled ctx (fun _ _ => True) {j | j ∈ []} (.empty ctx.tokens ctx.config) :=
    filled_nil hctx.new_eq
  constructor
  · intro h
    rcases bind_eq_error.mp h with h | ⟨start, hnew, h⟩
    · exact absurd (hctx.new_eq.symm.trans h) nofun
    obtain rfl := Except.ok.inj (hctx.new_eq.symm.trans hnew)
    rcases bind_eq_error.mp h with h | ⟨_, _, h⟩
    · obtain ⟨before, job, after, part, hjobs, hpart, hrun⟩ := foldlM_eq_error.mp h
      refine ⟨job, before, after, _, part, hjobs, hnew, hpart, ?_⟩
      rcases bind_eq_error.mp hrun with hcells | ⟨⟨cells, pruned⟩, hcells, hadd⟩
      · exact hcells
      · -- the cells of a job that is ready can be added
        obtain ⟨hready, hfresh⟩ := Job.ready_in_turn hjobs
        have hjobs' : Job.ofSentence ctx.size = [] ++ (before ++ job :: after) := hjobs
        have hfilled := filled_of_run hjobs' hstart hpart fun _ _ _ _ _ _ => trivial
        obtain ⟨chart, hok⟩ := (hfilled.sound hctx).exists_addAll hctx hready hfresh hcells
        exact absurd (hok.symm.trans hadd) nofun
    · exact absurd h nofun
  · rintro ⟨job, before, after, start, part, hjobs, hnew, hpart, hcells⟩
    have hrun : ctx.run part job = .error fault := bind_eq_error.mpr (.inl hcells)
    refine bind_eq_error.mpr (.inr ⟨start, hnew, bind_eq_error.mpr (.inl ?_)⟩)
    exact foldlM_eq_error.mpr ⟨before, job, after, part, hjobs, hpart, hrun⟩

omit [ExactScalar S] in
theorem exists_new {g : Grammar} {tokens : List String} {model : Model S} {options : ParseOptions}
    (htokens : tokens ≠ []) (hbeam : 0 < options.beam.getD g.beam) :
    ∃ ctx, Context.new g tokens model options = .ok ctx := by
  have hsome : ¬ tokens.isEmpty = true := mt List.isEmpty_iff.mp htokens
  exact ⟨_, (if_neg hsome).trans (if_neg hbeam.ne')⟩

theorem exists_parseSequentially_of_ended (hctx : ctx.Regular) {tr : Trace S}
    (h : Trace.Reachable ctx tr) (hfailure : tr.state.failure = none)
    (hend : tr.state.tasks = []) : ∃ chart, ctx.parseSequentially = .ok chart := by
  apply exists_parseSequentially hctx
  exact works_of_sound hctx (h.sound hctx) fun _ hjob => h.mem_added hfailure hend hjob

/-- No interleaving meets a fault where the sequential parse meets none. -/
theorem failure_eq_none_of_parseSequentially (hctx : ctx.Regular) {chart : Chart S}
    (hparse : ctx.parseSequentially = .ok chart) {tr : Trace S} (h : Trace.Reachable ctx tr) :
    tr.state.failure = none := by
  obtain ⟨whole, hwhole, rfl⟩ := sound_of_parseSequentially hctx hparse
  apply h.unfailing hctx
  exact works_of_sound hctx hwhole fun _ hjob => Job.mem_ofSentence_iff.mpr hjob

/-- Every interleaving ends, and it fails just where the sequential parse does. -/
structure FailsAlike (ctx : Context S) : Prop where
  sequential : ∀ fault, ctx.parseSequentially = .error fault ↔ ∃ job, ctx.FaultsAt job fault
  goes_on : ∀ tr, Trace.Reachable ctx tr → tr.state.tasks ≠ [] → ∃ tr', Trace.Moves ctx tr tr'
  ends : ∀ tr tr', Trace.Reachable ctx tr → Trace.Moves ctx tr tr' →
    tr'.remaining ctx.size < tr.remaining ctx.size
  fails : (∃ job fault, ctx.FaultsAt job fault) → ∀ tr, Trace.Reachable ctx tr →
    tr.state.tasks = [] → ∃ job fault, tr.state.outcome = .error (.error (.jobFailed job fault))
  succeeds : (¬ ∃ job fault, ctx.FaultsAt job fault) → ∀ tr, Trace.Reachable ctx tr →
    tr.state.tasks = [] → ∃ chart, tr.state.outcome = .ok chart
  /-- The report names a job that met a fault, and gives the text of the fault. -/
  reported : ∀ tr, Trace.Reachable ctx tr → tr.state.tasks = [] → ∀ failure,
    tr.state.outcome = .error failure → ∃ job fault, Trace.Met ctx job fault tr ∧
      failure = .error (.jobFailed job fault) ∧ ∀ text ∈ fault.message?,
        (ParserError.jobFailed job fault).message =
          "parse job failed: " ++ job.render ++ ": " ++ text
  /-- No chart comes of an interleaving in which a job met a fault. -/
  withheld : ∀ tr job fault, Trace.Met ctx job fault tr → ∀ chart, tr.state.outcome ≠ .ok chart

theorem failsAlike (hctx : ctx.Regular) : ctx.FailsAlike where
  sequential fault := parseSequentially_eq_error_iff hctx
  goes_on tr _ := Trace.exists_moves
  ends tr tr' h hmove := h.remaining_lt hmove
  fails := by
    rintro ⟨job, fault, hfault⟩ tr h hend
    have hparse := (parseSequentially_eq_error_iff hctx).mpr ⟨job, hfault⟩
    cases hfailure : tr.state.failure with
    | none =>
      obtain ⟨chart, hchart⟩ := exists_parseSequentially_of_ended hctx h hfailure hend
      exact absurd (hchart.symm.trans hparse) nofun
    | some x => exact ⟨x.1, x.2, Schedule.outcome_eq_of_failure hfailure⟩
  succeeds := by
    intro hnone tr h hend
    cases hparse : ctx.parseSequentially with
    | error fault =>
      obtain ⟨job, hfault⟩ := (parseSequentially_eq_error_iff hctx).mp hparse
      exact absurd ⟨job, fault, hfault⟩ hnone
    | ok chart =>
      have hfailure := failure_eq_none_of_parseSequentially hctx hparse h
      exact ⟨_, (h.ended hfailure hend).2.1⟩
  reported := by
    intro tr h hend failure houtcome
    cases hfailure : tr.state.failure with
    | none =>
      rw [(h.ended hfailure hend).2.1] at houtcome
      cases houtcome
    | some x =>
      have hreport := (Schedule.outcome_eq_of_failure hfailure).symm.trans houtcome
      refine ⟨x.1, x.2, h.met hfailure, (Except.error.inj hreport).symm, fun text htext => ?_⟩
      show "parse job failed: " ++ x.1.render ++ ": " ++ x.2.message?.getD "" = _
      rw [Option.mem_def.mp htext, Option.getD_some]
  withheld := by
    intro tr job fault hmet chart houtcome
    obtain ⟨x, hx⟩ := Option.ne_none_iff_exists'.mp hmet.failure_ne_none
    exact absurd ((Schedule.outcome_eq_of_failure hx).symm.trans houtcome) nofun

end Context

variable {tokens : List String} {model : Model S} {options : ParseOptions}

/-- A parser with workers that are not shut down fails just where the parser without workers does,
and then by a job. -/
theorem Parser.failures_agree {p : Parser} {pool : Pool} (hpool : p.pool = some pool)
    (hup : pool.isShutDown = false) (htokens : tokens ≠ [])
    (hbeam : 0 < options.beam.getD p.grammar.beam) (hties : p.grammar.breakTies = false) :
    ∃ ctx, Context.new p.grammar tokens model options = .ok ctx ∧ ctx.FailsAlike ∧
      ((∃ job fault, p.parse tokens model options = .error (.error (.jobFailed job fault))) ↔
        ∃ fault, (Parser.mk p.grammar none).parse tokens model options = .error (.fault fault)) ∧
      ((∃ chart, p.parse tokens model options = .ok chart) ↔
        ∃ chart, (Parser.mk p.grammar none).parse tokens model options = .ok chart) := by
  obtain ⟨ctx, hnew⟩ : ∃ ctx, Context.new p.grammar tokens model options = .ok ctx :=
    Context.exists_new htokens hbeam
  obtain ⟨hctx, hpos⟩ := Context.regular_of_new hnew hties
  have halike := Context.failsAlike hctx
  have hpooled : p.parse tokens model options = ctx.parseByTasks := by
    simp [Parser.parse, hpool, hup, hnew]
  have hsingle : (Parser.mk p.grammar none).parse tokens model options =
      ctx.parseSequentially.mapError .fault := by
    simp [Parser.parse, hnew]
  -- a single worker is one of the interleavings
  obtain ⟨s, hs⟩ : ∃ s, Schedule.new ctx = .ok s := ⟨_, bind_eq_ok.mpr ⟨_, hctx.new_eq, rfl⟩⟩
  obtain ⟨tr, htr, hparse, hend⟩ := Context.parseByTasks_ends hpos hs
  refine ⟨ctx, hnew, halike, ?_⟩
  rw [hpooled, hsingle, hparse]
  cases hseq : ctx.parseSequentially with
  | ok chart =>
    have hfailure := Context.failure_eq_none_of_parseSequentially hctx hseq htr
    rw [(htr.ended hfailure (hend hfailure)).2.1]
    exact ⟨⟨nofun, nofun⟩, fun _ => ⟨_, rfl⟩, fun _ => ⟨_, rfl⟩⟩
  | error fault =>
    cases hfailure : tr.state.failure with
    | none =>
      obtain ⟨chart, hchart⟩ :=
        Context.exists_parseSequentially_of_ended hctx htr hfailure (hend hfailure)
      exact absurd (hchart.symm.trans hseq) nofun
    | some x =>
      rw [Schedule.outcome_eq_of_failure hfailure]
      exact ⟨⟨fun _ => ⟨_, rfl⟩, fun _ => ⟨_, _, rfl⟩⟩, nofun, nofun⟩

namespace Parser

def pair : Parser :=
  ⟨Context.shifting, some ⟨2, false⟩⟩

def refusing : ParseOptions :=
  { ParseOptions.default with filter := some fun c => .error (.raised ("no " ++ c.render)) }

theorem failures_agree_sheWalks : pair.grammar.breakTies = false ∧
    (Parser.mk pair.grammar none).parse ["she", "walks"] Context.telling refusing =
      .error (.fault (.raised "no lex 0..0 N : she")) ∧
    ∃ job fault, pair.parse ["she", "walks"] Context.telling refusing =
      .error (.error (.jobFailed job fault)) := by
  obtain ⟨ctx, hnew, halike, hfails, _⟩ : ∃ ctx,
      Context.new pair.grammar ["she", "walks"] Context.telling refusing = .ok ctx ∧
        ctx.FailsAlike ∧ _ ∧ _ :=
    failures_agree (p := pair) rfl rfl (by decide) (by decide) rfl
  have hsingle : (Parser.mk pair.grammar none).parse ["she", "walks"] Context.telling refusing =
      .error (.fault (.raised "no lex 0..0 N : she")) := by
    have hseq : ctx.parseSequentially = .error (.raised "no lex 0..0 N : she") := by
      obtain rfl := Except.ok.inj hnew
      refine (halike.sequential _).mpr ⟨.lexical 0 0, [], _, _, _, rfl, rfl, rfl, ?_⟩
      rfl
    simp [Parser.parse, hnew, hseq, Except.mapError]
  exact ⟨rfl, hsingle, hfails.mpr ⟨_, hsingle⟩⟩

end Parser

end Categorial
