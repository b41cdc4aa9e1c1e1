import Categorial.Proofs.Parser.Building
import Categorial.Proofs.Parser.Crowding
import Categorial.Proofs.Parser.Equivalence

/-! # Interleavings and the sequential parse

Whatever turns the tasks take, no task meets a fault where the sequential parse meets none, and
every interleaving ends with the same chart.
-/

namespace Categorial

variable {S : Type} [ExactScalar S] {ctx : Context S}

namespace Trace

variable {tr tr' : Trace S} {i : Nat} {task : Task S}

theorem Reachable.sound (h : Reachable ctx tr) (hctx : ctx.Regular) :
    Sound ctx (added tr.log) tr.state.chart :=
  h.anywhere.filling.filled.sound hctx

theorem Reachable.exists_advance (h : Reachable ctx tr) (hctx : ctx.Regular) (hworks : ctx.Works)
    (htask : tr.state.tasks[i]? = some task) :
    ∃ r, tr.state.advance ctx task = .ok r := by
  have horder := h.inOrder
  have hmem := List.mem_of_getElem? htask
  have hready := horder.ready hmem
  have hfollows := horder.orderly.follows task hmem
  have hcurrent := h.anywhere.filling.current task hmem
  obtain ⟨job, phase⟩ := task
  cases phase with
  | issued => exact ⟨_, rfl⟩
  | begun =>
    have hnew : job ∉ added tr.log := fun hadd =>
      hfollows.2 (horder.orderly.founded.computed_of_added hadd)
    obtain ⟨r, hr⟩ := hworks _ _ job (h.sound hctx) hready hnew
    exact ⟨_, bind_eq_ok.mpr ⟨r, hr, rfl⟩⟩
  | computed cells pruned =>
    obtain ⟨chart, hchart⟩ := (h.sound hctx).exists_addAll hctx hready hfollows.2 hcurrent
    exact ⟨_, bind_eq_ok.mpr ⟨chart, hchart, rfl⟩⟩
  | added =>
    obtain ⟨t, phase, hok, _⟩ := (horder.perm (Schedule.tasks_perm htask)).settle
    exact ⟨_, bind_eq_ok.mpr ⟨_, hok, rfl⟩⟩
  | finished => exact ⟨_, rfl⟩
  | recorded found => exact ⟨_, rfl⟩
  | issuing jobs => cases jobs <;> exact ⟨_, rfl⟩

theorem Reachable.unfailing (h : Reachable ctx tr) (hctx : ctx.Regular) (hworks : ctx.Works) :
    tr.state.failure = none := by
  induction h using Reachable.induct with
  | start s hnew => exact Schedule.failure_of_new hnew
  | move tr tr' hreach hmove ih =>
    cases hmove with
    | act htask hacts => exact (hreach.inOrder.failure_eq htask hacts).trans ih
    | fault htask hfault =>
      obtain ⟨r, hr⟩ := hreach.exists_advance hctx hworks htask
      exact absurd (hr.symm.trans hfault) nofun

theorem Reachable.mem_added (h : Reachable ctx tr) (hfailure : tr.state.failure = none)
    (hend : tr.state.tasks = []) {job : Job} (hjob : job.Within ctx.size) : job ∈ added tr.log :=
  h.inOrder.orderly.founded.added_of_settled ((h.ended hfailure hend).2.2 job hjob).1

end Trace

namespace Context

variable {done : Set Job} {chart : Chart S}

/-- Where a whole chart could be filled, no job meets a fault in any other order. -/
theorem works_of_sound (hctx : ctx.Regular) (h : Sound ctx done chart)
    (hall : ∀ job : Job, job.Within ctx.size → job ∈ done) : ctx.Works := fun _ _ _ hpart =>
  Compared.works ⟨⟨hctx, h, hall, hpart, le_rfl⟩, .inl rfl⟩

theorem sameUnder_of_sound {done' : Set Job} {chart' : Chart S} (hctx : ctx.Regular)
    (h : Sound ctx done chart) (hall : ∀ job : Job, job.Within ctx.size → job ∈ done)
    (h' : Sound ctx done' chart') (hall' : ∀ job : Job, job.Within ctx.size → job ∈ done') :
    chart.SameUnder (chart.counterpart chart') chart' :=
  Compared.sameUnder ⟨⟨hctx, h, hall, h', le_rfl⟩, .inl rfl⟩ hall'

/-- Every interleaving of the jobs ends, without a fault and with this chart up to the names of
handles. -/
structure LeadsTo (ctx : Context S) (chart : Chart S) : Prop where
  faultless : ∀ tr, Trace.Reachable ctx tr → tr.state.failure = none
  bounded : ∀ tr, Trace.Reachable ctx tr → tr.log.length ≤ Schedule.allowance ctx.size
  progress : ∀ tr tr', Trace.Reachable ctx tr → Trace.Moves ctx tr tr' →
    tr'.log.length = tr.log.length + 1
  outcome : ∀ tr, Trace.Reachable ctx tr → tr.state.tasks = [] →
    ∃ chart', tr.state.outcome = .ok chart' ∧ chart.Same chart'
  /-- One of them is that of a single worker. -/
  parseByTasks : ∃ chart', ctx.parseByTasks = .ok chart' ∧ chart.Same chart'

theorem leadsTo (hctx : ctx.Regular) (hpos : 0 < ctx.size) (h : Sound ctx done chart)
    (hall : ∀ job : Job, job.Within ctx.size → job ∈ done) : ctx.LeadsTo chart.close := by
  have hworks := works_of_sound hctx h hall
  have hfaultless : ∀ tr, Trace.Reachable ctx tr → tr.state.failure = none :=
    fun tr htr => htr.unfailing hctx hworks
  have houtcome : ∀ tr, Trace.Reachable ctx tr → tr.state.tasks = [] →
      ∃ chart', tr.state.outcome = .ok chart' ∧ chart.close.Same chart' := by
    intro tr htr hend
    have hfailure := hfaultless tr htr
    have hsame := sameUnder_of_sound hctx h hall (htr.sound hctx) fun job hjob =>
      htr.mem_added hfailure hend hjob
    exact ⟨_, (htr.ended hfailure hend).2.1, _, Chart.sameUnder_close.mpr hsame⟩
  refine ⟨hfaultless, fun tr htr => htr.inOrder.orderly.founded.length_le, fun tr tr' htr hmove =>
    htr.length_succ hmove (hfaultless tr' (htr.move hmove)), houtcome, ?_⟩
  obtain ⟨s, hs⟩ : ∃ s, Schedule.new ctx = .ok s :=
    ⟨_, bind_eq_ok.mpr ⟨_, hctx.new_eq, rfl⟩⟩
  obtain ⟨tr, htr, hparse, hend⟩ := parseByTasks_ends hpos hs
  rw [hparse]
  exact houtcome tr htr (hend (hfaultless tr htr))

variable {g : Grammar} {tokens : List String} {model : Model S} {options : ParseOptions}

/-- However the jobs of a sentence are interleaved, they lead to the chart of the sequential parse.
An interleaving without a fault shows that the sequential parse meets none either. -/
theorem interleavings_agree (hnew : Context.new g tokens model options = .ok ctx)
    (hties : g.breakTies = false) :
    (∀ chart, ctx.parseSequentially = .ok chart → ctx.LeadsTo chart) ∧
      ∀ tr, Trace.Reachable ctx tr → tr.state.tasks = [] → tr.state.failure = none →
        ∃ chart, ctx.parseSequentially = .ok chart := by
  obtain ⟨hctx, hpos⟩ := regular_of_new hnew hties
  constructor
  · intro chart hseq
    obtain ⟨whole, hwhole, rfl⟩ := sound_of_parseSequentially hctx hseq
    exact leadsTo hctx hpos hwhole fun job hjob => Job.mem_ofSentence_iff.mpr hjob
  · intro tr htr hend hfailure
    have hworks := works_of_sound hctx (htr.sound hctx) fun job hjob =>
      htr.mem_added hfailure hend hjob
    exact exists_parseSequentially hctx hworks

/-- However they are interleaved, a cell is set aside before it is the turn of the unary rules and
comes back after it. -/
theorem interleavings_agree_crowded : ∃ ctx chart,
    Context.new crowding ["a", "b"] preferring .default = .ok ctx ∧
      ctx.parseSequentially = .ok chart ∧ ctx.LeadsTo chart ∧ chart.isExact = true ∧
      ¬ ctx.MissesNothing chart := by
  obtain ⟨chart, hchart, hexact, hmissed⟩ := exists_parse_crowded
  exact ⟨crowded, chart, new_crowded, hchart, (interleavings_agree new_crowded rfl).1 chart hchart,
    hexact, hmissed⟩

end Context

end Categorial
