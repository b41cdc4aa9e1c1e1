import Categorial.Proofs.Chart.Same
import Categorial.Proofs.Parser.Completion

/-! # Building a chart

Whatever turns the tasks take, what a task has worked out stays what its job gives until it is
added. So every interleaving fills a chart as the sequential parse does.
-/

namespace Categorial

variable {S : Type}

namespace Trace

def added (log : List Event) : Set Job :=
  {j | (.add, j) ∈ log}

theorem added_start (size : Nat) (s : Schedule S) : added (start size s).log = ∅ := by
  ext j
  simp [added, start]

theorem added_cons {event : Event} {log : List Event} (h : event.1 ≠ .add) :
    added (event :: log) = added log := by
  ext j
  refine ⟨fun hm => (List.mem_cons.mp hm).resolve_left ?_, .tail _⟩
  rintro rfl
  exact h rfl

theorem added_cons_add (job : Job) (log : List Event) :
    added ((.add, job) :: log) = insert job (added log) := by
  ext j
  simp [added]

end Trace

variable [Scalar S] {ctx : Context S} {P : Chart S → Job → Prop}

/-- What a task has worked out is still what its job gives. -/
def Phase.Current (ctx : Context S) (chart : Chart S) (job : Job) : Phase S → Prop
  | .computed cells pruned => ctx.cellsOf chart job = .ok (cells, pruned)
  | _ => True

theorem Phase.current_issue {chart : Chart S} {job : Job} {jobs : List Job} :
    ∀ p ∈ Phase.issue? (S := S) jobs, p.Current ctx chart job := by
  intro p hp
  obtain ⟨_, rfl⟩ := Phase.mem_issue?.mp hp
  trivial

theorem Phase.Current.congr {chart chart' : Chart S} {job : Job} {phase : Phase S}
    (h : phase.Current ctx chart job) (heq : ctx.cellsOf chart' job = ctx.cellsOf chart job) :
    phase.Current ctx chart' job := by
  cases phase with
  | computed cells pruned => exact heq.trans h
  | issued => trivial
  | begun => trivial
  | added => trivial
  | finished => trivial
  | recorded found => trivial
  | issuing jobs => trivial

theorem Schedule.current_of_complete {s t : Schedule S} {chart : Chart S} {job : Job}
    {phase : Option (Phase S)} (h : s.complete job = .ok (t, phase)) :
    ∀ p ∈ phase, p.Current ctx chart job := by
  intro p hp
  rcases phase_of_complete h p hp with rfl | ⟨jobs, _, rfl⟩
  · trivial
  · trivial

namespace Trace

variable {tr tr' : Trace S} {i : Nat} {task : Task S}

structure Filling (ctx : Context S) (P : Chart S → Job → Prop) (tr : Trace S) : Prop where
  filled : Filled ctx P (added tr.log) tr.state.chart
  current : ∀ task ∈ tr.state.tasks, task.phase.Current ctx tr.state.chart task.job

/-- A move adds cells to a chart of a certain kind, if it adds any. -/
def AddsWhere (P : Chart S → Job → Prop) (tr tr' : Trace S) : Prop :=
  ∀ job, tr'.log = (.add, job) :: tr.log → P tr.state.chart job

namespace Filling

theorem moved (htask : tr.state.tasks[i]? = some task) {t : Schedule S} {log : List Event}
    {phase : Option (Phase S)} {issued : Option Job} (hfilled : Filled ctx P (added log) t.chart)
    (hphase : ∀ p ∈ phase, p.Current ctx t.chart task.job)
    (hrest : ∀ other ∈ tr.state.tasks.eraseIdx i, other.phase.Current ctx t.chart other.job) :
    Filling ctx P ⟨log, tr.state.moved t i task phase issued⟩ := by
  refine ⟨hfilled, fun other hother => ?_⟩
  have hmem := (Schedule.moved_tasks_perm t htask).mem_iff.mp hother
  rcases List.mem_append.mp hmem with hmem | hmem
  · obtain ⟨job, _, rfl⟩ := List.mem_map.mp hmem
    trivial
  · rcases List.mem_append.mp hmem with hmem | hmem
    · obtain ⟨p, hp, rfl⟩ := List.mem_map.mp hmem
      exact hphase p (Option.mem_toList.mp hp)
    · exact hrest other hmem

theorem stays (h : tr.Filling ctx P) (htask : tr.state.tasks[i]? = some task) {t : Schedule S}
    {log : List Event} {phase : Option (Phase S)} {issued : Option Job}
    (hlog : added log = added tr.log) (hchart : t.chart = tr.state.chart)
    (hphase : ∀ p ∈ phase, p.Current ctx tr.state.chart task.job) :
    Filling ctx P ⟨log, tr.state.moved t i task phase issued⟩ := by
  refine moved htask ?_ ?_ ?_
  · rw [hlog, hchart]
    exact h.filled
  · rwa [hchart]
  · rw [hchart]
    exact fun other hother => h.current other (List.mem_of_mem_eraseIdx hother)

end Filling

/-- A move adds what the job of the task gives, or nothing. -/
theorem Moves.filling (hm : Moves ctx tr tr') (h : tr.Filling ctx P) (horder : tr.InOrder ctx.size)
    (hP : AddsWhere P tr tr') : tr'.Filling ctx P := by
  cases hm with
  | fault htask hfault =>
    exact ⟨h.filled, fun other hother => h.current other (List.mem_of_mem_eraseIdx hother)⟩
  | @act i task t phase issued htask hacts =>
    have hmem := List.mem_of_getElem? htask
    have hs := horder.perm (Schedule.tasks_perm htask)
    cases hacts with
    | skip hskip =>
      refine h.stays htask ?_ rfl (by nofun)
      simp [Task.event?, hskip]
    | begin hnone =>
      rw [Task.event?, hnone]
      refine h.stays htask (added_cons (by simp)) rfl ?_
      rintro p ⟨⟩
      trivial
    | compute hcells =>
      refine h.stays htask (added_cons (by simp)) rfl ?_
      rintro p ⟨⟩
      exact hcells
    | @add job cells pruned chart hadds =>
      have hready := horder.ready hmem
      have hnew : job ∉ added tr.log := (horder.orderly.follows _ hmem).2
      refine Filling.moved htask ?_ ?_ fun other hother => ?_
      · show Filled ctx P (added ((.add, job) :: tr.log)) chart
        rw [added_cons_add]
        exact h.filled.add hready hnew (hP job rfl) (h.current _ hmem) hadds
      · rintro p ⟨⟩
        trivial
      · -- the other tasks have other jobs, which read nothing that changes
        have hmem' := List.mem_of_mem_eraseIdx hother
        have hne : other.job ≠ job := fun he =>
          (List.nodup_cons.mp hs.orderly.apart).1 (List.mem_map.mpr ⟨other, hother, he⟩)
        exact (h.current other hmem').congr
          (h.filled.closed.cellsOf_eq hready hnew hadds (horder.ready hmem') hne)
    | @settle job t phase hcomplete =>
      obtain ⟨t', phase', hok, _, hchart, _⟩ := hs.settle
      obtain ⟨rfl, rfl⟩ := Prod.mk.inj (Except.ok.inj (hok.symm.trans hcomplete))
      exact h.stays htask (added_cons (by simp)) hchart (Schedule.current_of_complete hcomplete)
    | recordEnd =>
      refine h.stays htask (added_cons (by simp)) hs.recordEnd.2.1 ?_
      rintro p ⟨⟩
      trivial
    | recordStart =>
      exact h.stays htask (added_cons (by simp)) hs.recordStart.2.1 Phase.current_issue
    | idle => exact h.stays htask rfl rfl (by nofun)
    | spawn => exact h.stays htask (added_cons (by simp)) rfl Phase.current_issue

theorem filling_start {s : Schedule S} (hnew : Schedule.new ctx = .ok s) :
    (start ctx.size s).Filling ctx P := by
  obtain ⟨chart, hchart, h⟩ := bind_eq_ok.mp hnew
  obtain rfl := Except.ok.inj h
  refine ⟨?_, fun task ht => ?_⟩
  · rw [added_start]
    exact .new hchart
  · obtain ⟨x, _, rfl⟩ := List.mem_map.mp (List.mem_reverse.mp ht)
    trivial

/-- A trace that some interleaving leads to, in which each job adds its cells to a chart of a
certain kind. -/
def ReachableWhere (ctx : Context S) (P : Chart S → Job → Prop) (tr : Trace S) : Prop :=
  ∃ s, Schedule.new ctx = .ok s ∧
    Relation.ReflTransGen (fun tr tr' => Moves ctx tr tr' ∧ AddsWhere P tr tr')
      (start ctx.size s) tr

theorem ReachableWhere.reachable (h : ReachableWhere ctx P tr) : Reachable ctx tr := by
  obtain ⟨s, hnew, hmoves⟩ := h
  exact ⟨s, hnew, Relation.ReflTransGen.mono (fun _ _ hm => hm.1) _ _ hmoves⟩

theorem Reachable.anywhere (h : Reachable ctx tr) : ReachableWhere ctx (fun _ _ => True) tr := by
  obtain ⟨s, hnew, hmoves⟩ := h
  exact ⟨s, hnew, Relation.ReflTransGen.mono (fun _ _ hm => ⟨hm, fun _ _ => trivial⟩) _ _ hmoves⟩

/-- Every interleaving fills a chart. -/
theorem ReachableWhere.filling (h : ReachableWhere ctx P tr) : tr.Filling ctx P := by
  obtain ⟨s, hnew, hmoves⟩ := h
  induction hmoves with
  | refl => exact filling_start hnew
  | tail hsteps hmove ih =>
    have hreach : ReachableWhere ctx P _ := ⟨s, hnew, hsteps⟩
    exact hmove.1.filling ih hreach.reachable.inOrder hmove.2

end Trace

/-- Ways to parse a sentence: one job after the other, or by tasks that take turns in any way. Each
job adds its cells to a chart of a certain kind. -/
inductive Context.BuildsWhere (ctx : Context S) (P : Chart S → Job → Prop) : Chart S → Prop where
  | inTurn {chart : Chart S} : ctx.parseSequentially = .ok chart → ctx.RunsWhere P →
      BuildsWhere ctx P chart
  | interleaved {tr : Trace S} {chart : Chart S} : Trace.ReachableWhere ctx P tr →
      tr.state.tasks = [] → tr.state.outcome = .ok chart → BuildsWhere ctx P chart

/-- A chart that some way of parsing the sentence leads to. -/
def Context.Builds (ctx : Context S) (chart : Chart S) : Prop :=
  ctx.BuildsWhere (fun _ _ => True) chart

namespace Context

variable {chart : Chart S}

theorem BuildsWhere.filled (h : ctx.BuildsWhere P chart) :
    ∃ done whole, Filled ctx P done whole ∧ (∀ job : Job, job.Within ctx.size → job ∈ done) ∧
      chart = whole.close := by
  cases h with
  | inTurn hparse hP =>
    obtain ⟨whole, hwhole, rfl⟩ := filled_of_parseSequentially hparse hP
    exact ⟨_, whole, hwhole, fun job hjob => Job.mem_ofSentence_iff.mpr hjob, rfl⟩
  | @interleaved tr _ hreach hend hok =>
    have hfailure : tr.state.failure = none := by
      unfold Schedule.outcome at hok
      split at hok
      · simp at hok
      · assumption
    have hfounded := hreach.reachable.inOrder.orderly.founded
    obtain ⟨_, houtcome, hdone⟩ := hreach.reachable.ended hfailure hend
    refine ⟨_, _, hreach.filling.filled, fun job hjob => ?_, ?_⟩
    · exact hfounded.added_of_settled (hdone job hjob).1
    · exact Except.ok.inj (hok.symm.trans houtcome)

theorem BuildsWhere.tokens (h : ctx.BuildsWhere P chart) : chart.tokens = ctx.tokens := by
  obtain ⟨_, whole, hwhole, _, rfl⟩ := h.filled
  exact hwhole.tokens

theorem BuildsWhere.size_eq (h : ctx.BuildsWhere P chart) : chart.size = ctx.size :=
  congrArg List.length h.tokens

theorem BuildsWhere.size_beams (h : ctx.BuildsWhere P chart) :
    chart.beams.size = numSpans ctx.size := by
  obtain ⟨_, whole, hwhole, _, rfl⟩ := h.filled
  rw [Chart.close, Array.size_map, hwhole.size]

theorem BuildsWhere.exists_beam (h : ctx.BuildsWhere P chart) {span : Span}
    (hsize : span.size = ctx.size) : ∃ b, chart.beam? span.first span.last = some b := by
  obtain ⟨_, whole, hwhole, _, rfl⟩ := h.filled
  obtain ⟨b, hb⟩ := hwhole.exists_beam hsize
  exact ⟨b.close, by rw [Chart.beam?_close, hb, Option.map_some]⟩

theorem BuildsWhere.exists_beam_whole (h : ctx.BuildsWhere P chart) (hpos : 0 < ctx.size) :
    ∃ b, chart.beam? 0 (chart.size - 1) = some b := by
  let span : Span := ⟨0, ctx.size - 1, ctx.size, Nat.zero_le _, by omega⟩
  obtain ⟨b, hb⟩ := h.exists_beam (rfl : span.size = ctx.size)
  exact ⟨b, h.size_eq ▸ hb⟩

theorem builds_of_parseSequentially (h : ctx.parseSequentially = .ok chart) : ctx.Builds chart :=
  .inTurn h fun _ _ _ _ _ _ _ _ => trivial

theorem builds_of_parseByTasks (hpos : 0 < ctx.size) (h : ctx.parseByTasks = .ok chart) :
    ctx.Builds chart := by
  cases hs : Schedule.new ctx with
  | error fault => simp [parseByTasks, hs] at h
  | ok s =>
    obtain ⟨tr, hreach, hparse, hend⟩ := parseByTasks_ends hpos hs
    rw [hparse] at h
    refine .interleaved hreach.anywhere (hend ?_) h
    unfold Schedule.outcome at h
    split at h
    · simp at h
    · assumption

end Context

end Categorial
