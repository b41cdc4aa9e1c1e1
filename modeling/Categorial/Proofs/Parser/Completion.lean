import Categorial.Proofs.Parser.InTurn
import Categorial.Proofs.Parser.Scheduling

/-! # How interleavings end

Each job of a sentence does a bounded number of things once, and a move that meets no fault does one
of them, so no interleaving goes on for ever. Where nothing fails, every job of the sentence is done
once no task is left.
-/

namespace Categorial

variable {S : Type} {size : Nat} {log : List Event} {job : Job}

theorem Due.within (h : Due size log job) : job.Within size := by
  cases job with
  | lexical first last => exact ⟨⟨first, last, size, h.1, h.2⟩, rfl, .inl .lexical⟩
  | split first last k =>
    exact ⟨⟨first, last, size, by have := h.1; omega, h.2.1⟩, rfl, .inl (.split h.1)⟩
  | unary first last => exact ⟨⟨first, last, size, h.1, h.2.1⟩, rfl, .inr rfl⟩

/-- All that a job awaits has been added when it is due. -/
theorem Founded.ready (h : Founded size log) (hdue : Due size log job) :
    Ready size {j | (.add, j) ∈ log} job := by
  refine ⟨hdue.within, fun j hj => ?_⟩
  cases job with
  | lexical first last => simp [Job.awaits] at hj
  | split first last k =>
    rcases List.mem_pair.mp hj with rfl | rfl
    · exact h.added_of_ended hdue.2.2.1
    · exact h.added_of_ended (h.ended_of_started hdue.2.2.2)
  | unary first last =>
    rcases List.mem_cons.mp hj with rfl | hj
    · exact h.added_of_settled hdue.2.2.1
    · obtain ⟨k, hk, rfl⟩ := List.mem_map.mp hj
      exact h.added_of_settled (hdue.2.2.2 k (List.mem_range.mp hk))

theorem Trace.InOrder.ready {tr : Trace S} (h : tr.InOrder size) {task : Task S}
    (ht : task ∈ tr.state.tasks) : Ready size {j | (.add, j) ∈ tr.log} task.job :=
  h.orderly.founded.ready (h.orderly.founded.due_of_spawned (h.orderly.spawned ht))

theorem Founded.spawned_of_mem (h : Founded size log) {action : Action} (hm : (action, job) ∈ log) :
    (.spawn, job) ∈ log := by
  cases action with
  | spawn => exact hm
  | begin => exact h.spawned_of_begun hm
  | compute => exact h.spawned_of_computed hm
  | add => exact h.spawned_of_added hm
  | settle => exact h.spawned_of_settled hm
  | recordEnd => exact h.spawned_of_ended hm
  | recordStart => exact h.spawned_of_started hm

section Length

theorem length_flatMap_le {α β : Type} {f : α → List β} {n : Nat} {xs : List α}
    (h : ∀ x ∈ xs, (f x).length ≤ n) : (xs.flatMap f).length ≤ xs.length * n := by
  induction xs with
  | nil => simp
  | cons x xs ih =>
    rw [List.flatMap_cons, List.length_append, List.length_cons, Nat.succ_mul, Nat.add_comm]
    exact Nat.add_le_add (ih fun y hy => h y (.tail _ hy)) (h x (.head _))

theorem Job.length_ofSentence_le (size : Nat) : (ofSentence size).length ≤ (size + 1) ^ 3 := by
  have hspans : (spansByLength size).length ≤ size * size := by
    refine (length_flatMap_le fun extra _ => ?_).trans_eq (congrArg (· * size) List.length_range)
    rw [List.length_map, List.length_range]
    exact Nat.sub_le _ _
  have hjobs : ∀ x ∈ spansByLength size, (ofSpan x.1 x.2).length ≤ size + 1 := by
    intro x hx
    obtain ⟨_, hlt⟩ := mem_spansByLength_iff.mp hx
    simp only [ofSpan, List.length_append, List.length_cons, List.length_map, List.length_range,
      List.length_nil]
    omega
  calc (ofSentence size).length
      ≤ (spansByLength size).length * (size + 1) := length_flatMap_le hjobs
    _ ≤ size * size * (size + 1) := Nat.mul_le_mul_right _ hspans
    _ ≤ (size + 1) * (size + 1) * (size + 1) := by gcongr <;> omega
    _ = (size + 1) ^ 3 := by ring

def allActions : List Action :=
  [.spawn, .begin, .compute, .add, .settle, .recordEnd, .recordStart]

/-- Only so many things can happen to the jobs of a sentence. -/
theorem Founded.length_le (h : Founded size log) : log.length ≤ Schedule.allowance size := by
  have hsub : log ⊆ allActions ×ˢ Job.ofSentence size := by
    rintro ⟨action, job⟩ hm
    refine List.mem_product.mpr ⟨by cases action <;> decide, ?_⟩
    exact Job.mem_ofSentence_iff.mpr (h.due_of_spawned (h.spawned_of_mem hm)).within
  calc log.length
      ≤ (allActions ×ˢ Job.ofSentence size).length :=
        (List.subperm_of_subset h.nodup hsub).length_le
    _ = 7 * (Job.ofSentence size).length := by rw [List.length_product]; rfl
    _ ≤ 7 * (size + 1) ^ 3 := Nat.mul_le_mul_left _ (Job.length_ofSentence_le size)

end Length

theorem Live.done_of_due (h : Live size log ([] : List (Task S))) (hdue : Due size log job) :
    Done log job := by
  have hspawn : (.spawn, job) ∈ log := by simpa using h.promising job hdue
  simpa using h.working job hspawn

theorem Live.done_of_within (h : Live size log ([] : List (Task S))) (hf : Founded size log)
    (hjob : job.Within size) : Done log job := by
  obtain ⟨span, hsize, hjob⟩ := hjob
  induction hn : span.length using Nat.strong_induction_on generalizing span job with
  | _ n ih =>
    subst hn hsize
    have hbase : ∀ job, job.Base span → Done log job := by
      intro job hjob
      cases hjob with
      | lexical => exact h.done_of_due ⟨span.first_le_last, span.last_lt_size⟩
      | @split k hk =>
        have hlength := span.length_split hk
        have hleft := (span.split k hk).1.length_pos
        have hright := (span.split k hk).2.length_pos
        have hl := ih _ (by omega) (span.split k hk).1 rfl (.inr rfl) rfl
        have hr := ih _ (by omega) (span.split k hk).2 rfl (.inr rfl) rfl
        exact h.done_of_due ⟨hk, span.last_lt_size, hf.ended_of_started (hl.2 rfl), hr.2 rfl⟩
    rcases hjob with hjob | rfl
    · exact hbase job hjob
    · exact h.done_of_due ⟨span.first_le_last, span.last_lt_size, (hbase _ .lexical).1,
        fun k hk => (hbase _ (.split hk)).1⟩

theorem Live.registryAfter_eq_nil (h : Live size log ([] : List (Task S))) (hf : Founded size log) :
    registryAfter size log = [] := by
  rw [registryAfter, List.map_eq_nil_iff, List.filter_eq_nil_iff]
  rintro ⟨first, last⟩ hx
  obtain ⟨hle, hlt⟩ := mem_spansByStart_iff.mp hx
  have hdone : Done log (.unary first last) :=
    h.done_of_within hf ⟨⟨first, last, size, hle, hlt⟩, rfl, .inr rfl⟩
  simpa using hdone.1

section Busy

def Phase.Busy : Phase S → Prop
  | issuing jobs => jobs ≠ []
  | _ => True

theorem Phase.busy_issue {jobs : List Job} : ∀ p ∈ Phase.issue? (S := S) jobs, p.Busy := by
  intro p hp
  obtain ⟨hne, rfl⟩ := Phase.mem_issue?.mp hp
  exact hne

theorem Schedule.busy_of_complete {s t : Schedule S} {phase : Option (Phase S)}
    (h : s.complete job = .ok (t, phase)) : ∀ p ∈ phase, p.Busy := by
  intro p hp
  rcases phase_of_complete h p hp with rfl | ⟨jobs, hjobs, rfl⟩
  · trivial
  · exact hjobs

variable [Scalar S] {ctx : Context S}

theorem Schedule.Acts.busy {s t : Schedule S} {task : Task S} {phase : Option (Phase S)}
    {issued : Option Job} (h : s.Acts ctx task t phase issued) : ∀ p ∈ phase, p.Busy := by
  cases h with
  | skip _ => nofun
  | begin _ =>
    rintro p ⟨⟩
    trivial
  | compute _ =>
    rintro p ⟨⟩
    trivial
  | add _ =>
    rintro p ⟨⟩
    trivial
  | settle hcomplete => exact busy_of_complete hcomplete
  | recordEnd =>
    rintro p ⟨⟩
    trivial
  | recordStart => exact Phase.busy_issue
  | idle => nofun
  | spawn => exact Phase.busy_issue

theorem Trace.Moves.busy {tr tr' : Trace S} (hm : Moves ctx tr tr')
    (h : ∀ task ∈ tr.state.tasks, task.phase.Busy) : ∀ task ∈ tr'.state.tasks, task.phase.Busy := by
  cases hm with
  | @act i task t phase issued htask hacts =>
    intro other hother
    rcases List.mem_append.mp ((Schedule.moved_tasks_perm t htask).mem_iff.mp hother) with
      hmem | hmem
    · obtain ⟨job, _, rfl⟩ := List.mem_map.mp hmem
      trivial
    · rcases List.mem_append.mp hmem with hmem | hmem
      · obtain ⟨p, hp, rfl⟩ := List.mem_map.mp hmem
        exact hacts.busy p (Option.mem_toList.mp hp)
      · exact h other (List.mem_of_mem_eraseIdx hmem)
  | fault htask _ => exact fun other hother => h other (List.mem_of_mem_eraseIdx hother)

theorem Trace.Reachable.busy {tr : Trace S} (h : Reachable ctx tr) :
    ∀ task ∈ tr.state.tasks, task.phase.Busy := by
  induction h using Reachable.induct with
  | start s hnew =>
    obtain ⟨chart, _, h⟩ := bind_eq_ok.mp hnew
    obtain rfl := Except.ok.inj h
    intro task ht
    obtain ⟨x, _, rfl⟩ := List.mem_map.mp (List.mem_reverse.mp ht)
    trivial
  | move tr tr' _ hmove ih => exact hmove.busy ih

end Busy

theorem Context.exists_schedule {g : Grammar} {tokens : List String} {model : Model S}
    {options : ParseOptions} {ctx : Context S} (h : Context.new g tokens model options = .ok ctx) :
    0 < ctx.size ∧ ∃ s, Schedule.new ctx = .ok s := by
  simp only [Context.new] at h
  split_ifs at h with htokens hbeam
  obtain rfl := Except.ok.inj h
  constructor
  · exact List.length_pos_iff.mpr fun hnil => htokens (List.isEmpty_iff.mpr hnil)
  · exact ⟨_, bind_eq_ok.mpr ⟨_, if_neg fun hnew => hbeam hnew.1, rfl⟩⟩

section Drain

variable [Scalar S] {ctx : Context S}

theorem Schedule.step_nextOfOne_eq_none {s : Schedule S} (h : s.step ctx s.nextOfOne = none) :
    s.tasks = [] := by
  unfold Schedule.step at h
  split at h
  next hnone =>
    have hle := List.getElem?_eq_none_iff.mp hnone
    unfold Schedule.nextOfOne at hle
    cases hfind : s.tasks.findIdx? (!·.phase.isIssued) with
    | none => exact List.eq_nil_of_length_eq_zero (by simpa [hfind] using hle)
    | some i =>
      obtain ⟨hlt, _⟩ := List.findIdx?_eq_some_iff_getElem.mp hfind
      rw [hfind, Option.getD_some] at hle
      exact absurd hlt (not_lt.mpr hle)
  next => split at h <;> simp at h

namespace Trace

variable {tr tr' : Trace S}

theorem Moves.failure_eq (hm : Moves ctx tr tr') (horder : tr.InOrder ctx.size)
    (h : tr'.state.failure = none) : tr.state.failure = none := by
  cases hm with
  | act htask hacts =>
    exact (horder.failure_eq htask hacts).symm.trans h
  | fault _ _ => cases hf : tr.state.failure <;> simp [Schedule.failed, hf] at h

theorem Reachable.length_succ (h : Reachable ctx tr) (hm : Moves ctx tr tr')
    (hfailure : tr'.state.failure = none) : tr'.log.length = tr.log.length + 1 := by
  have hnone := hm.failure_eq h.inOrder hfailure
  cases hm with
  | fault htask hfault => simp [Schedule.failed, hnone] at hfailure
  | @act i task t phase issued htask hacts =>
    have hbusy := h.busy task (List.mem_of_getElem? htask)
    obtain ⟨job, p⟩ := task
    cases p with
    | issuing jobs =>
      cases jobs with
      | nil => exact absurd rfl hbusy
      | cons j js => rfl
    | issued => simp [Task.event?, hnone]
    | begun => rfl
    | computed cells pruned => rfl
    | added => rfl
    | finished => rfl
    | recorded found => rfl

theorem Reachable.runOne_drains (h : Reachable ctx tr) (fuel : Nat)
    (hfailure : (tr.state.runOne ctx fuel).failure = none) :
    tr.state.failure = none ∧ ∃ log, Reachable ctx ⟨log, tr.state.runOne ctx fuel⟩ ∧
      ((tr.state.runOne ctx fuel).tasks = [] ∨ tr.log.length + fuel ≤ log.length) := by
  induction fuel generalizing tr with
  | zero => exact ⟨hfailure, tr.log, h, .inr le_rfl⟩
  | succ fuel ih =>
    unfold Schedule.runOne at hfailure ⊢
    split at hfailure
    next hnone => exact ⟨hfailure, tr.log, h, .inl (Schedule.step_nextOfOne_eq_none hnone)⟩
    next t ht =>
      obtain ⟨log, hmove⟩ := moves_of_step ht
      obtain ⟨hnone, log', hreach, hend⟩ := ih (h.move hmove) hfailure
      refine ⟨hmove.failure_eq h.inOrder hnone, log', hreach, hend.imp_right fun hle => ?_⟩
      have hlength := h.length_succ hmove hnone
      simp only at hlength hle
      omega

/-- Once no task is left, all jobs of the sentence have been done. -/
theorem Reachable.ended (h : Reachable ctx tr) (hfailure : tr.state.failure = none)
    (hend : tr.state.tasks = []) : tr.state.registry = [] ∧
      tr.state.outcome = .ok tr.state.chart.close ∧
      ∀ job : Job, job.Within ctx.size → Done tr.log job := by
  have horder := h.inOrder
  have hlive := horder.live hfailure
  rw [hend] at hlive
  have hfounded := horder.orderly.founded
  have hregistry := horder.orderly.registry_eq.trans (hlive.registryAfter_eq_nil hfounded)
  refine ⟨hregistry, ?_, fun job hjob => hlive.done_of_within hfounded hjob⟩
  simp [Schedule.outcome, hfailure, hregistry]

end Trace

/-- The allowance is never used up, so a parse that meets no fault ends without a task. -/
theorem Context.parseByTasks_ends {s : Schedule S} (hpos : 0 < ctx.size)
    (hs : Schedule.new ctx = .ok s) : ∃ tr, Trace.Reachable ctx tr ∧
      ctx.parseByTasks = tr.state.outcome ∧ (tr.state.failure = none → tr.state.tasks = []) := by
  have hstart : Trace.Reachable ctx (Trace.start ctx.size s) := ⟨s, hs, .refl⟩
  have hparse : ctx.parseByTasks = (s.runOne ctx (Schedule.allowance ctx.size)).outcome := by
    rw [parseByTasks, hs]
  by_cases hfailure : (s.runOne ctx (Schedule.allowance ctx.size)).failure = none
  · obtain ⟨_, log, hlog, hend⟩ := hstart.runOne_drains _ hfailure
    refine ⟨_, hlog, hparse, fun _ => hend.resolve_right fun hle => ?_⟩
    -- there are events at the start
    have hmem : (.spawn, .lexical 0 0) ∈ (Trace.start ctx.size s).log := by
      refine List.mem_map.mpr ⟨(0, 0), List.mem_reverse.mpr ?_, rfl⟩
      exact mem_spansByStart_iff.mpr ⟨le_rfl, hpos⟩
    have hbound := hlog.inOrder.orderly.founded.length_le
    have hstarted := List.length_pos_of_mem hmem
    simp only at hbound hle
    omega
  · obtain ⟨log, hlog⟩ := hstart.runOne (Schedule.allowance ctx.size)
    exact ⟨_, hlog, hparse, fun h => absurd h hfailure⟩

end Drain

end Categorial
