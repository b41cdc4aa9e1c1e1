import Categorial.Proofs.Parser.Orderly

/-! # Every interleaving of the scheduler

Each move of a task keeps the invariant of the scheduler, so it holds of every trace. No assertion
of the registry fails, no job is issued twice, and a beam that a job reads does not change any more.
-/

namespace Categorial

variable {S : Type} {size : Nat} {log : List Event} {tasks rest : List (Task S)} {task : Task S}
  {s : Schedule S} {job : Job}

/-- The scheduler is in order, and no job is lost while nothing has failed. -/
structure InOrder (size : Nat) (log : List Event) (tasks : List (Task S)) (s : Schedule S) :
    Prop where
  orderly : Orderly size log tasks s.registry s.boundaries
  live : s.failure = none → Live size log tasks

theorem Job.exists_unary (h : job.isUnary = true) : ∃ first last, job = unary first last := by
  cases job with
  | lexical first last => simp [isUnary] at h
  | split first last k => simp [isUnary] at h
  | unary first last => exact ⟨first, last, rfl⟩

namespace InOrder

theorem perm {tasks' : List (Task S)} (h : InOrder size log tasks s) (hp : tasks.Perm tasks') :
    InOrder size log tasks' s :=
  ⟨h.orderly.perm hp, fun hf => (h.live hf).perm hp⟩

theorem work {action : Action} {phase phase' : Phase S}
    (h : InOrder size log (⟨job, phase⟩ :: rest) s)
    (ha : action = .begin ∨ action = .compute ∨ action = .add) (hfresh : (action, job) ∉ log)
    (hwarranted : Warranted size log (action, job))
    (hfollows : phase'.Follows ((action, job) :: log) job) (hold : phase.promised = [])
    (hnew : phase'.promised = []) :
    InOrder size ((action, job) :: log) (⟨job, phase'⟩ :: rest) s := by
  have hact : ∀ other, other ∉ [Action.begin, .compute, .add] → action ≠ other := by
    rintro other hother rfl
    exact hother (by simpa using ha)
  constructor
  · refine h.orderly.proceed (action, job) (some phase') rfl
      (hact _ (by simp)) hfresh hwarranted ?_ ?_ ?_ ?_ ?_
    · rintro p ⟨⟩
      exact hfollows
    · rintro p ⟨⟩
      exact hnew ▸ .nil
    · rintro p ⟨⟩ j hj
      simp [hnew] at hj
    · rw [registryAfter_cons (hact _ (by simp))]
      exact h.orderly.registry_eq
    · exact h.orderly.recorded.cons _ (hact _ (by simp)) (hact _ (by simp))
  · intro hf
    refine (h.live hf).proceed (action, job) (some phase')
      (hact _ (by simp)) (by simp) (fun j hj => by simp [hold] at hj) fun j hj hnot => ?_
    rcases action_of_mem_needs (hj.mem_needs hnot) with he | he | he
    · exact absurd he (hact _ (by simp))
    · exact absurd he (hact _ (by simp))
    · exact absurd he (hact _ (by simp))

theorem begin (h : InOrder size log (⟨job, .issued⟩ :: rest) s) :
    InOrder size ((.begin, job) :: log) (⟨job, .begun⟩ :: rest) s := by
  obtain ⟨hspawn, hnew⟩ : (Action.spawn, job) ∈ log ∧ (Action.begin, job) ∉ log :=
    h.orderly.follows _ (.head _)
  refine h.work (.inl rfl) hnew hspawn ⟨.head _, fun hm => ?_⟩ rfl rfl
  exact hnew (h.orderly.founded.begun_of_computed (by simpa using hm))

theorem compute {cells : List (Cell S)} {pruned : Bool}
    (h : InOrder size log (⟨job, .begun⟩ :: rest) s) :
    InOrder size ((.compute, job) :: log) (⟨job, .computed cells pruned⟩ :: rest) s := by
  obtain ⟨hbegun, hnew⟩ : (Action.begin, job) ∈ log ∧ (Action.compute, job) ∉ log :=
    h.orderly.follows _ (.head _)
  refine h.work (.inr (.inl rfl)) hnew hbegun ⟨.head _, fun hm => ?_⟩ rfl rfl
  exact hnew (h.orderly.founded.computed_of_added (by simpa using hm))

theorem add {cells : List (Cell S)} {pruned : Bool}
    (h : InOrder size log (⟨job, .computed cells pruned⟩ :: rest) s) :
    InOrder size ((.add, job) :: log) (⟨job, .added⟩ :: rest) s := by
  obtain ⟨hcomputed, hnew⟩ : (Action.compute, job) ∈ log ∧ (Action.add, job) ∉ log :=
    h.orderly.follows _ (.head _)
  refine h.work (.inr (.inr rfl)) hnew hcomputed ⟨.head _, fun hm => ?_⟩ rfl rfl
  exact hnew (h.orderly.founded.added_of_settled (by simpa using hm))

/-- A job other than the unary one is ticked off, and the last one makes the unary job due. -/
theorem settle_base {first last : Nat} {pending : Pending}
    (h : InOrder size log (⟨pending.job first last, .added⟩ :: rest) s) :
    ∃ t jobs, s.resolve first last pending = .ok (t, jobs) ∧ t.failure = s.failure ∧
      t.chart = s.chart ∧
      InOrder size ((.settle, pending.job first last) :: log)
        (Orderly.goesOn ⟨pending.job first last, .added⟩ (Phase.issue? jobs) ++ rest) t := by
  obtain ⟨hadd, hnew⟩ : (Action.add, pending.job first last) ∈ log ∧
      (Action.settle, pending.job first last) ∉ log := h.orderly.follows _ (.head _)
  obtain ⟨registry, hresolve, hregistry⟩ := h.orderly.complete_base rfl rfl
  have hdone : Done ((.settle, pending.job first last) :: log) (pending.job first last) :=
    ⟨.head _, fun hu => by simp [isUnary_job] at hu⟩
  have hrecorded := h.orderly.recorded.cons (.settle, pending.job first last) (by simp)
    (by simp)
  refine ⟨_, _, hresolve, rfl, rfl, ?_⟩
  have hdue : ∀ j, Due size ((.settle, pending.job first last) :: log) j → ¬ Due size log j →
      j = .unary first last ∧
        (pendingAfter ((.settle, pending.job first last) :: log) first last).isEmpty = true := by
    intro j hj hnot
    obtain rfl := eq_unary_of_mem_needs (hj.mem_needs hnot)
    exact ⟨rfl, List.isEmpty_iff.mpr (pendingAfter_eq_nil_iff.mpr ⟨hj.2.2.1, hj.2.2.2⟩)⟩
  have hissue : ∀ p ∈ Phase.issue? (S := S)
      (if (pendingAfter ((.settle, pending.job first last) :: log) first last).isEmpty then
        [.unary first last] else []),
      p = .issuing [.unary first last] ∧
        pendingAfter ((.settle, pending.job first last) :: log) first last = [] := by
    intro p hp
    split_ifs at hp with hempty
    · cases hp
      exact ⟨rfl, List.isEmpty_iff.mp hempty⟩
    · cases hp
  have hjob := h.orderly.founded.due_of_spawned (h.orderly.spawned (.head _))
  obtain ⟨hle, hlt⟩ := hjob.valid
  constructor
  · refine h.orderly.proceed (.settle, pending.job first last) _ rfl (by simp) hnew hadd
      ?_ ?_ ?_ hregistry hrecorded
    · intro p hp
      obtain ⟨rfl, _⟩ := hissue p hp
      exact hdone
    · intro p hp
      obtain ⟨rfl, _⟩ := hissue p hp
      exact List.nodup_singleton _
    · intro p hp j hj
      obtain ⟨rfl, hnil⟩ := hissue p hp
      obtain rfl := List.mem_singleton.mp hj
      refine .inr ⟨⟨by simpa using hle, by simpa using hlt, pendingAfter_eq_nil_iff.mp hnil⟩,
        fun hold => hnew (hold.mem (mem_needs_unary (mem_allPending hjob)))⟩
  · intro hf
    refine (h.live hf).proceed (.settle, pending.job first last) _ (by simp)
      (fun _ => hdone) (fun j hj => by simp [Phase.promised] at hj) fun j hj hnot => ?_
    obtain ⟨rfl, hempty⟩ := hdue j hj hnot
    rw [hempty]
    exact ⟨_, rfl, .head _⟩

theorem settle_unary {first last : Nat}
    (h : InOrder size log (⟨.unary first last, .added⟩ :: rest) s) :
    ∃ t, s.retire first last = .ok t ∧ t.failure = s.failure ∧ t.chart = s.chart ∧
      InOrder size ((.settle, .unary first last) :: log)
        (⟨.unary first last, .finished⟩ :: rest) t := by
  obtain ⟨hadd, hnew⟩ : (Action.add, Job.unary first last) ∈ log ∧
      (Action.settle, Job.unary first last) ∉ log := h.orderly.follows _ (.head _)
  refine ⟨_, h.orderly.complete_unary rfl rfl, rfl, rfl, ?_, fun hf => ?_⟩
  · refine h.orderly.proceed (.settle, .unary first last) (some .finished) rfl (by simp) hnew hadd
      ?_ ?_ ?_ rfl (h.orderly.recorded.cons _ (by simp) (by simp))
    · rintro p ⟨⟩
      refine ⟨rfl, .head _, fun hm => hnew ?_⟩
      exact h.orderly.founded.settled_of_ended (by simpa using hm)
    · rintro p ⟨⟩
      exact .nil
    · rintro p ⟨⟩ j hj
      simp [Phase.promised] at hj
  · refine (h.live hf).proceed (.settle, .unary first last) (some .finished) (by simp) (by simp)
      (fun j hj => by simp [Phase.promised] at hj) fun j hj hnot => ?_
    exact absurd (hj.mem_needs hnot) settle_unary_not_needed

/-- A finished span is recorded where it ends, which makes due the splits with what starts there. -/
theorem recordEnd (h : InOrder size log (⟨job, .finished⟩ :: rest) s) :
    (s.recordEnd job.first job.last).1.failure = s.failure ∧
      (s.recordEnd job.first job.last).1.chart = s.chart ∧
      InOrder size ((.recordEnd, job) :: log)
        (⟨job, .recorded (s.recordEnd job.first job.last).2⟩ :: rest)
        (s.recordEnd job.first job.last).1 := by
  obtain ⟨hunary, hsettled, hnew⟩ : job.isUnary = true ∧ (Action.settle, job) ∈ log ∧
      (Action.recordEnd, job) ∉ log := h.orderly.follows _ (.head _)
  obtain ⟨first, last, rfl⟩ := Job.exists_unary hunary
  have hvalid := (h.orderly.founded.due_of_spawned (h.orderly.spawned (.head _))).valid
  obtain ⟨boundaries, hstate, hrecorded, hnodup, hfound⟩ :=
    Schedule.recordEnd_spec h.orderly.recorded hvalid.1 hnew
  simp only [Job.first, Job.last] at hvalid hstate hnodup hfound ⊢
  rw [hstate]
  refine ⟨rfl, rfl, ?_, fun hf => ?_⟩
  · refine h.orderly.proceed (.recordEnd, .unary first last) (some (.recorded _)) rfl (by simp) hnew
      ⟨rfl, hsettled⟩ ?_ ?_ ?_ ?_ hrecorded
    · rintro p ⟨⟩
      refine ⟨rfl, .head _, fun hm => hnew ?_⟩
      exact h.orderly.founded.ended_of_started (by simpa using hm)
    · rintro p ⟨⟩
      exact hnodup
    · rintro p ⟨⟩ j hj
      obtain ⟨r, _, hstarted, rfl⟩ := (hfound j).mp hj
      obtain ⟨hlt, hsize⟩ := (h.orderly.founded.due_of_spawned
        (h.orderly.founded.spawned_of_started hstarted)).valid
      have hdue := fun log => due_split_iff log hvalid.1 (Nat.lt_of_succ_le hlt) hsize
      exact .inr ⟨(hdue _).mpr ⟨.head _, .tail _ hstarted⟩, fun hold => hnew ((hdue _).mp hold).1⟩
    · rw [registryAfter_cons (by simp)]
      exact h.orderly.registry_eq
  · refine (h.live hf).proceed (.recordEnd, .unary first last) (some (.recorded _)) (by simp)
      (by simp)
      (fun j hj => by simp [Phase.promised] at hj) fun j hj hnot => ⟨_, rfl, ?_⟩
    obtain ⟨hle, r, rfl⟩ := exists_split_of_ended (hj.mem_needs hnot)
    have hlt : last < r := by have := hj.1; omega
    have hsize : r < size := hj.2.1
    have hstarted := ((due_split_iff _ hle hlt hsize).mp hj).2
    exact (hfound _).mpr ⟨r, by omega, by simpa using hstarted, rfl⟩

theorem recordStart {found : List Job} (h : InOrder size log (⟨job, .recorded found⟩ :: rest) s) :
    (s.recordStart job.first job.last).1.failure = s.failure ∧
      (s.recordStart job.first job.last).1.chart = s.chart ∧
      InOrder size ((.recordStart, job) :: log)
        (Orderly.goesOn ⟨job, .recorded found⟩
          (Phase.issue? (found ++ (s.recordStart job.first job.last).2)) ++ rest)
        (s.recordStart job.first job.last).1 := by
  obtain ⟨hunary, hended, hnew⟩ : job.isUnary = true ∧ (Action.recordEnd, job) ∈ log ∧
      (Action.recordStart, job) ∉ log := h.orderly.follows _ (.head _)
  obtain ⟨first, last, rfl⟩ := Job.exists_unary hunary
  have hvalid := (h.orderly.founded.due_of_spawned (h.orderly.spawned (.head _))).valid
  obtain ⟨boundaries, hstate, hrecorded, hnodup, hmore⟩ :=
    Schedule.recordStart_spec h.orderly.recorded hvalid.2 hvalid.1 hnew
  simp only [Job.first, Job.last] at hvalid hstate hnodup hmore ⊢
  rw [hstate]
  generalize (s.recordStart first last).2 = more at hnodup hmore ⊢
  have hdone : Done ((.recordStart, .unary first last) :: log) (.unary first last) :=
    ⟨.tail _ (h.orderly.founded.settled_of_ended hended), fun _ => .head _⟩
  have hissue : ∀ p ∈ Phase.issue? (S := S) (found ++ more), p = .issuing (found ++ more) :=
    fun p hp => (Phase.mem_issue?.mp hp).2
  -- the splits that are found now were not due before
  have hfresh : ∀ j ∈ more, Due size ((.recordStart, .unary first last) :: log) j ∧
      ¬ Due size log j := by
    intro j hj
    obtain ⟨f, hpos, hended, rfl⟩ := (hmore j).mp hj
    have hle : f ≤ first - 1 := (h.orderly.founded.due_of_spawned
      (h.orderly.founded.spawned_of_ended hended)).valid.1
    have hdue := fun log => due_split_iff log hle (by omega : first - 1 < last) hvalid.2
    rw [Nat.sub_add_cancel hpos] at hdue
    exact ⟨(hdue _).mpr ⟨.tail _ hended, .head _⟩, fun hold => hnew ((hdue _).mp hold).2⟩
  have hfound := h.orderly.promised _ (.head _)
  have hfoundNodup : found.Nodup := (List.nodup_append.mp h.orderly.promised_apart).1
  refine ⟨rfl, rfl, ?_, fun hf => ?_⟩
  · refine h.orderly.proceed (.recordStart, .unary first last) _ rfl (by simp) hnew hended
      ?_ ?_ ?_ ?_ hrecorded
    · intro p hp
      rw [hissue p hp]
      exact hdone
    · intro p hp
      rw [hissue p hp]
      refine List.nodup_append.mpr ⟨hfoundNodup, hnodup, fun j hj j' hj' he => ?_⟩
      exact (hfresh j' hj').2 (he ▸ (hfound j hj).1)
    · intro p hp j hj
      rw [hissue p hp] at hj
      rcases List.mem_append.mp hj with hj | hj
      · exact .inl hj
      · exact .inr (hfresh j hj)
    · rw [registryAfter_cons (by simp)]
      exact h.orderly.registry_eq
  · have hkept : ∀ j ∈ found ++ more, ∃ p ∈ Phase.issue? (S := S) (found ++ more),
        j ∈ p.promised := fun j hj =>
      ⟨_, Phase.mem_issue?.mpr ⟨List.ne_nil_of_mem hj, rfl⟩, hj⟩
    refine (h.live hf).proceed (.recordStart, .unary first last) _ (by simp) (fun _ => hdone)
      (fun j hj => hkept j (List.mem_append_left _ hj)) fun j hj hnot =>
        hkept j (List.mem_append_right _ ((hmore j).mpr ?_))
    obtain ⟨f, middle, rfl, hle, rfl⟩ := exists_split_of_started (hj.mem_needs hnot)
    have hended := ((due_split_iff _ hle hvalid.1 hvalid.2).mp hj).1
    exact ⟨f, Nat.succ_pos _, by simpa using hended, rfl⟩

theorem spawn {issued : Job} {jobs : List Job}
    (h : InOrder size log (⟨job, .issuing (issued :: jobs)⟩ :: rest) s) :
    InOrder size ((.spawn, issued) :: log)
      (⟨issued, .issued⟩ :: (Orderly.goesOn ⟨job, .issuing (issued :: jobs)⟩ (Phase.issue? jobs) ++
        rest)) s := by
  have horderly := h.orderly.issue rfl
  have hlive := fun hf => (h.live hf).issue rfl
  have hdone : Done log job := h.orderly.follows _ (.head _)
  cases jobs with
  | nil =>
    have hswap := List.Perm.swap (⟨job, .issuing []⟩ : Task S) ⟨issued, .issued⟩ rest
    refine ⟨(horderly.perm hswap).drop, fun hf => ?_⟩
    exact ((hlive hf).perm hswap).drop (hdone.cons _) rfl
  | cons j js => exact ⟨horderly, hlive⟩

end InOrder

theorem Schedule.moved_tasks_perm {i : Nat} {phase : Option (Phase S)} {issued : Option Job}
    (t : Schedule S) (h : s.tasks[i]? = some task) :
    (s.moved t i task phase issued).tasks.Perm
      ((issued.toList.map fun job => ⟨job, .issued⟩) ++
        (Orderly.goesOn task phase ++ s.tasks.eraseIdx i)) := by
  refine List.Perm.append_left _ ?_
  cases phase with
  | none => exact .refl _
  | some p => exact List.set_perm_cons_eraseIdx (List.getElem?_eq_some_iff.mp h).1 _

theorem Schedule.tasks_perm {i : Nat} (h : s.tasks[i]? = some task) :
    s.tasks.Perm (task :: s.tasks.eraseIdx i) := by
  obtain ⟨hlt, rfl⟩ := List.getElem?_eq_some_iff.mp h
  exact (List.getElem_cons_eraseIdx_perm hlt).symm

theorem InOrder.settle (h : InOrder size log (⟨job, .added⟩ :: rest) s) :
    ∃ t phase, s.complete job = .ok (t, phase) ∧ t.failure = s.failure ∧ t.chart = s.chart ∧
      InOrder size ((.settle, job) :: log) (Orderly.goesOn ⟨job, .added⟩ phase ++ rest) t := by
  cases job with
  | lexical first last =>
    obtain ⟨t, jobs, hresolve, hf, hc, ht⟩ := @settle_base _ _ _ _ _ first last .lexical h
    exact ⟨t, Phase.issue? jobs, by simp [Schedule.complete, hresolve]; rfl, hf, hc, ht⟩
  | split first last k =>
    obtain ⟨t, jobs, hresolve, hf, hc, ht⟩ := @settle_base _ _ _ _ _ first last (.split k) h
    exact ⟨t, Phase.issue? jobs, by simp [Schedule.complete, hresolve]; rfl, hf, hc, ht⟩
  | unary first last =>
    obtain ⟨t, hretire, hf, hc, ht⟩ := h.settle_unary
    exact ⟨t, some .finished, by simp [Schedule.complete, hretire]; rfl, hf, hc, ht⟩

theorem founded_spawns {spans : List (Nat × Nat)} (hn : spans.Nodup)
    (hvalid : ∀ x ∈ spans, x.1 ≤ x.2 ∧ x.2 < size) :
    Founded size (spans.map fun x => (.spawn, .lexical x.1 x.2)) := by
  induction spans with
  | nil => trivial
  | cons x spans ih =>
    obtain ⟨hx, hn⟩ := List.nodup_cons.mp hn
    refine ⟨fun hm => ?_, hvalid x (.head _), ih hn fun y hy => hvalid y (.tail _ hy)⟩
    obtain ⟨y, hy, he⟩ := List.mem_map.mp hm
    have hyx : y = x := by simpa [Prod.ext_iff] using he
    exact hx (hyx ▸ hy)

variable {ctx : Context S} {tr tr' : Trace S}

theorem Schedule.failure_of_new (h : Schedule.new ctx = .ok s) : s.failure = none := by
  obtain ⟨chart, _, h⟩ := bind_eq_ok.mp h
  obtain rfl := Except.ok.inj h
  rfl

theorem inOrder_new (h : Schedule.new ctx = .ok s) :
    InOrder ctx.size (Trace.start ctx.size s).log s.tasks s := by
  obtain ⟨chart, _, h⟩ := bind_eq_ok.mp h
  obtain rfl := Except.ok.inj h
  set spans := (spansByStart ctx.size).reverse
  have hnodup : spans.Nodup := List.nodup_reverse.mpr (nodup_spansByStart ctx.size)
  have hmem : ∀ x ∈ spans, x.1 ≤ x.2 ∧ x.2 < ctx.size := fun x hx =>
    mem_spansByStart_iff.mp (List.mem_reverse.mp hx)
  rw [← List.map_reverse]
  show InOrder ctx.size (spans.map fun x => (.spawn, .lexical x.1 x.2)) (spans.map fun x =>
    (⟨.lexical x.1 x.2, .issued⟩ : Task S)) _
  have hspawns : ∀ (action : Action) (job : Job), action ≠ .spawn →
      (action, job) ∉ spans.map fun x => (Action.spawn, Job.lexical x.1 x.2) := by
    intro action job hne hm
    obtain ⟨x, _, he⟩ := List.mem_map.mp hm
    exact hne (Prod.mk.inj he).1.symm
  constructor
  · refine ⟨founded_spawns hnodup hmem, ?_, ?_, ?_, ?_, ?_, ?_⟩
    · rw [List.map_map]
      refine hnodup.map fun x y hxy => ?_
      simpa [Prod.ext_iff] using hxy
    · intro task ht
      obtain ⟨x, hx, rfl⟩ := List.mem_map.mp ht
      exact ⟨List.mem_map.mpr ⟨x, hx, rfl⟩, hspawns _ _ (by simp)⟩
    · refine (List.flatMap_eq_nil_iff.mpr fun task ht => ?_) ▸ .nil
      obtain ⟨x, _, rfl⟩ := List.mem_map.mp ht
      rfl
    · intro task ht j hj
      obtain ⟨x, hx, rfl⟩ := List.mem_map.mp ht
      simp [Phase.promised] at hj
    · simp [registryAfter, pendingAfter, hspawns, Schedule.initialRegistry, allPending]
    · refine ⟨by simp, ?_, ?_, ?_⟩
      all_goals
        intro i b hb
        obtain ⟨_, rfl⟩ := Array.getElem?_eq_some_iff.mp hb
        simp [hspawns]
  · intro _
    refine ⟨fun j hj => ?_, fun j hj => ?_⟩
    · obtain ⟨x, hx, he⟩ := List.mem_map.mp hj
      exact .inl ⟨_, List.mem_map.mpr ⟨x, hx, rfl⟩, (Prod.mk.inj he).2⟩
    · cases j with
      | lexical first last =>
        refine .inl (List.mem_map.mpr ⟨(first, last), ?_, rfl⟩)
        exact List.mem_reverse.mpr (mem_spansByStart_iff.mpr hj)
      | split first last k => exact absurd hj.2.2.1 (hspawns _ _ (by simp))
      | unary first last => exact absurd hj.2.2.1 (hspawns _ _ (by simp))

variable [Scalar S]

/-- Each move of a task keeps the scheduler in order. -/
theorem Schedule.Acts.inOrder {t : Schedule S} {phase : Option (Phase S)} {issued : Option Job}
    (h : s.Acts ctx task t phase issued) (hs : InOrder size log (task :: rest) s) :
    t.failure = s.failure ∧
    InOrder size ((task.event? s.failure.isSome).toList ++ log)
      ((issued.toList.map fun job => ⟨job, .issued⟩) ++ (Orderly.goesOn task phase ++ rest)) t := by
  cases h with
  | skip hf =>
    rw [Task.event?, if_pos hf]
    exact ⟨rfl, hs.orderly.drop, fun hnone => by simp [hnone] at hf⟩
  | begin hf =>
    rw [Task.event?, hf]
    exact ⟨rfl, hs.begin⟩
  | compute _ => exact ⟨rfl, hs.compute⟩
  | add _ => exact ⟨rfl, hs.add.orderly, hs.add.live⟩
  | settle hcomplete =>
    obtain ⟨t, phase, hok, hf, _, ht⟩ := hs.settle
    obtain ⟨rfl, rfl⟩ := Prod.mk.inj (Except.ok.inj (hok.symm.trans hcomplete))
    exact ⟨hf, ht⟩
  | recordEnd => exact ⟨hs.recordEnd.1, hs.recordEnd.2.2⟩
  | recordStart => exact ⟨hs.recordStart.1, hs.recordStart.2.2⟩
  | idle =>
    have hdone : Done log _ := hs.orderly.follows _ (.head _)
    exact ⟨rfl, hs.orderly.drop, fun hf => (hs.live hf).drop hdone rfl⟩
  | spawn => exact ⟨rfl, hs.spawn⟩

namespace Trace

def InOrder (size : Nat) (tr : Trace S) : Prop :=
  Categorial.InOrder size tr.log tr.state.tasks tr.state

theorem Moves.inOrder (h : Moves ctx tr tr') (htr : tr.InOrder size) : tr'.InOrder size := by
  cases h with
  | @act i task t phase issued htask hacts =>
    obtain ⟨_, ht⟩ := hacts.inOrder (htr.perm (Schedule.tasks_perm htask))
    have hperm := ht.perm (Schedule.moved_tasks_perm t htask).symm
    exact ⟨hperm.orderly, hperm.live⟩
  | fault htask _ =>
    have hrest := htr.perm (Schedule.tasks_perm htask)
    refine ⟨hrest.orderly.drop, fun hnone => ?_⟩
    cases hf : tr.state.failure <;> simp [Schedule.failed, hf] at hnone

theorem InOrder.failure_eq {i : Nat} {t : Schedule S} {phase : Option (Phase S)}
    {issued : Option Job} (h : tr.InOrder size) (htask : tr.state.tasks[i]? = some task)
    (hacts : tr.state.Acts ctx task t phase issued) : t.failure = tr.state.failure :=
  (hacts.inOrder (h.perm (Schedule.tasks_perm htask))).1

theorem Reachable.move (h : Reachable ctx tr) (hm : Moves ctx tr tr') : Reachable ctx tr' := by
  obtain ⟨s, hnew, hmoves⟩ := h
  exact ⟨s, hnew, hmoves.tail hm⟩

@[elab_as_elim]
theorem Reachable.induct {motive : (tr : Trace S) → Reachable ctx tr → Prop}
    (start : ∀ s (hnew : Schedule.new ctx = .ok s),
      motive (Trace.start ctx.size s) ⟨s, hnew, .refl⟩)
    (move : ∀ tr tr' (hreach : Reachable ctx tr) (hmove : Moves ctx tr tr'),
      motive tr hreach → motive tr' (hreach.move hmove))
    (h : Reachable ctx tr) : motive tr h := by
  obtain ⟨s, hnew, hmoves⟩ := h
  induction hmoves with
  | refl => exact start s hnew
  | tail hsteps hmove ih => exact move _ _ ⟨s, hnew, hsteps⟩ hmove ih

theorem Reachable.inOrder (h : Reachable ctx tr) : tr.InOrder ctx.size := by
  induction h using Reachable.induct with
  | start s hnew => exact inOrder_new hnew
  | move tr tr' _ hmove ih => exact hmove.inOrder ih

/-- What a single worker does is one of the interleavings. -/
theorem Reachable.runOne (h : Reachable ctx tr) (fuel : Nat) :
    ∃ log, Reachable ctx ⟨log, tr.state.runOne ctx fuel⟩ := by
  induction fuel generalizing tr with
  | zero => exact ⟨tr.log, h⟩
  | succ fuel ih =>
    unfold Schedule.runOne
    split
    · exact ⟨tr.log, h⟩
    next t ht =>
      obtain ⟨log, hmove⟩ := moves_of_step ht
      exact ih (h.move hmove)

/-- A beam stays as it is once the unary job of its span has added its cells. -/
theorem Moves.beam?_eq (h : Moves ctx tr tr') (htr : tr.InOrder size) {first last : Nat}
    (hadd : (.add, .unary first last) ∈ tr.log) :
    tr'.state.chart.beam? first last = tr.state.chart.beam? first last := by
  have htr' := h.inOrder htr
  cases h with
  | @act i task t phase issued htask hacts =>
    have hs := htr.perm (Schedule.tasks_perm htask)
    show t.chart.beam? first last = _
    cases hacts with
    | skip _ => rfl
    | begin _ => rfl
    | compute _ => rfl
    | @add job cells pruned chart hchart =>
      obtain ⟨b, b', _, _, rfl⟩ := hchart
      have hvalid := (hs.orderly.founded.due_of_spawned (hs.orderly.spawned (.head _))).valid
      refine Chart.beam?_setBeam_ne hvalid.1 ?_
      -- a job of the span would have come too late
      obtain ⟨after, before, hlog⟩ := List.append_of_mem hadd
      have hfounded :
        Founded size (((.add, job) :: after) ++ (.add, .unary first last) :: before) := by
        rw [List.cons_append, ← hlog]
        exact htr'.orderly.founded
      exact (hfounded.none_after_unary job (.head _)).symm
    | settle hcomplete =>
      obtain ⟨t', phase', hok, _, hchart, _⟩ := hs.settle
      obtain ⟨rfl, rfl⟩ := Prod.mk.inj (Except.ok.inj (hok.symm.trans hcomplete))
      rw [hchart]
    | recordEnd => rw [hs.recordEnd.2.1]
    | recordStart => rw [hs.recordStart.2.1]
    | idle => rfl
    | spawn => rfl
  | fault _ _ => rfl

/-- What holds of a trace however the tasks took turns. -/
structure Safe (ctx : Context S) (tr : Trace S) : Prop where
  /-- No assertion of the registry fails. -/
  settles : ∀ job, ⟨job, .added⟩ ∈ tr.state.tasks → ∃ r, tr.state.complete job = .ok r
  /-- Each job is issued at most once. -/
  once : ∀ job, tr.log.count (.spawn, job) ≤ 1
  /-- A split waits for both halves to be complete. -/
  after_halves : ∀ later before first last k,
    tr.log = later ++ (.compute, .split first last k) :: before →
    (.add, .unary first (first + k)) ∈ before ∧ (.add, .unary (first + k + 1) last) ∈ before
  /-- The unary rules wait for all other jobs of the span. -/
  after_parts : ∀ later before first last,
    tr.log = later ++ (.compute, .unary first last) :: before →
    (.add, .lexical first last) ∈ before ∧ ∀ k < last - first, (.add, .split first last k) ∈ before
  /-- Nothing is added to a span after the cells of its unary rules. -/
  closed : ∀ later before first last,
    tr.log = later ++ (.add, .unary first last) :: before →
    ∀ job : Job, (.add, job) ∈ later → (job.first, job.last) ≠ (first, last)
  /-- So what a split reads does not change later. -/
  stays : ∀ first last tr', (.add, .unary first last) ∈ tr.log →
    Relation.ReflTransGen (Moves ctx) tr tr' →
    tr'.state.chart.beam? first last = tr.state.chart.beam? first last

theorem Reachable.stays (h : Reachable ctx tr) {first last : Nat}
    (hadd : (.add, .unary first last) ∈ tr.log) (hm : Relation.ReflTransGen (Moves ctx) tr tr') :
    (.add, .unary first last) ∈ tr'.log ∧ Reachable ctx tr' ∧
      tr'.state.chart.beam? first last = tr.state.chart.beam? first last := by
  induction hm with
  | refl => exact ⟨hadd, h, rfl⟩
  | tail _ hmove ih =>
    obtain ⟨hadd', hreach, hbeam⟩ := ih
    refine ⟨?_, hreach.move hmove, (hmove.beam?_eq hreach.inOrder hadd').trans hbeam⟩
    cases hmove with
    | act _ _ => exact List.mem_append_right _ hadd'
    | fault _ _ => exact hadd'

/-- Every interleaving of the jobs of a sentence is safe. -/
theorem Reachable.safe (h : Reachable ctx tr) : Safe ctx tr where
  settles job hj := by
    obtain ⟨before, after, htasks⟩ := List.append_of_mem hj
    have hs := h.inOrder
    rw [InOrder, htasks] at hs
    obtain ⟨t, phase, hok, _⟩ := (hs.perm List.perm_middle).settle
    exact ⟨_, hok⟩
  once job := List.nodup_iff_count_le_one.mp h.inOrder.orderly.founded.nodup _
  after_halves later before first last k hlog :=
    (hlog ▸ h.inOrder.orderly.founded).halves_of_split
  after_parts later before first last hlog := (hlog ▸ h.inOrder.orderly.founded).parts_of_unary
  closed later before first last hlog := (hlog ▸ h.inOrder.orderly.founded).none_after_unary
  stays first last tr' hadd hm := (h.stays hadd hm).2.2

/-- A sentence of two tokens, parsed by a grammar that knows no words. -/
noncomputable def blank : Context LogReal :=
  ⟨.default, ["two", "words"], Grammar.default.chartConfig 1, ⟨fun _ => .empty, fun _ => .ofReal 0,
    .ofLexicon .empty⟩, .ofLexicon .empty, none⟩

theorem Reachable.safe_blank :
    ∃ s log, Schedule.new blank = .ok s ∧ Reachable blank ⟨log, s.runOne blank 100⟩ ∧
      Safe blank ⟨log, s.runOne blank 100⟩ := by
  obtain ⟨s, hs⟩ : ∃ s, Schedule.new blank = .ok s := ⟨_, rfl⟩
  obtain ⟨log, hlog⟩ := Reachable.runOne ⟨s, hs, .refl⟩ 100
  exact ⟨s, log, hs, hlog, Reachable.safe hlog⟩

end Trace

end Categorial
