import Categorial.Proofs.Parser.Registry

/-! # The invariant of the scheduler

No job is issued twice or before it is due, and each task has come as far as the log says. While
nothing has failed, every job that was issued is in the hands of a task or done, and every job that
is due has been issued or is about to be.
-/

namespace Categorial

variable {S : Type}

/-- The span of a job has been told of all that it did. -/
def Done (log : List Event) (job : Job) : Prop :=
  (.settle, job) ∈ log ∧ (job.isUnary = true → (.recordStart, job) ∈ log)

def Phase.Follows (log : List Event) (job : Job) : Phase S → Prop
  | issued => (.spawn, job) ∈ log ∧ (.begin, job) ∉ log
  | begun => (.begin, job) ∈ log ∧ (.compute, job) ∉ log
  | computed .. => (.compute, job) ∈ log ∧ (.add, job) ∉ log
  | added => (.add, job) ∈ log ∧ (.settle, job) ∉ log
  | finished => job.isUnary = true ∧ (.settle, job) ∈ log ∧ (.recordEnd, job) ∉ log
  | recorded _ => job.isUnary = true ∧ (.recordEnd, job) ∈ log ∧ (.recordStart, job) ∉ log
  | issuing _ => Done log job

/-- The tasks, the registry and the boundaries are as the log says. -/
structure Orderly (size : Nat) (log : List Event) (tasks : List (Task S))
    (registry : List Waiting) (boundaries : Array Boundary) : Prop where
  founded : Founded size log
  apart : (tasks.map (·.job)).Nodup
  follows : ∀ task ∈ tasks, task.phase.Follows log task.job
  promised_apart : (tasks.flatMap (·.phase.promised)).Nodup
  promised : ∀ task ∈ tasks, ∀ job ∈ task.phase.promised,
    Due size log job ∧ (.spawn, job) ∉ log
  registry_eq : registry = registryAfter size log
  recorded : Recorded size log boundaries

structure Live (size : Nat) (log : List Event) (tasks : List (Task S)) : Prop where
  working : ∀ job, (.spawn, job) ∈ log → (∃ task ∈ tasks, task.job = job) ∨ Done log job
  promising : ∀ job, Due size log job →
    (.spawn, job) ∈ log ∨ ∃ task ∈ tasks, job ∈ task.phase.promised

variable {size : Nat} {log : List Event} {tasks tasks' rest : List (Task S)} {task : Task S}
  {registry registry' : List Waiting} {boundaries boundaries' : Array Boundary} {event : Event}
  {job : Job}

theorem Done.cons (h : Done log job) (event : Event) : Done (event :: log) job :=
  ⟨.tail _ h.1, fun hu => .tail _ (h.2 hu)⟩

theorem Phase.Follows.cons {phase : Phase S} (h : phase.Follows log job)
    (hne : event.2 ≠ job ∨ event.1 = .spawn) : phase.Follows (event :: log) job := by
  have hother : ∀ action, action ≠ .spawn → (action, job) ∉ log → (action, job) ∉ event :: log := by
    intro action ha hnot hmem
    rcases List.mem_cons.mp hmem with rfl | hmem
    · exact hne.elim (fun hj => hj rfl) ha
    · exact hnot hmem
  cases phase with
  | issued => exact ⟨.tail _ h.1, hother _ (by decide) h.2⟩
  | begun => exact ⟨.tail _ h.1, hother _ (by decide) h.2⟩
  | computed cells pruned => exact ⟨.tail _ h.1, hother _ (by decide) h.2⟩
  | added => exact ⟨.tail _ h.1, hother _ (by decide) h.2⟩
  | finished => exact ⟨h.1, .tail _ h.2.1, hother _ (by decide) h.2.2⟩
  | recorded found => exact ⟨h.1, .tail _ h.2.1, hother _ (by decide) h.2.2⟩
  | issuing jobs => exact Done.cons h event

namespace Orderly

theorem perm (h : Orderly size log tasks registry boundaries) (hp : tasks.Perm tasks') :
    Orderly size log tasks' registry boundaries where
  founded := h.founded
  apart := (hp.map _).nodup_iff.mp h.apart
  follows task ht := h.follows task (hp.mem_iff.mpr ht)
  promised_apart := (hp.flatMap_right _).nodup_iff.mp h.promised_apart
  promised task ht := h.promised task (hp.mem_iff.mpr ht)
  registry_eq := h.registry_eq
  recorded := h.recorded

theorem drop (h : Orderly size log (task :: rest) registry boundaries) :
    Orderly size log rest registry boundaries where
  founded := h.founded
  apart := (List.nodup_cons.mp h.apart).2
  follows t ht := h.follows t (.tail _ ht)
  promised_apart := (List.nodup_append.mp h.promised_apart).2.1
  promised t ht := h.promised t (.tail _ ht)
  registry_eq := h.registry_eq
  recorded := h.recorded

theorem spawned (h : Orderly size log tasks registry boundaries) (ht : task ∈ tasks) :
    (.spawn, task.job) ∈ log := by
  have hf := h.follows task ht
  cases hp : task.phase with
  | issued => rw [hp] at hf; exact hf.1
  | begun => rw [hp] at hf; exact h.founded.spawned_of_begun hf.1
  | computed cells pruned => rw [hp] at hf; exact h.founded.spawned_of_computed hf.1
  | added => rw [hp] at hf; exact h.founded.spawned_of_added hf.1
  | finished => rw [hp] at hf; exact h.founded.spawned_of_settled hf.2.1
  | recorded found => rw [hp] at hf; exact h.founded.spawned_of_ended hf.2.1
  | issuing jobs => rw [hp] at hf; exact h.founded.spawned_of_settled hf.1

def goesOn (task : Task S) (phase : Option (Phase S)) : List (Task S) :=
  phase.toList.map fun phase => { task with phase }

/-- A task makes its next move. It may promise jobs that become due by this. -/
theorem proceed (h : Orderly size log (task :: rest) registry boundaries) (event : Event)
    (phase : Option (Phase S)) (hjob : event.2 = task.job) (hspawn : event.1 ≠ .spawn)
    (hfresh : event ∉ log)
    (hwarranted : Warranted size log event)
    (hfollows : ∀ p ∈ phase, p.Follows (event :: log) task.job)
    (hnodup : ∀ p ∈ phase, p.promised.Nodup)
    (hpromised : ∀ p ∈ phase, ∀ j ∈ p.promised,
      j ∈ task.phase.promised ∨ Due size (event :: log) j ∧ ¬ Due size log j)
    (hregistry : registry' = registryAfter size (event :: log))
    (hrecorded : Recorded size (event :: log) boundaries') :
    Orderly size (event :: log) (goesOn task phase ++ rest) registry' boundaries' := by
  have hrest := h.drop
  have hunspawned : ∀ j, (.spawn, j) ∈ event :: log → (.spawn, j) ∈ log := by
    intro j hj
    rcases List.mem_cons.mp hj with rfl | hj
    · exact absurd rfl hspawn
    · exact hj
  have hother : ∀ t ∈ rest, t.phase.Follows (event :: log) t.job := by
    intro t ht
    refine (hrest.follows t ht).cons (.inl fun he => (List.nodup_cons.mp h.apart).1 ?_)
    exact List.mem_map.mpr ⟨t, ht, (hjob.symm.trans he).symm⟩
  have hkept : ∀ t ∈ rest, ∀ j ∈ t.phase.promised,
      Due size (event :: log) j ∧ (.spawn, j) ∉ event :: log := by
    intro t ht j hj
    obtain ⟨hdue, hnot⟩ := hrest.promised t ht j hj
    exact ⟨hdue.mono (List.subset_cons_self _ _), fun hs => hnot (hunspawned j hs)⟩
  cases phase with
  | none =>
    exact ⟨⟨hfresh, hwarranted, h.founded⟩, hrest.apart, hother, hrest.promised_apart, hkept,
      hregistry, hrecorded⟩
  | some p =>
    refine ⟨⟨hfresh, hwarranted, h.founded⟩, h.apart, ?_, ?_, ?_, hregistry, hrecorded⟩
    · intro t ht
      rcases List.mem_cons.mp ht with rfl | ht
      · exact hfollows p rfl
      · exact hother t ht
    · show (p.promised ++ rest.flatMap (·.phase.promised)).Nodup
      obtain ⟨_, hn, hdisj⟩ := List.nodup_append.mp h.promised_apart
      refine List.nodup_append.mpr ⟨hnodup p rfl, hn, fun j hj j' hj' he => ?_⟩
      subst he
      rcases hpromised p rfl j hj with hold | ⟨_, hnew⟩
      · exact hdisj j hold j hj' rfl
      · -- what another task promised was due before
        obtain ⟨t, ht, hj'⟩ := List.mem_flatMap.mp hj'
        exact hnew (hrest.promised t ht j hj').1
    · intro t ht j hj
      rcases List.mem_cons.mp ht with rfl | ht
      · rcases hpromised p rfl j hj with hold | ⟨hdue, hnew⟩
        · obtain ⟨hdue, hnot⟩ := h.promised task (.head _) j hold
          exact ⟨hdue.mono (List.subset_cons_self _ _), fun hs => hnot (hunspawned j hs)⟩
        · exact ⟨hdue, fun hs => hnew (h.founded.due_of_spawned (hunspawned j hs))⟩
      · exact hkept t ht j hj

theorem issue {jobs : List Job} (h : Orderly size log (task :: rest) registry boundaries)
    (hphase : task.phase = .issuing (job :: jobs)) :
    Orderly size ((.spawn, job) :: log)
      (⟨job, .issued⟩ :: { task with phase := .issuing jobs } :: rest) registry boundaries := by
  have hhead : job ∈ task.phase.promised := by simp [hphase, Phase.promised]
  obtain ⟨hdue, hnot⟩ := h.promised task (.head _) job hhead
  have hnew : ∀ t ∈ task :: rest, t.job ≠ job := fun t ht he => hnot (he ▸ h.spawned ht)
  have hlater : ∀ j, Due size log j ∧ (.spawn, j) ∉ log → j ≠ job →
      Due size ((.spawn, job) :: log) j ∧ (.spawn, j) ∉ (Action.spawn, job) :: log := by
    rintro j ⟨hdue, hnot⟩ hne
    exact ⟨hdue.mono (List.subset_cons_self _ _), by simpa [hne] using hnot⟩
  have hpromised := h.promised_apart
  rw [List.flatMap_cons, hphase] at hpromised
  obtain ⟨hjob, hapart⟩ := List.nodup_cons.mp hpromised
  refine ⟨⟨hnot, hdue, h.founded⟩, ?_, ?_, hapart, ?_, ?_, ?_⟩
  · refine List.nodup_cons.mpr ⟨fun hm => ?_, h.apart⟩
    obtain ⟨t, ht, he⟩ := List.mem_map.mp hm
    rcases List.mem_cons.mp ht with rfl | ht
    · exact hnew task (.head _) he
    · exact hnew t (.tail _ ht) he
  · intro t ht
    rcases List.mem_cons.mp ht with rfl | ht
    · exact ⟨.head _, fun hm => hnot (h.founded.spawned_of_begun (by simpa using hm))⟩
    · rcases List.mem_cons.mp ht with rfl | ht
      · have hdone : Done log task.job := by
          have := h.follows task (.head _)
          rwa [hphase] at this
        exact hdone.cons _
      · exact (h.follows t (.tail _ ht)).cons (.inr rfl)
  · intro t ht j hj
    rcases List.mem_cons.mp ht with rfl | ht
    · simp [Phase.promised] at hj
    · have hmem : j ∈ jobs ++ rest.flatMap (·.phase.promised) := by
        rcases List.mem_cons.mp ht with rfl | ht
        · exact List.mem_append_left _ hj
        · exact List.mem_append_right _ (List.mem_flatMap.mpr ⟨t, ht, hj⟩)
      refine hlater j ?_ fun he => hjob (he ▸ hmem)
      rcases List.mem_cons.mp ht with rfl | ht
      · exact h.promised task (.head _) j (by simpa [hphase, Phase.promised] using .inr hj)
      · exact h.promised t (.tail _ ht) j hj
  · rw [registryAfter_cons (by simp)]
    exact h.registry_eq
  · exact h.recorded.cons _ (by simp) (by simp)

end Orderly

namespace Live

theorem perm (h : Live size log tasks) (hp : tasks.Perm tasks') : Live size log tasks' where
  working j hj := (h.working j hj).imp_left fun ⟨t, ht, he⟩ => ⟨t, hp.mem_iff.mp ht, he⟩
  promising j hj := (h.promising j hj).imp_right fun ⟨t, ht, he⟩ => ⟨t, hp.mem_iff.mp ht, he⟩

/-- A task that makes its next move loses no job. -/
theorem proceed (h : Live size log (task :: rest)) (event : Event) (phase : Option (Phase S))
    (hspawn : event.1 ≠ .spawn) (hdone : phase = none → Done (event :: log) task.job)
    (hkeeps : ∀ j ∈ task.phase.promised, ∃ p ∈ phase, j ∈ p.promised)
    (hnew : ∀ j, Due size (event :: log) j → ¬ Due size log j → ∃ p ∈ phase, j ∈ p.promised) :
    Live size (event :: log) (Orderly.goesOn task phase ++ rest) where
  working j hj := by
    rcases List.mem_cons.mp hj with rfl | hj
    · exact absurd rfl hspawn
    · rcases h.working j hj with ⟨t, ht, rfl⟩ | hd
      · rcases List.mem_cons.mp ht with rfl | ht
        · cases phase with
          | none => exact .inr (hdone rfl)
          | some p => exact .inl ⟨_, .head _, rfl⟩
        · exact .inl ⟨t, List.mem_append_right _ ht, rfl⟩
      · exact .inr (hd.cons event)
  promising j hj := by
    have hfound : (∃ p ∈ phase, j ∈ p.promised) →
        ∃ t ∈ Orderly.goesOn task phase ++ rest, j ∈ t.phase.promised := by
      rintro ⟨p, rfl, hjp⟩
      exact ⟨_, .head _, hjp⟩
    by_cases hold : Due size log j
    · rcases h.promising j hold with hs | ⟨t, ht, hjt⟩
      · exact .inl (.tail _ hs)
      · rcases List.mem_cons.mp ht with rfl | ht
        · exact .inr (hfound (hkeeps j hjt))
        · exact .inr ⟨t, List.mem_append_right _ ht, hjt⟩
    · exact .inr (hfound (hnew j hj hold))

theorem issue {jobs : List Job} (h : Live size log (task :: rest))
    (hphase : task.phase = .issuing (job :: jobs)) :
    Live size ((.spawn, job) :: log)
      (⟨job, .issued⟩ :: { task with phase := .issuing jobs } :: rest) where
  working j hj := by
    rcases List.mem_cons.mp hj with he | hj
    · exact .inl ⟨_, .head _, (Prod.mk.inj he).2.symm⟩
    · rcases h.working j hj with ⟨t, ht, rfl⟩ | hd
      · rcases List.mem_cons.mp ht with rfl | ht
        · exact .inl ⟨_, .tail _ (.head _), rfl⟩
        · exact .inl ⟨t, .tail _ (.tail _ ht), rfl⟩
      · exact .inr (hd.cons _)
  promising j hj := by
    have hold : Due size log j := by
      by_contra hnot
      simpa using action_of_mem_needs (hj.mem_needs hnot)
    rcases h.promising j hold with hs | ⟨t, ht, hjt⟩
    · exact .inl (.tail _ hs)
    · rcases List.mem_cons.mp ht with rfl | ht
      · rw [hphase] at hjt
        rcases List.mem_cons.mp hjt with rfl | hjt
        · exact .inl (.head _)
        · exact .inr ⟨_, .tail _ (.head _), hjt⟩
      · exact .inr ⟨t, .tail _ (.tail _ ht), hjt⟩

theorem drop (h : Live size log (task :: rest)) (hdone : Done log task.job)
    (hnil : task.phase.promised = []) : Live size log rest where
  working j hj := by
    rcases h.working j hj with ⟨t, ht, rfl⟩ | hd
    · rcases List.mem_cons.mp ht with rfl | ht
      · exact .inr hdone
      · exact .inl ⟨t, ht, rfl⟩
    · exact .inr hd
  promising j hj := by
    rcases h.promising j hj with hs | ⟨t, ht, hjt⟩
    · exact .inl hs
    · rcases List.mem_cons.mp ht with rfl | ht
      · simp [hnil] at hjt
      · exact .inr ⟨t, ht, hjt⟩

end Live

section Complete

variable {s : Schedule S} {first last : Nat} {pending : Pending}

theorem isUnary_job (first last : Nat) (pending : Pending) :
    (pending.job first last).isUnary = false := by
  cases pending <;> rfl

theorem eq_unary_of_mem_needs (h : (.settle, pending.job first last) ∈ job.needs) :
    job = .unary first last := by
  cases job with
  | lexical f l => simp [Job.needs] at h
  | split f l k => simp [Job.needs] at h
  | unary f l => cases pending <;> simp_all [Job.needs, Pending.job]

theorem settle_unary_not_needed : (.settle, .unary first last) ∉ job.needs := by
  cases job <;> simp [Job.needs]

theorem mem_allPending (h : Due size log (pending.job first last)) :
    pending ∈ allPending first last := by
  cases pending with
  | lexical => simp [allPending]
  | split k => simpa [allPending] using h.1

theorem mem_needs_unary (h : pending ∈ allPending first last) :
    (.settle, pending.job first last) ∈ (Job.unary first last).needs := by
  cases pending <;> simp_all [Job.needs, Pending.job, allPending]

theorem Orderly.complete_base (h : Orderly size log (task :: rest) s.registry s.boundaries)
    (hphase : task.phase = .added) (hjob : task.job = pending.job first last) :
    ∃ registry, s.resolve first last pending =
        .ok ({ s with registry },
          if (pendingAfter ((.settle, task.job) :: log) first last).isEmpty then
            [.unary first last] else []) ∧
      registry = registryAfter size ((.settle, task.job) :: log) := by
  have hf := h.follows task (.head _)
  rw [hphase] at hf
  have hdue := h.founded.due_of_spawned (h.spawned (.head _))
  obtain ⟨hle, hlt⟩ := hdue.valid
  rw [hjob, Pending.last_job] at hlt
  rw [hjob, Pending.first_job, Pending.last_job] at hle
  have hall := mem_allPending (hjob ▸ hdue)
  have hunary : (Action.settle, Job.unary first last) ∉ log := fun hm =>
    hf.2 (hjob ▸ (h.founded.due_of_spawned (h.founded.spawned_of_settled hm)).mem
      (mem_needs_unary hall))
  have hmem := mem_pendingAfter_iff.mpr ⟨hall, hjob ▸ hf.2⟩
  rw [hjob]
  exact ⟨_, Schedule.resolve_eq h.registry_eq hle hlt hunary hmem, rfl⟩

theorem Orderly.complete_unary (h : Orderly size log (task :: rest) s.registry s.boundaries)
    (hphase : task.phase = .added) (hjob : task.job = .unary first last) :
    s.retire first last =
      .ok { s with registry := registryAfter size ((.settle, task.job) :: log) } := by
  have hf := h.follows task (.head _)
  rw [hphase] at hf
  have hdue := h.founded.due_of_spawned (h.spawned (.head _))
  rw [hjob] at hdue hf ⊢
  exact Schedule.retire_eq h.registry_eq hdue.1 hdue.2.1 hf.2
    (pendingAfter_eq_nil_iff.mpr ⟨hdue.2.2.1, hdue.2.2.2⟩)

end Complete

end Categorial
