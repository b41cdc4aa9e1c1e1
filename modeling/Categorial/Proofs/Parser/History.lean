import Categorial.Proofs.Parser.Trace

/-! # What has to happen first

A job becomes due when what it builds on is finished: a split when its left half has been recorded
where it ends and its right half where it starts, and the unary rules when all other jobs of the
span are settled. In a founded log everything happened once and when it was due.
-/

namespace Categorial

def Job.isUnary : Job → Bool
  | unary .. => true
  | _ => false

/-- What has to happen before a job is issued. -/
def Job.needs : Job → List Event
  | lexical .. => []
  | split first last k =>
    [(.recordEnd, unary first (first + k)), (.recordStart, unary (first + k + 1) last)]
  | unary first last =>
    (.settle, lexical first last) ::
      (List.range (last - first)).map fun k => (.settle, split first last k)

def Due (size : Nat) (log : List Event) : Job → Prop
  | .lexical first last => first ≤ last ∧ last < size
  | .split first last k => k < last - first ∧ last < size ∧
    (.recordEnd, .unary first (first + k)) ∈ log ∧ (.recordStart, .unary (first + k + 1) last) ∈ log
  | .unary first last => first ≤ last ∧ last < size ∧ (.settle, .lexical first last) ∈ log ∧
    ∀ k < last - first, (.settle, .split first last k) ∈ log

def Warranted (size : Nat) (log : List Event) : Event → Prop
  | (.spawn, job) => Due size log job
  | (.begin, job) => (.spawn, job) ∈ log
  | (.compute, job) => (.begin, job) ∈ log
  | (.add, job) => (.compute, job) ∈ log
  | (.settle, job) => (.add, job) ∈ log
  | (.recordEnd, job) => job.isUnary = true ∧ (.settle, job) ∈ log
  | (.recordStart, job) => (.recordEnd, job) ∈ log

/-- Everything happened once and when it was due. -/
def Founded (size : Nat) : List Event → Prop
  | [] => True
  | event :: log => event ∉ log ∧ Warranted size log event ∧ Founded size log

variable {size : Nat} {log later : List Event} {job : Job}

theorem Due.mono (h : Due size log job) (hsub : log ⊆ later) : Due size later job := by
  cases job with
  | lexical first last => exact h
  | split first last k => exact ⟨h.1, h.2.1, hsub h.2.2.1, hsub h.2.2.2⟩
  | unary first last => exact ⟨h.1, h.2.1, hsub h.2.2.1, fun k hk => hsub (h.2.2.2 k hk)⟩

theorem Due.valid (h : Due size log job) : job.first ≤ job.last ∧ job.last < size := by
  cases job with
  | lexical first last => exact h
  | split first last k => exact ⟨by have := h.1; simp only [Job.first, Job.last]; omega, h.2.1⟩
  | unary first last => exact ⟨h.1, h.2.1⟩

theorem Due.mem (h : Due size log job) {event : Event} (he : event ∈ job.needs) : event ∈ log := by
  cases job with
  | lexical first last => simp [Job.needs] at he
  | split first last k =>
    rcases List.mem_pair.mp he with rfl | rfl
    · exact h.2.2.1
    · exact h.2.2.2
  | unary first last =>
    rcases List.mem_cons.mp he with rfl | he
    · exact h.2.2.1
    · obtain ⟨k, hk, rfl⟩ := List.mem_map.mp he
      exact h.2.2.2 k (List.mem_range.mp hk)

theorem Due.mem_needs {event : Event} (h : Due size (event :: log) job)
    (hnot : ¬ Due size log job) :
    event ∈ job.needs := by
  by_contra hout
  refine hnot ?_
  have hold : ∀ e ∈ job.needs, e ∈ log := fun e he =>
    (List.mem_cons.mp (h.mem he)).resolve_left fun heq => hout (heq ▸ he)
  cases job with
  | lexical first last => exact h
  | split first last k =>
    exact ⟨h.1, h.2.1, hold _ (.head _), hold _ (.tail _ (.head _))⟩
  | unary first last =>
    refine ⟨h.1, h.2.1, hold _ (.head _), fun k hk => hold _ (.tail _ ?_)⟩
    exact List.mem_map.mpr ⟨k, List.mem_range.mpr hk, rfl⟩

theorem action_of_mem_needs {event : Event} (h : event ∈ job.needs) :
    event.1 = .settle ∨ event.1 = .recordEnd ∨ event.1 = .recordStart := by
  cases job with
  | lexical first last => simp [Job.needs] at h
  | split first last k => rcases List.mem_pair.mp h with rfl | rfl <;> simp
  | unary first last =>
    rcases List.mem_cons.mp h with rfl | h
    · simp
    · obtain ⟨k, _, rfl⟩ := List.mem_map.mp h
      simp

/-- A split is due once its left half is recorded where it ends, and its right half where it
starts. -/
theorem due_split_iff (log : List Event) {first middle last : Nat} (hle : first ≤ middle)
    (hlt : middle < last) (hlast : last < size) :
    Due size log (.split first last (middle - first)) ↔
      (.recordEnd, .unary first middle) ∈ log ∧ (.recordStart, .unary (middle + 1) last) ∈ log := by
  rw [Due, Nat.add_sub_cancel' hle, and_iff_right (Nat.sub_lt_sub_right hle hlt),
    and_iff_right hlast]

theorem exists_split_of_ended {first middle : Nat}
    (h : (.recordEnd, .unary first middle) ∈ job.needs) :
    first ≤ middle ∧ ∃ last, job = .split first last (middle - first) := by
  cases job with
  | lexical f l => simp [Job.needs] at h
  | unary f l => simp [Job.needs] at h
  | split f l k =>
    obtain ⟨rfl, rfl⟩ : first = f ∧ middle = f + k := by simpa [Job.needs] using h
    exact ⟨Nat.le_add_right _ _, l, by rw [Nat.add_sub_cancel_left]⟩

theorem exists_split_of_started {start last : Nat}
    (h : (.recordStart, .unary start last) ∈ job.needs) :
    ∃ first middle, start = middle + 1 ∧ first ≤ middle ∧
      job = .split first last (middle - first) := by
  cases job with
  | lexical f l => simp [Job.needs] at h
  | unary f l => simp [Job.needs] at h
  | split f l k =>
    obtain ⟨rfl, rfl⟩ : start = f + k + 1 ∧ last = l := by simpa [Job.needs] using h
    exact ⟨f, f + k, rfl, Nat.le_add_right _ _, by rw [Nat.add_sub_cancel_left]⟩

namespace Founded

theorem nodup (h : Founded size log) : log.Nodup := by
  induction log with
  | nil => exact .nil
  | cons e log ih => exact List.nodup_cons.mpr ⟨h.1, ih h.2.2⟩

theorem of_append {before : List Event} (h : Founded size (later ++ before)) :
    Founded size before := by
  induction later with
  | nil => exact h
  | cons e later ih => exact ih h.2.2

theorem warranted {before : List Event} {event : Event}
    (h : Founded size (later ++ event :: before)) : Warranted size before event :=
  h.of_append.2.1

theorem warranted_of_mem (h : Founded size log) {event : Event} (hm : event ∈ log) :
    ∃ before after, log = after ++ event :: before ∧ Warranted size before event := by
  obtain ⟨after, before, rfl⟩ := List.append_of_mem hm
  exact ⟨before, after, rfl, h.warranted⟩

theorem spawned_of_begun (h : Founded size log) (hm : (.begin, job) ∈ log) :
    (.spawn, job) ∈ log := by
  obtain ⟨before, after, rfl, hw⟩ := h.warranted_of_mem hm
  exact List.mem_append_right _ (.tail _ hw)

theorem begun_of_computed (h : Founded size log) (hm : (.compute, job) ∈ log) :
    (.begin, job) ∈ log := by
  obtain ⟨before, after, rfl, hw⟩ := h.warranted_of_mem hm
  exact List.mem_append_right _ (.tail _ hw)

theorem computed_of_added (h : Founded size log) (hm : (.add, job) ∈ log) :
    (.compute, job) ∈ log := by
  obtain ⟨before, after, rfl, hw⟩ := h.warranted_of_mem hm
  exact List.mem_append_right _ (.tail _ hw)

theorem added_of_settled (h : Founded size log) (hm : (.settle, job) ∈ log) :
    (.add, job) ∈ log := by
  obtain ⟨before, after, rfl, hw⟩ := h.warranted_of_mem hm
  exact List.mem_append_right _ (.tail _ hw)

theorem settled_of_ended (h : Founded size log) (hm : (.recordEnd, job) ∈ log) :
    (.settle, job) ∈ log := by
  obtain ⟨before, after, rfl, hw⟩ := h.warranted_of_mem hm
  exact List.mem_append_right _ (.tail _ hw.2)

theorem ended_of_started (h : Founded size log) (hm : (.recordStart, job) ∈ log) :
    (.recordEnd, job) ∈ log := by
  obtain ⟨before, after, rfl, hw⟩ := h.warranted_of_mem hm
  exact List.mem_append_right _ (.tail _ hw)

theorem due_of_spawned (h : Founded size log) (hm : (.spawn, job) ∈ log) : Due size log job := by
  obtain ⟨before, after, rfl, hw⟩ := h.warranted_of_mem hm
  exact hw.mono fun _ he => List.mem_append_right _ (.tail _ he)

theorem spawned_of_computed (h : Founded size log) (hm : (.compute, job) ∈ log) :
    (.spawn, job) ∈ log :=
  h.spawned_of_begun (h.begun_of_computed hm)

theorem spawned_of_added (h : Founded size log) (hm : (.add, job) ∈ log) : (.spawn, job) ∈ log :=
  h.spawned_of_computed (h.computed_of_added hm)

theorem added_of_ended (h : Founded size log) (hm : (.recordEnd, job) ∈ log) :
    (.add, job) ∈ log :=
  h.added_of_settled (h.settled_of_ended hm)

theorem spawned_of_settled (h : Founded size log) (hm : (.settle, job) ∈ log) :
    (.spawn, job) ∈ log :=
  h.spawned_of_added (h.added_of_settled hm)

theorem spawned_of_ended (h : Founded size log) (hm : (.recordEnd, job) ∈ log) :
    (.spawn, job) ∈ log :=
  h.spawned_of_settled (h.settled_of_ended hm)

theorem spawned_of_started (h : Founded size log) (hm : (.recordStart, job) ∈ log) :
    (.spawn, job) ∈ log :=
  h.spawned_of_ended (h.ended_of_started hm)

theorem halves_of_split {before : List Event} {first last k : Nat}
    (h : Founded size (later ++ (.compute, .split first last k) :: before)) :
    (.add, .unary first (first + k)) ∈ before ∧ (.add, .unary (first + k + 1) last) ∈ before := by
  have hb : Founded size before := h.of_append.2.2
  obtain ⟨_, _, hleft, hright⟩ := hb.due_of_spawned (hb.spawned_of_begun h.warranted)
  exact ⟨hb.added_of_ended hleft, hb.added_of_ended (hb.ended_of_started hright)⟩

/-- The unary rules are applied only after all other jobs of the span have added their cells. -/
theorem parts_of_unary {before : List Event} {first last : Nat}
    (h : Founded size (later ++ (.compute, .unary first last) :: before)) :
    (.add, .lexical first last) ∈ before ∧
      ∀ k < last - first, (.add, .split first last k) ∈ before := by
  have hb : Founded size before := h.of_append.2.2
  obtain ⟨_, _, hlex, hsplits⟩ := hb.due_of_spawned (hb.spawned_of_begun h.warranted)
  exact ⟨hb.added_of_settled hlex, fun k hk => hb.added_of_settled (hsplits k hk)⟩

/-- Nothing is added to a span once the unary rules have added their cells. -/
theorem none_after_unary {before : List Event} {first last : Nat}
    (h : Founded size (later ++ (.add, .unary first last) :: before)) :
    ∀ j : Job, (.add, j) ∈ later → (j.first, j.last) ≠ (first, last) := by
  intro j hj hspan
  have hb : Founded size before := h.of_append.2.2
  have hcomputed : (.compute, .unary first last) ∈ before := h.warranted
  obtain ⟨_, _, hlex, hsplits⟩ := hb.due_of_spawned (hb.spawned_of_computed hcomputed)
  -- each job of the span has added its cells before, and that happens once
  have hsame : (.add, j) ∈ (.add, .unary first last) :: before := by
    obtain ⟨rfl, rfl⟩ := Prod.mk.inj hspan
    cases j with
    | lexical f l => exact .tail _ (hb.added_of_settled hlex)
    | unary f l => exact .head _
    | split f l k =>
      have hdue := h.due_of_spawned (h.spawned_of_added (List.mem_append_left _ hj))
      exact .tail _ (hb.added_of_settled (hsplits k hdue.1))
  exact List.disjoint_of_nodup_append h.nodup hj hsame

end Founded

end Categorial
