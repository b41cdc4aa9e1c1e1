import Categorial.Proofs.Parser.History

/-! # The registry and the boundaries

The registry is determined by what has been settled: it has the spans that are not finished, each
with the jobs that are not settled. A boundary lists the finished spans that were recorded there.
-/

namespace Categorial

variable {S : Type}

def Pending.job (first last : Nat) : Pending → Job
  | lexical => .lexical first last
  | split k => .split first last k

def allPending (first last : Nat) : List Pending :=
  .lexical :: (List.range (last - first)).map .split

def pendingAfter (log : List Event) (first last : Nat) : List Pending :=
  (allPending first last).filter fun p => (Action.settle, p.job first last) ∉ log

/-- The registry after what has happened. -/
def registryAfter (size : Nat) (log : List Event) : List Waiting :=
  ((spansByStart size).filter fun x => (Action.settle, Job.unary x.1 x.2) ∉ log).map fun x =>
    ⟨x.1, x.2, pendingAfter log x.1 x.2⟩

variable {size : Nat} {log : List Event} {first last : Nat} {pending : Pending}

theorem Pending.job_inj {first' last' : Nat} {pending' : Pending}
    (h : pending.job first last = pending'.job first' last') :
    pending = pending' ∧ first = first' ∧ last = last' := by
  cases pending <;> cases pending' <;> simp_all [Pending.job]

@[simp]
theorem Pending.first_job : (pending.job first last).first = first := by
  cases pending <;> rfl

@[simp]
theorem Pending.last_job : (pending.job first last).last = last := by
  cases pending <;> rfl

theorem nodup_allPending (first last : Nat) : (allPending first last).Nodup := by
  refine List.nodup_cons.mpr ⟨by simp, List.nodup_range.map fun a b h => ?_⟩
  simpa using h

theorem pendingAfter_eq_nil_iff : pendingAfter log first last = [] ↔
    (Action.settle, Job.lexical first last) ∈ log ∧
      ∀ k < last - first, (Action.settle, Job.split first last k) ∈ log := by
  simp only [pendingAfter, List.filter_eq_nil_iff, decide_eq_true_eq, not_not]
  simp [allPending, Pending.job]

theorem mem_pendingAfter_iff : pending ∈ pendingAfter log first last ↔
    pending ∈ allPending first last ∧ (Action.settle, pending.job first last) ∉ log := by
  simp [pendingAfter]

theorem registryAfter_cons {event : Event} (h : event.1 ≠ .settle) :
    registryAfter size (event :: log) = registryAfter size log := by
  have hne : ∀ job, (Action.settle, job) ≠ event := fun job he => h (he ▸ rfl)
  simp [registryAfter, pendingAfter, hne]

theorem pendingAfter_settle :
    pendingAfter ((.settle, pending.job first last) :: log) first last =
      (pendingAfter log first last).erase pending := by
  have hnodup : (pendingAfter log first last).Nodup := (nodup_allPending first last).filter _
  rw [hnodup.erase_eq_filter, pendingAfter, pendingAfter, List.filter_filter]
  refine List.filter_congr fun p _ => ?_
  have heq : p.job first last = pending.job first last ↔ p = pending :=
    ⟨fun h => (Pending.job_inj h).1, fun h => h ▸ rfl⟩
  by_cases hp : p = pending
  · simp [hp]
  · simp [hp, heq]

theorem pendingAfter_settle_ne {first' last' : Nat} (h : (first', last') ≠ (first, last)) :
    pendingAfter ((.settle, pending.job first last) :: log) first' last' =
      pendingAfter log first' last' := by
  refine List.filter_congr fun p _ => ?_
  have hne : p.job first' last' ≠ pending.job first last := fun he =>
    h (Prod.ext_iff.mpr (Pending.job_inj he).2)
  simp [hne]

theorem pendingAfter_settle_unary {first' last' : Nat} :
    pendingAfter ((.settle, .unary first last) :: log) first' last' =
      pendingAfter log first' last' := by
  refine List.filter_congr fun p _ => ?_
  have hne : p.job first' last' ≠ .unary first last := by cases p <;> simp [Pending.job]
  simp [hne]

theorem registryAfter_settle :
    registryAfter size ((.settle, pending.job first last) :: log) =
      (registryAfter size log).map fun w =>
        if w.first = first ∧ w.last = last then
          { w with pending := (pendingAfter log first last).erase pending }
        else w := by
  have hne : ∀ f l, Job.unary f l ≠ pending.job first last := fun f l => by
    cases pending <;> simp [Pending.job]
  rw [registryAfter, registryAfter, List.map_map]
  have hspans : ((spansByStart size).filter fun x =>
      (Action.settle, Job.unary x.1 x.2) ∉ (Action.settle, pending.job first last) :: log) =
      (spansByStart size).filter fun x => (Action.settle, Job.unary x.1 x.2) ∉ log :=
    List.filter_congr fun x _ => by simp [hne]
  rw [hspans]
  refine List.map_congr_left fun x _ => ?_
  by_cases hx : x.1 = first ∧ x.2 = last
  · simp [hx, pendingAfter_settle]
  · have hx' : (x.1, x.2) ≠ (first, last) := fun he => hx (Prod.mk.inj he)
    simp [hx, pendingAfter_settle_ne hx']

theorem registryAfter_retire :
    registryAfter size ((.settle, .unary first last) :: log) =
      (registryAfter size log).filter fun w => !(w.first == first && w.last == last) := by
  rw [registryAfter, registryAfter, List.filter_map, List.filter_filter]
  have hpending : ∀ f l, pendingAfter ((.settle, .unary first last) :: log) f l =
      pendingAfter log f l := fun f l => pendingAfter_settle_unary
  simp only [hpending]
  refine congrArg _ (List.filter_congr fun x _ => ?_)
  rw [Bool.eq_iff_iff]
  simp [not_or, imp_iff_not_or]

theorem find?_registryAfter (hle : first ≤ last) (hlt : last < size)
    (hunary : (Action.settle, Job.unary first last) ∉ log) :
    ((registryAfter size log).find? fun w => w.first == first && w.last == last) =
      some ⟨first, last, pendingAfter log first last⟩ := by
  have hmem : (⟨first, last, pendingAfter log first last⟩ : Waiting) ∈ registryAfter size log := by
    refine List.mem_map.mpr ⟨(first, last), List.mem_filter.mpr ⟨?_, by simpa using hunary⟩, rfl⟩
    exact mem_spansByStart_iff.mpr ⟨hle, hlt⟩
  cases hfind : (registryAfter size log).find? fun w => w.first == first && w.last == last with
  | none => simpa using List.find?_eq_none.mp hfind _ hmem
  | some w =>
    -- the entry of a span is determined by the span
    have hspan := List.find?_some hfind
    obtain ⟨x, _, rfl⟩ := List.mem_map.mp (List.mem_of_find?_eq_some hfind)
    simp only [Bool.and_eq_true, beq_iff_eq] at hspan
    rw [hspan.1, hspan.2]

/-- What has been recorded at each boundary. -/
structure Recorded (size : Nat) (log : List Event) (boundaries : Array Boundary) : Prop where
  size_eq : boundaries.size = size - 1
  nodup : ∀ (i : Nat) (b : Boundary), boundaries[i]? = some b → b.ending.Nodup ∧ b.starting.Nodup
  ending_iff : ∀ (i : Nat) (b : Boundary), boundaries[i]? = some b →
    ∀ first, first ∈ b.ending ↔ (Action.recordEnd, Job.unary first i) ∈ log
  starting_iff : ∀ (i : Nat) (b : Boundary), boundaries[i]? = some b →
    ∀ last, last ∈ b.starting ↔ (Action.recordStart, Job.unary (i + 1) last) ∈ log

namespace Recorded

variable {boundaries : Array Boundary} {event : Event}

def Elsewhere (event : Event) (i : Nat) : Prop :=
  (∀ first, (Action.recordEnd, Job.unary first i) ≠ event) ∧
    ∀ last, (Action.recordStart, Job.unary (i + 1) last) ≠ event

theorem skip (h : Recorded size log boundaries)
    (hskip : ∀ (i : Nat) (b : Boundary), boundaries[i]? = some b → Elsewhere event i) :
    Recorded size (event :: log) boundaries where
  size_eq := h.size_eq
  nodup := h.nodup
  ending_iff i b hb f := by simp [(hskip i b hb).1 f, h.ending_iff i b hb]
  starting_iff i b hb l := by simp [(hskip i b hb).2 l, h.starting_iff i b hb]

theorem cons (h : Recorded size log boundaries) (event : Event) (he : event.1 ≠ .recordEnd)
    (hs : event.1 ≠ .recordStart) : Recorded size (event :: log) boundaries :=
  h.skip fun _ _ _ => ⟨fun _ heq => he (heq ▸ rfl), fun _ heq => hs (heq ▸ rfl)⟩

theorem set (h : Recorded size log boundaries) {i : Nat} {c : Boundary}
    (hnodup : c.ending.Nodup ∧ c.starting.Nodup)
    (hending : ∀ first, first ∈ c.ending ↔ (Action.recordEnd, Job.unary first i) ∈ event :: log)
    (hstarting : ∀ last,
      last ∈ c.starting ↔ (Action.recordStart, Job.unary (i + 1) last) ∈ event :: log)
    (hother : ∀ j ≠ i, Elsewhere event j) :
    Recorded size (event :: log) (boundaries.setIfInBounds i c) := by
  have hcases : ∀ (j : Nat) (b : Boundary), (boundaries.setIfInBounds i c)[j]? = some b →
      j = i ∧ b = c ∨ boundaries[j]? = some b ∧ Elsewhere event j := by
    intro j b hb
    rw [Array.getElem?_setIfInBounds] at hb
    split_ifs at hb with hj
    · exact .inl ⟨hj.symm, (Option.some.inj hb).symm⟩
    · exact .inr ⟨hb, hother j (Ne.symm hj)⟩
  refine ⟨by simp [h.size_eq], fun j b hb => ?_, fun j b hb f => ?_, fun j b hb l => ?_⟩
  · rcases hcases j b hb with ⟨rfl, rfl⟩ | ⟨hb, _⟩
    · exact hnodup
    · exact h.nodup j b hb
  · rcases hcases j b hb with ⟨rfl, rfl⟩ | ⟨hb, hskip⟩
    · exact hending f
    · simp [hskip.1 f, h.ending_iff j b hb]
  · rcases hcases j b hb with ⟨rfl, rfl⟩ | ⟨hb, hskip⟩
    · exact hstarting l
    · simp [hskip.2 l, h.starting_iff j b hb]

end Recorded

namespace Schedule

variable {s : Schedule S}

theorem resolve_eq (hreg : s.registry = registryAfter size log) (hle : first ≤ last)
    (hlt : last < size) (hunary : (Action.settle, Job.unary first last) ∉ log)
    (hmem : pending ∈ pendingAfter log first last) :
    s.resolve first last pending =
      .ok ({ s with
          registry := registryAfter size ((.settle, pending.job first last) :: log) },
        if (pendingAfter ((.settle, pending.job first last) :: log) first last).isEmpty then
          [.unary first last] else []) := by
  have hfind := find?_registryAfter hle hlt hunary
  simp only [resolve, waitingFor?, hreg, hfind, if_pos hmem, pendingAfter_settle,
    registryAfter_settle]

theorem retire_eq (hreg : s.registry = registryAfter size log) (hle : first ≤ last)
    (hlt : last < size) (hunary : (Action.settle, Job.unary first last) ∉ log)
    (hnil : pendingAfter log first last = []) :
    s.retire first last =
      .ok { s with registry := registryAfter size ((.settle, .unary first last) :: log) } := by
  have hfind := find?_registryAfter hle hlt hunary
  simp [retire, waitingFor?, hreg, hfind, hnil, registryAfter_retire]

/-- Recording a span where it ends finds the splits with all spans recorded to start there. -/
theorem recordEnd_spec (hrec : Recorded size log s.boundaries) (hle : first ≤ last)
    (hnew : (Action.recordEnd, Job.unary first last) ∉ log) :
    ∃ boundaries, (s.recordEnd first last).1 = { s with boundaries } ∧
      Recorded size ((.recordEnd, .unary first last) :: log) boundaries ∧
      (s.recordEnd first last).2.Nodup ∧
      ∀ job, job ∈ (s.recordEnd first last).2 ↔ ∃ rightLast, last < size - 1 ∧
        (Action.recordStart, Job.unary (last + 1) rightLast) ∈ log ∧
        job = .split first rightLast (last - first) := by
  cases hb : s.boundaries[last]? with
  | none =>
    have hge : size - 1 ≤ last := by
      rw [← hrec.size_eq]
      exact Array.getElem?_eq_none_iff.mp hb
    have hskip : ∀ (i : Nat) (b : Boundary), s.boundaries[i]? = some b →
        Recorded.Elsewhere (.recordEnd, .unary first last) i := by
      intro i b hi
      have hne : i ≠ last := by
        rintro rfl
        simp [hb] at hi
      exact ⟨by simp [hne], by simp⟩
    refine ⟨s.boundaries, by simp [recordEnd, hb], hrec.skip hskip, by simp [recordEnd, hb], ?_⟩
    intro job
    simp only [recordEnd, hb, List.not_mem_nil, false_iff, not_exists, not_and]
    intro r hr
    omega
  | some b =>
    have hlt : last < s.boundaries.size := (Array.getElem?_eq_some_iff.mp hb).1
    obtain ⟨hend, hstart⟩ := hrec.nodup _ _ hb
    have hfirst : first ∉ b.ending := fun hm => hnew ((hrec.ending_iff _ _ hb first).mp hm)
    refine ⟨s.boundaries.setIfInBounds last { b with ending := b.ending ++ [first] },
      by simp [recordEnd, hb], hrec.set ⟨?_, hstart⟩ (fun f => ?_) (fun l => ?_) (fun i hi => ?_),
      ?_, ?_⟩
    · simpa [List.nodup_append, hend] using fun a ha (he : a = first) => hfirst (he ▸ ha)
    · simp [hrec.ending_iff _ _ hb, or_comm]
    · simp [hrec.starting_iff _ _ hb]
    · exact ⟨by simp [hi], by simp⟩
    · simp only [recordEnd, hb]
      refine (hrec.nodup _ _ hb).2.map fun a a' h => ?_
      exact (Job.split.inj h).2.1
    · intro job
      simp only [recordEnd, hb, List.mem_map, hrec.starting_iff _ _ hb]
      rw [hrec.size_eq] at hlt
      exact exists_congr fun r => by rw [and_iff_right hlt, eq_comm (a := job)]

theorem recordStart_spec (hrec : Recorded size log s.boundaries) (hlast : last < size)
    (hle : first ≤ last) (hnew : (Action.recordStart, Job.unary first last) ∉ log) :
    ∃ boundaries, (s.recordStart first last).1 = { s with boundaries } ∧
      Recorded size ((.recordStart, .unary first last) :: log) boundaries ∧
      (s.recordStart first last).2.Nodup ∧
      ∀ job, job ∈ (s.recordStart first last).2 ↔ ∃ leftFirst, 0 < first ∧
        (Action.recordEnd, Job.unary leftFirst (first - 1)) ∈ log ∧
        job = .split leftFirst last (first - 1 - leftFirst) := by
  by_cases hzero : first = 0
  · subst hzero
    refine ⟨s.boundaries, by simp [recordStart], hrec.skip fun i b _ => ⟨by simp, by simp⟩, ?_, ?_⟩
    · simp [recordStart]
    · simp [recordStart]
  · have hpos : first - 1 + 1 = first := Nat.sub_add_cancel (Nat.pos_of_ne_zero hzero)
    have hlt : first - 1 < s.boundaries.size := by
      rw [hrec.size_eq]
      omega
    obtain ⟨b, hb⟩ : ∃ b, s.boundaries[first - 1]? = some b :=
      ⟨_, Array.getElem?_eq_getElem hlt⟩
    obtain ⟨hend, hstart⟩ := hrec.nodup _ _ hb
    have hstarting := hrec.starting_iff _ _ hb
    rw [hpos] at hstarting
    have hlast' : last ∉ b.starting := fun hm => hnew ((hstarting last).mp hm)
    refine ⟨s.boundaries.setIfInBounds (first - 1) { b with starting := b.starting ++ [last] },
      by simp [recordStart, hzero, hb],
      hrec.set ⟨hend, ?_⟩ (fun f => ?_) (fun l => ?_) (fun i hi => ?_), ?_, ?_⟩
    · simpa [List.nodup_append, hstart] using fun a ha (he : a = last) => hlast' (he ▸ ha)
    · simp [hrec.ending_iff _ _ hb]
    · simp [hstarting, hpos, or_comm]
    · have hi' : i + 1 ≠ first := by omega
      exact ⟨by simp, by simp [hi']⟩
    · simp only [recordStart, hzero, if_false, hb]
      refine (hrec.nodup _ _ hb).1.map fun a a' h => ?_
      exact (Job.split.inj h).1
    · intro job
      simp only [recordStart, hzero, if_false, hb, List.mem_map, hrec.ending_iff _ _ hb]
      exact exists_congr fun f => by
        rw [and_iff_right (Nat.pos_of_ne_zero hzero), eq_comm (a := job)]

end Schedule

end Categorial
