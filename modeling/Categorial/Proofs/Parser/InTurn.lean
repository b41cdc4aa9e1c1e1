import Categorial.Parser.Sequential
import Categorial.Proofs.Parser.Growth

/-! # One job after the other

In the order of a sequential parse each job comes after all that it awaits, so the chart of such a
parse has what all jobs of the sentence have handed over.
-/

namespace Categorial

theorem pairwise_spansByLength (size : Nat) :
    (spansByLength size).Pairwise fun x y => x ≠ y ∧ x.2 - x.1 ≤ y.2 - y.1 := by
  rw [spansByLength, List.pairwise_flatMap]
  constructor
  · intro extra _
    refine List.pairwise_map.mpr (List.pairwise_lt_range.imp fun {a b} hab => ⟨?_, by simp⟩)
    intro he
    exact absurd (Prod.mk.inj he).1 hab.ne
  · refine List.pairwise_lt_range.imp fun {a b} hab x hx y hy => ?_
    obtain ⟨f, _, rfl⟩ := List.mem_map.mp hx
    obtain ⟨f', _, rfl⟩ := List.mem_map.mp hy
    refine ⟨fun he => ?_, by simp only; omega⟩
    obtain ⟨rfl, h⟩ := Prod.mk.inj he
    omega

namespace Job

variable {span : Span} {size : Nat} {a b job : Job}

theorem mem_ofSpan_iff : job ∈ ofSpan span.first span.last ↔ job.Of span := by
  rw [Of, base_iff_mem_awaits, ofSpan, List.mem_append, List.mem_singleton]
  rfl

theorem mem_ofSentence_iff : job ∈ ofSentence size ↔ job.Within size := by
  rw [ofSentence, List.mem_flatMap]
  constructor
  · rintro ⟨⟨first, last⟩, hx, hjob⟩
    obtain ⟨hle, hlt⟩ := mem_spansByLength_iff.mp hx
    exact ⟨⟨first, last, size, hle, hlt⟩, rfl, mem_ofSpan_iff.mp hjob⟩
  · rintro ⟨span, rfl, hjob⟩
    exact ⟨(span.first, span.last),
      mem_spansByLength_iff.mpr ⟨span.first_le_last, span.last_lt_size⟩,
      mem_ofSpan_iff.mpr hjob⟩

theorem Of.awaits_bounds (h : a.Of span) (hb : b ∈ a.awaits) :
    (b.first, b.last) = (span.first, span.last) ∨ b.last - b.first < span.last - span.first := by
  rcases h with h | rfl
  · cases h with
    | lexical => simp [awaits] at hb
    | split hk =>
      unfold Span.numSplits at hk
      refine .inr ?_
      rcases List.mem_pair.mp hb with rfl | rfl
      · simp only [Job.first, Job.last]
        omega
      · simp only [Job.first, Job.last]
        omega
  · exact .inl (Of.bounds (.inl (base_iff_mem_awaits.mpr hb)))

theorem pairwise_ofSpan (span : Span) :
    (ofSpan span.first span.last).Pairwise fun a b => a ≠ b ∧ b ∉ a.awaits := by
  have hsplits : ∀ b ∈ (List.range (span.last - span.first)).map (split span.first span.last),
      ∃ k < span.last - span.first, b = split span.first span.last k := by
    intro b hb
    obtain ⟨k, hk, rfl⟩ := List.mem_map.mp hb
    exact ⟨k, List.mem_range.mp hk, rfl⟩
  rw [ofSpan, List.cons_append, List.pairwise_cons, List.pairwise_append]
  refine ⟨fun b hb => ⟨?_, by simp [awaits]⟩, ?_, List.pairwise_singleton _ _, fun a ha b hb => ?_⟩
  · rintro rfl
    rcases List.mem_append.mp hb with hb | hb
    · obtain ⟨k, _, he⟩ := hsplits _ hb
      simp at he
    · simp at hb
  · refine List.pairwise_map.mpr (List.pairwise_lt_range.imp fun {a b} hab =>
      ⟨?_, by simp [awaits]⟩)
    simpa using hab.ne
  · obtain ⟨k, hk, rfl⟩ := hsplits a ha
    obtain rfl := List.mem_singleton.mp hb
    refine ⟨by simp, fun hm => ?_⟩
    rcases List.mem_pair.mp hm with he | he
    · have := (unary.inj he).2
      omega
    · have := (unary.inj he).1
      omega

/-- No job of a sentence comes twice or before one that it awaits. -/
theorem pairwise_ofSentence (size : Nat) :
    (ofSentence size).Pairwise fun a b => a ≠ b ∧ b ∉ a.awaits := by
  rw [ofSentence, List.pairwise_flatMap]
  constructor
  · rintro ⟨first, last⟩ hx
    obtain ⟨hle, hlt⟩ := mem_spansByLength_iff.mp hx
    exact pairwise_ofSpan ⟨first, last, size, hle, hlt⟩
  · refine (pairwise_spansByLength size).imp_of_mem fun {x y} hx hy hxy a ha b hb => ?_
    obtain ⟨hle, hlt⟩ := mem_spansByLength_iff.mp hx
    obtain ⟨hle', hlt'⟩ := mem_spansByLength_iff.mp hy
    have ha : a.Of ⟨x.1, x.2, size, hle, hlt⟩ := mem_ofSpan_iff.mp ha
    have hb : b.Of ⟨y.1, y.2, size, hle', hlt'⟩ := mem_ofSpan_iff.mp hb
    have hapart : (a.first, a.last) ≠ (b.first, b.last) := by
      rw [ha.bounds, hb.bounds]
      exact hxy.1
    refine ⟨fun he => hapart (by rw [he]), fun hm => ?_⟩
    obtain ⟨hf, hl⟩ := Prod.mk.inj hb.bounds
    rcases ha.awaits_bounds hm with he | hshort
    · exact hapart (ha.bounds.trans he.symm)
    · have := hxy.2
      simp only at hf hl hshort
      omega

theorem not_mem_awaits (job : Job) : job ∉ job.awaits := by
  cases job <;> simp [awaits]

theorem Within.of_awaits (h : a.Within size) (hb : b ∈ a.awaits) : b.Within size := by
  obtain ⟨span, hsize, hbase | rfl⟩ := h
  · cases hbase with
    | lexical => simp [awaits] at hb
    | split hk =>
      rcases List.mem_pair.mp hb with rfl | rfl
      · exact ⟨(span.split _ hk).1, hsize, .inr rfl⟩
      · exact ⟨(span.split _ hk).2, hsize, .inr rfl⟩
  · exact ⟨span, hsize, .inl (base_iff_mem_awaits.mpr hb)⟩

theorem ready_in_turn {before after : List Job} (h : ofSentence size = before ++ job :: after) :
    Ready size {j | j ∈ before} job ∧ job ∉ before := by
  have hpair := pairwise_ofSentence size
  have hwithin : job.Within size := mem_ofSentence_iff.mp (h ▸ List.mem_append_right _ (.head _))
  rw [h, List.pairwise_append, List.pairwise_cons] at hpair
  obtain ⟨_, ⟨hafter, _⟩, hbefore⟩ := hpair
  refine ⟨⟨hwithin, fun j hj => ?_⟩, fun hm => (hbefore job hm job (.head _)).1 rfl⟩
  have hmem : j ∈ before ++ job :: after := h ▸ mem_ofSentence_iff.mpr (hwithin.of_awaits hj)
  rcases List.mem_append.mp hmem with hm | hm
  · exact hm
  · rcases List.mem_cons.mp hm with rfl | hm
    · exact absurd hj (not_mem_awaits _)
    · exact absurd hj (hafter j hm).2

end Job

namespace Context

theorem setOf_mem_append (before : List Job) (job : Job) :
    {j | j ∈ before ++ [job]} = insert job {j | j ∈ before} := by
  ext j
  simp [or_comm]

section Filled

variable {S : Type} [Scalar S] {ctx : Context S} {P : Chart S → Job → Prop} {chart chart' : Chart S}

theorem filled_nil (h : Chart.new ctx.tokens ctx.config = .ok chart) :
    Filled ctx P {j | j ∈ ([] : List Job)} chart := by
  simpa using Filled.new h

theorem filled_concat {before : List Job} {job : Job} (h : Filled ctx P {j | j ∈ before} chart)
    (hready : Ready ctx.size {j | j ∈ before} job) (hnew : job ∉ {j | j ∈ before})
    (hP : P chart job) (hrun : ctx.run chart job = .ok chart') :
    Filled ctx P {j | j ∈ before ++ [job]} chart' := by
  obtain ⟨⟨cells, pruned⟩, hcells, hadd⟩ := bind_eq_ok.mp hrun
  rw [setOf_mem_append]
  exact h.add hready hnew hP hcells (Chart.adds_of_addAll hadd)

theorem filled_of_run {before between after : List Job}
    (hjobs : Job.ofSentence ctx.size = before ++ (between ++ after))
    (h : Filled ctx P {j | j ∈ before} chart) (hrun : between.foldlM ctx.run chart = .ok chart')
    (hP : ∀ first job rest part, between = first ++ job :: rest →
      first.foldlM ctx.run chart = .ok part → P part job) :
    Filled ctx P {j | j ∈ before ++ between} chart' := by
  induction between generalizing before chart with
  | nil =>
    obtain rfl := Except.ok.inj hrun
    rwa [List.append_nil]
  | cons job between ih =>
    obtain ⟨hready, hnew⟩ := Job.ready_in_turn hjobs
    obtain ⟨next, hnext, hrest⟩ := foldlM_cons_eq_ok.mp hrun
    have hfilled := filled_concat h hready hnew (hP [] job between chart rfl rfl) hnext
    have hall := ih (by rw [hjobs, List.append_assoc]; rfl) hfilled hrest
      fun first j rest part he hpart =>
      hP (job :: first) j rest part (by rw [he]; rfl) (foldlM_cons_eq_ok.mpr ⟨next, hnext, hpart⟩)
    rwa [List.append_assoc] at hall

/-- A sequential parse does each job on a chart of a certain kind. -/
def RunsWhere (ctx : Context S) (P : Chart S → Job → Prop) : Prop :=
  ∀ before job after start part, Job.ofSentence ctx.size = before ++ job :: after →
    Chart.new ctx.tokens ctx.config = .ok start → before.foldlM ctx.run start = .ok part →
      P part job

theorem filled_of_parseSequentially (h : ctx.parseSequentially = .ok chart) (hP : ctx.RunsWhere P) :
    ∃ whole, Filled ctx P {j | j ∈ Job.ofSentence ctx.size} whole ∧ chart = whole.close := by
  obtain ⟨start, hstart, h⟩ := bind_eq_ok.mp h
  obtain ⟨whole, hwhole, h⟩ := bind_eq_ok.mp h
  have hjobs : Job.ofSentence ctx.size = [] ++ (Job.ofSentence ctx.size ++ []) :=
    (List.append_nil _).symm
  refine ⟨whole, ?_, (Except.ok.inj h).symm⟩
  exact filled_of_run hjobs (filled_nil hstart) hwhole fun first job rest part he =>
    hP first job rest start part he hstart

end Filled

variable {S : Type} [ExactScalar S] {ctx : Context S} {chart : Chart S}

/-- No job that is ready meets a fault, whatever was done before. -/
def Works (ctx : Context S) : Prop :=
  ∀ done chart job, Sound ctx done chart → Ready ctx.size done job → job ∉ done →
    ∃ r, ctx.cellsOf chart job = .ok r

theorem sound_of_parseSequentially (hctx : ctx.Regular) (h : ctx.parseSequentially = .ok chart) :
    ∃ whole, Sound ctx {j | j ∈ Job.ofSentence ctx.size} whole ∧ chart = whole.close := by
  have hany : ctx.RunsWhere fun _ _ => True := fun _ _ _ _ _ _ _ _ => trivial
  obtain ⟨whole, hwhole, rfl⟩ := filled_of_parseSequentially h hany
  exact ⟨whole, hwhole.sound hctx, rfl⟩

theorem exists_run (hctx : ctx.Regular) (hworks : ctx.Works) {before after : List Job}
    (hjobs : Job.ofSentence ctx.size = before ++ after) (h : Sound ctx {j | j ∈ before} chart) :
    ∃ chart', after.foldlM ctx.run chart = .ok chart' := by
  induction after generalizing before chart with
  | nil => exact ⟨chart, rfl⟩
  | cons job after ih =>
    obtain ⟨hready, hnew⟩ := Job.ready_in_turn hjobs
    obtain ⟨⟨cells, pruned⟩, hcells⟩ := hworks _ _ job h hready hnew
    obtain ⟨next, hnext⟩ := h.exists_addAll hctx hready hnew hcells
    have hsound : Sound ctx {j | j ∈ before ++ [job]} next := by
      rw [setOf_mem_append]
      exact h.add hctx hready hnew hcells (Chart.adds_of_addAll hnext)
    obtain ⟨chart', hrest⟩ := ih (by rw [hjobs, List.append_assoc]; rfl) hsound
    exact ⟨chart', foldlM_cons_eq_ok.mpr ⟨next, bind_eq_ok.mpr ⟨_, hcells, hnext⟩, hrest⟩⟩

/-- A sequential parse meets no fault if no job does when it is ready. -/
theorem exists_parseSequentially (hctx : ctx.Regular) (hworks : ctx.Works) :
    ∃ chart, ctx.parseSequentially = .ok chart := by
  have hnew := hctx.new_eq
  have hsound : Sound ctx {j | j ∈ ([] : List Job)} (.empty ctx.tokens ctx.config) := by
    simpa using sound_new hctx hnew
  obtain ⟨whole, hwhole⟩ := exists_run hctx hworks (List.nil_append _).symm hsound
  exact ⟨whole.close, bind_eq_ok.mpr ⟨_, hnew, bind_eq_ok.mpr ⟨whole, hwhole, rfl⟩⟩⟩

end Context

end Categorial
