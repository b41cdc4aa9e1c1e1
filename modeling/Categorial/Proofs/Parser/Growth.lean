import Categorial.Proofs.Parser.Filling

/-! # How a chart grows

What a chart has at any time is said by the jobs that are done, whatever order they were done in. A
span that is not finished has what its jobs have handed over. Once it is finished, it also has what
the unary rules made of what was kept before.
-/

namespace Categorial

variable {S : Type} [ExactScalar S]

structure Beam.Suits (b : Beam S) (config : ChartConfig) : Prop where
  capacity : b.capacity = config.beam
  separateLexical : b.separateLexical = config.separateLexical

/-- What one of the finished jobs of a span has handed over is so. -/
def Supplied (ctx : Context S) (chart : Chart S) (done : Set Job) (span : Span)
    (φ : List (Cell S) × Bool → Prop) : Prop :=
  ∃ job, job.Base span ∧ job ∈ done ∧ ∃ r, ctx.cellsOf chart job = .ok r ∧ φ r

/-- The beam has the steps that the finished jobs of its span have handed over. -/
structure Collects (ctx : Context S) (chart : Chart S) (done : Set Job) (span : Span) (b : Beam S)
    (steps : List (PackedStep S)) : Prop where
  holds : b.Holds span steps
  suits : b.Suits ctx.config
  worked : ∀ job, job.Base span → job ∈ done → ∃ r, ctx.cellsOf chart job = .ok r
  mem_iff : ∀ p, p ∈ steps ↔ Supplied ctx chart done span fun r => p ∈ stepsOf r.1
  marked_iff : b.externallyPruned = true ↔ Supplied ctx chart done span fun r => r.2 = true

/-- The beam has the steps it had before and those of the unary rules. -/
structure Finishes (ctx : Context S) (span : Span) (before : Beam S) (steps : List (PackedStep S))
    (candidates cells : List (Cell S)) (pruned : Bool) (b : Beam S) : Prop where
  yields : yieldAll (ctx.unaryOf span) (before.cells.map (·.2)) = .ok candidates
  sieved : Sieved span candidates (ctx.batchCapacity (.unary span.first span.last)) cells pruned
  holds : b.Holds span (steps ++ stepsOf cells)
  suits : b.Suits ctx.config
  marked : b.externallyPruned = (before.externallyPruned || pruned)

/-- How far a span has come. -/
inductive Grown (ctx : Context S) (chart : Chart S) (done : Set Job) (span : Span) : Prop where
  | growing {b : Beam S} {steps : List (PackedStep S)} :
      .unary span.first span.last ∉ done → chart.beam? span.first span.last = some b →
      Collects ctx chart done span b steps → Grown ctx chart done span
  | finished {before b : Beam S} {steps : List (PackedStep S)} {candidates cells : List (Cell S)}
      {pruned : Bool} :
      .unary span.first span.last ∈ done → chart.beam? span.first span.last = some b →
      Collects ctx chart done span before steps →
      Finishes ctx span before steps candidates cells pruned b → Grown ctx chart done span

/-- The chart has what these jobs have handed over. -/
structure Sound (ctx : Context S) (done : Set Job) (chart : Chart S) : Prop where
  tokens : chart.tokens = ctx.tokens
  size : chart.beams.size = numSpans ctx.size
  closed : Closed ctx.size done
  spans : ∀ span : Span, span.size = ctx.size → Grown ctx chart done span

variable {ctx : Context S} {chart chart' : Chart S} {done done' : Set Job} {span : Span}
  {b : Beam S}
  {job : Job} {steps : List (PackedStep S)} {cells : List (Cell S)} {pruned : Bool}

theorem sound_new (hctx : ctx.Regular) (h : Chart.new ctx.tokens ctx.config = .ok chart) :
    Sound ctx ∅ chart := by
  obtain rfl := Chart.new_eq_ok h
  refine ⟨rfl, by simp [Chart.empty, Context.size], fun job hjob => hjob.elim, fun span hsize => ?_⟩
  have hbeam : (Chart.empty ctx.tokens ctx.config : Chart S).beam? span.first span.last =
      some (.empty ctx.config.beam ctx.config.order ctx.config.separateLexical) := by
    have hslot : slot span.first span.last < numSpans ctx.tokens.length :=
      (slot_lt_numSpans_iff span.first_le_last).mpr (lt_of_lt_of_eq span.last_lt_size hsize)
    simp [Chart.beam?, span.first_le_last, Chart.empty, hslot]
  have hcollects : Collects ctx (Chart.empty ctx.tokens ctx.config) ∅ span
      (.empty ctx.config.beam ctx.config.order ctx.config.separateLexical) [] := by
    refine ⟨?_, ⟨rfl, rfl⟩, by simp, by simp [Supplied], by simp [Supplied, Beam.empty]⟩
    rw [hctx.order]
    exact Beam.holds_empty _ _ _
  exact .growing (by simp) hbeam hcollects

theorem supplied_congr {φ : List (Cell S) × Bool → Prop}
    (hdone : ∀ job, job.Base span → (job ∈ done' ↔ job ∈ done))
    (hcells : ∀ job, job.Base span → job ∈ done →
      ctx.cellsOf chart' job = ctx.cellsOf chart job) :
    Supplied ctx chart' done' span φ ↔ Supplied ctx chart done span φ := by
  refine exists_congr fun job => and_congr_right fun hjob => ?_
  rw [hdone job hjob]
  refine and_congr_right fun hd => ?_
  rw [hcells job hjob hd]

theorem supplied_insert {φ : List (Cell S) × Bool → Prop} (hjob : job.Base span)
    (hcells : ctx.cellsOf chart job = .ok (cells, pruned)) :
    Supplied ctx chart (insert job done) span φ ↔
      Supplied ctx chart done span φ ∨ φ (cells, pruned) := by
  constructor
  · rintro ⟨j, hj, rfl | hd, r, hr, hφ⟩
    · obtain rfl := Except.ok.inj (hcells.symm.trans hr)
      exact .inr hφ
    · exact .inl ⟨j, hj, hd, r, hr, hφ⟩
  · rintro (⟨j, hj, hd, hr⟩ | hφ)
    · exact ⟨j, hj, .inr hd, hr⟩
    · exact ⟨job, hjob, .inl rfl, _, hcells, hφ⟩

namespace Collects

theorem faithful (h : Collects ctx chart done span b steps) (hctx : ctx.Regular)
    (hsize : span.size = ctx.size) {p : PackedStep S} (hp : p ∈ steps) :
    Faithful ctx chart span p := by
  obtain ⟨job, hjob, _, ⟨cells, pruned⟩, hr, hp⟩ := (h.mem_iff p).mp hp
  obtain ⟨candidates, _, hfresh, hsieved⟩ := sieved_of_base hctx hsize hjob hr
  exact hsieved.faithful hfresh hp

theorem congr (h : Collects ctx chart done span b steps)
    (hdone : ∀ job, job.Base span → (job ∈ done' ↔ job ∈ done))
    (hcells : ∀ job, job.Base span → job ∈ done →
      ctx.cellsOf chart' job = ctx.cellsOf chart job) :
    Collects ctx chart' done' span b steps where
  holds := h.holds
  suits := h.suits
  worked job hjob hd := by
    rw [hdone job hjob] at hd
    rw [hcells job hjob hd]
    exact h.worked job hjob hd
  mem_iff p := by rw [h.mem_iff, supplied_congr hdone hcells]
  marked_iff := by rw [h.marked_iff, supplied_congr hdone hcells]

theorem add {b' : Beam S} (h : Collects ctx chart done span b steps) (hjob : job.Base span)
    (hcells : ctx.cellsOf chart job = .ok (cells, pruned))
    (holds : b'.Holds span (steps ++ stepsOf cells)) (hsuits : b'.Suits ctx.config)
    (hmarked : b'.externallyPruned = (b.externallyPruned || pruned)) :
    Collects ctx chart (insert job done) span b' (steps ++ stepsOf cells) where
  holds := holds
  suits := hsuits
  worked j hj hd := by
    rcases hd with rfl | hd
    · exact ⟨_, hcells⟩
    · exact h.worked j hj hd
  mem_iff p := by rw [List.mem_append, h.mem_iff, supplied_insert hjob hcells]
  marked_iff := by rw [hmarked, Bool.or_eq_true, h.marked_iff, supplied_insert hjob hcells]

end Collects

theorem Beam.Holds.mem_of_kept (hb : b.Holds span steps) {c : Cell S} (hc : c ∈ b.cells.map (·.2))
    {p : PackedStep S} (hp : p ∈ c.steps) : p ∈ steps := by
  exact ((hb.stocks.packs c (Beam.mem_stock_of_kept hc)).mem_steps p).mp hp |>.1

theorem Collects.fresh {candidates : List (Cell S)} (h : Collects ctx chart done span b steps)
    (hctx : ctx.Regular) (hsize : span.size = ctx.size)
    (hyields : yieldAll (ctx.unaryOf span) (b.cells.map (·.2)) = .ok candidates) :
    ∀ c ∈ candidates, Fresh ctx chart span c := fun _ hc =>
  fresh_of_unaryOf (fun _ ha _ hp => h.faithful hctx hsize (h.holds.mem_of_kept ha hp)) hyields hc

theorem Grown.exists_beam (h : Grown ctx chart done span) (hctx : ctx.Regular)
    (hsize : span.size = ctx.size) :
    ∃ b steps, chart.beam? span.first span.last = some b ∧ b.Holds span steps ∧
      b.Suits ctx.config ∧ ∀ p ∈ steps, Faithful ctx chart span p := by
  cases h with
  | growing _ hbeam hcollects =>
    exact ⟨_, _, hbeam, hcollects.holds, hcollects.suits, fun p hp =>
      hcollects.faithful hctx hsize hp⟩
  | finished _ hbeam hcollects hfinishes =>
    refine ⟨_, _, hbeam, hfinishes.holds, hfinishes.suits, fun p hp => ?_⟩
    rcases List.mem_append.mp hp with hp | hp
    · exact hcollects.faithful hctx hsize hp
    · exact hfinishes.sieved.faithful (hcollects.fresh hctx hsize hfinishes.yields) hp

theorem Grown.congr (h : Grown ctx chart done span)
    (hbeam : chart'.beam? span.first span.last = chart.beam? span.first span.last)
    (hdone : ∀ job, job.Of span → (job ∈ done' ↔ job ∈ done))
    (hcells : ∀ job, job.Base span → job ∈ done →
      ctx.cellsOf chart' job = ctx.cellsOf chart job) : Grown ctx chart' done' span := by
  have hunary := hdone _ (.inr rfl)
  cases h with
  | growing hu hb hcollects =>
    exact .growing (mt hunary.mp hu) (hbeam.trans hb)
      (hcollects.congr (fun job hjob => hdone job (.inl hjob)) hcells)
  | finished hu hb hcollects hfinishes =>
    exact .finished (hunary.mpr hu) (hbeam.trans hb)
      (hcollects.congr (fun job hjob => hdone job (.inl hjob)) hcells) hfinishes

theorem Sound.fresh {candidates : List (Cell S)} (h : Sound ctx done chart) (hctx : ctx.Regular)
    (hsize : span.size = ctx.size) (hjob : job.Of span)
    (hnew : .unary span.first span.last ∉ done)
    (hcands : ctx.candidates chart job = .ok candidates) :
    ∃ b steps, chart.beam? span.first span.last = some b ∧ Collects ctx chart done span b steps ∧
      (∀ c ∈ candidates, Fresh ctx chart span c) ∧
      (job = .unary span.first span.last →
        yieldAll (ctx.unaryOf span) (b.cells.map (·.2)) = .ok candidates) := by
  cases h.spans span hsize with
  | finished hu => exact absurd hu hnew
  | @growing b steps _ hbeam hcollects =>
    rcases hjob with hjob | rfl
    · exact ⟨b, steps, hbeam, hcollects, fun c hc => fresh_of_base hsize hjob hcands hc,
        fun he => absurd he (hjob.ne_unary _ _)⟩
    · rw [Context.candidates_unary hsize] at hcands
      obtain ⟨b', hb', hyields⟩ := bind_eq_ok.mp hcands
      obtain rfl := Option.some.inj (hbeam.symm.trans (Chart.beam_eq_ok_iff.mp hb'))
      exact ⟨b, steps, hbeam, hcollects, hcollects.fresh hctx hsize hyields, fun _ => hyields⟩

theorem Sound.exists_sieved (h : Sound ctx done chart) (hctx : ctx.Regular)
    (hsize : span.size = ctx.size) (hjob : job.Of span)
    (hnew : .unary span.first span.last ∉ done)
    (hcells : ctx.cellsOf chart job = .ok (cells, pruned)) :
    ∃ b steps candidates, chart.beam? span.first span.last = some b ∧
      Collects ctx chart done span b steps ∧ (∀ c ∈ candidates, Fresh ctx chart span c) ∧
      Sieved span candidates (ctx.batchCapacity job) cells pruned ∧
      (job = .unary span.first span.last →
        yieldAll (ctx.unaryOf span) (b.cells.map (·.2)) = .ok candidates) := by
  obtain ⟨candidates, hcands⟩ := Context.exists_candidates hcells
  obtain ⟨b, steps, hbeam, hcollects, hfresh, hyields⟩ := h.fresh hctx hsize hjob hnew hcands
  exact ⟨b, steps, candidates, hbeam, hcollects, hfresh,
    Context.sieved_of_cellsOf hctx hcands (offerable_of_fresh hfresh) hcells, hyields⟩

namespace Sound

theorem unary_not_mem (h : Sound ctx done chart) (hready : Ready ctx.size done job)
    (hnew : job ∉ done) (hjob : job.Of span) : .unary span.first span.last ∉ done := by
  obtain ⟨hf, hl⟩ := Prod.mk.inj hjob.bounds
  intro hu
  exact hnew (h.closed.mem_of_finished (by rwa [hf, hl]) hready.within)

/-- A job that is ready gives its cells if its candidates can be worked out. -/
theorem exists_cellsOf (h : Sound ctx done chart) (hctx : ctx.Regular)
    (hready : Ready ctx.size done job) (hnew : job ∉ done)
    (hcands : ∃ candidates, ctx.candidates chart job = .ok candidates) :
    ∃ r, ctx.cellsOf chart job = .ok r := by
  obtain ⟨span, hsize, hjob⟩ := hready.within
  obtain ⟨candidates, hcands⟩ := hcands
  obtain ⟨_, _, _, _, hfresh, _⟩ :=
    h.fresh hctx hsize hjob (h.unary_not_mem hready hnew hjob) hcands
  obtain ⟨cells, pruned, hcells, _⟩ :=
    Context.exists_cellsOf hctx hcands (offerable_of_fresh hfresh)
  exact ⟨_, hcells⟩

theorem coherent (hsteps : ∀ p ∈ steps, Faithful ctx chart span p)
    (hcells : ∀ p ∈ stepsOf cells, Faithful ctx chart span p) :
    Coherent (steps ++ cells.flatMap (·.steps)) :=
  coherent_of_faithful fun p hp => (List.mem_append.mp hp).elim (hsteps p) (hcells p)

theorem exists_addAll (h : Sound ctx done chart) (hctx : ctx.Regular)
    (hready : Ready ctx.size done job) (hnew : job ∉ done)
    (hcells : ctx.cellsOf chart job = .ok (cells, pruned)) :
    ∃ chart', chart.addAll job.first job.last cells pruned = .ok chart' := by
  obtain ⟨span, hsize, hjob⟩ := hready.within
  obtain ⟨hf, hl⟩ := Prod.mk.inj hjob.bounds
  obtain ⟨b, steps, candidates, hbeam, hcollects, hfresh, hsieved, _⟩ :=
    h.exists_sieved hctx hsize hjob (h.unary_not_mem hready hnew hjob) hcells
  have hoffer := hsieved.offerable (offerable_of_fresh hfresh)
  have hco := coherent (fun p hp => hcollects.faithful hctx hsize hp) fun p hp =>
    hsieved.faithful hfresh hp
  obtain ⟨b', hall, _⟩ := hcollects.holds.offerAll hoffer hco
  rw [hf, hl]
  exact Chart.exists_addAll hbeam hoffer.span_eq hall pruned

/-- A job that is ready adds its cells. -/
theorem add (h : Sound ctx done chart) (hctx : ctx.Regular) (hready : Ready ctx.size done job)
    (hnew : job ∉ done) (hcells : ctx.cellsOf chart job = .ok (cells, pruned))
    (hadds : chart.Adds job.first job.last cells pruned chart') :
    Sound ctx (insert job done) chart' := by
  have hframe := fun {j} => h.closed.cellsOf_eq (j := j) hready hnew hadds
  obtain ⟨span, hsize, hjob⟩ := hready.within
  obtain ⟨hf, hl⟩ := Prod.mk.inj hjob.bounds
  have hunary := h.unary_not_mem hready hnew hjob
  obtain ⟨b, steps, candidates, hbeam, hcollects, hfresh, hsieved, hyields⟩ :=
    h.exists_sieved hctx hsize hjob hunary hcells
  obtain ⟨b₁, b₂, hb₁, htakes, rfl⟩ := hadds
  rw [hf, hl] at hb₁ htakes hframe ⊢
  obtain rfl := Option.some.inj (hbeam.symm.trans (Chart.beam_eq_ok_iff.mp hb₁))
  have hco := coherent (fun p hp => hcollects.faithful hctx hsize hp) fun p hp =>
    hsieved.faithful hfresh hp
  obtain ⟨hholds, hset⟩ :=
    hcollects.holds.takes (hsieved.offerable (offerable_of_fresh hfresh)) hco htakes
  -- the beam that the span has now
  obtain ⟨b', hb', hholds', hsuits', hmarked'⟩ : ∃ b', (if pruned then b₂.markPruned else b₂) = b' ∧
      b'.Holds span (steps ++ stepsOf cells) ∧ b'.Suits ctx.config ∧
      b'.externallyPruned = (b.externallyPruned || pruned) := by
    have hsuits : b₂.Suits ctx.config :=
      ⟨hset.capacity.trans hcollects.suits.capacity,
        hset.separateLexical.trans hcollects.suits.separateLexical⟩
    cases pruned with
    | true => exact ⟨_, rfl, hholds.markPruned, ⟨hsuits.1, hsuits.2⟩, by simp [Beam.markPruned]⟩
    | false => exact ⟨_, rfl, hholds, hsuits, by simp [hset.externallyPruned]⟩
  rw [hb'] at hframe ⊢
  have hslot : slot span.first span.last < chart.beams.size := by
    rw [h.size]
    exact (slot_lt_numSpans_iff span.first_le_last).mpr (lt_of_lt_of_eq span.last_lt_size hsize)
  have hself : (chart.setBeam span.first span.last b').beam? span.first span.last = some b' :=
    Chart.beam?_setBeam_self span.first_le_last hslot
  refine ⟨h.tokens, Chart.size_setBeam.trans h.size, h.closed.insert hready, fun other hother => ?_⟩
  by_cases hspan : (other.first, other.last) = (span.first, span.last)
  · obtain ⟨hfirst, hlast⟩ := Prod.mk.inj hspan
    obtain rfl := Span.ext_bounds (hother.trans hsize.symm) hfirst hlast
    rcases hjob with hjob | rfl
    · refine .growing ?_ hself ((hcollects.add hjob hcells hholds' hsuits' hmarked').congr
        (fun _ _ => Iff.rfl) fun j hj hd => ?_)
      · rintro (he | hu)
        · exact hjob.ne_unary _ _ he.symm
        · exact hunary hu
      · rcases hd with rfl | hd
        · exact Context.cellsOf_congr fun x hx =>
            Chart.beam?_setBeam_ne other.first_le_last (hj.reads_ne hx)
        · exact hframe (h.closed j hd) fun he => hnew (he ▸ hd)
    · refine .finished (Set.mem_insert _ _) hself
        (hcollects.congr (fun j hj => ?_) fun j hj hd => ?_)
        ⟨hyields rfl, hsieved, hholds', hsuits', hmarked'⟩
      · exact ⟨fun hd => hd.resolve_left (hj.ne_unary _ _), .inr⟩
      · exact hframe (h.closed j hd) fun he => hnew (he ▸ hd)
  · refine (h.spans other hother).congr (Chart.beam?_setBeam_ne span.first_le_last hspan)
      (fun j hj => ?_) fun j hj hd => hframe (h.closed j hd) fun he => hnew (he ▸ hd)
    refine ⟨fun hd => hd.resolve_left ?_, .inr⟩
    rintro rfl
    exact hspan (hj.bounds.symm.trans hjob.bounds)

end Sound

/-- Filling a chart keeps it sound. -/
theorem Filled.sound {P : Chart S → Job → Prop} (h : Filled ctx P done chart) (hctx : ctx.Regular) :
    Sound ctx done chart := by
  induction h with
  | new h => exact sound_new hctx h
  | add _ hready hnew _ hcells hadds ih => exact ih.add hctx hready hnew hcells hadds

end Categorial
