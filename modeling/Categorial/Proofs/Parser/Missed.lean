import Categorial.Proofs.Parser.Comparison
import Categorial.Proofs.Chart.Same

/-! # What the unary rules miss

The unary rules of a span apply to what is kept when it is their turn. If one of them makes another
cell lexical, that cell leaves its place to a cell that was set aside. The rules have missed this
one, and since it is back nothing tells.
-/

namespace Categorial

variable {S : Type}

namespace Context

theorem arguments_close (chart : Chart S) (first last : Nat) :
    arguments chart.close first last = arguments chart first last := by
  simp only [arguments, Chart.beam, Chart.beam?_close]
  cases chart.beam? first last <;> rfl

variable [Scalar S] {ctx : Context S} {chart : Chart S} {span : Span} {job : Job} {a c : Cell S}
  {cells : List (Cell S)} {p : PackedStep S}

theorem cellsOf_close (job : Job) : ctx.cellsOf chart.close job = ctx.cellsOf chart job :=
  cellsOf_congr_arguments fun x _ => arguments_close chart x.1 x.2

theorem intermediate_of_base (hsize : span.size = ctx.size) (hjob : job.Base span)
    (h : ctx.candidates chart job = .ok cells) (hc : c ∈ cells) (hp : p ∈ c.steps) :
    p.step.intermediate = none := by
  cases hjob with
  | lexical =>
    obtain ⟨entry, _, _, full, _, rfl⟩ := (mem_candidates_lexical hsize h).mp hc
    obtain rfl := List.mem_singleton.mp hp
    rfl
  | split hk =>
    obtain ⟨left, right, _, _, rule, _, result, _, _, full, _, rfl⟩ :=
      (mem_candidates_split hsize hk h).mp hc
    obtain rfl := List.mem_singleton.mp hp
    rfl

theorem step_of_unaryOf (h : ctx.unaryOf span a = .ok cells) (hc : c ∈ cells) :
    ∃ p ∈ a.steps, ∃ q, c.steps = [q] ∧ q.step.intermediate = some p.step.root := by
  obtain ⟨p, hp, result, full, step, _, hstep, rfl⟩ := mem_unaryOf h hc
  obtain ⟨name, _, hstep⟩ := bind_eq_ok.mp hstep
  obtain rfl := Except.ok.inj hstep
  exact ⟨p, hp, _, rfl, rfl⟩

theorem unaryOf_eq_nil_iff : ctx.unaryOf span a = .ok [] ↔ Idle (ctx.unaryOf span a) := by
  refine ⟨fun h => ⟨[], h, rfl⟩, fun ⟨cs, hcs, hnone⟩ => ?_⟩
  suffices hnil : cs = [] by rwa [hnil] at hcs
  refine List.eq_nil_iff_forall_not_mem.mpr fun c hc => ?_
  obtain ⟨p, _, q, hq, _⟩ := step_of_unaryOf hcs hc
  have hmem : q ∈ stepsOf cs := mem_stepsOf.mpr ⟨c, hc, hq ▸ .head _⟩
  simp [hnone] at hmem

theorem unaryOf_eq_nil_congr {ρ : CellId → CellId} (h : a.Alike ρ c) :
    ctx.unaryOf span c = .ok [] ↔ ctx.unaryOf span a = .ok [] := by
  rw [unaryOf_eq_nil_iff, unaryOf_eq_nil_iff, (unaryOf_corresponds h).idle_iff]

end Context

variable [ExactScalar S]

namespace Context

/-- The beam of a span at the turn of its unary rules, worked out anew from the chart. -/
def beforeUnary (ctx : Context S) (chart : Chart S) (span : Span) : Except Fault (Beam S) := do
  let cells ← yieldAll (fun job => Prod.fst <$> ctx.cellsOf chart job)
    (Job.unary span.first span.last).awaits
  Beam.ofOffers ctx.config.beam ctx.config.separateLexical cells

/-- The unary rules make nothing of any cell that is set aside when it is their turn. -/
def MissesNothing (ctx : Context S) (chart : Chart S) : Prop :=
  ∀ span : Span, span.size = ctx.size → ∃ before, ctx.beforeUnary chart span = .ok before ∧
    ∀ c ∈ before.setAside, ctx.unaryOf span c = .ok []

theorem beforeUnary_close (ctx : Context S) (chart : Chart S) (span : Span) :
    ctx.beforeUnary chart.close span = ctx.beforeUnary chart span := by
  simp only [beforeUnary, cellsOf_close]

theorem missesNothing_close (ctx : Context S) (chart : Chart S) :
    ctx.MissesNothing chart.close ↔ ctx.MissesNothing chart := by
  simp only [MissesNothing, beforeUnary_close]

end Context

variable {ctx : Context S} {chart : Chart S} {done : Set Job} {span : Span} {before b : Beam S}
  {steps : List (PackedStep S)} {candidates cells : List (Cell S)} {pruned : Bool}

theorem Sound.prunedSpans_eq_nil_iff (h : Sound ctx done chart) : chart.prunedSpans = [] ↔
    ∀ first last b, chart.beam? first last = some b → b.isPruned = false := by
  rw [Chart.prunedSpans, List.filter_eq_nil_iff]
  constructor
  · intro hspans first last b hb
    obtain ⟨hle, hlt⟩ := Chart.bounds_of_beam? h.size hb
    have hlt : last < chart.size := lt_of_lt_of_eq hlt (congrArg List.length h.tokens).symm
    simpa [hb] using hspans _ (mem_spansByStart_iff.mpr ⟨hle, hlt⟩)
  · rintro hbeams ⟨first, last⟩ _
    cases hb : chart.beam? first last with
    | none => simp [hb]
    | some b => simp [hb, hbeams first last b hb]

/-- The beam that is worked out anew has the steps that the jobs of the span have handed over. -/
theorem Collects.exists_beforeUnary (h : Collects ctx chart done span before steps)
    (hctx : ctx.Regular) (hsize : span.size = ctx.size)
    (hbase : ∀ job, job.Base span → job ∈ done) :
    ∃ b steps', ctx.beforeUnary chart span = .ok b ∧ b.Holds span steps' ∧ b.Suits ctx.config ∧
      ∀ p, p ∈ steps' ↔ p ∈ steps := by
  obtain ⟨cells, hcells⟩ : ∃ cells, yieldAll (fun job => Prod.fst <$> ctx.cellsOf chart job)
      (Job.unary span.first span.last).awaits = .ok cells := by
    refine exists_yieldAll_iff.mpr fun job hjob => ?_
    have hjob := Job.base_iff_mem_awaits.mpr hjob
    obtain ⟨r, hr⟩ := h.worked job hjob (hbase job hjob)
    exact ⟨r.1, map_eq_ok.mpr ⟨r, hr, rfl⟩⟩
  have hmem : ∀ c, c ∈ cells ↔ Supplied ctx chart done span fun r => c ∈ r.1 := by
    intro c
    rw [mem_yieldAll hcells]
    constructor
    · rintro ⟨job, hjob, _, hcs, hc⟩
      obtain ⟨r, hr, rfl⟩ := map_eq_ok.mp hcs
      have hjob := Job.base_iff_mem_awaits.mpr hjob
      exact ⟨job, hjob, hbase job hjob, r, hr, hc⟩
    · rintro ⟨job, hjob, _, r, hr, hc⟩
      exact ⟨job, Job.base_iff_mem_awaits.mp hjob, r.1, map_eq_ok.mpr ⟨r, hr, rfl⟩, hc⟩
  have hsteps : ∀ p, p ∈ stepsOf cells ↔ p ∈ steps := by
    intro p
    rw [mem_stepsOf, h.mem_iff]
    constructor
    · rintro ⟨c, hc, hp⟩
      obtain ⟨job, hjob, hd, r, hr, hc⟩ := (hmem c).mp hc
      exact ⟨job, hjob, hd, r, hr, mem_stepsOf.mpr ⟨c, hc, hp⟩⟩
    · rintro ⟨job, hjob, hd, r, hr, hp⟩
      obtain ⟨c, hc, hp⟩ := mem_stepsOf.mp hp
      exact ⟨c, (hmem c).mpr ⟨job, hjob, hd, r, hr, hc⟩, hp⟩
  have hoffer : ∀ c ∈ cells, c.Packed ∧ c.span = span := by
    intro c hc
    obtain ⟨job, hjob, _, ⟨cs, _⟩, hr, hc⟩ := (hmem c).mp hc
    obtain ⟨_, _, hfresh, hs⟩ := sieved_of_base hctx hsize hjob hr
    have hcs := hs.offerable (offerable_of_fresh hfresh)
    exact ⟨hcs.packed c hc, hcs.span_eq c hc⟩
  have hofferable : Offerable span cells :=
    ⟨fun c hc => (hoffer c hc).1, fun c hc => (hoffer c hc).2,
      coherent_of_faithful fun p hp => h.faithful hctx hsize ((hsteps p).mp hp)⟩
  obtain ⟨b, hb, hholds, hset⟩ : ∃ b,
      Beam.ofOffers ctx.config.beam ctx.config.separateLexical cells = .ok b ∧ _ :=
    Beam.ofOffers_holds hctx.beam_pos hofferable
  exact ⟨b, _, bind_eq_ok.mpr ⟨cells, hcells, hb⟩, hholds, ⟨hset.capacity, hset.separateLexical⟩,
    hsteps⟩

theorem unaryOf_setAside {b' : Beam S} {steps' : List (PackedStep S)} (hb : b.Holds span steps)
    (hb' : b'.Holds span steps') (hsuits : b.Suits ctx.config) (hsuits' : b'.Suits ctx.config)
    (hsteps : ∀ p, p ∈ steps' ↔ p ∈ steps) (h : ∀ c ∈ b.setAside, ctx.unaryOf span c = .ok []) :
    ∀ d ∈ b'.setAside, ctx.unaryOf span d = .ok [] := by
  intro d hd
  obtain ⟨_, haside⟩ := hb.alike hb' (ρ := id) (hsuits'.capacity.trans hsuits.capacity.symm)
    (hsuits'.separateLexical.trans hsuits.separateLexical.symm)
    (by simp [PackedStep.rename_id, hsteps]) (by simp [PackedStep.rename_id])
  obtain ⟨c, hc, halike⟩ := haside.exists_of_mem_right hd
  exact (Context.unaryOf_eq_nil_congr halike).mpr (h c hc)

/-- Whether something was missed can be told from the finished chart. -/
theorem Sound.missesNothing (h : Sound ctx done chart) (hctx : ctx.Regular)
    (hall : ∀ job, job.Within ctx.size → job ∈ done)
    (hmissed : ∀ (span : Span) before b steps candidates cells pruned, span.size = ctx.size →
      chart.beam? span.first span.last = some b → Collects ctx chart done span before steps →
      Finishes ctx span before steps candidates cells pruned b →
      ∀ c ∈ before.setAside, ctx.unaryOf span c = .ok []) : ctx.MissesNothing chart := by
  intro span hsize
  obtain ⟨before, b, steps, _, _, _, hb, hc, hf⟩ := h.exists_finished hall hsize
  obtain ⟨b', steps', hb', hholds, hsuits, hsteps⟩ :=
    hc.exists_beforeUnary hctx hsize fun job hjob => hall job ⟨span, hsize, .inl hjob⟩
  exact ⟨b', hb', unaryOf_setAside hc.holds hholds hc.suits hsuits hsteps
    (hmissed span before b steps _ _ _ hsize hb hc hf)⟩

theorem Context.MissesNothing.complete (hmisses : ctx.MissesNothing chart) (hctx : ctx.Regular)
    (hall : ∀ job, job.Within ctx.size → job ∈ done)
    (hunpruned : ∀ first last b, chart.beam? first last = some b → b.isPruned = false) :
    Complete ctx done chart := by
  refine ⟨hunpruned, fun span before steps hsize hc => ?_⟩
  obtain ⟨b, hb, hnothing⟩ := hmisses span hsize
  obtain ⟨b', steps', hb', hholds, hsuits, hsteps⟩ :=
    hc.exists_beforeUnary hctx hsize fun job hjob => hall job ⟨span, hsize, .inl hjob⟩
  obtain rfl := Except.ok.inj (hb.symm.trans hb')
  exact unaryOf_setAside hholds hc.holds hsuits hc.suits (fun p => (hsteps p).symm) hnothing

/-- Where lexical cells compete with all others, no cell ever returns. -/
theorem Finishes.setAside_eq_nil (h : Finishes ctx span before steps candidates cells pruned b)
    (hc : Collects ctx chart done span before steps) (hsep : ctx.config.separateLexical = false)
    (hb : b.setAside = []) : before.setAside = [] := by
  have hcontenders : ∀ cells : List (Cell S), contenders false cells = cells := by
    simp [contenders, Cell.sheltered]
  rw [hc.holds.setAside_eq_nil_iff, hc.suits.separateLexical, hc.suits.capacity, hsep, hcontenders]
  rw [h.holds.setAside_eq_nil_iff, h.suits.separateLexical, h.suits.capacity, hsep, hcontenders]
    at hb
  have hsub : before.stock.map (·.category) ⊆ b.stock.map (·.category) := by
    intro category hcategory
    obtain ⟨p, hp, hroot⟩ := hc.holds.stocks.exists_category.mp (List.mem_map.mp hcategory)
    exact List.mem_map.mpr
      (h.holds.stocks.exists_category.mpr ⟨p, List.mem_append_left _ hp, hroot⟩)
  have hle := (hc.holds.stocks.apart.subperm hsub).length_le
  rw [List.length_map, List.length_map] at hle
  exact hle.trans hb

end Categorial
