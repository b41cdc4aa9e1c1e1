import Categorial.Proofs.Chart.Selection
import Categorial.Proofs.Parser.Candidates

/-! # What a batch keeps

A batch keeps all candidates, or those that a beam of its own would keep. Of candidates that are the
same but for the names of handles it keeps the same.
-/

namespace Categorial

variable {S : Type}

def stepsOf (cells : List (Cell S)) : List (PackedStep S) :=
  cells.flatMap (·.steps)

theorem mem_stepsOf {cells : List (Cell S)} {p : PackedStep S} :
    p ∈ stepsOf cells ↔ ∃ c ∈ cells, p ∈ c.steps :=
  List.mem_flatMap

/-- The second steps are the first ones under other handles. -/
structure SameSteps (ρ : CellId → CellId) (xs ys : List (PackedStep S)) : Prop where
  mem_iff : ∀ q, q ∈ ys ↔ ∃ p ∈ xs, p.rename ρ = q
  inj : ∀ p ∈ xs, ∀ q ∈ xs, p.rename ρ = q.rename ρ → p = q

theorem AlikeCells.sameSteps {ρ : CellId → CellId} {cs ds : List (Cell S)} (h : AlikeCells ρ cs ds)
    (hinj : ∀ p ∈ stepsOf cs, ∀ q ∈ stepsOf cs, p.rename ρ = q.rename ρ → p = q) :
    SameSteps ρ (stepsOf cs) (stepsOf ds) := by
  refine ⟨fun q => ?_, hinj⟩
  simp only [mem_stepsOf]
  constructor
  · rintro ⟨d, hd, hq⟩
    obtain ⟨c, hc, ha⟩ := h.exists_of_mem_right hd
    obtain ⟨p, hp, rfl⟩ := List.mem_map.mp (ha.steps.mem_iff.mp hq)
    exact ⟨p, ⟨c, hc, hp⟩, rfl⟩
  · rintro ⟨p, ⟨c, hc, hp⟩, rfl⟩
    obtain ⟨d, hd, ha⟩ := h.exists_of_mem hc
    exact ⟨d, hd, ha.steps.mem_iff.mpr (List.mem_map.mpr ⟨p, hp, rfl⟩)⟩

/-- Beams that keep no cell outside the bound and were not marked. -/
def Beam.Plain (b : Beam S) (capacity : Nat) : Prop :=
  (Beam.empty capacity .orderInvariant false : Beam S).Settings b

/-- The greatest number of cells that a job hands on, if there is one. -/
def Context.batchCapacity (ctx : Context S) : Job → Option Nat
  | .lexical .. => if ctx.grammar.pruneLexical then some ctx.config.beam else none
  | _ =>
    if ctx.grammar.preChartPruning then some (addCounts (mulCounts ctx.config.beam 2) 1) else none

/-- Ties are not broken, and beams have room for something. -/
structure Context.Regular (ctx : Context S) : Prop where
  order : ctx.config.order = .orderInvariant
  beam_pos : 0 < ctx.config.beam

theorem Context.regular_of_new {ctx : Context S} {g : Grammar} {tokens : List String}
    {model : Model S} {options : ParseOptions}
    (h : Context.new g tokens model options = .ok ctx) (hties : g.breakTies = false) :
    ctx.Regular ∧ 0 < ctx.size := by
  simp only [Context.new] at h
  split_ifs at h with htokens hbeam
  obtain rfl := Except.ok.inj h
  refine ⟨⟨by simp [Grammar.chartConfig, hties], Nat.pos_of_ne_zero hbeam⟩, ?_⟩
  exact List.length_pos_iff.mpr fun hnil => htokens (List.isEmpty_iff.mpr hnil)

theorem Context.Regular.new_eq {ctx : Context S} (h : ctx.Regular) :
    (Chart.new ctx.tokens ctx.config : Except Fault (Chart S)) =
      .ok (.empty ctx.tokens ctx.config) :=
  if_neg fun hnew => h.beam_pos.ne' hnew.1

variable [ExactScalar S]

/-- These cells are left of the candidates in a batch of this capacity. -/
inductive Sieved (span : Span) (candidates : List (Cell S)) :
    Option Nat → List (Cell S) → Bool → Prop where
  | all : Sieved span candidates none candidates false
  | best {capacity : Nat} {b : Beam S} : b.Holds span (stepsOf candidates) → b.Plain capacity →
    Sieved span candidates (some capacity) (b.cells.map (·.2)) b.isPruned

variable {span : Span} {candidates cells : List (Cell S)} {capacity : Option Nat} {pruned : Bool}

theorem Sieved.exists_beam {limit : Nat} (h : Sieved span candidates (some limit) cells pruned) :
    ∃ b : Beam S, b.Holds span (stepsOf candidates) ∧ b.Plain limit ∧ cells = b.cells.map (·.2) ∧
      pruned = b.isPruned := by
  cases h with
  | best hb hplain => exact ⟨_, hb, hplain, rfl, rfl⟩

theorem Sieved.eq_all (h : Sieved span candidates none cells pruned) :
    cells = candidates ∧ pruned = false := by
  cases h with
  | all => exact ⟨rfl, rfl⟩

theorem Sieved.mem_stepsOf (h : Sieved span candidates capacity cells pruned) {p : PackedStep S}
    (hp : p ∈ stepsOf cells) : p ∈ stepsOf candidates := by
  cases h with
  | all => exact hp
  | best hb _ =>
    obtain ⟨c, hc, hp⟩ := Categorial.mem_stepsOf.mp hp
    exact ((hb.stocks.packs c (Beam.mem_stock_of_kept hc)).mem_steps p).mp hp |>.1

theorem Sieved.offerable (h : Sieved span candidates capacity cells pruned)
    (hc : Offerable span candidates) : Offerable span cells := by
  refine ⟨?_, ?_, hc.coherent.mono fun p hp => h.mem_stepsOf hp⟩
  · cases h with
    | all => exact hc.packed
    | best hb _ =>
      intro c hc
      exact (hb.stocks.packs c (Beam.mem_stock_of_kept hc)).packed
  · cases h with
    | all => exact hc.span_eq
    | best hb _ =>
      intro c hc
      exact (hb.stocks.packs c (Beam.mem_stock_of_kept hc)).span_eq

theorem Sieved.mem_of_not_pruned (h : Sieved span candidates capacity cells false)
    {p : PackedStep S} : p ∈ stepsOf cells ↔ p ∈ stepsOf candidates := by
  refine ⟨h.mem_stepsOf, fun hp => ?_⟩
  generalize hpruned : false = pruned at h
  cases h with
  | all => exact hp
  | @best _ b hb hplain =>
    have haside : b.setAside = [] := by
      simpa [Beam.isPruned, hb.rejected] using (Bool.or_eq_false_iff.mp hpruned.symm).2
    obtain ⟨c, hc, hcat⟩ := hb.stocks.covers p hp
    refine Categorial.mem_stepsOf.mpr ⟨c, ?_,
      ((hb.stocks.packs c hc).mem_steps p).mpr ⟨hp, hcat.symm⟩⟩
    rw [Beam.kept_eq]
    simpa [Beam.stock, haside] using hc

theorem Beam.Plain.isPruned_eq {b : Beam S} {limit : Nat} {offered : List (PackedStep S)}
    (hplain : b.Plain limit) (hb : b.Holds span offered) : b.isPruned = !b.setAside.isEmpty := by
  have hext : b.externallyPruned = false := hplain.externallyPruned
  simp [Beam.isPruned, hb.rejected, hext]

variable {ρ : CellId → CellId} {candidates' cells' : List (Cell S)} {pruned' : Bool}

theorem Sieved.same (h : Sieved span candidates capacity cells pruned)
    (h' : Sieved span candidates' capacity cells' pruned')
    (hs : SameSteps ρ (stepsOf candidates) (stepsOf candidates')) :
    SameSteps ρ (stepsOf cells) (stepsOf cells') ∧ pruned' = pruned := by
  have hinj : ∀ p ∈ stepsOf cells, ∀ q ∈ stepsOf cells, p.rename ρ = q.rename ρ → p = q :=
    fun p hp q hq => hs.inj p (h.mem_stepsOf hp) q (h.mem_stepsOf hq)
  cases h with
  | all =>
    cases h' with
    | all => exact ⟨hs, rfl⟩
  | @best _ b hb hplain =>
    cases h' with
    | @best _ b' hb' hplain' =>
      have hcap : b'.capacity = b.capacity := hplain'.capacity.trans hplain.capacity.symm
      have hsep : b'.separateLexical = b.separateLexical :=
        hplain'.separateLexical.trans hplain.separateLexical.symm
      obtain ⟨hkept, haside⟩ := hb.alike hb' hcap hsep hs.mem_iff hs.inj
      refine ⟨hkept.sameSteps hinj, ?_⟩
      rw [hplain.isPruned_eq hb, hplain'.isPruned_eq hb', haside.isEmpty_eq]

/-- A wider batch drops nothing of the same candidates either. -/
theorem Sieved.same_of_wider {wider : Option Nat} (h : Sieved span candidates capacity cells false)
    (h' : Sieved span candidates' wider cells' pruned')
    (hs : SameSteps ρ (stepsOf candidates) (stepsOf candidates'))
    (hwider : ∀ limit ∈ wider, ∃ tight ∈ capacity, tight ≤ limit) :
    SameSteps ρ (stepsOf cells) (stepsOf cells') ∧ pruned' = false := by
  have hpruned : pruned' = false := by
    cases h' with
    | all => rfl
    | @best limit b' hb' hplain' =>
      obtain ⟨tight, htight, hle⟩ := hwider limit rfl
      obtain rfl := Option.mem_def.mp htight
      obtain ⟨b, hb, hplain, _, hpruned⟩ := h.exists_beam
      rw [hplain.isPruned_eq hb] at hpruned
      have haside : b.setAside = [] := by simpa using hpruned
      have hcap : b.capacity ≤ b'.capacity := by rwa [hplain.capacity, hplain'.capacity]
      have hsep : b'.separateLexical = b.separateLexical :=
        hplain'.separateLexical.trans hplain.separateLexical.symm
      obtain ⟨_, haside'⟩ := hb.alike_of_wider hb' hcap hsep hs.mem_iff hs.inj haside
      rw [hplain'.isPruned_eq hb', haside']
      rfl
  subst hpruned
  refine ⟨⟨fun q => ?_, fun p hp q hq => ?_⟩, rfl⟩
  · rw [h'.mem_of_not_pruned, hs.mem_iff]
    exact exists_congr fun p => and_congr_left fun _ => h.mem_of_not_pruned.symm
  · exact hs.inj p (h.mem_stepsOf hp) q (h.mem_stepsOf hq)

namespace Context

variable {ctx : Context S} {chart : Chart S} {job : Job}

theorem exists_batch (hctx : ctx.Regular) (hc : Offerable span candidates) (job : Job) :
    ∃ first batch, ctx.batchFor job = .ok first ∧ first.pushAll candidates = .ok batch ∧
      Sieved span candidates (ctx.batchCapacity job) batch.finish.1 batch.finish.2 := by
  have hall : ∃ batch, (Batch.all [] : Batch S).pushAll candidates = .ok batch ∧
      Sieved span candidates none batch.finish.1 batch.finish.2 := by
    refine ⟨.all (candidates.reverse ++ []), Batch.pushAll_all candidates [], ?_⟩
    simpa [Batch.finish] using Sieved.all
  have hbest : ∀ limit, ∃ batch,
      (Batch.best (Beam.empty limit .orderInvariant false) : Batch S).pushAll candidates =
        .ok batch ∧ Sieved span candidates (some limit) batch.finish.1 batch.finish.2 := by
    intro limit
    obtain ⟨b, hoffer, hb, hset⟩ :=
      (Beam.holds_empty limit false span).offerAll hc hc.coherent
    exact ⟨.best b, Batch.pushAll_best_eq_ok.mpr ⟨b, hoffer, rfl⟩, .best hb hset⟩
  have hnew : ∀ limit, 0 < limit →
      (Beam.new limit .orderInvariant false : Except Fault (Beam S)) =
        .ok (.empty limit .orderInvariant false) := fun limit hpos => if_neg hpos.ne'
  have hbatch : ∃ first batch, ctx.batch = .ok first ∧ first.pushAll candidates = .ok batch ∧
      Sieved span candidates
        (if ctx.grammar.preChartPruning then some (addCounts (mulCounts ctx.config.beam 2) 1)
          else none) batch.finish.1 batch.finish.2 := by
    have hpos : 0 < addCounts (mulCounts ctx.config.beam 2) 1 := by
      simp [addCounts, countLimit]
    simp only [batch, hnew _ hpos]
    split_ifs
    · exact ⟨_, _, rfl, (hbest _).choose_spec⟩
    · exact ⟨_, _, rfl, hall.choose_spec⟩
  cases job with
  | lexical first last =>
    simp only [batchFor, batchCapacity, lexicalBatch, hctx.order, hnew _ hctx.beam_pos]
    split_ifs
    · exact ⟨_, _, rfl, (hbest _).choose_spec⟩
    · exact ⟨_, _, rfl, hall.choose_spec⟩
  | split first last k => exact hbatch
  | unary first last => exact hbatch

theorem exists_candidates (h : ctx.cellsOf chart job = .ok (cells, pruned)) :
    ∃ candidates, ctx.candidates chart job = .ok candidates := by
  obtain ⟨candidates, _, _, hcands, _⟩ := (ctx.keeps_cellsOf chart job cells pruned).mp h
  exact ⟨candidates, hcands⟩

/-- A job whose candidates can be worked out gives what its batch keeps of them. -/
theorem exists_cellsOf (hctx : ctx.Regular) (h : ctx.candidates chart job = .ok candidates)
    (hc : Offerable span candidates) :
    ∃ cells pruned, ctx.cellsOf chart job = .ok (cells, pruned) ∧
      Sieved span candidates (ctx.batchCapacity job) cells pruned := by
  obtain ⟨first, batch, hfirst, hbatch, hsieved⟩ := exists_batch hctx hc job
  exact ⟨_, _, (ctx.keeps_cellsOf chart job _ _).mpr
    ⟨candidates, first, batch, h, hfirst, hbatch, rfl⟩, hsieved⟩

theorem sieved_of_cellsOf (hctx : ctx.Regular) (h : ctx.candidates chart job = .ok candidates)
    (hc : Offerable span candidates) (hcells : ctx.cellsOf chart job = .ok (cells, pruned)) :
    Sieved span candidates (ctx.batchCapacity job) cells pruned := by
  obtain ⟨cells', pruned', hok, hsieved⟩ := exists_cellsOf hctx h hc
  obtain ⟨rfl, rfl⟩ := Prod.mk.inj (Except.ok.inj (hok.symm.trans hcells))
  exact hsieved

end Context

end Categorial
