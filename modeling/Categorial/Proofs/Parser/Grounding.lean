import Categorial.Proofs.Chart.Offers
import Categorial.Proofs.Parser.Building

/-! # Where the steps of a chart come from

Every step of every cell is one that the grammar makes, of a lexical entry or of cells in finished
spans, and it carries the scores of these cells as they are in the finished chart. This needs
neither a certain order of pruning nor any law of arithmetic.
-/

namespace Categorial

variable {S : Type}

/-- What the grammar makes over a span, given the cells of shorter spans. -/
inductive Context.Makes (ctx : Context S) (chart : Chart S) (span : Span) : Making → Prop where
  | entry {entry : LexicalEntry} :
      entry ∈ ctx.lexicon.entriesFor (ctx.tokensOf span) →
      ctx.hardPrunes ⟨entry.category, span, .lexical⟩ = .ok false →
      Makes ctx chart span ⟨.entry entry, .lexical, span, entry.category, none⟩
  | binary {left right : CellId} {l r : Cell S} {rule : BinaryRule} {result : RuleResult} :
      (Source.cells left right).Splits span → chart.cell left = .ok l → chart.cell right = .ok r →
      rule ∈ ctx.grammar.binaryRules → rule.apply l.category r.category span = .ok (some result) →
      ctx.prunes ⟨result.category, span, rule.name⟩ true = .ok false →
      Makes ctx chart span ⟨.cells left right, result.name, span, result.category, none⟩
  | unary {base : Making} {rule : UnaryRule} {result : RuleResult} {name : RuleName} :
      Makes ctx chart span base → base.rule.isOverloaded = false →
      rule ∈ ctx.grammar.unaryRules → rule.apply base.root span = .ok (some result) →
      ctx.prunes ⟨result.category, span, rule.name⟩ false = .ok false →
      base.rule.overload result.name = .ok name →
      Makes ctx chart span ⟨base.source, name, span, result.category, some base.root⟩

theorem Context.Makes.transfer {ctx : Context S} {chart chart' : Chart S} {span : Span}
    {done : Set Job} {m : Making}
    (hcells : ∀ id : CellId, .unary id.first id.last ∈ done → chart'.cell id = chart.cell id)
    (h : ctx.Makes chart span m) (hm : ∀ id ∈ m.source.children, .unary id.first id.last ∈ done) :
    ctx.Makes chart' span m := by
  induction h with
  | entry hentry hprunes => exact .entry hentry hprunes
  | binary hsplits hleft hright hrule happly hprunes =>
    rw [← hcells _ (hm _ (.head _))] at hleft
    rw [← hcells _ (hm _ (.tail _ (.head _)))] at hright
    exact .binary hsplits hleft hright hrule happly hprunes
  | unary _ hplain hrule happly hprunes hname ih =>
    exact .unary (ih hm) hplain hrule happly hprunes hname

theorem Context.apply_of_applyBinary {ctx : Context S} {span : Span} {rule : BinaryRule}
    {left right : Argument S} {result : RuleResult}
    (h : ctx.applyBinary rule left right = .ok (some result))
    (hjoin : left.cell.span.join right.cell.span = .ok span) :
    rule.apply left.cell.category right.cell.category span = .ok (some result) := by
  unfold applyBinary at h
  split_ifs at h
  · simp at h
  · obtain ⟨joined, hjoined, h⟩ := bind_eq_ok.mp h
    obtain rfl := Except.ok.inj (hjoin.symm.trans hjoined)
    exact h

theorem Context.apply_of_applyUnary {ctx : Context S} {rule : UnaryRule} {argument : Argument S}
    {result : RuleResult} (h : ctx.applyUnary rule argument = .ok (some result)) :
    rule.apply argument.cell.category argument.cell.span = .ok (some result) := by
  unfold applyUnary at h
  split_ifs at h
  · simp at h
  · exact h

variable [Scalar S]

structure PackedStep.Grounded (ctx : Context S) (done : Set Job) (chart : Chart S) (span : Span)
    (p : PackedStep S) : Prop where
  faithful : Faithful ctx chart span p
  makes : ctx.Makes chart span p.step.making
  finished : ∀ id ∈ p.step.children, .unary id.first id.last ∈ done

/-- A cell of a span whose steps are grounded. No outside pass has been made over it. -/
structure Cell.Grounded (ctx : Context S) (done : Set Job) (chart : Chart S) (span : Span)
    (cell : Cell S) : Prop where
  packed : cell.Packed
  logOutside : cell.logOutside = Scalar.negInf
  span_eq : cell.span = span
  steps : ∀ p ∈ cell.steps, p.Grounded ctx done chart span

def Chart.Grounded (ctx : Context S) (done : Set Job) (chart : Chart S) : Prop :=
  ∀ span : Span, span.size = ctx.size → ∀ b, chart.beam? span.first span.last = some b →
    ∀ c ∈ b.stock, c.Grounded ctx done chart span

variable {ctx : Context S} {P : Chart S → Job → Prop} {done done' : Set Job}
  {chart chart' : Chart S}
  {span : Span} {job : Job} {cells candidates : List (Cell S)} {pruned : Bool}

theorem Cell.Grounded.merges {c d m : Cell S} (hc : c.Grounded ctx done chart span)
    (hd : d.Grounded ctx done chart span) (hm : c.Merges d m) : m.Grounded ctx done chart span where
  packed := hm.packed hc.packed hd.packed
  logOutside := hm.logOutside.trans hc.logOutside
  span_eq := hm.span.trans hc.span_eq
  steps p hp := (hm.mem_steps p hp).elim (hc.steps p) (hd.steps p)

theorem Cell.Grounded.isFullParse {c : Cell S} (h : c.Grounded ctx done chart span) :
    ctx.isFullParse span c.category = .ok c.isFullParse := by
  obtain ⟨p, hp, hflag⟩ := h.packed.flag
  rw [hflag, ← h.packed.root p hp]
  exact (h.steps p hp).faithful.isFullParse

section Transfer

variable (hcells : ∀ id : CellId, .unary id.first id.last ∈ done → chart'.cell id = chart.cell id)

include hcells

theorem PackedStep.Grounded.transfer {p : PackedStep S} (h : p.Grounded ctx done chart span)
    (hdone : done ⊆ done') : p.Grounded ctx done' chart' span where
  faithful := by
    refine ⟨h.faithful.span_eq, h.faithful.scored, h.faithful.splits, ?_⟩
    rw [← h.faithful.scores]
    have hfinished := h.finished
    unfold Step.children at hfinished
    cases hsource : p.step.making.source with
    | entry entry => rfl
    | cells left right =>
      rw [hsource] at hfinished
      simp only [Chart.scoresOf, hcells left (hfinished left (.head _)),
        hcells right (hfinished right (.tail _ (.head _)))]
  makes := .transfer hcells h.makes h.finished
  finished id hid := hdone (h.finished id hid)

theorem Cell.Grounded.transfer {c : Cell S} (h : c.Grounded ctx done chart span)
    (hdone : done ⊆ done') : c.Grounded ctx done' chart' span :=
  ⟨h.packed, h.logOutside, h.span_eq, fun p hp => (h.steps p hp).transfer hcells hdone⟩

end Transfer

theorem Chart.Grounded.cell (h : chart.Grounded ctx done) (span : Span)
    (hsize : span.size = ctx.size)
    {key : Nat} {c : Cell S} (hc : chart.cell ⟨span.first, span.last, key⟩ = .ok c) :
    c.Grounded ctx done chart span := by
  obtain ⟨b, hb, hkey⟩ := Chart.cell_eq_ok_iff.mp hc
  obtain ⟨held, hheld, rfl⟩ := Option.map_eq_some_iff.mp hkey
  exact h span hsize b hb held.cell (Beam.mem_stock_of_held hheld)

theorem Fresh.grounded {c : Cell S} (h : Fresh ctx chart span c)
    (hsteps : ∀ p ∈ c.steps, ctx.Makes chart span p.step.making ∧
      ∀ id ∈ p.step.children, .unary id.first id.last ∈ done) : c.Grounded ctx done chart span where
  packed := by
    obtain ⟨p, rfl, _⟩ := h
    exact Cell.packed_new _ _
  logOutside := by
    obtain ⟨p, rfl, _⟩ := h
    rfl
  span_eq := by
    obtain ⟨p, rfl, hp⟩ := h
    exact hp.span_eq
  steps p hp := ⟨h.faithful hp, (hsteps p hp).1, (hsteps p hp).2⟩

section Candidates

variable (hsize : span.size = ctx.size)

include hsize

theorem grounded_of_entry
    (hcands : ctx.candidates chart (.lexical span.first span.last) = .ok candidates) {c : Cell S}
    (hc : c ∈ candidates) : c.Grounded ctx done chart span := by
  refine (fresh_of_base hsize .lexical hcands hc).grounded fun p hp => ?_
  obtain ⟨entry, hentry, hprunes, full, _, rfl⟩ :=
    (Context.mem_candidates_lexical hsize hcands).mp hc
  obtain rfl := List.mem_singleton.mp hp
  exact ⟨.entry hentry hprunes, nofun⟩

theorem grounded_of_split (h : chart.Grounded ctx done) {k : Nat} (hk : k < span.numSplits)
    (hready : Ready ctx.size done (.split span.first span.last k))
    (hcands : ctx.candidates chart (.split span.first span.last k) = .ok candidates)
    {c : Cell S} (hc : c ∈ candidates) : c.Grounded ctx done chart span := by
  refine (fresh_of_base hsize (.split hk) hcands hc).grounded fun p hp => ?_
  obtain ⟨_, _, ⟨leftKey, l, hl, rfl⟩, ⟨rightKey, r, hr, rfl⟩, rule, hrule, result, happly, hprunes,
    full, _, rfl⟩ := (Context.mem_candidates_split hsize hk hcands).mp hc
  obtain rfl := List.mem_singleton.mp hp
  have hjoin : l.span.join r.span = .ok span := by
    rw [(h.cell (span.split k hk).1 hsize hl).span_eq,
      (h.cell (span.split k hk).2 hsize hr).span_eq]
    exact span.ofBounds_self
  constructor
  · exact .binary ⟨k, hk, rfl, rfl, rfl, rfl⟩ hl hr hrule
      (Context.apply_of_applyBinary happly hjoin) hprunes
  · intro id hid
    rcases List.mem_pair.mp hid with rfl | rfl
    · exact hready.awaited _ (.head _)
    · exact hready.awaited _ (.tail _ (.head _))

theorem grounded_of_unary (h : chart.Grounded ctx done)
    (hcands : ctx.candidates chart (.unary span.first span.last) = .ok candidates)
    {c : Cell S} (hc : c ∈ candidates) : c.Grounded ctx done chart span := by
  rw [Context.candidates_unary hsize] at hcands
  obtain ⟨b, hb, hyields⟩ := bind_eq_ok.mp hcands
  have hheld : ∀ a ∈ b.cells.map (·.2), a.Grounded ctx done chart span := by
    intro a ha
    exact h span hsize b (Chart.beam_eq_ok_iff.mp hb) a (Beam.mem_stock_of_kept ha)
  refine (fresh_of_unaryOf (fun a ha p hp => ((hheld a ha).steps p hp).faithful)
    hyields hc).grounded
    fun q hq => ?_
  obtain ⟨a, ha, cs, hcs, hc⟩ := (mem_yieldAll hyields).mp hc
  obtain ⟨rule, hrule, result, happly, hprunes, full, _, p, hp, step, hstep, rfl⟩ :=
    (Context.mem_unaryOf_iff hcs).mp hc
  obtain ⟨hp, hplain⟩ := List.mem_filter.mp hp
  have hplain : p.step.making.rule.isOverloaded = false := by simpa [Step.rule] using hplain
  obtain ⟨name, hname, hstep⟩ := bind_eq_ok.mp hstep
  obtain rfl := Except.ok.inj hstep
  obtain rfl := List.mem_singleton.mp hq
  have hstep := (hheld a ha).steps p hp
  have happly := Context.apply_of_applyUnary happly
  rw [(hheld a ha).span_eq, ← (hheld a ha).packed.root p hp] at happly
  have hspan : p.step.span = span := hstep.faithful.span_eq
  constructor
  · have hmakes := hstep.makes.unary hplain hrule happly hprunes hname
    rwa [← hspan] at hmakes ⊢
  · exact hstep.finished

end Candidates

/-- What a job that is ready pushes is grounded. -/
theorem Chart.Grounded.of_candidates (h : chart.Grounded ctx done) (hsize : span.size = ctx.size)
    (hjob : job.Of span) (hready : Ready ctx.size done job)
    (hcands : ctx.candidates chart job = .ok candidates) :
    ∀ c ∈ candidates, c.Grounded ctx done chart span := by
  intro c hc
  rcases hjob with hbase | rfl
  · cases hbase with
    | lexical => exact grounded_of_entry hsize hcands hc
    | split hk => exact grounded_of_split hsize h hk hready hcands hc
  · exact grounded_of_unary hsize h hcands hc

theorem Context.forall_of_cellsOf {Q : Cell S → Prop} (hQ : ∀ c d m, Q c → Q d → c.Merges d m → Q m)
    (h : ctx.cellsOf chart job = .ok (cells, pruned))
    (hcands : ∀ candidates, ctx.candidates chart job = .ok candidates → ∀ c ∈ candidates, Q c) :
    ∀ c ∈ cells, Q c := by
  obtain ⟨candidates, first, batch, hok, hfirst, hpush, hfinish⟩ :=
    (ctx.keeps_cellsOf chart job cells pruned).mp h
  have hall := hcands candidates hok
  rcases batchFor_eq_ok hfirst with rfl | ⟨capacity, order, rfl⟩
  · rw [Batch.pushAll_all] at hpush
    obtain rfl := Except.ok.inj hpush
    obtain ⟨rfl, _⟩ := Prod.mk.inj hfinish
    intro c hc
    exact hall c (by simpa using hc)
  · obtain ⟨b, hoffer, rfl⟩ := Batch.pushAll_best_eq_ok.mp hpush
    obtain ⟨rfl, _⟩ := Prod.mk.inj hfinish
    intro c hc
    refine Beam.forall_stock_of_offerAll hQ hoffer (fun c hc => ?_) hall c
      (Beam.mem_stock_of_kept hc)
    simp at hc

theorem Chart.Grounded.cellsOf (h : chart.Grounded ctx done) (hsize : span.size = ctx.size)
    (hjob : job.Of span) (hready : Ready ctx.size done job)
    (hcells : ctx.cellsOf chart job = .ok (cells, pruned)) :
    ∀ c ∈ cells, c.Grounded ctx done chart span :=
  Context.forall_of_cellsOf (fun _ _ _ hc hd hm => hc.merges hd hm) hcells
    fun _ hcands => h.of_candidates hsize hjob hready hcands

/-- A job adds to no span whose unary job is done, so what the cells there are built on stays. -/
theorem Closed.cell_eq (h : Closed ctx.size done) (hready : Ready ctx.size done job)
    (hnew : job ∉ done) (hadds : chart.Adds job.first job.last cells pruned chart') (id : CellId)
    (hid : .unary id.first id.last ∈ done) : chart'.cell id = chart.cell id := by
  obtain ⟨b, b', _, _, rfl⟩ := hadds
  have hne : (id.first, id.last) ≠ (job.first, job.last) := by
    intro he
    obtain ⟨hf, hl⟩ := Prod.mk.inj he
    exact hnew (h.mem_of_finished (by rwa [← hf, ← hl]) hready.within)
  simp only [Chart.cell, Chart.beam, Chart.beam?_setBeam_ne hready.within.first_le_last hne]

theorem Filled.grounded (h : Filled ctx P done chart) : chart.Grounded ctx done := by
  induction h with
  | new h =>
    intro span hsize b hb c hc
    obtain rfl := Chart.eq_empty_of_new h hb
    simp at hc
  | @add done chart chart' job cells pruned hfilled hready hnew hP hcells hadds ih =>
    have hcell := hfilled.closed.cell_eq hready hnew hadds
    obtain ⟨span, b, b', hsize, hjob, hat⟩ := hfilled.exists_addsAt hready hadds
    intro other hother b₂ hb₂ c hc
    apply Cell.Grounded.transfer hcell _ (Set.subset_insert _ _)
    by_cases hspan : other = span
    · subst hspan
      obtain rfl := Option.some.inj (hat.self.symm.trans hb₂)
      rw [Beam.stock_markPruned_if] at hc
      exact hat.takes.forall_stock (fun _ _ _ hc hd hm => hc.merges hd hm)
        (ih other hsize b hat.beam)
        (ih.cellsOf hsize hjob hready hcells) c hc
    · rw [hat.others other (hother.trans hsize.symm) hspan] at hb₂
      exact ih other hother b₂ hb₂ c hc

/-- The cells of a finished chart are grounded, whatever way it was built. -/
theorem Context.BuildsWhere.grounded (h : ctx.BuildsWhere P chart) :
    ∃ done : Set Job, ∀ id c, chart.cell id = .ok c → ∃ span : Span, span.size = ctx.size ∧
      span.first = id.first ∧ span.last = id.last ∧ c.Grounded ctx done chart span := by
  obtain ⟨done, whole, hwhole, _, rfl⟩ := h.filled
  refine ⟨done, fun id c hc => ?_⟩
  rw [Chart.cell_close] at hc
  obtain ⟨b, hb, _⟩ := Chart.cell_eq_ok_iff.mp hc
  obtain ⟨hle, hlt⟩ := Chart.bounds_of_beam? hwhole.size hb
  let span : Span := ⟨id.first, id.last, ctx.size, hle, hlt⟩
  refine ⟨span, rfl, rfl, rfl, ?_⟩
  exact (hwhole.grounded.cell span rfl hc).transfer (fun id _ => Chart.cell_close id) subset_rfl

theorem Context.BuildsWhere.isFullParse_eq (h : ctx.BuildsWhere P chart)
    {x y : CellId × Cell S} {first last : Nat} (hx : x ∈ chart.cellsAt first last)
    (hy : y ∈ chart.cellsAt first last) (hxy : x.2.category = y.2.category) :
    x.2.isFullParse = y.2.isFullParse := by
  obtain ⟨done, hgrounded⟩ := h.grounded
  obtain ⟨hxf, hxl, hx⟩ := Chart.mem_cellsAt_iff.mp hx
  obtain ⟨hyf, hyl, hy⟩ := Chart.mem_cellsAt_iff.mp hy
  obtain ⟨span, hsize, hfirst, hlast, hgx⟩ := hgrounded _ _ hx
  obtain ⟨span', hsize', hfirst', hlast', hgy⟩ := hgrounded _ _ hy
  obtain rfl : span = span' := Span.ext_bounds (hsize.trans hsize'.symm)
    (by rw [hfirst, hfirst', hxf, hyf]) (by rw [hlast, hlast', hxl, hyl])
  have hsame := hgx.isFullParse.symm.trans ((congrArg _ hxy).trans hgy.isFullParse)
  exact Except.ok.inj hsame

theorem Context.BuildsWhere.mem_categories_fullParses_iff (h : ctx.BuildsWhere P chart)
    {x : CellId × Cell S} (hx : x ∈ chart.cellsAt 0 (chart.size - 1)) :
    x.2.category ∈ chart.fullParses.map (·.2.category) ↔ x.2.isFullParse = true := by
  rw [List.mem_map]
  constructor
  · rintro ⟨y, hy, hxy⟩
    obtain ⟨hy, hfull⟩ := List.mem_filter.mp hy
    rw [← hfull]
    exact h.isFullParse_eq hx hy hxy.symm
  · intro hfull
    exact ⟨x, List.mem_filter.mpr ⟨hx, hfull⟩, rfl⟩

theorem Context.BuildsWhere.fullParses_filter (h : ctx.BuildsWhere P chart)
    (filter : Category → Bool) :
    ((chart.cellsAt 0 (chart.size - 1)).filter fun x =>
      decide (x.2.category ∈ chart.fullParses.map (·.2.category)) && filter x.2.category) =
      chart.fullParses.filter fun x => filter x.2.category := by
  rw [Chart.fullParses, List.filter_filter]
  refine List.filter_congr fun x hx => ?_
  rw [Bool.and_comm]
  refine congrArg (filter x.2.category && ·) ?_
  rw [Bool.eq_iff_iff, decide_eq_true_iff]
  exact h.mem_categories_fullParses_iff hx

end Categorial
