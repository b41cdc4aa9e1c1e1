import Categorial.Proofs.Chart.Sparing
import Categorial.Proofs.Parser.Grounding

/-! # Parses without pruning

As long as no cell is evicted or rejected, neither from a batch nor from the chart, a chart has
every step that the grammar makes of it, and has it once.
-/

namespace Categorial

variable {S : Type}

namespace RuleName

variable {n unary name : RuleName}

theorem overload?_eq_some : n.overload? unary = some name ↔
    n.isOverloaded = false ∧ unary.isOverloaded = false ∧ name = ⟨n.base, some unary.base⟩ := by
  unfold overload?
  cases n.isOverloaded <;> cases unary.isOverloaded <;> simp [eq_comm]

theorem overload_eq_ok : n.overload unary = .ok name ↔
    n.isOverloaded = false ∧ unary.isOverloaded = false ∧ name = ⟨n.base, some unary.base⟩ := by
  rw [← overload?_eq_some, overload]
  cases n.overload? unary <;> simp

theorem plain_base (h : n.isOverloaded = false) : plain n.base = n := by
  obtain ⟨base, unary⟩ := n
  cases unary with
  | none => rfl
  | some u => simp [isOverloaded] at h

theorem unary_eq_none (h : n.isOverloaded = false) : n.unary = none := by
  simpa [isOverloaded] using h

theorem outermost_eq_base (h : n.isOverloaded = false) : n.outermost = n.base := by
  rw [outermost, unary_eq_none h, Option.getD_none]

theorem eq_of_base {n' : RuleName} (h : n.isOverloaded = false) (h' : n'.isOverloaded = false)
    (hbase : n.base = n'.base) : n = n' := by
  rw [← plain_base h, ← plain_base h', hbase]

end RuleName

/-- Rules report their results under their own names, which are unique and not overloaded, and no
normal form restricts them. -/
structure Grammar.Plain (g : Grammar) : Prop where
  normalForm : g.normalForm = none
  unique : g.ruleNames.Nodup
  plain : ∀ name ∈ g.ruleNames, name.isOverloaded = false
  binary : ∀ rule ∈ g.binaryRules, ∀ left right span result,
    rule.apply left right span = .ok (some result) → result.name = rule.name
  unary : ∀ rule ∈ g.unaryRules, ∀ category span result,
    rule.apply category span = .ok (some result) → result.name = rule.name

structure Grammar.OwnNames (g : Grammar) : Prop where
  plain : ∀ name ∈ g.ruleNames, name.isOverloaded = false
  binary : ∀ rule ∈ g.binaryRules, ∀ left right span result,
    rule.apply left right span = .ok (some result) → result.name = rule.name
  unary : ∀ rule ∈ g.unaryRules, ∀ category span result,
    rule.apply category span = .ok (some result) → result.name = rule.name

namespace Grammar.OwnNames

variable {g : Grammar} (h : g.OwnNames) {result : RuleResult} {span : Span}

include h

theorem binary_result {rule : BinaryRule} {left right : Category} (hrule : rule ∈ g.binaryRules)
    (happly : rule.apply left right span = .ok (some result)) :
    result.name = rule.name ∧ result.name.isOverloaded = false := by
  have hname := h.binary rule hrule left right span result happly
  exact ⟨hname, hname ▸ h.plain _ (List.mem_append_left _ (List.mem_map_of_mem hrule))⟩

theorem unary_result {rule : UnaryRule} {category : Category} (hrule : rule ∈ g.unaryRules)
    (happly : rule.apply category span = .ok (some result)) :
    result.name = rule.name ∧ result.name.isOverloaded = false := by
  have hname := h.unary rule hrule category span result happly
  exact ⟨hname, hname ▸ h.plain _ (List.mem_append_right _ (List.mem_map_of_mem hrule))⟩

end Grammar.OwnNames

theorem Grammar.Plain.ownNames {g : Grammar} (h : g.Plain) : g.OwnNames :=
  ⟨h.plain, h.binary, h.unary⟩

/-- The job that makes a step. -/
def Making.job (m : Making) : Job :=
  if m.rule.isOverloaded then .unary m.span.first m.span.last
  else match m.source with
    | .entry _ => .lexical m.span.first m.span.last
    | .cells left _ => .split m.span.first m.span.last (left.last - m.span.first)

theorem Making.job_cells {left right : CellId} {name : RuleName} {span : Span} {root : Category}
    (hname : name.isOverloaded = false) (h : (Source.cells left right).Splits span) :
    ∃ k, ∃ _ : k < span.numSplits, left.first = span.first ∧ left.last = span.first + k ∧
      right.first = span.first + k + 1 ∧ right.last = span.last ∧
      (Making.mk (.cells left right) name span root none).job = .split span.first span.last k := by
  obtain ⟨k, hk, hlf, hll, hrf, hrl⟩ := h
  have hcut : left.last - span.first = k := by rw [hll, Nat.add_sub_cancel_left]
  refine ⟨k, hk, hlf, hll, hrf, hrl, ?_⟩
  simp [job, hname, hcut]

theorem Making.job_bounds (m : Making) :
    (m.job.first, m.job.last) = (m.span.first, m.span.last) := by
  unfold job
  split
  · rfl
  · split <;> rfl

structure Cell.Has (c : Cell S) (m : Making) : Prop where
  category : c.category = m.root
  step : c.containsStep m = true

theorem Cell.Within.has {c d : Cell S} {m : Making} (h : c.Within d) (hc : c.Has m) : d.Has m :=
  ⟨h.category.trans hc.category, h.steps m hc.step⟩

def Beam.Has (b : Beam S) (m : Making) : Prop :=
  ∃ c ∈ b.cells.map (·.2), c.Has m

namespace Context.Makes

variable {ctx : Context S} {chart : Chart S} {span : Span} {m : Making} {done : Set Job}

theorem span_eq (h : ctx.Makes chart span m) : m.span = span := by
  cases h <;> rfl

theorem isOverloaded (hnames : ctx.grammar.OwnNames) (h : ctx.Makes chart span m) :
    m.rule.isOverloaded = m.intermediate.isSome := by
  cases h with
  | entry _ _ => rfl
  | binary _ _ _ hrule happly _ => exact (hnames.binary_result hrule happly).2
  | unary _ _ _ _ _ hname =>
    obtain ⟨_, _, rfl⟩ := RuleName.overload_eq_ok.mp hname
    rfl

theorem job_base (h : ctx.Makes chart span m)
    (hrule : m.rule.isOverloaded = false) : m.job.Base span := by
  cases h with
  | entry _ _ => exact .lexical
  | binary hsplits _ _ _ _ _ =>
    obtain ⟨k, hk, _, _, _, _, hjob⟩ := Making.job_cells hrule hsplits
    rw [hjob]
    exact .split hk
  | unary _ _ _ _ _ hname =>
    obtain ⟨_, _, rfl⟩ := RuleName.overload_eq_ok.mp hname
    simp [RuleName.isOverloaded] at hrule

theorem job_of (h : ctx.Makes chart span m) : m.job.Of span := by
  cases hrule : m.rule.isOverloaded with
  | false => exact .inl (h.job_base hrule)
  | true => exact .inr (by rw [Making.job, if_pos hrule, h.span_eq])

theorem finished (hnames : ctx.grammar.OwnNames) (hclosed : Closed ctx.size done)
    (h : ctx.Makes chart span m) (hready : Ready ctx.size done m.job) :
    ∀ id ∈ m.source.children, .unary id.first id.last ∈ done := by
  induction h with
  | entry _ _ => simp [Source.children]
  | binary hsplits _ _ hrule happly _ =>
    obtain ⟨k, _, hlf, hll, hrf, hrl, hjob⟩ :=
      Making.job_cells (hnames.binary_result hrule happly).2 hsplits
    rw [hjob] at hready
    intro id hid
    rcases List.mem_pair.mp hid with rfl | rfl
    · rw [hlf, hll]
      exact hready.awaited _ (.head _)
    · rw [hrf, hrl]
      exact hready.awaited _ (.tail _ (.head _))
  | unary hbase hbaserule _ _ _ hname ih =>
    obtain ⟨_, _, rfl⟩ := RuleName.overload_eq_ok.mp hname
    have hmem := Job.base_iff_mem_awaits.mp (hbase.job_base hbaserule)
    exact ih (hclosed _ (hready.awaited _ hmem))

end Context.Makes

namespace Context

variable {ctx : Context S} {left right : Argument S} {span : Span}

theorem applyBinary_eq {rule : BinaryRule} (hallows : ∀ nf ∈ ctx.grammar.normalForm,
      nf.allowsBinary left.ruleNames right.ruleNames rule.name = true)
    (hmeets : left.cell.span.meets right.cell.span = true)
    (hjoin : left.cell.span.join right.cell.span = .ok span) :
    ctx.applyBinary rule left right = rule.apply left.cell.category right.cell.category span := by
  have hpasses : ctx.grammar.normalForm.any
      (!·.allowsBinary left.ruleNames right.ruleNames rule.name) = false := by
    cases hnf : ctx.grammar.normalForm with
    | none => rfl
    | some nf => simp [hallows nf hnf]
  simp only [applyBinary, hmeets, hpasses, hjoin]
  rfl

theorem applyUnary_eq {rule : UnaryRule} (hallows : ∀ nf ∈ ctx.grammar.normalForm,
      nf.allowsUnary left.ruleNames rule.name = true) :
    ctx.applyUnary rule left = rule.apply left.cell.category left.cell.span := by
  have hpasses : ctx.grammar.normalForm.any (!·.allowsUnary left.ruleNames rule.name) = false := by
    cases hnf : ctx.grammar.normalForm with
    | none => rfl
    | some nf => simp [hallows nf hnf]
  simp [applyUnary, hpasses]

end Context

variable [Scalar S]

theorem Cell.has_new (step : Step S) (children : ChildScores S) :
    (Cell.new step children).Has step.making :=
  ⟨rfl, by simp [Cell.new, Cell.containsStep]⟩

namespace Context

variable {ctx : Context S} {chart : Chart S} {span : Span} {m : Making} {done : Set Job}
  {result : RuleResult} {b : Beam S} {cells candidates : List (Cell S)}

section Candidates

variable (hsize : span.size = ctx.size)

include hsize

theorem exists_candidate_of_entry {entry : LexicalEntry}
    (hentry : entry ∈ ctx.lexicon.entriesFor (ctx.tokensOf span))
    (hprunes : ctx.hardPrunes ⟨entry.category, span, .lexical⟩ = .ok false)
    (hcands : ctx.candidates chart (.lexical span.first span.last) = .ok candidates) :
    ∃ c ∈ candidates, c.Has ⟨.entry entry, .lexical, span, entry.category, none⟩ := by
  have hyields := (candidates_lexical hsize).symm.trans hcands
  obtain ⟨cs, hcs⟩ := exists_yieldAll_iff.mp ⟨_, hyields⟩ entry hentry
  have hcell := ok_of_bind hprunes hcs
  obtain ⟨full, hfull, _⟩ := bind_eq_ok.mp hcell
  have hc := (mem_candidates_lexical hsize hcands).mpr ⟨entry, hentry, hprunes, full, hfull, rfl⟩
  exact ⟨_, hc, Cell.has_new _ _⟩

theorem exists_candidate_of_split (hgrounded : chart.Grounded ctx done) {k : Nat}
    (hk : k < span.numSplits) {left right : CellId} {l r : Cell S} {rule : BinaryRule}
    (hlf : left.first = span.first) (hll : left.last = span.first + k)
    (hrf : right.first = span.first + k + 1) (hrl : right.last = span.last)
    (hl : chart.cell left = .ok l) (hr : chart.cell right = .ok r)
    (hrule : rule ∈ ctx.grammar.binaryRules)
    (hallows : ∀ nf ∈ ctx.grammar.normalForm,
      nf.allowsBinary l.ruleNames r.ruleNames rule.name = true)
    (happly : rule.apply l.category r.category span = .ok (some result))
    (hprunes : ctx.prunes ⟨result.category, span, rule.name⟩ true = .ok false)
    (hcands : ctx.candidates chart (.split span.first span.last k) = .ok candidates) :
    ∃ c ∈ candidates, c.Has ⟨.cells left right, result.name, span, result.category, none⟩ := by
  have hleft : left = ⟨span.first, span.first + k, left.key⟩ := by rw [← hll, ← hlf]
  have hright : right = ⟨span.first + k + 1, span.last, right.key⟩ := by rw [← hrf, ← hrl]
  have hlspan : l.span = (span.split k hk).1 :=
    (hgrounded.cell (span.split k hk).1 hsize (hleft ▸ hl)).span_eq
  have hrspan : r.span = (span.split k hk).2 :=
    (hgrounded.cell (span.split k hk).2 hsize (hright ▸ hr)).span_eq
  have happly' : ctx.applyBinary rule ⟨left, l, l.ruleNames⟩ ⟨right, r, r.ruleNames⟩ =
      .ok (some result) := by
    rw [← happly]
    refine applyBinary_eq hallows ?_ ?_
    · rw [hlspan, hrspan]
      exact span.meets_split hk
    · rw [hlspan, hrspan]
      exact span.ofBounds_self
  have hleftfound : (⟨left, l, l.ruleNames⟩ : Argument S).FoundIn chart span.first
      (span.first + k) := ⟨left.key, l, hleft ▸ hl, by rw [← hleft]⟩
  have hrightfound : (⟨right, r, r.ruleNames⟩ : Argument S).FoundIn chart (span.first + k + 1)
      span.last := ⟨right.key, r, hright ▸ hr, by rw [← hright]⟩
  -- whether the cell is a full parse was found out without a fault
  obtain ⟨full, hfull⟩ : ∃ full, ctx.isFullParse span result.category = .ok full := by
    have hyields := (candidates_split hsize hk).symm.trans hcands
    obtain ⟨lefts, hlefts, hyields⟩ := bind_eq_ok.mp hyields
    obtain ⟨rights, hrights, hyields⟩ := bind_eq_ok.mp hyields
    obtain ⟨_, hyields⟩ := exists_yieldAll_iff.mp ⟨_, hyields⟩ _
      ((mem_arguments_iff hlefts).mpr hleftfound)
    obtain ⟨_, hyields⟩ := exists_yieldAll_iff.mp ⟨_, hyields⟩ _
      ((mem_arguments_iff hrights).mpr hrightfound)
    obtain ⟨_, hyields⟩ := exists_yieldAll_iff.mp ⟨_, hyields⟩ _ hrule
    have hcell := ok_of_bind happly' hyields
    have hcell := ok_of_bind hprunes hcell
    obtain ⟨full, hfull, _⟩ := bind_eq_ok.mp hcell
    exact ⟨full, hfull⟩
  have hc := (mem_candidates_split hsize hk hcands).mpr
    ⟨_, _, hleftfound, hrightfound, rule, hrule, result, happly', hprunes, full, hfull, rfl⟩
  exact ⟨_, hc, Cell.has_new _ _⟩

theorem exists_candidate_of_unary (hgrounded : chart.Grounded ctx done)
    (hb : chart.beam? span.first span.last = some b) {base : Making} (hbase : b.Has base)
    {rule : UnaryRule} {name : RuleName} (hspan : base.span = span)
    (hrule : rule ∈ ctx.grammar.unaryRules)
    (hallows : ∀ a ∈ b.cells.map (·.2), a.Has base → ∀ nf ∈ ctx.grammar.normalForm,
      nf.allowsUnary a.ruleNames rule.name = true)
    (happly : rule.apply base.root span = .ok (some result))
    (hprunes : ctx.prunes ⟨result.category, span, rule.name⟩ false = .ok false)
    (hname : base.rule.overload result.name = .ok name)
    (hcands : ctx.candidates chart (.unary span.first span.last) = .ok candidates) :
    ∃ c ∈ candidates, c.Has ⟨base.source, name, span, result.category, some base.root⟩ := by
  obtain ⟨a, ha, hhas⟩ := hbase
  have haspan : a.span = span :=
    (hgrounded span hsize b hb a (Beam.mem_stock_of_kept ha)).span_eq
  obtain ⟨p, hp, rfl⟩ := List.mem_map.mp ((Cell.containsStep_iff _ _).mp hhas.step)
  have hpplain : p ∈ plainSteps a := by
    refine List.mem_filter.mpr ⟨hp, ?_⟩
    simpa [Step.rule] using (RuleName.overload_eq_ok.mp hname).1
  have happly' : ctx.applyUnary rule ⟨⟨span.first, span.last, 0⟩, a, a.ruleNames⟩ =
      .ok (some result) := by
    rw [applyUnary_eq (hallows a ha hhas), hhas.category, haspan, happly]
  obtain ⟨full, hfull⟩ : ∃ full, ctx.isFullParse span result.category = .ok full := by
    have hyields := (candidates_unary hsize).symm.trans hcands
    have hyields := ok_of_bind (Chart.beam_eq_ok_iff.mpr hb) hyields
    obtain ⟨_, hyields⟩ := exists_yieldAll_iff.mp ⟨_, hyields⟩ a ha
    obtain ⟨_, hyields⟩ := exists_yieldAll_iff.mp ⟨_, hyields⟩ rule hrule
    have hcell := ok_of_bind happly' hyields
    have hcell := ok_of_bind hprunes hcell
    obtain ⟨full, hfull, _⟩ := bind_eq_ok.mp hcell
    exact ⟨full, hfull⟩
  have hstep : p.step.overload ctx.model result full =
      .ok (.scored ctx.model ⟨p.step.making.source, name, p.step.span, result.category,
        some p.step.root⟩ full) :=
    bind_eq_ok.mpr ⟨name, hname, rfl⟩
  have hc := (mem_candidates_unary hsize hcands).mpr ⟨b, hb, a, ha, rule, hrule, result, happly',
    hprunes, full, hfull, p, hpplain, _, hstep, rfl⟩
  refine ⟨_, hc, ?_⟩
  rw [← hspan]
  exact Cell.has_new _ _

end Candidates

/-- Steps of a kind that finished spans tell, which jobs push once it is their turn. -/
structure Makeable (ctx : Context S) (M : Chart S → Span → Making → Prop) : Prop where
  makes : ∀ {chart span m}, M chart span m → ctx.Makes chart span m
  before : ∀ {done : Set Job} {chart chart' span m}, Closed ctx.size done →
    Ready ctx.size done m.job →
    (∀ id : CellId, .unary id.first id.last ∈ done → chart'.cell id = chart.cell id) →
    M chart' span m → M chart span m
  exists_candidate : ∀ {P : Chart S → Job → Prop} {done : Set Job} {chart span m b candidates},
    Filled ctx P done chart → span.size = ctx.size → chart.beam? span.first span.last = some b →
    m.job ∉ done → M chart span m →
    (m.job = .unary span.first span.last → ∀ base, M chart span base →
      base.rule.isOverloaded = false → b.Has base) →
    ctx.candidates chart m.job = .ok candidates → ∃ c ∈ candidates, c.Has m

/-- Without a normal form a job pushes all that the grammar makes. Steps that a unary rule can be
folded into have to be there at the turn of the unary rules. -/
theorem makeable_makes (hplain : ctx.grammar.Plain) : ctx.Makeable ctx.Makes where
  makes h := h
  before hclosed hready hcells h :=
    h.transfer (fun id hid => (hcells id hid).symm) (h.finished hplain.ownNames hclosed hready)
  exists_candidate hfilled hsize hb _ h hhas hcands := by
    have hallows : ∀ {p : NormalForm → Prop}, ∀ nf ∈ ctx.grammar.normalForm, p nf := by
      simp [hplain.normalForm]
    cases h with
    | entry hentry hprunes => exact exists_candidate_of_entry hsize hentry hprunes hcands
    | binary hsplits hl hr hrule happly hprunes =>
      obtain ⟨k, hk, hlf, hll, hrf, hrl, hjob⟩ :=
        Making.job_cells (hplain.ownNames.binary_result hrule happly).2 hsplits
      rw [hjob] at hcands
      exact exists_candidate_of_split hsize hfilled.grounded hk hlf hll hrf hrl hl hr hrule hallows
        happly hprunes hcands
    | unary hbase hbaserule hrule happly hprunes hname =>
      obtain ⟨_, _, rfl⟩ := RuleName.overload_eq_ok.mp hname
      exact exists_candidate_of_unary hsize hfilled.grounded hb (hhas rfl _ hbase hbaserule)
        hbase.span_eq hrule (fun _ _ _ => hallows) happly hprunes hname hcands

end Context

/-- A batch turns none of these cells away. -/
def Batch.Spares : Batch S → List (Cell S) → Prop
  | .all _, _ => True
  | .best b, cells => b.SparesAll cells

/-- No queue evicts or rejects a cell when a job is done on a chart, neither the batch of the job
nor the beam that the job adds to. -/
structure Context.Spares (ctx : Context S) (chart : Chart S) (job : Job) : Prop where
  batch : ∀ first candidates, ctx.batchFor job = .ok first →
    ctx.candidates chart job = .ok candidates → first.Spares candidates
  beam : ∀ cells pruned b, ctx.cellsOf chart job = .ok (cells, pruned) →
    chart.beam job.first job.last = .ok b → b.SparesAll cells

variable {ctx : Context S} {chart chart' : Chart S} {span : Span} {done : Set Job} {job : Job}
  {m : Making} {cells : List (Cell S)} {pruned : Bool} {b b' : Beam S}

omit [Scalar S] in
theorem Beam.Absorbs.has (h : b.Absorbs cells b') (hb : b.Has m) : b'.Has m := by
  obtain ⟨c, hc, hm⟩ := hb
  obtain ⟨d, hd, hwithin⟩ := h c (List.mem_append_right _ hc)
  exact ⟨d, hd, hwithin.has hm⟩

omit [Scalar S] in
theorem Beam.Absorbs.has_of_mem (h : b.Absorbs cells b') (hm : ∃ c ∈ cells, c.Has m) :
    b'.Has m := by
  obtain ⟨c, hc, hm⟩ := hm
  obtain ⟨d, hd, hwithin⟩ := h c (List.mem_append_left _ hc)
  exact ⟨d, hd, hwithin.has hm⟩

theorem Context.Spares.exists_cell (h : ctx.Spares chart job)
    (hcells : ctx.cellsOf chart job = .ok (cells, pruned))
    (hm : ∀ candidates, ctx.candidates chart job = .ok candidates → ∃ c ∈ candidates, c.Has m) :
    ∃ c ∈ cells, c.Has m := by
  obtain ⟨candidates, first, batch, hcands, hfirst, hpush, hfinish⟩ :=
    (ctx.keeps_cellsOf chart job cells pruned).mp hcells
  have hspares := h.batch first candidates hfirst hcands
  have hm := hm candidates hcands
  rcases batchFor_eq_ok hfirst with rfl | ⟨capacity, order, rfl⟩
  · rw [Batch.pushAll_all] at hpush
    obtain rfl := Except.ok.inj hpush
    obtain ⟨rfl, _⟩ := Prod.mk.inj hfinish
    simpa using hm
  · obtain ⟨b, hoffer, rfl⟩ := Batch.pushAll_best_eq_ok.mp hpush
    obtain ⟨rfl, _⟩ := Prod.mk.inj hfinish
    exact ((Beam.calm_empty capacity order false).offerAll hspares hoffer).2.has_of_mem hm

omit [Scalar S] in
theorem Beam.Calm.markPruned_if (h : b.Calm) (pruned : Bool) :
    (if pruned then b.markPruned else b).Calm := by
  split
  · exact ⟨⟨h.indexed.index_iff, h.indexed.numBounded_eq⟩, h.setAside⟩
  · exact h

omit [Scalar S] in
theorem Beam.Has.markPruned_if (h : b.Has m) (pruned : Bool) :
    (if pruned then b.markPruned else b).Has m := by
  split <;> exact h

/-- Without pruning no beam sets a cell aside. -/
theorem Filled.calm (h : Filled ctx ctx.Spares done chart) (hsize : span.size = ctx.size)
    {b : Beam S} (hb : chart.beam? span.first span.last = some b) : b.Calm := by
  induction h generalizing b with
  | new h =>
    obtain rfl := Chart.eq_empty_of_new h hb
    exact Beam.calm_empty _ _ _
  | @add done chart chart' job cells pruned hfilled hready _ hspares hcells hadds ih =>
    obtain ⟨other, b₁, b₂, hother, hjob, hat⟩ := hfilled.exists_addsAt hready hadds
    by_cases hspan : span = other
    · subst hspan
      obtain rfl := Option.some.inj (hat.self.symm.trans hb)
      obtain ⟨hf, hl⟩ := Prod.mk.inj hjob.bounds
      have hbeam : chart.beam job.first job.last = .ok b₁ := by
        rw [hf, hl, Chart.beam_eq_ok_iff]
        exact hat.beam
      have htakes := (ih hat.beam).takes (hspares.beam _ _ _ hcells hbeam) hat.takes
      exact htakes.1.markPruned_if pruned
    · rw [hat.others span (hsize.trans hother.symm) hspan] at hb
      exact ih hb

section Makeable

variable {M : Chart S → Span → Making → Prop}

theorem Filled.takes_has (hM : ctx.Makeable M) (hfilled : Filled ctx ctx.Spares done chart)
    (hready : Ready ctx.size done job) (hnew : job ∉ done) (hspares : ctx.Spares chart job)
    (hsize : span.size = ctx.size) (hjob : job.Of span)
    (hb : chart.beam? span.first span.last = some b)
    (hhas : ∀ m, M chart span m → m.job ∈ done → b.Has m)
    (hcells : ctx.cellsOf chart job = .ok (cells, pruned))
    (htakes : b.Takes span.first span.last cells b') (hm : M chart span m)
    (hdone : m.job ∈ insert job done) : b'.Has m := by
  obtain ⟨hf, hl⟩ := Prod.mk.inj hjob.bounds
  have hbeam : chart.beam job.first job.last = .ok b := by rwa [hf, hl, Chart.beam_eq_ok_iff]
  obtain ⟨_, habsorbs⟩ :=
    (hfilled.calm hsize hb).takes (hspares.beam cells pruned b hcells hbeam) htakes
  rcases hdone with rfl | hdone
  · refine habsorbs.has_of_mem (hspares.exists_cell hcells fun candidates hcands => ?_)
    refine hM.exists_candidate hfilled hsize hb hnew hm (fun hunary base hbase hrule => ?_) hcands
    -- what a unary rule can be folded into is there before
    have hawaited := Job.base_iff_mem_awaits.mp ((hM.makes hbase).job_base hrule)
    exact hhas base hbase (hready.awaited _ (hunary ▸ hawaited))
  · exact habsorbs.has (hhas m hm hdone)

/-- A chart that was filled without pruning has all that the jobs done can make. -/
theorem Filled.has (hM : ctx.Makeable M) (h : Filled ctx ctx.Spares done chart)
    (hsize : span.size = ctx.size) (hb : chart.beam? span.first span.last = some b)
    (hm : M chart span m) (hdone : m.job ∈ done) : b.Has m := by
  induction h generalizing span b m with
  | new h => exact hdone.elim
  | @add done chart chart' job cells pruned hfilled hready hnew hspares hcells hadds ih =>
    have hclosed := hfilled.closed
    have hcell := hclosed.cell_eq hready hnew hadds
    -- the step was made before the job was done
    have hm_ready : Ready ctx.size done m.job := hdone.elim (fun he => he ▸ hready) (hclosed _)
    have hbefore : M chart span m := hM.before hclosed hm_ready hcell hm
    obtain ⟨other, b₁, b₂, hother, hjob, hat⟩ := hfilled.exists_addsAt hready hadds
    by_cases hspan : span = other
    · subst hspan
      obtain rfl := Option.some.inj (hat.self.symm.trans hb)
      have hhas := hfilled.takes_has hM hready hnew hspares hother hjob hat.beam
        (fun m hm hdone => ih hother hat.beam hm hdone) hcells hat.takes hbefore hdone
      exact hhas.markPruned_if pruned
    · rw [hat.others span (hsize.trans hother.symm) hspan] at hb
      refine ih hsize hb hbefore (hdone.resolve_left ?_)
      rintro rfl
      apply hspan
      obtain ⟨hf, hl⟩ := Prod.mk.inj (hjob.bounds.symm.trans m.job_bounds)
      rw [(hM.makes hm).span_eq] at hf hl
      exact Span.ext_bounds (hsize.trans hother.symm) hf.symm hl.symm

theorem Context.BuildsWhere.exists_cell (hM : ctx.Makeable M)
    (h : ctx.BuildsWhere ctx.Spares chart) (hsize : span.size = ctx.size) (hm : M chart span m) :
    ∃ id c, (id, c) ∈ chart.cellsAt span.first span.last ∧ c.Has m := by
  obtain ⟨all, whole, hwhole, hall, rfl⟩ := h.filled
  obtain ⟨b, hb⟩ := hwhole.exists_beam hsize
  have hdone : m.job ∈ all := hall _ ⟨span, hsize, (hM.makes hm).job_of⟩
  have hmade : M whole span m :=
    hM.before hwhole.closed (hwhole.closed _ hdone) (fun id _ => Chart.cell_close id) hm
  obtain ⟨_, hc, hhas⟩ := hwhole.has hM hsize hb hmade hdone
  obtain ⟨x, hx, rfl⟩ := List.mem_map.mp hc
  refine ⟨⟨span.first, span.last, x.1⟩, x.2, Chart.mem_cellsAt_iff.mpr ⟨rfl, rfl, ?_⟩, hhas⟩
  rw [Chart.cell_close]
  exact Chart.cell_eq_ok_iff.mpr ⟨b, hb, Chart.mem_cells_iff.mp hx⟩

end Makeable

theorem Context.BuildsWhere.eq_of_category (h : ctx.BuildsWhere ctx.Spares chart)
    (hsize : span.size = ctx.size) {x y : CellId × Cell S}
    (hx : x ∈ chart.cellsAt span.first span.last) (hy : y ∈ chart.cellsAt span.first span.last)
    (hcat : x.2.category = y.2.category) : x = y := by
  obtain ⟨all, whole, hwhole, _, rfl⟩ := h.filled
  obtain ⟨b, hb⟩ := hwhole.exists_beam hsize
  rw [Chart.cellsAt, Chart.beam?_close, hb] at hx hy
  obtain ⟨x', hx', rfl⟩ := List.mem_map.mp hx
  obtain ⟨y', hy', rfl⟩ := List.mem_map.mp hy
  rw [(hwhole.calm hsize hb).indexed.eq_of_category hx' hy' hcat]

/-- A finished chart has all that the grammar makes of it, and each category at most once. -/
structure Chart.Exhaustive (ctx : Context S) (chart : Chart S) : Prop where
  makes : ∀ {span : Span} {id c}, span.size = ctx.size →
    (id, c) ∈ chart.cellsAt span.first span.last → ∀ p ∈ c.steps, ctx.Makes chart span p.step.making
  exists_cell : ∀ {span : Span} {m}, span.size = ctx.size → ctx.Makes chart span m →
    ∃ id c, (id, c) ∈ chart.cellsAt span.first span.last ∧ c.Has m
  unique : ∀ {span : Span} {x y}, span.size = ctx.size → x ∈ chart.cellsAt span.first span.last →
    y ∈ chart.cellsAt span.first span.last → x.2.category = y.2.category → x = y

/-- Whatever way a chart was built without pruning, it has all that the grammar makes of it. -/
theorem Context.BuildsWhere.exhaustive (hplain : ctx.grammar.Plain)
    (h : ctx.BuildsWhere ctx.Spares chart) : chart.Exhaustive ctx := by
  obtain ⟨done, hgrounded⟩ := h.grounded
  refine ⟨fun {span id c} hsize hc p hp => ?_,
    fun hsize hm => h.exists_cell (makeable_makes hplain) hsize hm,
    fun hsize hx hy hcat => h.eq_of_category hsize hx hy hcat⟩
  obtain ⟨hfirst, hlast, hc⟩ := Chart.mem_cellsAt_iff.mp hc
  obtain ⟨other, hother, hf, hl, hg⟩ := hgrounded id c hc
  obtain rfl := Span.ext_bounds (hother.trans hsize.symm) (hf.trans hfirst) (hl.trans hlast)
  exact (hg.steps p hp).makes

end Categorial
