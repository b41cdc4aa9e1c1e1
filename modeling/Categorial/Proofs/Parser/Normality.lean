import Categorial.Proofs.Parser.Correspondence
import Categorial.Proofs.Parser.Unpruned
import Categorial.Proofs.Rule.NormalForm

/-! # Steps in normal form

The normal form is checked when a job makes a step, with the names that the cells have at that
time. A binary step is built on cells of finished spans, which stay as they are, so it still passes
with the names of the finished chart. A unary rule has passed with all names of the cell that it was
applied to, so it passes with the name of each step that it was folded into.
-/

namespace Categorial

variable {S : Type}

/-- The base rule of a step passes with the names of the two cells, and a unary rule folded into it
with that of the base rule. -/
structure Making.Normal (nf : NormalForm) (chart : Chart S) (m : Making) : Prop where
  binary : ∀ left right, m.source = .cells left right → ∃ l r, chart.cell left = .ok l ∧
    chart.cell right = .ok r ∧ nf.allowsBinary l.ruleNames r.ruleNames (.plain m.rule.base) = true
  unary : ∀ u ∈ m.rule.unary, nf.allowsUnary [.plain m.rule.base] (.plain u) = true

theorem Making.Normal.transfer {nf : NormalForm} {chart chart' : Chart S} {m : Making}
    (h : m.Normal nf chart)
    (hcells : ∀ id ∈ m.source.children, chart'.cell id = chart.cell id) : m.Normal nf chart' where
  binary left right hsource := by
    obtain ⟨l, r, hl, hr, hallows⟩ := h.binary left right hsource
    rw [hsource] at hcells
    refine ⟨l, r, ?_, ?_, hallows⟩
    · rw [hcells left (.head _), hl]
    · rw [hcells right (.tail _ (.head _)), hr]
  unary := h.unary

namespace Context

variable {ctx : Context S} {chart : Chart S} {span : Span} {job : Job} {m : Making}

theorem allows_of_applyBinary {rule : BinaryRule} {left right : Argument S} {result : RuleResult}
    (h : ctx.applyBinary rule left right = .ok (some result)) :
    (∀ nf ∈ ctx.grammar.normalForm,
      nf.allowsBinary left.ruleNames right.ruleNames rule.name = true) ∧
    ∃ span, rule.apply left.cell.category right.cell.category span = .ok (some result) := by
  unfold applyBinary at h
  split_ifs at h with _ hrejects
  · simp at h
  · obtain ⟨span, _, happly⟩ := bind_eq_ok.mp h
    refine ⟨fun nf hnf => ?_, span, happly⟩
    simpa [Option.mem_def.mp hnf] using hrejects

theorem allows_of_applyUnary {rule : UnaryRule} {argument : Argument S} {result : RuleResult}
    (h : ctx.applyUnary rule argument = .ok (some result)) :
    ∀ nf ∈ ctx.grammar.normalForm, nf.allowsUnary argument.ruleNames rule.name = true := by
  intro nf hnf
  unfold applyUnary at h
  split_ifs at h with hrejects
  · simp at h
  · simpa [Option.mem_def.mp hnf] using hrejects

inductive Offers (ctx : Context S) (chart : Chart S) (span : Span) : Job → Making → Prop where
  | entry (entry : LexicalEntry) : Offers ctx chart span (.lexical span.first span.last)
      ⟨.entry entry, .lexical, span, entry.category, none⟩
  | split {k : Nat} {left right : CellId} {l r : Cell S} {rule : BinaryRule}
      {result : RuleResult} {joined : Span} :
      k < span.numSplits → left.first = span.first → left.last = span.first + k →
      right.first = span.first + k + 1 → right.last = span.last →
      chart.cell left = .ok l → chart.cell right = .ok r → rule ∈ ctx.grammar.binaryRules →
      rule.apply l.category r.category joined = .ok (some result) →
      (∀ nf ∈ ctx.grammar.normalForm,
        nf.allowsBinary l.ruleNames r.ruleNames rule.name = true) →
      Offers ctx chart span (.split span.first span.last k)
        ⟨.cells left right, result.name, span, result.category, none⟩
  | unary {b : Beam S} {a : Cell S} {p : PackedStep S} {rule : UnaryRule} {result : RuleResult}
      {name : RuleName} :
      chart.beam? span.first span.last = some b → a ∈ b.cells.map (·.2) → p ∈ plainSteps a →
      rule ∈ ctx.grammar.unaryRules →
      rule.apply a.category a.span = .ok (some result) →
      (∀ nf ∈ ctx.grammar.normalForm, nf.allowsUnary a.ruleNames rule.name = true) →
      p.step.rule.overload result.name = .ok name →
      Offers ctx chart span (.unary span.first span.last)
        ⟨p.step.making.source, name, p.step.span, result.category, some p.step.root⟩

theorem Offers.job_eq (hnames : ctx.grammar.OwnNames) (hspan : m.span = span)
    (h : ctx.Offers chart span job m) : m.job = job := by
  cases h with
  | entry _ => rfl
  | split hk hlf hll hrf hrl _ _ hrule happly _ =>
    obtain ⟨k', _, _, hll', _, _, hjob⟩ :=
      Making.job_cells (hnames.binary_result hrule happly).2 ⟨_, hk, hlf, hll, hrf, hrl⟩
    obtain rfl : k' = _ := Nat.add_left_cancel (hll'.symm.trans hll)
    exact hjob
  | unary _ _ _ _ _ _ hname =>
    obtain ⟨_, _, rfl⟩ := RuleName.overload_eq_ok.mp hname
    rw [← hspan]
    rfl

variable [Scalar S]

theorem offers_of_candidates (hsize : span.size = ctx.size) (hjob : job.Of span)
    {candidates : List (Cell S)} (hcands : ctx.candidates chart job = .ok candidates) {c : Cell S}
    (hc : c ∈ candidates) : ∀ p ∈ c.steps, ctx.Offers chart span job p.step.making := by
  intro p hp
  obtain hbase | rfl := hjob
  · cases hbase with
    | lexical =>
      obtain ⟨entry, _, _, full, _, rfl⟩ := (mem_candidates_lexical hsize hcands).mp hc
      obtain rfl := List.mem_singleton.mp hp
      exact .entry entry
    | split hk =>
      obtain ⟨_, _, ⟨leftKey, l, hl, rfl⟩, ⟨rightKey, r, hr, rfl⟩, rule, hrule, result, happly, _,
        full, _, rfl⟩ := (mem_candidates_split hsize hk hcands).mp hc
      obtain rfl := List.mem_singleton.mp hp
      obtain ⟨hallows, _, happly⟩ := allows_of_applyBinary happly
      exact .split hk rfl rfl rfl rfl hl hr hrule happly hallows
  · obtain ⟨b, hb, a, ha, rule, hrule, result, happly, _, full, _, q, hq, step, hstep, rfl⟩ :=
      (mem_candidates_unary hsize hcands).mp hc
    obtain ⟨name, hname, hstep⟩ := bind_eq_ok.mp hstep
    obtain rfl := Except.ok.inj hstep
    obtain rfl := List.mem_singleton.mp hp
    exact .unary hb ha hq hrule (apply_of_applyUnary happly)
      (allows_of_applyUnary happly) hname

end Context

def Cell.AllSteps (c : Cell S) (Q : Making → Prop) : Prop :=
  ∀ p ∈ c.steps, Q p.step.making

section Steps

variable [Scalar S] {ctx : Context S} {P : Chart S → Job → Prop} {done : Set Job}
  {chart : Chart S} {Q : Chart S → Span → Making → Prop}

theorem Cell.AllSteps.merges {c d m : Cell S} {Q : Making → Prop} (hc : c.AllSteps Q)
    (hd : d.AllSteps Q) (hm : c.Merges d m) : m.AllSteps Q :=
  fun p hp => (hm.mem_steps p hp).elim (hc p) (hd p)

/-- A property that the steps have which a job pushes, and that a step keeps while the cells of
finished spans stay. -/
structure Context.Upholds (ctx : Context S) (P : Chart S → Job → Prop)
    (Q : Chart S → Span → Making → Prop) : Prop where
  offers : ∀ {done : Set Job} {chart span job m}, Filled ctx P done chart →
    span.size = ctx.size → Ready ctx.size done job → job ∉ done → P chart job →
    (∀ b, chart.beam? span.first span.last = some b → ∀ c ∈ b.stock,
      c.AllSteps fun m => m.job ∈ done ∧ Q chart span m) →
    ctx.Makes chart span m → ctx.Offers chart span job m → Q chart span m
  stays : ∀ {done : Set Job} {chart chart' span m}, Closed ctx.size done →
    Ready ctx.size done m.job →
    (∀ id : CellId, .unary id.first id.last ∈ done → chart'.cell id = chart.cell id) →
    ctx.Makes chart span m → Q chart span m → Q chart' span m

/-- All steps of a chart have such a property, and were made by jobs that are done. -/
theorem Filled.allSteps (hnames : ctx.grammar.OwnNames) (hQ : ctx.Upholds P Q)
    (h : Filled ctx P done chart) {span : Span} (hsize : span.size = ctx.size) {b : Beam S}
    (hb : chart.beam? span.first span.last = some b) :
    ∀ c ∈ b.stock, c.AllSteps fun m => m.job ∈ done ∧ Q chart span m := by
  induction h generalizing span b with
  | new h =>
    obtain rfl := Chart.eq_empty_of_new h hb
    simp
  | @add done chart chart' job cells pruned hfilled hready hnew hP hcells hadds ih =>
    have hclosed := hfilled.closed
    have hcell := hclosed.cell_eq hready hnew hadds
    have hgrounded := hfilled.grounded
    have hold : ∀ {span b}, span.size = ctx.size → chart.beam? span.first span.last = some b →
        ∀ c ∈ b.stock, c.AllSteps fun m => m.job ∈ insert job done ∧ Q chart' span m := by
      intro span b hsize hb c hc p hp
      obtain ⟨hjob, hstep⟩ := ih hsize hb c hc p hp
      have hmakes := ((hgrounded span hsize b hb c hc).steps p hp).makes
      exact ⟨Set.mem_insert_of_mem _ hjob, hQ.stays hclosed (hclosed _ hjob) hcell hmakes hstep⟩
    obtain ⟨other, b₁, b₂, hother, hjob, hat⟩ := hfilled.exists_addsAt hready hadds
    by_cases hspan : span = other
    · subst hspan
      obtain rfl := Option.some.inj (hat.self.symm.trans hb)
      rw [Beam.stock_markPruned_if]
      refine hat.takes.forall_stock (fun _ _ _ => .merges) (hold hother hat.beam) ?_
      refine Context.forall_of_cellsOf (fun _ _ _ => .merges) hcells
        fun candidates hcands c hc p hp => ?_
      have hmakes := ((hgrounded.of_candidates hother hjob hready hcands c hc).steps p hp).makes
      have hoffer := Context.offers_of_candidates hother hjob hcands hc p hp
      have hpushed : p.step.making.job = job := hoffer.job_eq hnames hmakes.span_eq
      have hstep := hQ.offers hfilled hother hready hnew hP (fun b hb => ih hother hb) hmakes hoffer
      exact ⟨Set.mem_insert_iff.mpr (.inl hpushed),
        hQ.stays hclosed (hpushed ▸ hready) hcell hmakes hstep⟩
    · rw [hat.others span (hsize.trans hother.symm) hspan] at hb
      exact hold hsize hb

/-- All steps of a finished chart have such a property. -/
theorem Context.BuildsWhere.allSteps (hnames : ctx.grammar.OwnNames) (hQ : ctx.Upholds P Q)
    (h : ctx.BuildsWhere P chart) {span : Span} (hsize : span.size = ctx.size) {id : CellId}
    {c : Cell S} (hc : (id, c) ∈ chart.cellsAt span.first span.last) :
    c.AllSteps (Q chart span) := by
  obtain ⟨all, whole, hwhole, _, rfl⟩ := h.filled
  obtain ⟨hfirst, hlast, hc⟩ := Chart.mem_cellsAt_iff.mp hc
  rw [Chart.cell_close] at hc
  obtain ⟨b, hb, hkey⟩ := Chart.cell_eq_ok_iff.mp hc
  rw [hfirst, hlast] at hb
  obtain ⟨held, hheld, rfl⟩ := Option.map_eq_some_iff.mp hkey
  have hstock := Beam.mem_stock_of_held hheld
  intro p hp
  obtain ⟨hjob, hstep⟩ := hwhole.allSteps hnames hQ hsize hb _ hstock p hp
  have hmakes := ((hwhole.grounded span hsize b hb _ hstock).steps p hp).makes
  exact hQ.stays hwhole.closed (hwhole.closed _ hjob) (fun id _ => Chart.cell_close id) hmakes hstep

def Context.AllowsStep (ctx : Context S) (chart : Chart S) (m : Making) : Prop :=
  ∀ nf ∈ ctx.grammar.normalForm, m.Normal nf chart

theorem Context.upholds_allowsStep (hnames : ctx.grammar.OwnNames)
    (hstd : ∀ nf ∈ ctx.grammar.normalForm, nf.Standard) :
    ctx.Upholds P fun chart _ m => ctx.AllowsStep chart m where
  offers := by
    intro done chart span job m hfilled hsize hready hnew _ hsteps hmakes hoffer nf hnf
    cases hoffer with
    | entry entry => exact ⟨nofun, nofun⟩
    | @split k left right l r rule result joined hk hlf hll hrf hrl hl hr hrule happly hallows =>
      obtain ⟨hname, hplain⟩ := hnames.binary_result hrule happly
      constructor
      · rintro _ _ ⟨⟩
        refine ⟨l, r, hl, hr, ?_⟩
        rw [RuleName.plain_base hplain, hname]
        exact hallows nf hnf
      · intro u hu
        exact absurd ((RuleName.unary_eq_none hplain).symm.trans hu) nofun
    | @unary b a p rule result name hb ha hp hrule happly hallows hname =>
      obtain ⟨hresult, _⟩ := hnames.unary_result hrule happly
      obtain ⟨hplain, hunary, rfl⟩ := RuleName.overload_eq_ok.mp hname
      have hstock := Beam.mem_stock_of_kept ha
      have hmem := (List.mem_filter.mp hp).1
      obtain ⟨_, hnormal⟩ := hsteps b hb a hstock p hmem
      refine ⟨(hnormal nf hnf).binary, fun u hu => ?_⟩
      obtain rfl := Option.some.inj hu
      rw [RuleName.plain_base hunary, hresult]
      have hend := RuleName.EndIn.singleton (Cell.mem_ruleNames.mpr ⟨p, hmem, rfl⟩)
        (RuleName.outermost_eq_base hplain)
      exact (hstd nf hnf).allowsUnary_of_endIn hend (hallows nf hnf)
  stays hclosed hready hcells hmakes h nf hnf :=
    (h nf hnf).transfer fun id hid => hcells id (hmakes.finished hnames hclosed hready id hid)

end Steps

end Categorial
