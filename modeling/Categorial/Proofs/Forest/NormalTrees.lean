import Categorial.Proofs.Forest.Analyses
import Categorial.Proofs.Parser.Restricted

/-! # Trees in normal form

A step is checked once, for all trees that it will stand for. Each of these passes the normal form
at each of its nodes: a rule is checked with the names of all rules that built the cells below, and
so with those at the roots of the trees that are chosen there.
-/

namespace Categorial

/-- A tree with this rule at its root that passes at each of its nodes: a binary rule after the
rules at the roots of the two trees below it, and a unary rule after that of the one below it. -/
inductive NormalForm.Allows (nf : NormalForm) : DerivationTree → RuleName → Prop where
  | lexical {node : DerivationNode} {span place : Span} {word : String} :
      Allows nf (.branch node span [.leaf word place]) node.rule
  | unary {node : DerivationNode} {span : Span} {below : DerivationTree} {rule : RuleName} :
      Allows nf below rule → nf.allowsUnary [rule] node.rule = true →
      Allows nf (.branch node span [below]) node.rule
  | binary {node : DerivationNode} {span : Span} {left right : DerivationTree}
      {leftRule rightRule : RuleName} :
      Allows nf left leftRule → Allows nf right rightRule →
      nf.allowsBinary [leftRule] [rightRule] node.rule = true →
      Allows nf (.branch node span [left, right]) node.rule

variable {S : Type}

namespace Step

def below (s : Step S) (children : List DerivationTree) : List DerivationTree :=
  match s.entry? with
  | some entry => [.leaf (LexicalEntry.joinTokens entry.tokens) s.span]
  | none => children

theorem below_entry {s : Step S} {entry : LexicalEntry} (h : s.making.source = .entry entry)
    (children : List DerivationTree) :
    s.below children = [.leaf (LexicalEntry.joinTokens entry.tokens) s.span] := by
  simp [below, entry?, h, Source.entry?]

theorem below_cells {s : Step S} {left right : CellId} (h : s.making.source = .cells left right)
    (children : List DerivationTree) : s.below children = children := by
  simp [below, entry?, h, Source.entry?]

theorem tree_cases {s : Step S} (h : s.rule.isOverloaded = s.intermediate.isSome)
    (children : List DerivationTree) : ∃ category,
      s.rule.unary = none ∧
        s.tree children = .branch ⟨.plain s.rule.base, category⟩ s.span (s.below children) ∨
      ∃ u ∈ s.rule.unary, s.tree children = .branch ⟨.plain u, s.root⟩ s.span
        [.branch ⟨.plain s.rule.base, category⟩ s.span (s.below children)] := by
  cases hbetween : s.intermediate with
  | none =>
    have hplain : s.rule.isOverloaded = false := by rw [h, hbetween, Option.isSome_none]
    refine ⟨s.root, .inl ⟨RuleName.unary_eq_none hplain, ?_⟩⟩
    rw [tree_eq hbetween, RuleName.plain_base hplain]
    rfl
  | some between =>
    rw [hbetween] at h
    obtain ⟨u, hu⟩ := Option.isSome_iff_exists.mp h
    refine ⟨between, .inr ⟨u, hu, ?_⟩⟩
    simp only [tree, hu, hbetween]
    rfl

theorem allows_tree {nf : NormalForm} {chart : Chart S} {s : Step S} (hs : s.making.Normal nf chart)
    (h : s.rule.isOverloaded = s.intermediate.isSome) {children : List DerivationTree}
    (hbase : ∀ category, nf.Allows
      (.branch ⟨.plain s.rule.base, category⟩ s.span (s.below children)) (.plain s.rule.base)) :
    nf.Allows (s.tree children) (.plain s.rule.outermost) := by
  obtain ⟨category, ⟨hnone, htree⟩ | ⟨u, hu, htree⟩⟩ := s.tree_cases h children
  · rw [htree, RuleName.outermost, hnone]
    exact hbase category
  · rw [htree, RuleName.outermost, hu]
    exact @NormalForm.Allows.unary nf ⟨.plain u, s.root⟩ _ _ _ (hbase category) (hs.unary u hu)

end Step

namespace Chart

variable [Scalar S] {nf : NormalForm} {chart : Chart S} {id : CellId} {c : Cell S}

/-- The trees of a cell pass the normal form if all steps do, and each has the rule of one of the
steps at its root. -/
theorem Rooted.allows (h : chart.Rooted) (hstd : nf.Standard)
    (hsteps : ∀ id c, chart.cell id = .ok c →
      c.AllSteps fun m => m.Normal nf chart ∧ m.rule.isOverloaded = m.intermediate.isSome)
    (hc : chart.cell id = .ok c) :
    ∀ t ∈ chart.treesOf id, ∃ p ∈ c.steps, nf.Allows t.tree (.plain p.step.rule.outermost) := by
  refine h.tree_induction (P := fun c t =>
    ∃ p ∈ c.steps, nf.Allows t.tree (.plain p.step.rule.outermost)) ?_ ?_ hc
  · intro id c p entry hc hp hsource _
    obtain ⟨hnormal, hoverloaded⟩ := hsteps id c hc p hp
    refine ⟨p, hp, Step.allows_tree hnormal hoverloaded fun category => ?_⟩
    rw [Step.below_entry hsource]
    exact .lexical
  · rintro id c p left right l r tl tr hc hp hsource hl hr _ _ _ ⟨q, hq, hleft⟩ ⟨q', hq', hright⟩
    obtain ⟨hnormal, hoverloaded⟩ := hsteps id c hc p hp
    obtain ⟨l', r', hl', hr', hallows⟩ := hnormal.binary left right hsource
    obtain rfl := Except.ok.inj (hl.symm.trans hl')
    obtain rfl := Except.ok.inj (hr.symm.trans hr')
    refine ⟨p, hp, Step.allows_tree hnormal hoverloaded fun category => ?_⟩
    have hl_names := Cell.mem_ruleNames.mpr ⟨q, hq, rfl⟩
    have hr_names := Cell.mem_ruleNames.mpr ⟨q', hq', rfl⟩
    rw [Step.below_cells hsource, List.map_cons, List.map_cons, List.map_nil]
    exact @NormalForm.Allows.binary nf ⟨.plain p.step.rule.base, category⟩ _ _ _ _ _ hleft hright
      (hstd.allowsBinary_of_endIn (.singleton hl_names rfl) (.singleton hr_names rfl) hallows)

end Chart

section Sanctions

open Chart

def Chart.namesAt (chart : Chart S) (span : Span) (category : Category) : List RuleName :=
  ((chart.cellsAt span.first span.last).filter (·.2.category = category)).flatMap (·.2.ruleNames)

/-- An analysis whose nodes pass with all names that the cells below them have: a binary rule with
those of two cells, and a unary rule with those of a cell before the turn of the unary rules. -/
inductive Chart.Sanctions (chart : Chart S) (nf : NormalForm) : Analysis → Prop where
  | lexical {span : Span} {entry : LexicalEntry} : Sanctions chart nf (.lexical span entry)
  | binary {span : Span} {rule : BinaryRule} {category : Category} {left right : Analysis} :
      Sanctions chart nf left → Sanctions chart nf right →
      nf.allowsBinary (chart.namesAt left.span left.category)
        (chart.namesAt right.span right.category) rule.name = true →
      Sanctions chart nf (.binary span rule category left right)
  | unary {rule : UnaryRule} {category : Category} {base : Analysis} :
      Sanctions chart nf base →
      nf.allowsUnary ((chart.namesAt base.span base.category).filter (!·.isOverloaded))
        rule.name = true →
      Sanctions chart nf (.unary rule category base)

variable {ctx : Context S} {chart : Chart S} {a : Analysis} {m : Making}

theorem Chart.mem_namesAt {span : Span} {id : CellId} {c : Cell S} {name : RuleName}
    (hc : (id, c) ∈ chart.cellsAt span.first span.last) (hname : name ∈ c.ruleNames) :
    name ∈ chart.namesAt span c.category :=
  List.mem_flatMap.mpr ⟨(id, c), List.mem_filter.mpr ⟨hc, by simp⟩, hname⟩

structure Chart.StandsFor [Scalar S] (chart : Chart S) (id : CellId) (c : Cell S) (p : PackedStep S)
    (a : Analysis) : Prop where
  cell : (id, c) ∈ chart.cellsAt a.span.first a.span.last
  category : c.category = a.category
  step : p ∈ c.steps
  folded : p.step.making.intermediate.isSome = a.isUnary
  tree : ∃ t ∈ treesOfStep p.step (p.step.children.map chart.treesOf), t.tree = a.tree

variable [Scalar S]

theorem Chart.StandsFor.exists_tree {id : CellId} {c : Cell S} {p : PackedStep S}
    (h : chart.StandsFor id c p a) (hrooted : chart.Rooted) :
    chart.cell id = .ok c ∧ ∃ t ∈ chart.treesOf id, t.tree = a.tree := by
  obtain ⟨_, _, hc⟩ := mem_cellsAt_iff.mp h.cell
  obtain ⟨t, ht, heq⟩ := h.tree
  refine ⟨hc, t, ?_, heq⟩
  rw [hrooted.treesOf_eq hc]
  exact List.mem_flatMap.mpr ⟨p, h.step, ht⟩

/-- Without pruning, the steps that the grammar makes under its normal form are in the chart. -/
theorem Context.BuildsWhere.exists_step (h : ctx.BuildsWhere ctx.Spares chart)
    (hnames : ctx.grammar.OwnNames) (hstd : ∀ nf ∈ ctx.grammar.normalForm, nf.Standard) {span : Span} (hsize : span.size = ctx.size)
    (hm : ctx.MakesNormal chart span m) :
    ∃ id c, (id, c) ∈ chart.cellsAt span.first span.last ∧ c.category = m.root ∧
      ∃ p ∈ c.steps, p.step.making = m := by
  obtain ⟨id, c, hc, hhas⟩ := h.exists_cell (makeable_makesNormal hnames hstd) hsize hm
  obtain ⟨p, hp, hmaking⟩ := List.mem_map.mp ((Cell.containsStep_iff _ _).mp hhas.step)
  exact ⟨id, c, hc, hhas.category, p, hp, hmaking⟩

section Unpruned

variable {nf : NormalForm} (h : ctx.BuildsWhere ctx.Spares chart) (hnames : ctx.grammar.OwnNames)
  (hstd : ∀ nf ∈ ctx.grammar.normalForm, nf.Standard)

include h hnames hstd

theorem Context.exists_standsFor_lexical {span : Span} {entry : LexicalEntry}
    (hsize : span.size = ctx.size) (hentry : entry ∈ ctx.lexicon.entriesFor (ctx.tokensOf span))
    (hprunes : ctx.hardPrunes ⟨entry.category, span, .lexical⟩ = .ok false) :
    ∃ id c p, chart.StandsFor id c p (.lexical span entry) := by
  have hm : ctx.MakesNormal chart span ⟨.entry entry, .lexical, span, entry.category, none⟩ :=
    .of_plain rfl (.entry hentry hprunes) fun _ _ => ⟨nofun, nofun⟩
  obtain ⟨id, c, hc, hcat, p, hp, hmaking⟩ := h.exists_step hnames hstd hsize hm
  refine ⟨id, c, p, hc, hcat, hp, by rw [hmaking]; rfl, joinTrees p.step [], ?_, ?_⟩
  · have hsource : p.step.making.source = .entry entry := by rw [hmaking]
    rw [treesOfStep_entry hsource]
    exact .head _
  · show p.step.tree [] = _
    obtain ⟨⟨_, _, _, _⟩, _⟩ := p
    subst hmaking
    rfl

theorem Context.exists_standsFor_binary (hnf : ctx.grammar.normalForm = some nf) {span : Span}
    (hsize : span.size = ctx.size) {k : Nat} (hk : k < span.numSplits) {rule : BinaryRule}
    {category : Category} {left right : Analysis} (hleft : left.span = (span.split k hk).1)
    (hright : right.span = (span.split k hk).2) (hrule : rule ∈ ctx.grammar.binaryRules)
    (happly : rule.apply left.category right.category span = .ok (some ⟨rule.name, category⟩))
    (hprunes : ctx.prunes ⟨category, span, rule.name⟩ true = .ok false)
    (hpass : nf.allowsBinary (chart.namesAt left.span left.category)
      (chart.namesAt right.span right.category) rule.name = true)
    {i j : CellId} {l r : Cell S} {p q : PackedStep S} (hl : chart.StandsFor i l p left)
    (hr : chart.StandsFor j r q right) :
    ∃ id c step, chart.StandsFor id c step (.binary span rule category left right) := by
  have hrooted := h.rooted
  obtain ⟨hlcell, tl, htl, hltree⟩ := hl.exists_tree hrooted
  obtain ⟨hrcell, tr, htr, hrtree⟩ := hr.exists_tree hrooted
  obtain ⟨hif, hil, _⟩ := Chart.mem_cellsAt_iff.mp hl.cell
  obtain ⟨hjf, hjl, _⟩ := Chart.mem_cellsAt_iff.mp hr.cell
  obtain ⟨_, hplain⟩ := hnames.binary_result hrule happly
  rw [← hl.category, ← hr.category] at happly hpass
  have hm : ctx.MakesNormal chart span ⟨.cells i j, rule.name, span, category, none⟩ := by
    rw [hleft] at hif hil
    rw [hright] at hjf hjl
    refine .of_plain hplain (.binary ⟨k, hk, hif, hil, hjf, hjl⟩ hlcell hrcell hrule happly hprunes)
      fun nf' hnf' => ⟨?_, fun u hu => ?_⟩
    · rintro _ _ ⟨⟩
      obtain rfl : nf = nf' := Option.some.inj (hnf.symm.trans hnf')
      refine ⟨l, r, hlcell, hrcell, ?_⟩
      rw [RuleName.plain_base hplain]
      exact (hstd nf hnf).allowsBinary_of_endIn (.of_subset fun _ => Chart.mem_namesAt hl.cell)
        (.of_subset fun _ => Chart.mem_namesAt hr.cell) hpass
    · exact absurd ((RuleName.unary_eq_none hplain).symm.trans hu) nofun
  obtain ⟨id, c, hc, hcat, step, hp, hmaking⟩ := h.exists_step hnames hstd hsize hm
  refine ⟨id, c, step, hc, hcat, hp, by rw [hmaking]; rfl, joinTrees step.step [tl, tr], ?_, ?_⟩
  · have hsource : step.step.making.source = .cells i j := by rw [hmaking]
    rw [treesOfStep_cells hsource]
    exact List.mem_flatMap.mpr ⟨tr, htr, List.mem_map.mpr ⟨tl, htl, rfl⟩⟩
  · show step.step.tree [tl.tree, tr.tree] =
      .branch ⟨rule.name, category⟩ span [left.tree, right.tree]
    rw [hltree, hrtree]
    obtain ⟨⟨_, _, _, _⟩, _⟩ := step
    subst hmaking
    exact Step.tree_eq rfl _

theorem Context.exists_standsFor_unary (hnf : ctx.grammar.normalForm = some nf) {rule : UnaryRule}
    {category : Category} {base : Analysis} (hsize : base.span.size = ctx.size)
    (hbase : base.isUnary = false) (hrule : rule ∈ ctx.grammar.unaryRules)
    (happly : rule.apply base.category base.span = .ok (some ⟨rule.name, category⟩))
    (hprunes : ctx.prunes ⟨category, base.span, rule.name⟩ false = .ok false)
    (hpass : nf.allowsUnary
      ((chart.namesAt base.span base.category).filter (!·.isOverloaded)) rule.name = true)
    {i : CellId} {d : Cell S} {p : PackedStep S} (hd : chart.StandsFor i d p base) :
    ∃ id c step, chart.StandsFor id c step (.unary rule category base) := by
  obtain ⟨_, hplain⟩ := hnames.unary_result hrule happly
  have hsteps := h.allSteps hnames (upholds_makesNormal hnames hstd) hsize hd.cell
  have hmakes := hsteps p hd.step
  have hroot : p.step.making.root = d.category := by
    obtain ⟨_, _, hcell⟩ := Chart.mem_cellsAt_iff.mp hd.cell
    exact (h.rooted.packed hcell).root p hd.step
  have hfolded : p.step.making.rule.isOverloaded = false := by
    rw [hmakes.makes.isOverloaded hnames, hd.folded, hbase]
  rw [← hd.category] at hpass happly
  -- the names that the rule passes with
  have hallows : ∀ name ∈ d.ruleNames, name.isOverloaded = false →
      nf.allowsUnary [name] rule.name = true := by
    intro name hname hnamed
    refine (hstd nf hnf).allowsUnary_of_endIn (.of_subset fun other hother => ?_) hpass
    obtain rfl := List.mem_singleton.mp hother
    exact List.mem_filter.mpr ⟨Chart.mem_namesAt hd.cell hname, by simp [hnamed]⟩
  have hm : ctx.MakesNormal chart base.span ⟨p.step.making.source,
      ⟨p.step.making.rule.base, some rule.name.base⟩, base.span, category,
      some p.step.making.root⟩ := by
    rw [← hroot] at happly
    refine ⟨hmakes.makes.unary hfolded hrule happly hprunes
      (RuleName.overload_eq_ok.mpr ⟨hfolded, hplain, rfl⟩), fun nf' hnf' => ⟨?_, ?_⟩, ?_⟩
    · exact (hmakes.allows nf' hnf').binary
    · intro u hu
      obtain rfl := Option.some.inj hu
      obtain rfl : nf = nf' := Option.some.inj (hnf.symm.trans hnf')
      rw [RuleName.plain_base hplain]
      dsimp only
      rw [RuleName.plain_base hfolded]
      exact hallows _ (Cell.mem_ruleNames.mpr ⟨p, hd.step, rfl⟩) hfolded
    · intro nf' hnf' u hu other hother hother_allows hother_plain heq
      obtain rfl := Option.some.inj hu
      obtain rfl : nf = nf' := Option.some.inj (hnf.symm.trans hnf')
      obtain ⟨id, c, hc, hcat, q, hq, hmaking⟩ :=
        h.exists_step hnames hstd hsize (.of_plain hother_plain hother hother_allows)
      have hsame : c.category = d.category := by
        rw [hcat, ← hroot]
        exact (Option.some.inj heq).symm
      obtain ⟨rfl, rfl⟩ := Prod.mk.inj (h.eq_of_category hsize hc hd.cell hsame)
      rw [RuleName.plain_base hplain]
      exact hallows _ (Cell.mem_ruleNames.mpr ⟨q, hq, congrArg Making.rule hmaking⟩) hother_plain
  obtain ⟨id, c, hc, hcat, step, hstep, hmaking⟩ := h.exists_step hnames hstd hsize hm
  obtain ⟨t, ht, htree⟩ := hd.tree
  obtain ⟨row, hrow, rfl⟩ := List.mem_map.mp ht
  have hchildren : step.step.children = p.step.children := by
    rw [Step.children, hmaking, Step.children]
  refine ⟨id, c, step, hc, hcat, hstep, by rw [hmaking]; rfl, joinTrees step.step row, ?_, ?_⟩
  · rw [hchildren]
    exact List.mem_map_of_mem hrow
  · have hspan := hmakes.makes.span_eq
    show step.step.tree _ = .branch ⟨rule.name, category⟩ base.span [base.tree]
    rw [Step.tree_overload hfolded hplain (by rw [hmaking, hspan]), hspan, ← htree]
    rfl

/-- Without pruning, every analysis that the normal form sanctions has a step in the chart. -/
theorem Context.Derives.exists_standsFor (hnf : ctx.grammar.normalForm = some nf)
    (ha : ctx.Derives a) (hs : chart.Sanctions nf a) : ∃ id c p, chart.StandsFor id c p a := by
  induction ha with
  | lexical hsize hentry hprunes => exact exists_standsFor_lexical h hnames hstd hsize hentry hprunes
  | @binary span _ _ _ _ _ _ hk hleft hright hl hr hrule happly hprunes ihl ihr =>
    have hsize : span.size = ctx.size := by
      have hsize := hl.size
      rwa [hleft] at hsize
    cases hs with
    | binary hsl hsr hpass =>
      obtain ⟨_, _, _, hl'⟩ := ihl hsl
      obtain ⟨_, _, _, hr'⟩ := ihr hsr
      obtain rfl := (hnames.binary_result hrule happly).1
      exact exists_standsFor_binary h hnames hstd hnf hsize hk hleft hright hrule happly hprunes hpass
        hl' hr'
  | unary hbase hd hrule happly hprunes ih =>
    cases hs with
    | unary hsd hpass =>
      obtain ⟨_, _, _, hd'⟩ := ih hsd
      obtain rfl := (hnames.unary_result hrule happly).1
      exact exists_standsFor_unary h hnames hstd hnf hd.size hbase hrule happly hprunes hpass hd'

end Unpruned

end Sanctions

namespace Context

theorem standard_of_eq_some {g : Grammar} {nf : NormalForm} (hnf : g.normalForm = some nf)
    (hstd : nf.Standard) : ∀ nf ∈ g.normalForm, nf.Standard :=
  fun _ hmem => Option.some.inj (hnf.symm.trans hmem) ▸ hstd

def withNormalForm (ctx : Context S) (nf : NormalForm) : Context S :=
  { ctx with grammar := { ctx.grammar with normalForm := some nf } }

theorem Derives.withNormalForm {ctx : Context S} {a : Analysis} (h : ctx.Derives a)
    (nf : NormalForm) : (ctx.withNormalForm nf).Derives a :=
  h.of_eq rfl (fun _ => rfl) (fun _ => rfl) (fun _ _ => rfl) rfl rfl

theorem Makes.rule_of_single {ctx : Context S} {chart : Chart S} {span : Span} {m : Making}
    (hnames : ctx.grammar.OwnNames) (hsingle : span.numSplits = 0) (h : ctx.Makes chart span m) :
    m.rule = .lexical ∨ m.rule.isOverloaded = true ∧
      m.rule.outermost ∈ ctx.grammar.unaryRules.map (·.name.base) := by
  cases h with
  | entry _ _ => exact .inl rfl
  | binary hsplits _ _ _ _ _ =>
    obtain ⟨k, hk, _⟩ := hsplits
    omega
  | unary _ _ hrule happly _ hname =>
    obtain ⟨_, _, rfl⟩ := RuleName.overload_eq_ok.mp hname
    rw [(hnames.unary_result hrule happly).1]
    exact .inr ⟨rfl, List.mem_map_of_mem hrule⟩

variable [Scalar S] {ctx : Context S} {chart : Chart S} {nf : NormalForm}

theorem BuildsWhere.namesAt_single {P : Chart S → Job → Prop} (h : ctx.BuildsWhere P chart)
    (hnames : ctx.grammar.OwnNames) {span : Span} (hsize : span.size = ctx.size)
    (hsingle : span.numSplits = 0) {category : Category} :
    ∀ name ∈ chart.namesAt span category, name = .lexical ∨ name.isOverloaded = true ∧
      name.outermost ∈ ctx.grammar.unaryRules.map (·.name.base) := by
  intro name hname
  obtain ⟨⟨id, c⟩, hc, hname⟩ := List.mem_flatMap.mp hname
  obtain ⟨p, hp, rfl⟩ := Cell.mem_ruleNames.mp hname
  obtain ⟨hfirst, hlast, hcell⟩ := Chart.mem_cellsAt_iff.mp (List.mem_filter.mp hc).1
  obtain ⟨done, hgrounded⟩ := h.grounded
  obtain ⟨other, hother, hf, hl, hg⟩ := hgrounded id c hcell
  obtain rfl := Span.ext_bounds (hother.trans hsize.symm) (hf.trans hfirst) (hl.trans hlast)
  exact (hg.steps p hp).makes.rule_of_single hnames hsingle

/-- Compositions do not pile up, and what application has built is not shifted. -/
def unshifted : NormalForm :=
  ⟨[.composition, .unary [.directed RuleName.applicationLabel .backward]]⟩

theorem standard_unshifted : unshifted.Standard := by
  rintro _ (_ | ⟨_, _ | ⟨_, ⟨⟩⟩⟩)
  · exact .composition
  · exact .unary _

theorem ownNames_unshifted : (sheWalks.withNormalForm unshifted).grammar.OwnNames :=
  ⟨plain_shifting.plain, plain_shifting.binary, plain_shifting.unary⟩

theorem exists_unpruned_unshifted : ∃ chart, (sheWalks.withNormalForm unshifted).Builds chart ∧
    (sheWalks.withNormalForm unshifted).BuildsWhere (sheWalks.withNormalForm unshifted).Spares
      chart := by
  have hfaultless : (sheWalks.withNormalForm unshifted).Faultless :=
    ⟨faultless_sheWalks.filter, faultless_sheWalks.isComplete, faultless_sheWalks.binary,
      faultless_sheWalks.accepts, faultless_sheWalks.unary⟩
  have hcovered : (sheWalks.withNormalForm unshifted).Covered predications :=
    ⟨covered_sheWalks.entry, covered_sheWalks.binary, covered_sheWalks.unary, covered_sheWalks.room,
      covered_sheWalks.batch_room⟩
  obtain ⟨chart, hparse⟩ : ∃ chart, (sheWalks.withNormalForm unshifted).parseSequentially =
      .ok chart := exists_parseSequentially ⟨rfl, by decide⟩ (hfaultless.works ⟨rfl, by decide⟩)
  exact ⟨chart, builds_of_parseSequentially hparse, hcovered.builds hparse⟩

theorem sanctions_predication {P : Chart LogReal → Job → Prop} {chart : Chart LogReal}
    (h : (sheWalks.withNormalForm unshifted).BuildsWhere P chart) :
    chart.Sanctions unshifted (predication "main") := by
  have hnames : ∀ {span : Span} {category : Category}, span.size = 2 → span.numSplits = 0 →
      RuleName.EndIn (chart.namesAt span category) [.lexical, .simple "up"] := by
    intro span category hsize hsingle name hname
    rcases h.namesAt_single ownNames_unshifted hsize hsingle name hname with rfl | ⟨_, hup⟩
    · exact ⟨.lexical, .head _, rfl⟩
    · exact ⟨.simple "up", .tail _ (.head _), List.mem_singleton.mp hup⟩
  refine .binary (.unary .lexical ?_) .lexical ?_
  · have hplain : ∀ {category : Category}, RuleName.EndIn ((chart.namesAt
        ⟨0, 0, 2, by decide, by decide⟩ category).filter (!·.isOverloaded)) [.lexical] := by
      intro category name hname
      obtain ⟨hname, hnamed⟩ := List.mem_filter.mp hname
      rcases h.namesAt_single ownNames_unshifted rfl rfl name hname with rfl | ⟨hfolded, _⟩
      · exact ⟨.lexical, .head _, rfl⟩
      · simp [hfolded] at hnamed
    exact standard_unshifted.allowsUnary_of_endIn hplain (by decide)
  · exact standard_unshifted.allowsBinary_of_endIn (hnames rfl rfl) (hnames rfl rfl) (by decide)

/-- All trees of a finished chart pass the normal form at each of their nodes, whatever way the
chart was built and pruned. -/
theorem normal_trees (hnf : ctx.grammar.normalForm = some nf) (hstd : nf.Standard)
    (hnames : ctx.grammar.OwnNames) (h : ctx.Builds chart) : ∀ id c, chart.cell id = .ok c → ∃ trees, chart.trees id = .ok trees ∧
      ∀ t ∈ trees, ∃ rule, nf.Allows t.tree rule := by
  intro id c hc
  have hrooted := BuildsWhere.rooted h
  have hsteps : ∀ id c, chart.cell id = .ok c → c.AllSteps fun m =>
      m.Normal nf chart ∧ m.rule.isOverloaded = m.intermediate.isSome := by
    intro id c hc p hp
    obtain ⟨done, hgrounded⟩ := BuildsWhere.grounded h
    obtain ⟨span, hsize, hfirst, hlast, hg⟩ := hgrounded id c hc
    have hcell : (id, c) ∈ chart.cellsAt span.first span.last :=
      Chart.mem_cellsAt_iff.mpr ⟨hfirst.symm, hlast.symm, hc⟩
    have hstd := standard_of_eq_some hnf hstd
    have hallows :=
      BuildsWhere.allSteps hnames (upholds_allowsStep hnames hstd) h hsize hcell p hp
    exact ⟨hallows nf hnf, (hg.steps p hp).makes.isOverloaded hnames⟩
  refine ⟨_, hrooted.trees_eq hc, fun t ht => ?_⟩
  obtain ⟨p, _, hallows⟩ := hrooted.allows hstd hsteps hc t ht
  exact ⟨_, hallows⟩

theorem normal_trees_unshifted : unshifted.Standard ∧
    (sheWalks.withNormalForm unshifted).grammar.OwnNames ∧
    ∃ chart, (sheWalks.withNormalForm unshifted).Builds chart ∧
      ∃ x ∈ chart.cellsAt 0 1, x.2.category = (predication "main").category ∧
        ∃ trees, chart.trees x.1 = .ok trees ∧ trees ≠ [] ∧
          ∀ t ∈ trees, ∃ rule, unshifted.Allows t.tree rule := by
  obtain ⟨chart, hbuilds, hunpruned⟩ := exists_unpruned_unshifted
  obtain ⟨id, c, p, hp⟩ := ((derives_predication "main" (by decide)).withNormalForm
    unshifted).exists_standsFor hunpruned ownNames_unshifted
      (standard_of_eq_some rfl standard_unshifted) rfl (sanctions_predication hunpruned)
  obtain ⟨hc, t, ht, _⟩ := hp.exists_tree hunpruned.rooted
  obtain ⟨trees, htrees, hnormal⟩ :=
    normal_trees rfl standard_unshifted ownNames_unshifted hbuilds id c hc
  refine ⟨standard_unshifted, ownNames_unshifted, chart, hbuilds, (id, c), hp.cell, hp.category, trees, htrees, ?_,
    hnormal⟩
  obtain rfl := Except.ok.inj ((hunpruned.rooted.trees_eq hc).symm.trans htrees)
  exact List.ne_nil_of_mem ht

/-- Without pruning, every analysis that passes the normal form at each of its nodes, with all
names that the cells below the node have, is among the trees of its cell. -/
theorem sanctioned_trees (hnf : ctx.grammar.normalForm = some nf) (hstd : nf.Standard)
    (hnames : ctx.grammar.OwnNames) (h : ctx.BuildsWhere ctx.Spares chart) {a : Analysis} (ha : ctx.Derives a)
    (hs : chart.Sanctions nf a) :
    ∃ x ∈ chart.cellsAt a.span.first a.span.last, x.2.category = a.category ∧
      ∃ trees, chart.trees x.1 = .ok trees ∧ ∃ t ∈ trees, t.tree = a.tree := by
  obtain ⟨id, c, p, hp⟩ := ha.exists_standsFor h hnames (standard_of_eq_some hnf hstd) hnf hs
  obtain ⟨hc, htree⟩ := hp.exists_tree h.rooted
  exact ⟨(id, c), hp.cell, hp.category, _, h.rooted.trees_eq hc, htree⟩

theorem sanctioned_trees_unshifted : unshifted.Standard ∧
    (sheWalks.withNormalForm unshifted).grammar.OwnNames ∧
    (sheWalks.withNormalForm unshifted).Derives (predication "main") ∧
    ∃ chart, (sheWalks.withNormalForm unshifted).BuildsWhere
        (sheWalks.withNormalForm unshifted).Spares chart ∧
      chart.Sanctions unshifted (predication "main") ∧
      ∃ x ∈ chart.cellsAt 0 1, x.2.category = (predication "main").category ∧
        ∃ trees, chart.trees x.1 = .ok trees ∧ ∃ t ∈ trees, t.tree = (predication "main").tree := by
  obtain ⟨chart, _, hunpruned⟩ := exists_unpruned_unshifted
  have hderives := (derives_predication "main" (by decide)).withNormalForm unshifted
  have hsanctions := sanctions_predication hunpruned
  exact ⟨standard_unshifted, ownNames_unshifted, hderives, chart, hunpruned, hsanctions,
    sanctioned_trees rfl standard_unshifted ownNames_unshifted hunpruned hderives hsanctions⟩

/-- A unary rule for sentences, which does not apply to what application has built. -/
def capping : Grammar :=
  { Grammar.default with
    binaryRules := [.backwardApplication]
    unaryRules := [.typeShift "up" (.atom "S") (.atom "T") none]
    normalForm := some ⟨[.unary [.directed RuleName.applicationLabel .backward]]⟩ }

def idioms : Lexicon :=
  .ofEntries [⟨["she"], ⟨.atom "NP", some (.const "she")⟩, "main"⟩,
    ⟨["walks"], ⟨.complex (.atom "S") .backward (.atom "NP"), some (.const "walk")⟩, "main"⟩,
    ⟨["she", "walks"], ⟨.atom "S", some (.app (.const "walk") (.const "she"))⟩, "main"⟩]

noncomputable def sheWalksAtOnce : Context LogReal :=
  ⟨capping, ["she", "walks"], capping.chartConfig 50, { telling with lexicon := .ofLexicon idioms },
    .union [.ofLexicon idioms], none⟩

def sentences : List Category :=
  [⟨.atom "NP", some (.const "she")⟩,
    ⟨.complex (.atom "S") .backward (.atom "NP"), some (.const "walk")⟩,
    ⟨.atom "S", some (.app (.const "walk") (.const "she"))⟩,
    ⟨.atom "T", some (.app (.const "walk") (.const "she"))⟩]

def capped : Analysis :=
  .unary (.typeShift "up" (.atom "S") (.atom "T") none)
    ⟨.atom "T", some (.app (.const "walk") (.const "she"))⟩
    (.lexical (predication "main").span
      ⟨["she", "walks"], ⟨.atom "S", some (.app (.const "walk") (.const "she"))⟩, "main"⟩)

theorem derives_capped : sheWalksAtOnce.Derives capped := by
  have hentry :
    ⟨["she", "walks"], ⟨.atom "S", some (.app (.const "walk") (.const "she"))⟩, "main"⟩ ∈
      (EntrySource.union [.ofLexicon idioms]).entriesFor ["she", "walks"] := by decide
  exact .unary rfl (.lexical rfl hentry rfl) (.head _) rfl rfl

theorem standard_capping : capping.Standard where
  binary _ h := ⟨_, _, List.mem_singleton.mp h⟩
  unary _ h := ⟨_, _, _, _, List.mem_singleton.mp h⟩

theorem ownNames_capping : capping.OwnNames :=
  standard_capping.ownNames (by decide)

theorem normalForm_capping : ∀ nf ∈ capping.normalForm, nf.Standard :=
  standard_of_eq_some rfl <| by
    rintro _ (_ | ⟨_, ⟨⟩⟩)
    exact .unary _

theorem faultless_sheWalksAtOnce : sheWalksAtOnce.Faultless :=
  standard_capping.faultless rfl fun _ => ⟨_, rfl⟩

theorem covered_sheWalksAtOnce : sheWalksAtOnce.Covered sentences where
  entry span entry hentry := by
    have hclosed : ∀ e ∈ idioms.entries, e.category ∈ sentences := by decide
    exact hclosed entry (Lexicon.mem_entries_of_mem_union hentry)
  binary rule hrule left hleft right hright span result h := by
    obtain rfl := List.mem_singleton.mp hrule
    obtain ⟨category, hcombine, rfl⟩ := BinaryRule.ofCombine_eq_some.mp h
    have hclosed : ∀ l ∈ sentences, ∀ r ∈ sentences, ∀ c ∈ BinaryRule.combineBackward l r,
        c ∈ sentences := by decide
    exact hclosed left hleft right hright category hcombine
  unary rule hrule category hcategory span result h := by
    obtain rfl := List.mem_singleton.mp hrule
    obtain ⟨htype, rfl⟩ := UnaryRule.typeShift_eq_some.mp h
    have hclosed : ∀ c ∈ sentences, c.type = .atom "S" →
        (⟨.atom "T", UnaryRule.shiftSemantics none c.semantics⟩ : Category) ∈ sentences := by
      decide
    exact hclosed category hcategory htype
  room := by decide
  batch_room := by decide

theorem exists_application {chart : Chart LogReal}
    (h : sheWalksAtOnce.BuildsWhere sheWalksAtOnce.Spares chart) :
    ∃ m, sheWalksAtOnce.Makes chart ⟨0, 1, 2, by decide, by decide⟩ m ∧
      sheWalksAtOnce.AllowsStep chart m ∧
      m.rule = .directed RuleName.applicationLabel .backward ∧
      m.root = ⟨.atom "S", some (.app (.const "walk") (.const "she"))⟩ := by
  have hword : ∀ (span : Span) (entry : LexicalEntry), span.size = 2 →
      entry ∈ sheWalksAtOnce.lexicon.entriesFor (sheWalksAtOnce.tokensOf span) →
      sheWalksAtOnce.hardPrunes ⟨entry.category, span, .lexical⟩ = .ok false →
      ∃ id c, (id, c) ∈ chart.cellsAt span.first span.last ∧ c.category = entry.category := by
    intro span entry hsize hentry hprunes
    obtain ⟨id, c, _, hp⟩ := exists_standsFor_lexical h ownNames_capping normalForm_capping hsize hentry hprunes
    exact ⟨id, c, hp.cell, hp.category⟩
  obtain ⟨i, l, hi, hl⟩ := hword ⟨0, 0, 2, by decide, by decide⟩
    ⟨["she"], ⟨.atom "NP", some (.const "she")⟩, "main"⟩ rfl (by decide) rfl
  obtain ⟨j, r, hj, hr⟩ := hword ⟨1, 1, 2, by decide, by decide⟩
    ⟨["walks"], ⟨.complex (.atom "S") .backward (.atom "NP"), some (.const "walk")⟩, "main"⟩ rfl
    (by decide) rfl
  obtain ⟨hif, hil, hicell⟩ := Chart.mem_cellsAt_iff.mp hi
  obtain ⟨hjf, hjl, hjcell⟩ := Chart.mem_cellsAt_iff.mp hj
  have happly : BinaryRule.backwardApplication.apply l.category r.category
      ⟨0, 1, 2, by decide, by decide⟩ = .ok (some ⟨.directed RuleName.applicationLabel .backward,
        ⟨.atom "S", some (.app (.const "walk") (.const "she"))⟩⟩) := by
    rw [hl, hr]
    rfl
  refine ⟨_, .binary ⟨0, by decide, hif, hil, hjf, hjl⟩ hicell hjcell (.head _) happly rfl,
    fun nf hnf => ⟨?_, nofun⟩, rfl, rfl⟩
  rintro _ _ ⟨⟩
  obtain rfl := Option.some.inj hnf
  exact ⟨l, r, hicell, hjcell, rfl⟩

/-- The unary rule does not apply to the cell of both words, since application is among its
names. -/
theorem category_ne_capped {chart : Chart LogReal}
    (h : sheWalksAtOnce.BuildsWhere sheWalksAtOnce.Spares chart) :
    ∀ x ∈ chart.cellsAt 0 1, x.2.category ≠ capped.category := by
  rintro ⟨id, c⟩ hc hcat
  have hmem : ∀ id c, chart.cell id = .ok c → c.category ∈ sentences :=
    fun _ _ => covered_sheWalksAtOnce.category_mem h
  obtain ⟨_, _, hcell⟩ := Chart.mem_cellsAt_iff.mp hc
  have hpacked := h.rooted.packed hcell
  obtain ⟨p, hp, _⟩ := hpacked.flag
  have hroot : p.step.making.root = capped.category := (hpacked.root p hp).trans hcat
  have hsize : (⟨0, 1, 2, by decide, by decide⟩ : Span).size = sheWalksAtOnce.size := rfl
  obtain ⟨hmakes, _, hfolds⟩ :=
    h.allSteps ownNames_capping (upholds_makesNormal ownNames_capping normalForm_capping) hsize hc
      p hp
  cases hsource : p.step.making with
  | mk source rule span root between =>
  rw [hsource] at hroot hmakes hfolds
  cases hmakes with
  | @entry entry hentry _ =>
    have hne : ∀ e ∈ idioms.entries, e.category ≠ capped.category := by decide
    exact hne entry (Lexicon.mem_entries_of_mem_union hentry) hroot
  | @binary i j l r _ _ _ hl hr hrule happly _ =>
    obtain rfl := List.mem_singleton.mp hrule
    obtain ⟨category, hcombine, rfl⟩ := BinaryRule.ofCombine_eq_some.mp happly
    have hne : ∀ l ∈ sentences, ∀ r ∈ sentences, ∀ c ∈ BinaryRule.combineBackward l r,
        c ≠ capped.category := by decide
    exact hne _ (hmem i l hl) _ (hmem j r hr) category hcombine hroot
  | @unary base _ _ _ hbase hplain hrule happly _ hname =>
    obtain rfl := List.mem_singleton.mp hrule
    obtain ⟨htype, rfl⟩ := UnaryRule.typeShift_eq_some.mp happly
    have hsentence : ∀ c ∈ sentences, c.type = .atom "S" →
        c = ⟨.atom "S", some (.app (.const "walk") (.const "she"))⟩ := by decide
    obtain ⟨other, hother, hallows, hother_rule, hother_root⟩ := exists_application h
    have hbase_root := hsentence _ (covered_sheWalksAtOnce.root_mem hmem hbase) htype
    obtain ⟨_, _, rfl⟩ := RuleName.overload_eq_ok.mp hname
    have hallowed := hfolds _ rfl _ rfl other hother hallows (by rw [hother_rule]; rfl)
      (congrArg some (hbase_root.trans hother_root.symm))
    rw [hother_rule] at hallowed
    exact Bool.false_ne_true hallowed

/-- All nodes of an analysis may pass with the names at the roots of the trees below, and yet it is
not packed: what else is packed with the base of a unary rule stands against it. -/
theorem capped_missing : capping.OwnNames ∧ sheWalksAtOnce.Derives capped ∧
    (∃ nf, capping.normalForm = some nf ∧ nf.Standard ∧ ∃ rule, nf.Allows capped.tree rule) ∧
    ∃ chart, sheWalksAtOnce.BuildsWhere sheWalksAtOnce.Spares chart ∧
      ¬∃ x ∈ chart.cellsAt capped.span.first capped.span.last, x.2.category = capped.category ∧
        ∃ trees, chart.trees x.1 = .ok trees ∧ ∃ t ∈ trees, t.tree = capped.tree := by
  obtain ⟨chart, hparse⟩ : ∃ chart, sheWalksAtOnce.parseSequentially = .ok chart :=
    exists_parseSequentially ⟨rfl, by decide⟩ (faultless_sheWalksAtOnce.works ⟨rfl, by decide⟩)
  have h := covered_sheWalksAtOnce.builds hparse
  refine ⟨ownNames_capping, derives_capped,
    ⟨_, rfl, normalForm_capping _ rfl, _, .unary .lexical (by decide)⟩, chart, h, ?_⟩
  rintro ⟨x, hx, hcat, _⟩
  exact category_ne_capped h x hx hcat

end Context

end Categorial
