import Categorial.Proofs.Parser.Coverage

/-! # What the filter of the caller sees

Every candidate with semantics is put to the filter before it becomes a step: what an entry or a
binary rule makes, and what a unary rule makes of that. The empty category is never put to it, so it
enters a chart whatever the filter says.
-/

namespace Categorial

variable {S : Type}

theorem SynType.isEmpty_iff {t : SynType} : t.isEmpty = true ↔ t = .empty := by
  cases t <;> simp [isEmpty]

namespace Context

variable {ctx : Context S} {c : Candidate}

/-- A candidate is let in if it is empty, or has semantics and passes the filter. -/
def Admits (ctx : Context S) (c : Candidate) : Prop :=
  c.category = .empty ∨
    c.category.semantics.isSome = true ∧ ∀ filter ∈ ctx.filter, filter c = .ok true

theorem hardPrunes_eq_false_iff : ctx.hardPrunes c = .ok false ↔ ctx.Admits c := by
  obtain ⟨⟨type, semantics⟩, span, rule⟩ := c
  unfold hardPrunes Admits Category.empty
  cases semantics with
  | none => simp [SynType.isEmpty_iff]
  | some term =>
    cases ctx.filter with
    | none => simp
    | some filter =>
      have hkeeps : ((!·) <$> filter ⟨⟨type, some term⟩, span, rule⟩) = .ok false ↔
          filter ⟨⟨type, some term⟩, span, rule⟩ = .ok true := by
        rw [map_eq_ok]
        simp
      simpa using hkeeps

theorem exists_accepts_of_anyAccepts {rules : List UnaryRule} (h : anyAccepts c rules = .ok true) :
    ∃ rule ∈ rules, rule.accepts c.category c.span = .ok true := by
  induction rules with
  | nil => simp [anyAccepts] at h
  | cons rule rules ih =>
    obtain ⟨could, hcould, h⟩ := bind_eq_ok.mp h
    cases could with
    | true => exact ⟨rule, .head _, hcould⟩
    | false =>
      obtain ⟨rule', hrule', haccepts⟩ := ih h
      exact ⟨rule', .tail _ hrule', haccepts⟩

theorem of_prunes_eq_false {beforeUnary : Bool} (h : ctx.prunes c beforeUnary = .ok false) :
    ctx.Admits c ∧ (c.span.isComplete = true → ctx.grammar.isComplete c.category = .ok true ∨
      beforeUnary = true ∧
        ∃ rule ∈ ctx.grammar.unaryRules, rule.accepts c.category c.span = .ok true) := by
  obtain ⟨hard, hhard, h⟩ := bind_eq_ok.mp h
  cases hard with
  | true => simp at h
  | false =>
    refine ⟨hardPrunes_eq_false_iff.mp hhard, fun hcomplete => ?_⟩
    rw [if_neg Bool.false_ne_true, if_neg (by simp [hcomplete])] at h
    obtain ⟨full, hfull, h⟩ := bind_eq_ok.mp h
    rw [isFullParse, if_pos hcomplete] at hfull
    cases full with
    | true => exact .inl hfull
    | false =>
      cases beforeUnary with
      | true =>
        obtain ⟨could, hcould, hnot⟩ := map_eq_ok.mp h
        obtain rfl : could = true := by simpa using hnot
        exact .inr ⟨rfl, exists_accepts_of_anyAccepts hcould⟩
      | false => simp at h

end Context

/-- The candidates that a step of a grammar came from: what an entry or a binary rule made, and what
a unary rule made of it, each under the name of the rule. -/
inductive Grammar.Asks (g : Grammar) (span : Span) : Making → List Candidate → Prop where
  | entry {entry : LexicalEntry} : Asks g span ⟨.entry entry, .lexical, span, entry.category, none⟩
      [⟨entry.category, span, .lexical⟩]
  | binary {left right : CellId} {l r : Category} {rule : BinaryRule} {result : RuleResult} :
      rule ∈ g.binaryRules → rule.apply l r span = .ok (some result) →
      Asks g span ⟨.cells left right, result.name, span, result.category, none⟩
        [⟨result.category, span, rule.name⟩]
  | unary {base : Making} {asked : List Candidate} {rule : UnaryRule} {result : RuleResult}
      {name : RuleName} : Asks g span base asked → rule ∈ g.unaryRules →
      rule.apply base.root span = .ok (some result) → base.rule.overload result.name = .ok name →
      Asks g span ⟨base.source, name, span, result.category, some base.root⟩
        (asked ++ [⟨result.category, span, rule.name⟩])

/-- The candidates of a step under the names that it records. -/
def Making.candidates (m : Making) : List Candidate :=
  match m.rule.unary, m.intermediate with
  | some unary, some between =>
    [⟨between, m.span, .plain m.rule.base⟩, ⟨m.root, m.span, .plain unary⟩]
  | _, _ => [⟨m.root, m.span, m.rule⟩]

namespace Making

variable {m : Making} {g : Grammar} {span : Span} {asked : List Candidate}

theorem candidates_plain (h : m.rule.isOverloaded = false) :
    m.candidates = [⟨m.root, m.span, m.rule⟩] := by
  have hnone : m.rule.unary = none := by simpa [RuleName.isOverloaded] using h
  rw [candidates, hnone]

theorem candidates_folded {source : Source} {name unary : RuleName} {root between : Category}
    (hname : name.isOverloaded = false) (hunary : unary.isOverloaded = false) :
    (Making.mk source ⟨name.base, some unary.base⟩ span root (some between)).candidates =
      [⟨between, span, name⟩, ⟨root, span, unary⟩] := by
  dsimp only [candidates]
  rw [RuleName.plain_base hname, RuleName.plain_base hunary]

theorem span_of_asks (h : g.Asks span m asked) : m.span = span := by
  cases h <;> rfl

/-- Where rules record their own names, a step tells which candidates it came from. -/
theorem candidates_of_asks (hnames : g.OwnNames) (h : g.Asks span m asked) :
    asked = m.candidates := by
  induction h with
  | entry => rfl
  | binary hrule happly =>
    obtain ⟨hname, hplain⟩ := hnames.binary_result hrule happly
    rw [candidates_plain hplain, hname]
  | unary hbase hrule happly hname ih =>
    obtain ⟨hplain, hunary, rfl⟩ := RuleName.overload_eq_ok.mp hname
    rw [ih, candidates_plain hplain, span_of_asks hbase, candidates_folded hplain hunary,
      (hnames.unary_result hrule happly).1]
    rfl

end Making

namespace Context

variable {ctx : Context S} {chart : Chart S} {span : Span} {m : Making}

theorem Makes.exists_asks (h : ctx.Makes chart span m) :
    ∃ asked, ctx.grammar.Asks span m asked ∧ ∀ c ∈ asked, ctx.Admits c := by
  induction h with
  | entry _ hprunes =>
    refine ⟨_, .entry, fun c hc => ?_⟩
    obtain rfl := List.mem_singleton.mp hc
    exact hardPrunes_eq_false_iff.mp hprunes
  | binary _ _ _ hrule happly hprunes =>
    refine ⟨_, .binary hrule happly, fun c hc => ?_⟩
    obtain rfl := List.mem_singleton.mp hc
    exact (of_prunes_eq_false hprunes).1
  | unary _ _ hrule happly hprunes hname ih =>
    obtain ⟨asked, hasks, hadmits⟩ := ih
    refine ⟨_, hasks.unary hrule happly hname, fun c hc => ?_⟩
    rcases List.mem_append.mp hc with hc | hc
    · exact hadmits c hc
    · obtain rfl := List.mem_singleton.mp hc
      exact (of_prunes_eq_false hprunes).1

/-- Each step of a finished chart comes from candidates that the filter let pass, the empty category
apart, which it is not asked about. Where rules record their own names, the step itself tells which
candidates these are. -/
theorem vetted_steps {S : Type} [Scalar S] {ctx : Context S} {chart : Chart S}
    {filter : PruningFilter} (hfilter : ctx.filter = some filter) (h : ctx.Builds chart) :
    ∀ id c, chart.cell id = .ok c → ∀ p ∈ c.steps, ∃ asked,
      ctx.grammar.Asks c.span p.step.making asked ∧
      (∀ candidate ∈ asked, candidate.category = .empty ∨ filter candidate = .ok true) ∧
      (ctx.grammar.OwnNames → asked = p.step.making.candidates) := by
  intro id c hc p hp
  obtain ⟨_, hgrounded⟩ := BuildsWhere.grounded h
  obtain ⟨span, _, _, _, hg⟩ := hgrounded id c hc
  obtain ⟨asked, hasks, hadmits⟩ := (hg.steps p hp).makes.exists_asks
  refine ⟨asked, hg.span_eq ▸ hasks, fun candidate hcandidate => ?_,
    fun hnames => Making.candidates_of_asks hnames hasks⟩
  exact (hadmits candidate hcandidate).imp_right fun hpasses => hpasses.2 filter hfilter

def skippable : Grammar :=
  { Grammar.default with generators := [.skipping] }

def refusesSkips : PruningFilter := fun c => .ok (decide (c.category ≠ .empty))

noncomputable def sheAlone : Context LogReal :=
  ⟨skippable, ["she"], skippable.chartConfig 50, telling,
    .union [.ofLexicon (SentenceGenerator.skipping ["she"]), .ofLexicon subjects],
    some refusesSkips⟩

theorem new_sheAlone : Context.new skippable ["she"] telling
    { ParseOptions.default with filter := some refusesSkips } = .ok sheAlone :=
  rfl

theorem faultless_sheAlone : sheAlone.Faultless where
  filter filter h c := by
    obtain rfl := Option.some.inj h
    exact ⟨_, rfl⟩
  isComplete _ := ⟨_, rfl⟩
  binary := nofun
  accepts := nofun
  unary := nofun

theorem plain_skippable : skippable.Plain :=
  ⟨rfl, .nil, nofun, nofun, nofun⟩

theorem covered_sheAlone : sheAlone.Covered (.empty :: predications) where
  entry span entry hentry := by
    obtain ⟨source, hsource, hmem⟩ := EntrySource.mem_union.mp hentry
    have hclosed : ∀ lexicon ∈ [SentenceGenerator.skipping ["she"], subjects],
        ∀ e ∈ lexicon.entries, e.category ∈ .empty :: predications := by decide
    rcases List.mem_pair.mp hsource with rfl | rfl
    · exact hclosed _ (.head _) entry (Lexicon.mem_entries_of_mem_entriesFor hmem)
    · exact hclosed _ (.tail _ (.head _)) entry (Lexicon.mem_entries_of_mem_entriesFor hmem)
  binary := nofun
  unary := nofun
  room := by decide
  batch_room := by decide

/-- The filter refuses the empty category, and the chart has it. -/
theorem vetted_steps_sheAlone : ∃ chart,
    Context.new skippable ["she"] telling
      { ParseOptions.default with filter := some refusesSkips } = .ok sheAlone ∧
    sheAlone.filter = some refusesSkips ∧ sheAlone.Builds chart ∧
    (∃ id c, chart.cell id = .ok c ∧ c.category = .empty ∧
      refusesSkips ⟨c.category, c.span, .lexical⟩ = .ok false) ∧
    ∀ id c, chart.cell id = .ok c → ∀ p ∈ c.steps, ∃ asked,
      sheAlone.grammar.Asks c.span p.step.making asked ∧
      ∀ candidate ∈ asked, candidate.category = .empty ∨ refusesSkips candidate = .ok true := by
  obtain ⟨chart, hparse⟩ : ∃ chart, sheAlone.parseSequentially = .ok chart :=
    exists_parseSequentially ⟨rfl, by decide⟩ (faultless_sheAlone.works ⟨rfl, by decide⟩)
  have hbuilds := builds_of_parseSequentially hparse
  refine ⟨chart, new_sheAlone, rfl, hbuilds, ?_, fun id c hc p hp => ?_⟩
  · have hentry : ⟨["she"], .empty, SentenceGenerator.skippingOrigin⟩ ∈
        sheAlone.lexicon.entriesFor ["she"] := by decide
    let span : Span := ⟨0, 0, 1, by decide, by decide⟩
    obtain ⟨id, c, hc, hhas⟩ := ((covered_sheAlone.builds hparse).exhaustive
      plain_skippable).exists_cell (rfl : span.size = _) (.entry hentry rfl)
    have hempty : c.category = .empty := hhas.category
    refine ⟨id, c, (Chart.mem_cellsAt_iff.mp hc).2.2, hempty, ?_⟩
    rw [hempty]
    rfl
  · obtain ⟨asked, hasks, hpass, _⟩ := vetted_steps rfl hbuilds id c hc p hp
    exact ⟨asked, hasks, hpass⟩

end Context

end Categorial
