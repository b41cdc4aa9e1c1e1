import Categorial.Proofs.Scalar.LogReal
import Categorial.Proofs.Chart.Room
import Categorial.Proofs.Lexicon.Groups
import Categorial.Proofs.Parser.Faultless
import Categorial.Proofs.Parser.Unpruned

/-! # Grammars of few categories

If the lexicon and the rules of a sentence stay within a list of categories, and all queues have
room for these, then its parse prunes nothing.
-/

namespace Categorial

variable {S : Type} [Scalar S]

/-- The lexicon and the rules stay within a list of categories that every queue has room for. -/
structure Context.Covered (ctx : Context S) (K : List Category) : Prop where
  entry : ∀ span, ∀ entry ∈ ctx.lexicon.entriesFor (ctx.tokensOf span), entry.category ∈ K
  binary : ∀ rule ∈ ctx.grammar.binaryRules, ∀ left ∈ K, ∀ right ∈ K, ∀ span result,
    rule.apply left right span = .ok (some result) → result.category ∈ K
  unary : ∀ rule ∈ ctx.grammar.unaryRules, ∀ category ∈ K, ∀ span result,
    rule.apply category span = .ok (some result) → result.category ∈ K
  room : K.length ≤ ctx.config.beam
  batch_room : K.length ≤ addCounts (mulCounts ctx.config.beam 2) 1

variable {ctx : Context S} {K : List Category} {P : Chart S → Job → Prop} {chart : Chart S}
  {done : Set Job} {span : Span} {job : Job} {m : Making}

def Chart.Roomy (ctx : Context S) (K : List Category) (chart : Chart S) : Prop :=
  ∀ span : Span, span.size = ctx.size → ∀ b, chart.beam? span.first span.last = some b → b.Roomy K

theorem Chart.Roomy.category_mem (hroomy : chart.Roomy ctx K) (h : Filled ctx P done chart)
    {id : CellId} {c : Cell S} (hc : chart.cell id = .ok c) : c.category ∈ K := by
  obtain ⟨b, hb, hkey⟩ := Chart.cell_eq_ok_iff.mp hc
  obtain ⟨hle, hlt⟩ := Chart.bounds_of_beam? h.size hb
  refine (hroomy ⟨id.first, id.last, ctx.size, hle, hlt⟩ rfl b hb).categories c ?_
  exact List.mem_map.mpr ⟨_, Chart.mem_cells_iff.mpr hkey, rfl⟩

omit [Scalar S] in
theorem Context.Covered.withModel (h : ctx.Covered K) (model : Model S) :
    (ctx.withModel model).Covered K :=
  ⟨h.entry, h.binary, h.unary, h.room, h.batch_room⟩

namespace Context.Covered

variable (hcov : ctx.Covered K)

include hcov

omit [Scalar S] in
theorem root_mem (hcells : ∀ id c, chart.cell id = .ok c → c.category ∈ K)
    (h : ctx.Makes chart span m) : m.root ∈ K := by
  induction h with
  | entry hentry _ => exact hcov.entry _ _ hentry
  | binary _ hl hr hrule happly _ =>
    exact hcov.binary _ hrule _ (hcells _ _ hl) _ (hcells _ _ hr) _ _ happly
  | unary _ _ hrule happly _ _ ih => exact hcov.unary _ hrule _ ih _ _ happly

/-- Everything that a job pushes has a category of the list. -/
theorem candidates_mem (hroomy : chart.Roomy ctx K) (h : Filled ctx P done chart)
    (hsize : span.size = ctx.size) (hjob : job.Of span) (hready : Ready ctx.size done job)
    {candidates : List (Cell S)} (hcands : ctx.candidates chart job = .ok candidates) :
    ∀ c ∈ candidates, c.category ∈ K := by
  intro c hc
  have hgrounded := h.grounded.of_candidates hsize hjob hready hcands c hc
  obtain ⟨p, hp, _⟩ := hgrounded.packed.flag
  rw [← hgrounded.packed.root p hp]
  exact hcov.root_mem (fun _ _ => hroomy.category_mem h) (hgrounded.steps p hp).makes

theorem cells_mem (hroomy : chart.Roomy ctx K) (h : Filled ctx P done chart)
    (hsize : span.size = ctx.size) (hjob : job.Of span) (hready : Ready ctx.size done job)
    {cells : List (Cell S)} {pruned : Bool} (hcells : ctx.cellsOf chart job = .ok (cells, pruned)) :
    ∀ c ∈ cells, c.category ∈ K :=
  Context.forall_of_cellsOf (fun _ _ _ hc _ hm => hm.category ▸ hc) hcells
    fun _ hok => hcov.candidates_mem hroomy h hsize hjob hready hok

omit [Scalar S] in
theorem roomy_of_batchFor {b : Beam S} (h : ctx.batchFor job = .ok (.best b)) : b.Roomy K := by
  have hnew : ∀ {capacity order}, K.length ≤ capacity →
      (Batch.best <$> Beam.new capacity order false) = .ok (.best b) → b.Roomy K := by
    intro capacity order hroom hok
    obtain ⟨b', hb', he⟩ := map_eq_ok.mp hok
    obtain rfl := Batch.best.inj he
    unfold Beam.new at hb'
    split_ifs at hb'
    obtain rfl := Except.ok.inj hb'
    exact Beam.roomy_empty hroom order false
  have hbatch : ctx.batch = .ok (.best b) → b.Roomy K := by
    intro hok
    unfold batch at hok
    split_ifs at hok
    · exact hnew hcov.batch_room hok
    · simp at hok
  cases job with
  | lexical _ _ =>
    simp only [batchFor, lexicalBatch] at h
    split_ifs at h
    · exact hnew hcov.room h
    · simp at h
  | split _ _ _ => exact hbatch h
  | unary _ _ => exact hbatch h

/-- No job has to turn a cell away. -/
theorem spares_of_roomy (hroomy : chart.Roomy ctx K) (h : Filled ctx P done chart)
    (hready : Ready ctx.size done job) : ctx.Spares chart job := by
  obtain ⟨span, hsize, hjob⟩ := hready.within
  obtain ⟨hf, hl⟩ := Prod.mk.inj hjob.bounds
  constructor
  · intro first candidates hfirst hok
    cases first with
    | all cells => trivial
    | best b =>
      apply (hcov.roomy_of_batchFor hfirst).sparesAll
      exact hcov.candidates_mem hroomy h hsize hjob hready hok
  · intro cells pruned b hcells hb
    rw [hf, hl, Chart.beam_eq_ok_iff] at hb
    apply (hroomy span hsize b hb).sparesAll
    exact hcov.cells_mem hroomy h hsize hjob hready hcells

theorem roomy (h : Filled ctx P done chart) : chart.Roomy ctx K := by
  induction h with
  | new h =>
    intro span hsize b hb
    obtain rfl := Chart.eq_empty_of_new h hb
    exact Beam.roomy_empty hcov.room _ _
  | @add done chart chart' job cells pruned hfilled hready hnew _ hcells hadds ih =>
    obtain ⟨span, b, b', hsize, hjob, hat⟩ := hfilled.exists_addsAt hready hadds
    have hmem := hcov.cells_mem ih hfilled hsize hjob hready hcells
    intro other hother b₂ hb₂
    by_cases hspan : other = span
    · subst hspan
      obtain rfl := Option.some.inj (hat.self.symm.trans hb₂)
      exact ((ih other hsize b hat.beam).takes hmem hat.takes).markPruned_if pruned
    · rw [hat.others other (hother.trans hsize.symm) hspan] at hb₂
      exact ih other hother b₂ hb₂

theorem category_mem (h : ctx.BuildsWhere P chart) {id : CellId} {c : Cell S}
    (hc : chart.cell id = .ok c) : c.category ∈ K := by
  obtain ⟨done, whole, hwhole, _, rfl⟩ := h.filled
  rw [Chart.cell_close] at hc
  exact (hcov.roomy hwhole).category_mem hwhole hc

/-- A sequential parse prunes nothing. -/
theorem runs : ctx.RunsWhere ctx.Spares := by
  intro before job after start part hjobs hstart hpart
  have hstart' : Filled ctx (fun _ _ => True) {j | j ∈ []} start := filled_nil hstart
  have hjobs' : Job.ofSentence ctx.size = [] ++ (before ++ job :: after) := hjobs
  have hfilled := filled_of_run hjobs' hstart' hpart fun _ _ _ _ _ _ => trivial
  exact hcov.spares_of_roomy (hcov.roomy hfilled) hfilled (Job.ready_in_turn hjobs).1

theorem builds (h : ctx.parseSequentially = .ok chart) : ctx.BuildsWhere ctx.Spares chart :=
  .inTurn h hcov.runs

end Context.Covered

theorem BinaryRule.ofCombine_eq_some {name : RuleName}
    {combine : Category → Category → Option Category}
    {left right : Category} {result : RuleResult} :
    (BinaryRule.ofCombine name combine).apply left right span = .ok (some result) ↔
      ∃ category, combine left right = some category ∧ result = ⟨name, category⟩ := by
  simp [BinaryRule.ofCombine, eq_comm]

theorem UnaryRule.typeShift_eq_some {label : String} {source target : SynType} {fn : Option Term}
    {category : Category} {result : RuleResult} :
    (UnaryRule.typeShift label source target fn).apply category span = .ok (some result) ↔
      category.type = source ∧
        result = ⟨.simple label, target, UnaryRule.shiftSemantics fn category.semantics⟩ := by
  simp only [UnaryRule.typeShift, Except.ok.injEq, Option.ite_none_right_eq_some, Option.some.injEq]
  exact and_congr_right fun _ => eq_comm

/-- All rules are combinators and type shifts. -/
structure Grammar.Standard (g : Grammar) : Prop where
  binary : ∀ rule ∈ g.binaryRules, ∃ name combine, rule = .ofCombine name combine
  unary : ∀ rule ∈ g.unaryRules, ∃ label source target fn,
    rule = .typeShift label source target fn

theorem Grammar.Standard.ownNames {g : Grammar} (h : g.Standard)
    (hplain : ∀ name ∈ g.ruleNames, name.isOverloaded = false) : g.OwnNames where
  plain := hplain
  binary rule hrule _ _ _ _ happly := by
    obtain ⟨_, _, rfl⟩ := h.binary rule hrule
    obtain ⟨_, _, rfl⟩ := BinaryRule.ofCombine_eq_some.mp happly
    rfl
  unary rule hrule _ _ _ happly := by
    obtain ⟨_, _, _, _, rfl⟩ := h.unary rule hrule
    obtain ⟨_, rfl⟩ := UnaryRule.typeShift_eq_some.mp happly
    rfl

omit [Scalar S] in
theorem Grammar.Standard.faultless {ctx : Context S} (h : ctx.grammar.Standard)
    (hfilter : ctx.filter = none)
    (hcomplete : ∀ category, ∃ full, ctx.grammar.isComplete category = .ok full) :
    ctx.Faultless where
  filter _ hsome := by simp [hfilter] at hsome
  isComplete := hcomplete
  binary rule hrule _ _ _ := by
    obtain ⟨_, _, rfl⟩ := h.binary rule hrule
    exact ⟨_, rfl⟩
  accepts rule hrule _ _ := by
    obtain ⟨_, _, _, _, rfl⟩ := h.unary rule hrule
    exact ⟨_, rfl⟩
  unary rule hrule category span := by
    obtain ⟨_, _, _, _, rfl⟩ := h.unary rule hrule
    refine ⟨_, rfl, fun result hresult => ?_⟩
    obtain ⟨_, hresult⟩ := Option.ite_none_right_eq_some.mp hresult
    obtain rfl := Option.some.inj hresult
    rfl

theorem Lexicon.mem_entries_of_mem_union {lexicon : Lexicon} {tokens : List String}
    {entry : LexicalEntry}
    (h : entry ∈ (EntrySource.union [.ofLexicon lexicon]).entriesFor tokens) :
    entry ∈ lexicon.entries := by
  obtain ⟨source, hsource, hmem⟩ := EntrySource.mem_union.mp h
  obtain rfl := List.mem_singleton.mp hsource
  exact mem_entries_of_mem_entriesFor hmem

namespace Context

/-- A grammar whose subjects are shifted before a predicate takes them. -/
def shifting : Grammar :=
  { Grammar.default with
    binaryRules := [.backwardApplication]
    unaryRules := [.typeShift "up" (.atom "N") (.atom "NP") none]
    beam := 4
    pruneLexical := true
    preChartPruning := true
    isComplete := fun category => .ok (category.type = .atom "S") }

/-- Two readings of a subject, and a predicate. -/
def subjects : Lexicon :=
  .ofEntries [⟨["she"], ⟨.atom "N", some (.const "she")⟩, "main"⟩,
    ⟨["she"], ⟨.atom "N", some (.const "she")⟩, "more"⟩,
    ⟨["walks"], ⟨.complex (.atom "S") .backward (.atom "NP"), some (.const "walk")⟩, "main"⟩]

def predications : List Category :=
  [⟨.atom "N", some (.const "she")⟩, ⟨.atom "NP", some (.const "she")⟩,
    ⟨.complex (.atom "S") .backward (.atom "NP"), some (.const "walk")⟩,
    ⟨.atom "S", some (.app (.const "walk") (.const "she"))⟩]

theorem standard_shifting : shifting.Standard where
  binary _ h := ⟨_, _, List.mem_singleton.mp h⟩
  unary _ h := ⟨_, _, _, _, List.mem_singleton.mp h⟩

theorem plain_shifting : shifting.Plain :=
  have hnames := standard_shifting.ownNames (by decide)
  ⟨rfl, by decide, hnames.plain, hnames.binary, hnames.unary⟩

noncomputable def telling : Model LogReal where
  features view := match view.entry with
    | some entry => .add .empty entry.origin (.ofReal 1)
    | none => .add .empty "rule" (.ofReal (-1))
  score features := features.get "main"
  lexicon := .ofLexicon subjects

noncomputable def sheWalks : Context LogReal :=
  ⟨shifting, ["she", "walks"], shifting.chartConfig 4, telling, .union [.ofLexicon subjects], none⟩

theorem new_sheWalks : Context.new shifting ["she", "walks"] telling .default = .ok sheWalks :=
  rfl

theorem faultless_sheWalks : sheWalks.Faultless :=
  standard_shifting.faultless rfl fun _ => ⟨_, rfl⟩

theorem covered_sheWalks : sheWalks.Covered predications where
  entry span entry hentry := by
    have hclosed : ∀ e ∈ subjects.entries, e.category ∈ predications := by decide
    exact hclosed entry (Lexicon.mem_entries_of_mem_union hentry)
  binary rule hrule left hleft right hright span result h := by
    obtain rfl := List.mem_singleton.mp hrule
    obtain ⟨category, hcombine, rfl⟩ := BinaryRule.ofCombine_eq_some.mp h
    have hclosed : ∀ l ∈ predications, ∀ r ∈ predications, ∀ c ∈ BinaryRule.combineBackward l r,
        c ∈ predications := by decide
    exact hclosed left hleft right hright category hcombine
  unary rule hrule category hcategory span result h := by
    obtain rfl := List.mem_singleton.mp hrule
    obtain ⟨htype, rfl⟩ := UnaryRule.typeShift_eq_some.mp h
    have hclosed : ∀ c ∈ predications, c.type = .atom "N" →
        (⟨.atom "NP", UnaryRule.shiftSemantics none c.semantics⟩ : Category) ∈ predications := by
      decide
    exact hclosed category hcategory htype
  room := by decide
  batch_room := by decide

theorem exists_parse_withModel_sheWalks (model : Model LogReal) :
    ∃ chart, (sheWalks.withModel model).parseSequentially = .ok chart := by
  have hfaultless : (sheWalks.withModel model).Faultless :=
    standard_shifting.faultless rfl fun _ => ⟨_, rfl⟩
  have hregular : (sheWalks.withModel model).Regular := ⟨rfl, Nat.succ_pos 3⟩
  exact exists_parseSequentially hregular (hfaultless.works hregular)

theorem exists_parse_sheWalks : ∃ chart, sheWalks.parseSequentially = .ok chart :=
  exists_parse_withModel_sheWalks telling

end Context

end Categorial
