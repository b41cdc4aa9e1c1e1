import Categorial.Proofs.Forest.Trees
import Categorial.Proofs.Parser.Coverage

/-! # Analyses of a sentence

What the lexicon and the rules derive over a span can be told without a chart. A chart that was
built without pruning has a cell for each category that they derive, and the cell has one tree for
each way to derive it.
-/

namespace Categorial

/-- A way to have a category over a span: an entry, a binary rule over two analyses, or a unary rule
over one. -/
inductive Analysis where
  | lexical (span : Span) (entry : LexicalEntry)
  | binary (span : Span) (rule : BinaryRule) (category : Category) (left right : Analysis)
  | unary (rule : UnaryRule) (category : Category) (base : Analysis)

namespace Analysis

def span : Analysis → Span
  | lexical span _ => span
  | binary span .. => span
  | unary _ _ base => base.span

def category : Analysis → Category
  | lexical _ entry => entry.category
  | binary _ _ category _ _ => category
  | unary _ category _ => category

def isUnary : Analysis → Bool
  | unary .. => true
  | _ => false

def tree : Analysis → DerivationTree
  | lexical span entry =>
    .branch ⟨.lexical, entry.category⟩ span [.leaf (LexicalEntry.joinTokens entry.tokens) span]
  | binary span rule category left right =>
    .branch ⟨rule.name, category⟩ span [left.tree, right.tree]
  | unary rule category base => .branch ⟨rule.name, category⟩ base.span [base.tree]

end Analysis

attribute [ext] Making

variable {S : Type}

/-- The analyses that the lexicon and the rules allow. Unary rules do not chain. -/
inductive Context.Derives (ctx : Context S) : Analysis → Prop where
  | lexical {span : Span} {entry : LexicalEntry} :
      span.size = ctx.size → entry ∈ ctx.lexicon.entriesFor (ctx.tokensOf span) →
      ctx.hardPrunes ⟨entry.category, span, .lexical⟩ = .ok false →
      Derives ctx (.lexical span entry)
  | binary {span : Span} {k : Nat} {rule : BinaryRule} {name : RuleName} {category : Category}
      {left right : Analysis} (hk : k < span.numSplits) :
      left.span = (span.split k hk).1 → right.span = (span.split k hk).2 →
      Derives ctx left → Derives ctx right → rule ∈ ctx.grammar.binaryRules →
      rule.apply left.category right.category span = .ok (some ⟨name, category⟩) →
      ctx.prunes ⟨category, span, rule.name⟩ true = .ok false →
      Derives ctx (.binary span rule category left right)
  | unary {rule : UnaryRule} {name : RuleName} {category : Category} {base : Analysis} :
      base.isUnary = false → Derives ctx base → rule ∈ ctx.grammar.unaryRules →
      rule.apply base.category base.span = .ok (some ⟨name, category⟩) →
      ctx.prunes ⟨category, base.span, rule.name⟩ false = .ok false →
      Derives ctx (.unary rule category base)

theorem Context.Derives.size {ctx : Context S} {a : Analysis} (h : ctx.Derives a) :
    a.span.size = ctx.size := by
  induction h with
  | lexical hsize _ _ => exact hsize
  | binary hk hleft _ _ _ _ _ _ ih _ =>
    rw [hleft] at ih
    exact ih
  | unary _ _ _ _ _ ih => exact ih

/-- What the lexicon, the rules and the filter let through is all that counts. -/
theorem Context.Derives.of_eq {ctx ctx' : Context S} {a : Analysis} (h : ctx.Derives a)
    (hsize : ctx.size = ctx'.size)
    (hentries : ∀ span, ctx.lexicon.entriesFor (ctx.tokensOf span) =
      ctx'.lexicon.entriesFor (ctx'.tokensOf span))
    (hhard : ∀ candidate, ctx.hardPrunes candidate = ctx'.hardPrunes candidate)
    (hprunes : ∀ candidate final, ctx.prunes candidate final = ctx'.prunes candidate final)
    (hbinary : ctx.grammar.binaryRules = ctx'.grammar.binaryRules)
    (hunary : ctx.grammar.unaryRules = ctx'.grammar.unaryRules) : ctx'.Derives a := by
  induction h with
  | lexical hspan hentry hpruned =>
    exact .lexical (hspan.trans hsize) (hentries _ ▸ hentry) (hhard _ ▸ hpruned)
  | binary hk hleft hright _ _ hrule happly hpruned ihl ihr =>
    exact .binary hk hleft hright ihl ihr (hbinary ▸ hrule) happly (hprunes _ _ ▸ hpruned)
  | unary hbase _ hrule happly hpruned ih =>
    exact .unary hbase ih (hunary ▸ hrule) happly (hprunes _ _ ▸ hpruned)

def Chart.handle? (chart : Chart S) (span : Span) (category : Category) : Option CellId :=
  ((chart.cellsAt span.first span.last).find? (·.2.category = category)).map (·.1)

/-- What makes the step that stands for an analysis in a chart. -/
def Analysis.making? (chart : Chart S) : Analysis → Option Making
  | lexical span entry => some ⟨.entry entry, .lexical, span, entry.category, none⟩
  | binary span rule category left right => do
    let l ← chart.handle? left.span left.category
    let r ← chart.handle? right.span right.category
    some ⟨.cells l r, rule.name, span, category, none⟩
  | unary rule category base => do
    let m ← base.making? chart
    let name ← m.rule.overload? rule.name
    some ⟨m.source, name, m.span, category, some m.root⟩

namespace Analysis

variable {chart : Chart S} {a : Analysis} {m : Making} {span : Span} {category : Category}
  {name : RuleName}

theorem making?_entry {entry : LexicalEntry} :
    a.making? chart = some ⟨.entry entry, .lexical, span, entry.category, none⟩ ↔
      a = .lexical span entry := by
  cases a with
  | lexical span' entry' =>
    simp only [making?, Option.some.injEq, Making.mk.injEq, Source.entry.injEq, lexical.injEq]
    constructor
    · rintro ⟨rfl, -, rfl, -⟩
      exact ⟨rfl, rfl⟩
    · rintro ⟨rfl, rfl⟩
      simp
  | binary span' rule category left right => simp [making?, Option.bind_eq_some_iff]
  | unary rule category base => simp [making?, Option.bind_eq_some_iff]

theorem making?_cells {left right : CellId} :
    a.making? chart = some ⟨.cells left right, name, span, category, none⟩ ↔
      ∃ rule l r, chart.handle? l.span l.category = some left ∧
        chart.handle? r.span r.category = some right ∧ rule.name = name ∧
        a = .binary span rule category l r := by
  cases a with
  | lexical span' entry' => simp [making?]
  | binary span' rule category' l r =>
    simp only [making?, Option.bind_eq_bind, Option.bind_eq_some_iff, Option.some.injEq,
      Making.mk.injEq, Source.cells.injEq, binary.injEq]
    constructor
    · rintro ⟨_, hl, _, hr, ⟨rfl, rfl⟩, rfl, rfl, rfl, -⟩
      exact ⟨rule, l, r, hl, hr, rfl, rfl, rfl, rfl, rfl, rfl⟩
    · rintro ⟨_, _, _, hl, hr, rfl, rfl, rfl, rfl, rfl, rfl⟩
      exact ⟨left, hl, right, hr, ⟨rfl, rfl⟩, rfl, rfl, rfl, trivial⟩
  | unary rule category base => simp [making?, Option.bind_eq_some_iff]

theorem making?_unary {source : Source} {intermediate : Category} :
    a.making? chart = some ⟨source, name, span, category, some intermediate⟩ ↔
      ∃ rule base m, base.making? chart = some m ∧ m.rule.overload? rule.name = some name ∧
        m.source = source ∧ m.span = span ∧ m.root = intermediate ∧
        a = .unary rule category base := by
  cases a with
  | lexical span' entry' => simp [making?]
  | binary span' rule category' l r => simp [making?, Option.bind_eq_some_iff]
  | unary rule category' base =>
    simp only [making?, Option.bind_eq_bind, Option.bind_eq_some_iff, Option.some.injEq,
      Making.mk.injEq, unary.injEq]
    constructor
    · rintro ⟨m, hm, _, hname, rfl, rfl, rfl, rfl, rfl⟩
      exact ⟨rule, base, m, hm, hname, rfl, rfl, rfl, rfl, rfl, rfl⟩
    · rintro ⟨_, _, m, hm, hname, rfl, rfl, rfl, rfl, rfl, rfl⟩
      exact ⟨m, hm, name, hname, rfl, rfl, rfl, rfl, rfl⟩

/-- The step has the span and the category of the analysis, and a unary rule folded in if that has
one on top. -/
theorem of_making? (h : a.making? chart = some m) :
    m.span = a.span ∧ m.root = a.category ∧ m.intermediate.isSome = a.isUnary := by
  induction a generalizing m with
  | lexical span entry =>
    obtain rfl := Option.some.inj h
    exact ⟨rfl, rfl, rfl⟩
  | binary span rule category left right _ _ =>
    simp only [making?, Option.bind_eq_bind, Option.bind_eq_some_iff, Option.some.injEq] at h
    obtain ⟨_, _, _, _, rfl⟩ := h
    exact ⟨rfl, rfl, rfl⟩
  | unary rule category base ih =>
    simp only [making?, Option.bind_eq_bind, Option.bind_eq_some_iff, Option.some.injEq] at h
    obtain ⟨_, hm, _, _, rfl⟩ := h
    exact ⟨(ih hm).1, rfl, rfl⟩

end Analysis

section Counting

variable {P Q : Analysis → Prop} {trees lefts rights : List (ScoredTree S)}

/-- The trees are those of the analyses with a property, one for each of them. -/
def OneTreePer (P : Analysis → Prop) (trees : List (ScoredTree S)) : Prop :=
  ∃ analyses : List Analysis, analyses.Nodup ∧ (∀ a, a ∈ analyses ↔ P a) ∧
    trees.map (·.tree) = analyses.map Analysis.tree

namespace OneTreePer

theorem congr (h : OneTreePer P trees) (hPQ : ∀ a, P a ↔ Q a) : OneTreePer Q trees := by
  obtain ⟨analyses, hnodup, hmem, htrees⟩ := h
  exact ⟨analyses, hnodup, fun a => (hmem a).trans (hPQ a), htrees⟩

theorem single {a : Analysis} {t : ScoredTree S} (h : t.tree = a.tree) :
    OneTreePer (· = a) [t] :=
  ⟨[a], List.nodup_singleton a, fun _ => List.mem_singleton, by simp [h]⟩

theorem map (h : OneTreePer P lefts) {f : Analysis → Analysis} (hf : f.Injective)
    (wrap : DerivationTree → DerivationTree) (htree : ∀ a, P a → (f a).tree = wrap a.tree)
    (htrees : trees.map (·.tree) = (lefts.map (·.tree)).map wrap) :
    OneTreePer (fun a => ∃ b, P b ∧ a = f b) trees := by
  obtain ⟨analyses, hnodup, hmem, heq⟩ := h
  refine ⟨analyses.map f, hnodup.map hf, fun a => ?_, ?_⟩
  · simp only [List.mem_map, hmem, eq_comm]
  · rw [htrees, heq, List.map_map, List.map_map]
    refine List.map_congr_left fun a ha => ?_
    exact (htree a ((hmem a).mp ha)).symm

theorem pair (hl : OneTreePer P lefts) (hr : OneTreePer Q rights)
    {f : Analysis → Analysis → Analysis} (hf : ∀ l r l' r', f l r = f l' r' → l = l' ∧ r = r')
    {join : ScoredTree S → ScoredTree S → ScoredTree S}
    (wrap : DerivationTree → DerivationTree → DerivationTree)
    (htree : ∀ l r, (f l r).tree = wrap l.tree r.tree)
    (hjoin : ∀ l r, (join l r).tree = wrap l.tree r.tree) :
    OneTreePer (fun a => ∃ l r, P l ∧ Q r ∧ a = f l r)
      (rights.flatMap fun r => lefts.map fun l => join l r) := by
  obtain ⟨ls, hlnodup, hlmem, hleq⟩ := hl
  obtain ⟨rs, hrnodup, hrmem, hreq⟩ := hr
  refine ⟨rs.flatMap fun r => ls.map fun l => f l r, ?_, fun a => ?_, ?_⟩
  · refine List.nodup_flatMap.mpr ⟨fun r _ => hlnodup.map fun l l' h => (hf _ _ _ _ h).1, ?_⟩
    refine hrnodup.imp fun {r r'} hne => ?_
    intro a ha ha'
    obtain ⟨l, _, rfl⟩ := List.mem_map.mp ha
    obtain ⟨l', _, heq⟩ := List.mem_map.mp ha'
    exact hne (hf _ _ _ _ heq).2.symm
  · simp only [List.mem_flatMap, List.mem_map, hlmem, hrmem]
    constructor
    · rintro ⟨r, hr, l, hl, rfl⟩
      exact ⟨l, r, hl, hr, rfl⟩
    · rintro ⟨l, r, hl, hr, rfl⟩
      exact ⟨r, hr, l, hl, rfl⟩
  · calc (rights.flatMap fun r => lefts.map fun l => join l r).map (·.tree)
        = (rights.map (·.tree)).flatMap fun r => (lefts.map (·.tree)).map fun l => wrap l r := by
          simp [List.map_flatMap, List.flatMap_map, Function.comp_def, hjoin]
      _ = (rs.flatMap fun r => ls.map fun l => f l r).map Analysis.tree := by
          rw [hleq, hreq]
          simp [List.map_flatMap, List.flatMap_map, Function.comp_def, htree]

theorem flatMap {α : Type} {xs : List α} {P : α → Analysis → Prop} {f : α → List (ScoredTree S)}
    (h : ∀ x ∈ xs, OneTreePer (P x) (f x)) (hapart : xs.Pairwise fun x y => ∀ a, P x a → ¬ P y a) :
    OneTreePer (fun a => ∃ x ∈ xs, P x a) (xs.flatMap f) := by
  induction xs with
  | nil => exact ⟨[], List.nodup_nil, by simp, rfl⟩
  | cons x xs ih =>
    obtain ⟨as, hnodup, hmem, heq⟩ := h x (.head _)
    obtain ⟨hx, hapart⟩ := List.pairwise_cons.mp hapart
    obtain ⟨bs, hnodup', hmem', heq'⟩ := ih (fun y hy => h y (.tail _ hy)) hapart
    refine ⟨as ++ bs, List.nodup_append.mpr ⟨hnodup, hnodup', ?_⟩, fun a => ?_, ?_⟩
    · rintro a ha _ hb rfl
      obtain ⟨y, hy, hya⟩ := (hmem' a).mp hb
      exact hx y hy a ((hmem a).mp ha) hya
    · simp [hmem, hmem']
    · rw [List.flatMap_cons, List.map_append, List.map_append, heq, heq']

end OneTreePer

end Counting

theorem Step.tree_eq {s : Step S} (h : s.intermediate = none) (children : List DerivationTree) :
    s.tree children = .branch ⟨s.rule, s.root⟩ s.span
      (match s.entry? with
        | some entry => [.leaf (LexicalEntry.joinTokens entry.tokens) s.span]
        | none => children) := by
  unfold tree
  rw [h]
  cases s.rule.unary <;> rfl

/-- A unary rule puts a node on top of the tree of the step that it is folded into. -/
theorem Step.tree_overload {base : Making} {rule : RuleName} {category : Category} {s : Step S}
    (hbase : base.rule.isOverloaded = false) (hrule : rule.isOverloaded = false)
    (hmaking : s.making =
      ⟨base.source, ⟨base.rule.base, some rule.base⟩, base.span, category, some base.root⟩)
    (children : List DerivationTree) :
    s.tree children =
      .branch ⟨rule, category⟩ base.span [({ s with making := base } : Step S).tree children] := by
  obtain ⟨making, full, features, score⟩ := s
  dsimp only at hmaking
  subst hmaking
  have hnone : base.rule.unary = none := by simpa [RuleName.isOverloaded] using hbase
  simp only [tree, Step.rule, Step.intermediate, Step.root, Step.span, Step.entry?, hnone,
    RuleName.plain_base hrule]
  rw [RuleName.plain_base hbase]

variable {ctx : Context S} {chart : Chart S} {span : Span} {m : Making} {a : Analysis}

namespace Chart.Exhaustive

variable (hx : chart.Exhaustive ctx)

include hx

theorem handle?_eq_some_iff (hsize : span.size = ctx.size) {category : Category} {id : CellId} :
    chart.handle? span category = some id ↔
      ∃ c, (id, c) ∈ chart.cellsAt span.first span.last ∧ c.category = category := by
  unfold handle?
  rw [Option.map_eq_some_iff]
  constructor
  · rintro ⟨⟨id, c⟩, hfind, rfl⟩
    exact ⟨c, List.mem_of_find?_eq_some hfind, by simpa using List.find?_some hfind⟩
  · rintro ⟨c, hc, hcat⟩
    obtain ⟨x, hfind⟩ := Option.isSome_iff_exists.mp
      (List.find?_isSome (p := (·.2.category = category)) |>.mpr ⟨(id, c), hc, by simpa using hcat⟩)
    have hxcat : x.2.category = category := by simpa using List.find?_some hfind
    obtain rfl := hx.unique hsize (List.mem_of_find?_eq_some hfind) hc (hxcat.trans hcat.symm)
    exact ⟨_, hfind, rfl⟩

/-- A cell is the one for an analysis of its category over its span, and for no other analysis. -/
theorem handle?_eq_some_iff_of_cell (part : Span) (hpart : part.size = ctx.size) {id : CellId}
    {c : Cell S} (hc : (id, c) ∈ chart.cellsAt part.first part.last) (hd : ctx.Derives a) :
    chart.handle? a.span a.category = some id ↔ a.span = part ∧ a.category = c.category := by
  rw [hx.handle?_eq_some_iff hd.size]
  constructor
  · rintro ⟨d, hd', hcat⟩
    obtain ⟨hf, hl, hcell⟩ := mem_cellsAt_iff.mp hc
    obtain ⟨hf', hl', hcell'⟩ := mem_cellsAt_iff.mp hd'
    obtain rfl := Except.ok.inj (hcell.symm.trans hcell')
    exact ⟨Span.ext_bounds (hd.size.trans hpart.symm) (hf'.symm.trans hf) (hl'.symm.trans hl),
      hcat.symm⟩
  · rintro ⟨rfl, hcat⟩
    exact ⟨c, hc, hcat.symm⟩

theorem exists_handle (hsize : a.span.size = ctx.size) (hm : a.making? chart = some m)
    (hmakes : ctx.Makes chart a.span m) : ∃ id c, chart.handle? a.span a.category = some id ∧
      (id, c) ∈ chart.cellsAt a.span.first a.span.last ∧ c.Has m ∧ c.category = a.category := by
  obtain ⟨id, c, hc, hhas⟩ := hx.exists_cell hsize hmakes
  have hcat : c.category = a.category := hhas.category.trans (Analysis.of_making? hm).2.1
  exact ⟨id, c, (hx.handle?_eq_some_iff hsize).mpr ⟨c, hc, hcat⟩, hc, hhas, hcat⟩

theorem exists_making (hplain : ctx.grammar.Plain) (h : ctx.Derives a) :
    ∃ m, a.making? chart = some m ∧ ctx.Makes chart a.span m := by
  induction h with
  | lexical hsize hentry hprunes => exact ⟨_, rfl, .entry hentry hprunes⟩
  | @binary span k rule name category left right hk hleft hright hl hr hrule happly hprunes ihl
    ihr =>
    obtain ⟨_, hml, hmakesl⟩ := ihl
    obtain ⟨_, hmr, hmakesr⟩ := ihr
    obtain ⟨i, c, hi, hc, _, hcat⟩ := hx.exists_handle hl.size hml hmakesl
    obtain ⟨j, d, hj, hd, _, hcat'⟩ := hx.exists_handle hr.size hmr hmakesr
    obtain ⟨hif, hil, hc⟩ := mem_cellsAt_iff.mp hc
    obtain ⟨hjf, hjl, hd⟩ := mem_cellsAt_iff.mp hd
    rw [hleft] at hif hil
    rw [hright] at hjf hjl
    rw [← hcat, ← hcat'] at happly
    refine ⟨_, Analysis.making?_cells.mpr ⟨rule, left, right, hi, hj, rfl, rfl⟩, ?_⟩
    obtain rfl := (hplain.ownNames.binary_result hrule happly).1
    exact .binary ⟨k, hk, hif, hil, hjf, hjl⟩ hc hd hrule happly hprunes
  | @unary rule name category base hbase hd hrule happly hprunes ih =>
    obtain ⟨m, hm, hmakes⟩ := ih
    obtain ⟨hspan, hroot, hsome⟩ := Analysis.of_making? hm
    have hplainrule : m.rule.isOverloaded = false := by
      rw [hmakes.isOverloaded hplain.ownNames, hsome, hbase]
    obtain ⟨hname, hnameplain⟩ := hplain.ownNames.unary_result hrule happly
    obtain rfl : name = rule.name := hname
    rw [← hroot] at happly
    refine ⟨_, Analysis.making?_unary.mpr ⟨rule, base, m, hm,
      RuleName.overload?_eq_some.mpr ⟨hplainrule, hnameplain, rfl⟩, rfl, rfl, rfl, rfl⟩, ?_⟩
    rw [Analysis.span, hspan]
    exact hmakes.unary hplainrule hrule happly hprunes
      (RuleName.overload_eq_ok.mpr ⟨hplainrule, hnameplain, rfl⟩)

section Inversion

variable {result : RuleResult}

/-- The analyses that stand for a binary step: the rule over any two that stand for its cells. -/
theorem derives_cells_iff (hplain : ctx.grammar.Plain) (hsize : span.size = ctx.size) {k : Nat}
    (hk : k < span.numSplits) {left right : CellId} {l r : Cell S} {rule : BinaryRule}
    (hl : (left, l) ∈ chart.cellsAt (span.split k hk).1.first (span.split k hk).1.last)
    (hr : (right, r) ∈ chart.cellsAt (span.split k hk).2.first (span.split k hk).2.last)
    (hrule : rule ∈ ctx.grammar.binaryRules)
    (happly : rule.apply l.category r.category span = .ok (some result))
    (hprunes : ctx.prunes ⟨result.category, span, rule.name⟩ true = .ok false) :
    ctx.Derives a ∧ a.making? chart =
        some ⟨.cells left right, result.name, span, result.category, none⟩ ↔
      ∃ x y, (ctx.Derives x ∧ x.span = (span.split k hk).1 ∧ x.category = l.category) ∧
        (ctx.Derives y ∧ y.span = (span.split k hk).2 ∧ y.category = r.category) ∧
        a = .binary span rule result.category x y := by
  have hname := (hplain.ownNames.binary_result hrule happly).1
  have hleft := fun x (hd : ctx.Derives x) =>
    hx.handle?_eq_some_iff_of_cell (span.split k hk).1 hsize hl hd
  have hright := fun x (hd : ctx.Derives x) =>
    hx.handle?_eq_some_iff_of_cell (span.split k hk).2 hsize hr hd
  rw [Analysis.making?_cells]
  constructor
  · rintro ⟨hd, rule', x, y, hfound, hfound', hrule', rfl⟩
    cases hd with
    | binary hk' hxspan hyspan hdx hdy hmem happly' hprunes' =>
      have hsame : rule' = rule := by
        have hnodup := (List.nodup_append.mp hplain.unique).1
        exact List.inj_on_of_nodup_map hnodup hmem hrule (hrule'.trans hname)
      subst hsame
      exact ⟨x, y, ⟨hdx, (hleft x hdx).mp hfound⟩, ⟨hdy, (hright y hdy).mp hfound'⟩, rfl⟩
  · rintro ⟨x, y, ⟨hdx, hx'⟩, ⟨hdy, hy'⟩, rfl⟩
    refine ⟨?_, rule, x, y, (hleft x hdx).mpr hx', (hright y hdy).mpr hy', hname.symm, rfl⟩
    rw [← hx'.2, ← hy'.2] at happly
    exact .binary hk hx'.1 hy'.1 hdx hdy hrule happly hprunes

omit hx in
/-- The analyses that stand for a step with a unary rule folded in: the rule over any that stands
for the step without it. -/
theorem derives_unary_iff (hplain : ctx.grammar.Plain) {base : Making} {rule : UnaryRule}
    {name : RuleName} (hbase : ctx.Makes chart span base) (hrule : rule ∈ ctx.grammar.unaryRules)
    (happly : rule.apply base.root span = .ok (some result))
    (hprunes : ctx.prunes ⟨result.category, span, rule.name⟩ false = .ok false)
    (hname : base.rule.overload result.name = .ok name) :
    ctx.Derives a ∧ a.making? chart =
        some ⟨base.source, name, span, result.category, some base.root⟩ ↔
      ∃ b, (ctx.Derives b ∧ b.making? chart = some base) ∧ a = .unary rule result.category b := by
  obtain ⟨hresult, hplainrule⟩ := hplain.ownNames.unary_result hrule happly
  obtain ⟨hbaserule, _, rfl⟩ := RuleName.overload_eq_ok.mp hname
  have hnone : base.intermediate = none := by
    simpa [hbaserule] using (hbase.isOverloaded hplain.ownNames).symm
  rw [Analysis.making?_unary]
  constructor
  · rintro ⟨hd, rule', b, m, hm, hoverload, hsource, hspan, hroot, rfl⟩
    obtain ⟨hmrule, hplainrule', hname'⟩ := RuleName.overload?_eq_some.mp hoverload
    obtain ⟨hbasename, hunaryname⟩ := RuleName.mk.inj hname'
    cases hd with
    | unary hb hdb hmem _ _ =>
      have hsame : rule' = rule := by
        refine List.inj_on_of_nodup_map (List.nodup_append.mp hplain.unique).2.1 hmem hrule ?_
        rw [← hresult]
        exact RuleName.eq_of_base hplainrule' hplainrule (Option.some.inj hunaryname).symm
      have hmbase : m = base := by
        have hmnone : m.intermediate = none := by
          simpa [hb] using (Analysis.of_making? hm).2.2
        apply Making.ext
        · exact hsource
        · exact RuleName.eq_of_base hmrule hbaserule hbasename.symm
        · exact hspan.trans hbase.span_eq.symm
        · exact hroot
        · rw [hmnone, hnone]
      subst hsame hmbase
      exact ⟨b, ⟨hdb, hm⟩, rfl⟩
  · rintro ⟨b, ⟨hd, hm⟩, rfl⟩
    obtain ⟨hspan, hroot, hunary⟩ := Analysis.of_making? hm
    have hbspan : b.span = span := hspan.symm.trans hbase.span_eq
    refine ⟨?_, rule, b, base, hm, ?_, rfl, hbase.span_eq, rfl, rfl⟩
    · rw [hroot, ← hbspan] at happly
      rw [← hbspan] at hprunes
      exact .unary (by rw [← hunary, hnone]; rfl) hd hrule happly hprunes
    · rw [← hresult]
      exact RuleName.overload?_eq_some.mpr ⟨hbaserule, hplainrule, rfl⟩

end Inversion

variable [Scalar S]

theorem oneTreePer_step (hplain : ctx.grammar.Plain) (hsize : span.size = ctx.size)
    (h : ctx.Makes chart span m)
    (ih : ∀ id ∈ m.source.children, ∀ (part : Span) c, part.size = ctx.size →
      (id, c) ∈ chart.cellsAt part.first part.last →
      OneTreePer (fun a => ctx.Derives a ∧ a.span = part ∧ a.category = c.category)
        (chart.treesOf id))
    {step : Step S} (hstep : step.making = m) :
    OneTreePer (fun a => ctx.Derives a ∧ a.making? chart = some m)
      (treesOfStep step (step.children.map chart.treesOf)) := by
  induction h generalizing step with
  | @entry entry hentry hprunes =>
    rw [@treesOfStep_entry _ _ _ step entry (by rw [hstep])]
    have htree : (joinTrees step []).tree = (Analysis.lexical span entry).tree := by
      obtain ⟨_, _, _, _⟩ := step
      subst hstep
      rfl
    refine (OneTreePer.single htree).congr fun a => ?_
    rw [Analysis.making?_entry]
    constructor
    · rintro rfl
      exact ⟨.lexical hsize hentry hprunes, rfl⟩
    · exact fun ha => ha.2
  | @binary left right l r rule result hsplits hl hr hrule happly hprunes =>
    obtain ⟨k, hk, hlf, hll, hrf, hrl⟩ := hsplits
    have hleft : (left, l) ∈ chart.cellsAt (span.split k hk).1.first (span.split k hk).1.last :=
      mem_cellsAt_iff.mpr ⟨hlf, hll, hl⟩
    have hright : (right, r) ∈ chart.cellsAt (span.split k hk).2.first (span.split k hk).2.last :=
      mem_cellsAt_iff.mpr ⟨hrf, hrl, hr⟩
    have htrees := ih left (.head _) (span.split k hk).1 l hsize hleft
    have htrees' := ih right (.tail _ (.head _)) (span.split k hk).2 r hsize hright
    rw [treesOfStep_cells (by rw [hstep])]
    have hinj : ∀ x y x' y', Analysis.binary span rule result.category x y =
        .binary span rule result.category x' y' → x = x' ∧ y = y' :=
      fun _ _ _ _ heq => (Analysis.binary.inj heq).2.2.2
    refine (htrees.pair htrees' hinj (fun x y => .branch ⟨rule.name, result.category⟩ span [x, y])
      (fun _ _ => rfl) fun x y => ?_).congr fun a => ?_
    · obtain ⟨_, _, _, _⟩ := step
      subst hstep
      rw [← (hplain.ownNames.binary_result hrule happly).1]
      exact Step.tree_eq rfl _
    · exact (hx.derives_cells_iff hplain hsize hk hleft hright hrule happly hprunes).symm
  | @unary base rule result name hbase hbaserule hrule happly hprunes hname hstepbase =>
    obtain ⟨hresult, hplainrule⟩ := hplain.ownNames.unary_result hrule happly
    obtain ⟨_, _, hoverload⟩ := RuleName.overload_eq_ok.mp hname
    have hchildren : step.children = ({ step with making := base } : Step S).children := by
      simp [Step.children, hstep]
    have htree := Step.tree_overload (s := step) hbaserule hplainrule
      (by rw [hstep, hoverload, hbase.span_eq])
    have hinj : (Analysis.unary rule result.category).Injective :=
      fun _ _ heq => (Analysis.unary.inj heq).2.2
    have htrees :=
      hstepbase ih (show ({ step with making := base } : Step S).making = base from rfl)
    refine (htrees.map hinj
      (fun t => .branch ⟨rule.name, result.category⟩ span [t]) ?_ ?_).congr fun a => ?_
    · intro b hb
      have hspan := (Analysis.of_making? hb.2).1
      rw [← hbase.span_eq, hspan]
      rfl
    · simp only [treesOfStep, List.map_map, hchildren]
      refine List.map_congr_left fun row _ => ?_
      rw [← hbase.span_eq, ← hresult]
      exact htree _
    · exact (derives_unary_iff hplain hbase hrule happly hprunes hname).symm

/-- A cell has one tree for each analysis of its category over its span. -/
theorem oneTreePer_cell (hplain : ctx.grammar.Plain) (hrooted : chart.Rooted)
    (hsize : span.size = ctx.size) {id : CellId} {c : Cell S}
    (hc : (id, c) ∈ chart.cellsAt span.first span.last) :
    OneTreePer (fun a => ctx.Derives a ∧ a.span = span ∧ a.category = c.category)
      (chart.treesOf id) := by
  induction hn : id.length using Nat.strong_induction_on generalizing id c span with
  | _ n ih =>
    obtain ⟨_, _, hcell⟩ := mem_cellsAt_iff.mp hc
    have hpacked := hrooted.packed hcell
    rw [hrooted.treesOf_eq hcell, joined]
    have hsteps : ∀ p ∈ c.steps,
        OneTreePer (fun a => ctx.Derives a ∧ a.making? chart = some p.step.making)
          (treesOfStep p.step (p.step.children.map chart.treesOf)) := by
      intro p hp
      refine hx.oneTreePer_step hplain hsize (hx.makes hsize hc p hp)
        (fun id' hid part d hpart hd => ?_)
        rfl
      exact ih id'.length (hn ▸ hrooted.shorter hcell p hp id' hid) hpart hd rfl
    -- an analysis stands for one step
    have hapart : c.steps.Pairwise fun p q => ∀ a,
        ctx.Derives a ∧ a.making? chart = some p.step.making →
          ¬ (ctx.Derives a ∧ a.making? chart = some q.step.making) :=
      (List.pairwise_map.mp hpacked.nodup).imp fun hne a ha hb =>
        hne (Option.some.inj (ha.2.symm.trans hb.2))
    refine (OneTreePer.flatMap hsteps hapart).congr fun a => ?_
    constructor
    · rintro ⟨p, hp, hd, hm⟩
      obtain ⟨hspan, hroot, _⟩ := Analysis.of_making? hm
      refine ⟨hd, hspan.symm.trans (hx.makes hsize hc p hp).span_eq, ?_⟩
      exact hroot.symm.trans (hpacked.root p hp)
    · rintro ⟨hd, rfl, hcat⟩
      obtain ⟨m, hm, hmakes⟩ := hx.exists_making hplain hd
      obtain ⟨id', d, _, hd', hhas, hcat'⟩ := hx.exists_handle hd.size hm hmakes
      obtain rfl := (Prod.mk.inj (hx.unique hsize hc hd' (hcat.symm.trans hcat'.symm))).2
      obtain ⟨p, hp, rfl⟩ := List.mem_map.mp ((Cell.containsStep_iff _ _).mp hhas.step)
      exact ⟨p, hp, hd, hm⟩

end Chart.Exhaustive

theorem Chart.Exhaustive.exists_cell_of_derives (hx : chart.Exhaustive ctx)
    (hplain : ctx.grammar.Plain) (h : ctx.Derives a) :
    ∃ x ∈ chart.cellsAt a.span.first a.span.last, x.2.category = a.category := by
  obtain ⟨m, hm, hmakes⟩ := hx.exists_making hplain h
  obtain ⟨id, c, _, hc, _, hcat⟩ := hx.exists_handle h.size hm hmakes
  exact ⟨(id, c), hc, hcat⟩

variable [Scalar S]

/-- Without pruning, a span has a cell for each category that the lexicon and the rules derive over
it and no other, and the trees of a cell are the ways to derive its category, each once. -/
theorem Context.cells_of_analyses (hplain : ctx.grammar.Plain)
    (h : ctx.BuildsWhere ctx.Spares chart) (hsize : span.size = ctx.size) :
    (∀ category, (∃ x ∈ chart.cellsAt span.first span.last, x.2.category = category) ↔
      ∃ a, ctx.Derives a ∧ a.span = span ∧ a.category = category) ∧
    ∀ x ∈ chart.cellsAt span.first span.last, ∃ trees, ∃ analyses : List Analysis,
      chart.trees x.1 = .ok trees ∧ analyses.Nodup ∧
      (∀ a, a ∈ analyses ↔ ctx.Derives a ∧ a.span = span ∧ a.category = x.2.category) ∧
      trees.map (·.tree) = analyses.map Analysis.tree := by
  have hx := h.exhaustive hplain
  have hrooted := h.rooted
  have htrees : ∀ x ∈ chart.cellsAt span.first span.last,
      chart.trees x.1 = .ok (chart.treesOf x.1) ∧ chart.treesOf x.1 ≠ [] ∧
        OneTreePer (fun a => ctx.Derives a ∧ a.span = span ∧ a.category = x.2.category)
          (chart.treesOf x.1) := by
    intro x hmem
    obtain ⟨_, _, hcell⟩ := Chart.mem_cellsAt_iff.mp hmem
    exact ⟨hrooted.trees_eq hcell, hrooted.treesOf_ne_nil hcell,
      hx.oneTreePer_cell hplain hrooted hsize hmem⟩
  refine ⟨fun category => ⟨?_, ?_⟩, fun x hmem => ?_⟩
  · rintro ⟨x, hmem, rfl⟩
    obtain ⟨_, hne, analyses, _, hanalyses, heq⟩ := htrees x hmem
    have hsome : analyses ≠ [] := by
      rintro rfl
      exact hne (List.map_eq_nil_iff.mp heq)
    obtain ⟨a, ha⟩ := List.exists_mem_of_ne_nil _ hsome
    exact ⟨a, (hanalyses a).mp ha⟩
  · rintro ⟨a, hd, rfl, rfl⟩
    exact hx.exists_cell_of_derives hplain hd
  · obtain ⟨hok, _, analyses, hnodup, hanalyses, heq⟩ := htrees x hmem
    exact ⟨_, analyses, hok, hnodup, hanalyses, heq⟩

namespace Context

theorem Derives.withModel {S : Type} {ctx : Context S} {a : Analysis} (h : ctx.Derives a)
    (model : Model S) : (ctx.withModel model).Derives a :=
  h.of_eq rfl (fun _ => rfl) (fun _ => rfl) (fun _ _ => rfl) rfl rfl

/-- The subject from one of its sources is shifted, and the predicate takes it. -/
def predication (origin : String) : Analysis :=
  .binary ⟨0, 1, 2, by decide, by decide⟩ .backwardApplication
    ⟨.atom "S", some (.app (.const "walk") (.const "she"))⟩
    (.unary (.typeShift "up" (.atom "N") (.atom "NP") none) ⟨.atom "NP", some (.const "she")⟩
      (.lexical ⟨0, 0, 2, by decide, by decide⟩
        ⟨["she"], ⟨.atom "N", some (.const "she")⟩, origin⟩))
    (.lexical ⟨1, 1, 2, by decide, by decide⟩
      ⟨["walks"], ⟨.complex (.atom "S") .backward (.atom "NP"), some (.const "walk")⟩, "main"⟩)

def subject (origin : String) : Making :=
  ⟨.entry ⟨["she"], ⟨.atom "N", some (.const "she")⟩, origin⟩, .lexical,
    ⟨0, 0, 2, by decide, by decide⟩, ⟨.atom "N", some (.const "she")⟩, none⟩

theorem derives_predication (origin : String) (h : origin ∈ ["main", "more"]) :
    sheWalks.Derives (predication origin) := by
  have hentry : ∀ o ∈ ["main", "more"], ⟨["she"], ⟨.atom "N", some (.const "she")⟩, o⟩ ∈
      (EntrySource.union [.ofLexicon subjects]).entriesFor ["she"] := by decide
  have hentry' :
    ⟨["walks"], ⟨.complex (.atom "S") .backward (.atom "NP"), some (.const "walk")⟩, "main"⟩ ∈
      (EntrySource.union [.ofLexicon subjects]).entriesFor ["walks"] := by decide
  have hsubject : sheWalks.Derives (.lexical ⟨0, 0, 2, by decide, by decide⟩
      ⟨["she"], ⟨.atom "N", some (.const "she")⟩, origin⟩) :=
    .lexical rfl (hentry origin h) rfl
  have hshifted : sheWalks.Derives (.unary (.typeShift "up" (.atom "N") (.atom "NP") none)
      ⟨.atom "NP", some (.const "she")⟩ (.lexical _ _)) :=
    .unary rfl hsubject (.head _) rfl rfl
  exact .binary (k := 0) (by decide) rfl rfl hshifted (.lexical rfl hentry' rfl) (.head _) rfl rfl

theorem two_le_readings {analyses : List Analysis} {category : Category}
    (hcat : category = (predication "main").category)
    (h : ∀ a, sheWalks.Derives a → a.span = (predication "main").span → a.category = category →
      a ∈ analyses) : 2 ≤ analyses.length := by
  subst hcat
  have hboth : [predication "main", predication "more"] ⊆ analyses := by
    intro a ha
    rcases List.mem_pair.mp ha with rfl | rfl
    · exact h _ (derives_predication "main" (by decide)) rfl rfl
    · exact h _ (derives_predication "more" (by decide)) rfl rfl
  have hnodup : [predication "main", predication "more"].Nodup := by
    simp [predication]
  exact (hnodup.subperm hboth).length_le

theorem cells_of_analyses_sheWalks : ∃ chart, sheWalks.grammar.Plain ∧
    sheWalks.BuildsWhere sheWalks.Spares chart ∧
    ∃ x ∈ chart.cellsAt 0 1, x.2.category = (predication "main").category ∧
      ∃ trees, chart.trees x.1 = .ok trees ∧ 2 ≤ trees.length := by
  obtain ⟨chart, hparse⟩ := exists_parse_sheWalks
  have h := covered_sheWalks.builds hparse
  have hsize : (predication "main").span.size = sheWalks.size := rfl
  obtain ⟨hcells, htrees⟩ := cells_of_analyses plain_shifting h hsize
  obtain ⟨x, hx, hcat⟩ := (hcells _).mpr ⟨_, derives_predication "main" (by decide), rfl, rfl⟩
  obtain ⟨trees, analyses, hok, _, hmem, heq⟩ := htrees x hx
  refine ⟨chart, plain_shifting, h, x, hx, hcat, trees, hok, ?_⟩
  have hlength := congrArg List.length heq
  rw [List.length_map, List.length_map] at hlength
  rw [hlength]
  exact two_le_readings hcat fun a hd hspan hcat => (hmem a).mpr ⟨hd, hspan, hcat⟩

section Readings

variable {model : Model LogReal} {chart : Chart LogReal}
  (h : (sheWalks.withModel model).BuildsWhere (sheWalks.withModel model).Spares chart)

include h

theorem exists_readings :
    ∃ x ∈ chart.cellsAt 0 1, x ∈ chart.fullParses ∧ chart.cell x.1 = .ok x.2 ∧
      2 ≤ (chart.treesOf x.1).length := by
  have hx := h.exhaustive plain_shifting
  obtain ⟨⟨id, c⟩, hmem, hcat⟩ := hx.exists_cell_of_derives plain_shifting
    ((derives_predication "main" (by decide)).withModel model)
  obtain ⟨hfirst, hend, hcell⟩ := Chart.mem_cellsAt_iff.mp hmem
  obtain ⟨done, hgrounded⟩ := h.grounded
  obtain ⟨span, hspansize, hf, hl, hg⟩ := hgrounded id c hcell
  have hspan : span = (predication "main").span :=
    Span.ext_bounds hspansize (hf.trans hfirst) (hl.trans hend)
  have hfull : (sheWalks.withModel model).isFullParse span c.category = .ok true := by
    rw [hspan, hcat]
    rfl
  refine ⟨(id, c), hmem, ?_, hcell, ?_⟩
  · have hsize : chart.size = 2 := BuildsWhere.size_eq h
    rw [Chart.fullParses, hsize]
    exact List.mem_filter.mpr ⟨hmem, Except.ok.inj (hg.isFullParse.symm.trans hfull)⟩
  · obtain ⟨analyses, _, hanalyses, heq⟩ := hx.oneTreePer_cell plain_shifting h.rooted rfl hmem
    have hlength := congrArg List.length heq
    rw [List.length_map, List.length_map] at hlength
    rw [hlength]
    exact two_le_readings hcat fun a hd hspan hcat =>
      (hanalyses a).mpr ⟨hd.withModel model, hspan, hcat⟩

theorem fullParses_sheWalks : chart.fullParses ≠ [] := by
  obtain ⟨x, _, hx, _⟩ := exists_readings h
  exact List.ne_nil_of_mem hx

theorem exists_subject : ∃ x ∈ chart.cellsAt 0 0, 2 ≤ x.2.steps.length := by
  have hx := h.exhaustive plain_shifting
  have hentry : ∀ o ∈ ["main", "more"], ⟨["she"], ⟨.atom "N", some (.const "she")⟩, o⟩ ∈
      (EntrySource.union [.ofLexicon subjects]).entriesFor ["she"] := by decide
  have hmakes : ∀ o ∈ ["main", "more"],
      (sheWalks.withModel model).Makes chart (subject o).span (subject o) :=
    fun o ho => .entry (hentry o ho) rfl
  obtain ⟨id, c, hc, hmain⟩ := hx.exists_cell rfl (hmakes "main" (by decide))
  obtain ⟨id', d, hd, hmore⟩ := hx.exists_cell rfl (hmakes "more" (by decide))
  obtain ⟨rfl, rfl⟩ := Prod.mk.inj (hx.unique rfl hc hd (hmain.category.trans hmore.category.symm))
  have hboth : [subject "main", subject "more"] ⊆ c.steps.map (·.step.making) := by
    intro m hm
    rcases List.mem_pair.mp hm with rfl | rfl
    · exact (c.containsStep_iff _).mp hmain.step
    · exact (c.containsStep_iff _).mp hmore.step
  have hnodup : [subject "main", subject "more"].Nodup := by simp [subject]
  refine ⟨(id, c), hc, ?_⟩
  rw [← List.length_map (·.step.making)]
  exact (hnodup.subperm hboth).length_le

end Readings

theorem exists_fullParse_withModel_sheWalks (model : Model LogReal) :
    ∃ chart, (sheWalks.withModel model).Builds chart ∧
      ∃ x ∈ chart.cellsAt 0 1, x ∈ chart.fullParses ∧ chart.cell x.1 = .ok x.2 ∧
        2 ≤ (chart.treesOf x.1).length := by
  obtain ⟨chart, hparse⟩ := exists_parse_withModel_sheWalks model
  have h := (covered_sheWalks.withModel model).builds hparse
  exact ⟨chart, builds_of_parseSequentially hparse, exists_readings h⟩

theorem exists_fullParse_sheWalks : ∃ chart, sheWalks.Builds chart ∧
    ∃ x ∈ chart.cellsAt 0 1, x ∈ chart.fullParses ∧ chart.cell x.1 = .ok x.2 ∧
      2 ≤ (chart.treesOf x.1).length :=
  exists_fullParse_withModel_sheWalks telling

end Context

end Categorial
