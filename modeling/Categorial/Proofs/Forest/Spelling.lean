import Categorial.Proofs.Forest.NormalTrees
import Categorial.Proofs.Forest.Scores
import Categorial.Proofs.Forest.Walks
import Categorial.Proofs.Parser.WellFormed

/-! # What the trees of a chart spell

A tree is put together from handles, from the tokens of entries and from unary steps that were
folded away, without a look at the sentence. Its leaves nevertheless lie side by side and spell the
tokens of its cell, and each branch has just the tokens of its children.
-/

namespace Categorial

def Span.Covers (s : Span) (i : Nat) : Prop :=
  s.first ≤ i ∧ i ≤ s.last

/-- The spans are the tokens `first` to `last`, one span after the other, without gap or overlap. -/
inductive Tiles : Nat → Nat → List Span → Prop where
  | single (s : Span) : Tiles s.first s.last [s]
  | cons (s : Span) {last : Nat} {rest : List Span} :
      Tiles (s.last + 1) last rest → Tiles s.first last (s :: rest)

theorem Tiles.append {first cut last : Nat} {xs ys : List Span} (hxs : Tiles first cut xs)
    (hys : Tiles (cut + 1) last ys) : Tiles first last (xs ++ ys) := by
  induction hxs with
  | single s => exact .cons s hys
  | cons s _ ih => exact .cons s (ih hys)

/-- Each branch has just the tokens of its children. -/
inductive Tree.United {α β : Type} : Tree α β → Prop where
  | leaf (value : β) (span : Span) : United (.leaf value span)
  | branch (value : α) {span : Span} {children : List (Tree α β)} :
      (∀ i, span.Covers i ↔ ∃ t ∈ children, t.span.Covers i) → (∀ t ∈ children, United t) →
      United (.branch value span children)

namespace Chart

variable {S : Type}

/-- A tree of this category over the span. Its leaves tile the span and have the tokens of the
sentence, separated by single spaces, and each branch has just the tokens of its children. -/
structure Spells (chart : Chart S) (span : Span) (category : Category) (t : DerivationTree) :
    Prop where
  root : ∃ rule children, t = .branch ⟨rule, category⟩ span children
  tiles : Tiles span.first span.last (t.leaves.map Prod.snd)
  words : ∀ word place, (word, place) ∈ t.leaves → word = chart.textOf place.first place.last
  united : t.United

structure Row (chart : Chart S) (span : Span) (trees : List DerivationTree) : Prop where
  covers : ∀ i, span.Covers i ↔ ∃ t ∈ trees, t.span.Covers i
  tiles : Tiles span.first span.last ((Tree.leavesOf trees).map Prod.snd)
  words : ∀ word place, (word, place) ∈ Tree.leavesOf trees →
    word = chart.textOf place.first place.last
  united : ∀ t ∈ trees, t.United

variable {chart : Chart S} {span : Span} {trees : List DerivationTree}

theorem row_leaf (chart : Chart S) (span : Span) :
    chart.Row span [.leaf (chart.textOf span.first span.last) span] where
  covers i := by simp [Tree.span]
  tiles := .single span
  words word place h := by
    obtain ⟨rfl, rfl⟩ := Prod.mk.inj (List.mem_singleton.mp h)
    rfl
  united t ht := by
    obtain rfl := List.mem_singleton.mp ht
    exact .leaf _ _

theorem Spells.row {left right : Span} {leftCategory rightCategory : Category}
    {l r : DerivationTree} (hl : chart.Spells left leftCategory l)
    (hr : chart.Spells right rightCategory r) (hfirst : left.first = span.first)
    (hmeet : right.first = left.last + 1) (hlast : right.last = span.last) :
    chart.Row span [l, r] := by
  obtain ⟨_, _, hlroot⟩ := hl.root
  obtain ⟨_, _, hrroot⟩ := hr.root
  have hleaves : Tree.leavesOf [l, r] = l.leaves ++ r.leaves := by simp [Tree.leavesOf]
  constructor
  · intro i
    have hspans : (∃ t ∈ [l, r], t.span.Covers i) ↔ left.Covers i ∨ right.Covers i := by
      simp [hlroot, hrroot, Tree.span]
    have hle := left.first_le_last
    have hle' := right.first_le_last
    rw [hspans]
    unfold Span.Covers
    omega
  · have hr := hr.tiles
    rw [hmeet, hlast] at hr
    rw [hleaves, List.map_append, ← hfirst]
    exact hl.tiles.append hr
  · intro word place hword
    rw [hleaves] at hword
    exact (List.mem_append.mp hword).elim (hl.words word place) (hr.words word place)
  · intro t ht
    rcases List.mem_pair.mp ht with rfl | rfl
    · exact hl.united
    · exact hr.united

theorem Row.branch (h : chart.Row span trees) (node : DerivationNode) :
    chart.Spells span node.category (.branch node span trees) where
  root := ⟨node.rule, trees, rfl⟩
  tiles := h.tiles
  words := h.words
  united := .branch node h.covers h.united

theorem Spells.row_single {category : Category} {t : DerivationTree}
    (h : chart.Spells span category t) : chart.Row span [t] := by
  obtain ⟨_, _, hroot⟩ := h.root
  have hleaves : Tree.leavesOf [t] = t.leaves := by simp [Tree.leavesOf]
  constructor
  · intro i
    simp [hroot, Tree.span]
  · rw [hleaves]
    exact h.tiles
  · rw [hleaves]
    exact h.words
  · intro u hu
    obtain rfl := List.mem_singleton.mp hu
    exact h.united

/-- A unary rule that was folded into a step comes back as a branch over the same tokens. -/
theorem Row.tree {step : Step S} {children : List DerivationTree}
    (h : chart.Row step.span (step.below children)) :
    chart.Spells step.span step.root (step.tree children) := by
  cases hbetween : step.intermediate with
  | none =>
    rw [Step.tree_eq hbetween]
    exact h.branch ⟨step.rule, step.root⟩
  | some between =>
    cases hunary : step.rule.unary with
    | none =>
      have htree : step.tree children =
          .branch ⟨step.rule, step.root⟩ step.span (step.below children) := by
        simp only [Step.tree, hunary]
        rfl
      rw [htree]
      exact h.branch ⟨step.rule, step.root⟩
    | some unary =>
      have htree : step.tree children = .branch ⟨.plain unary, step.root⟩ step.span
          [.branch ⟨.plain step.rule.base, between⟩ step.span (step.below children)] := by
        simp only [Step.tree, hunary, hbetween]
        rfl
      rw [htree]
      exact (h.branch ⟨.plain step.rule.base, between⟩).row_single.branch ⟨.plain unary, step.root⟩

end Chart

section Steps

variable {S : Type} {ctx : Context S} {chart : Chart S} {span : Span} {m : Making}

theorem Context.Makes.mem_entriesFor (h : ctx.Makes chart span m) :
    ∀ entry, m.source = .entry entry → entry ∈ ctx.lexicon.entriesFor (ctx.tokensOf span) := by
  induction h with
  | entry hentry _ =>
    intro entry hsource
    obtain rfl := Source.entry.inj hsource
    exact hentry
  | binary _ _ _ _ _ _ => nofun
  | unary _ _ _ _ _ _ ih => exact ih

theorem Context.joinTokens_tokensOf (htokens : chart.tokens = ctx.tokens) (span : Span) :
    LexicalEntry.joinTokens (ctx.tokensOf span) = chart.textOf span.first span.last := by
  have hlength : span.length = span.last + 1 - span.first := by
    have hle := span.first_le_last
    unfold Span.length
    omega
  rw [Chart.textOf, Context.tokensOf, htokens, hlength]

end Steps

namespace Chart

variable {S : Type} [Scalar S] {ctx : Context S} {chart : Chart S} {id : CellId} {c : Cell S}

/-- Every tree of a cell spells its tokens. -/
theorem spells_treesOf {P : Chart S → Job → Prop} (h : ctx.BuildsWhere P chart)
    (htable : ctx.lexicon.IsTable) (hc : chart.cell id = .ok c) :
    ∀ t ∈ chart.treesOf id, chart.Spells c.span c.category t.tree := by
  obtain ⟨done, hgrounded⟩ := h.grounded
  have hsteps : ∀ {id c p}, chart.cell id = .ok c → p ∈ c.steps →
      c.category = p.step.root ∧ p.step.span = c.span ∧ p.Grounded ctx done chart c.span := by
    intro id c p hc hp
    obtain ⟨span, _, _, _, hcell⟩ := hgrounded id c hc
    obtain rfl := hcell.span_eq
    exact ⟨(hcell.packed.root p hp).symm, hcell.packed.span p hp, hcell.steps p hp⟩
  refine h.rooted.tree_induction (P := fun c t => chart.Spells c.span c.category t.tree) ?_ ?_ hc
  · intro id c p entry hc hp hsource _
    obtain ⟨hroot, hspan, hstep⟩ := hsteps hc hp
    have htokens := htable.tokens_eq (hstep.makes.mem_entriesFor entry hsource)
    rw [hroot, ← hspan]
    apply Row.tree
    rw [Step.below_entry hsource, htokens, Context.joinTokens_tokensOf h.tokens, hspan]
    exact row_leaf chart c.span
  · intro id c p left right l r tl tr hc hp hsource hl hr _ _ _ hleft hright
    obtain ⟨hroot, hspan, hstep⟩ := hsteps hc hp
    obtain ⟨hlfirst, hllast, _⟩ := h.span_bounds hl
    obtain ⟨hrfirst, hrlast, _⟩ := h.span_bounds hr
    have hsplits := hstep.faithful.splits
    rw [hsource] at hsplits
    obtain ⟨k, _, hfirst, hcut, hnext, hlast⟩ := hsplits
    rw [hroot, ← hspan]
    apply Row.tree
    rw [Step.below_cells hsource, hspan]
    exact hleft.row hright (hlfirst.trans hfirst) (by omega) (hrlast.trans hlast)

theorem Rooted.mem_treesOf_of_walk (h : chart.Rooted) {width : Nat} {tree : DerivationTree}
    (hwalk : chart.viterbiTreeWithin width id = .ok (some tree)) :
    ∃ t ∈ chart.treesOf id, t.tree = tree := by
  induction width generalizing id tree with
  | zero => cases hwalk
  | succ width ih =>
    obtain ⟨c, hc, hwalk⟩ := bind_eq_ok.mp hwalk
    split at hwalk
    · cases hwalk
    next step rest hsteps =>
      obtain ⟨p, hp, rfl⟩ := Linked.mem_followed true (hsteps ▸ List.mem_cons_self)
      obtain ⟨children, hchildren, hwalk⟩ := bind_eq_ok.mp hwalk
      obtain ⟨trees, htrees, rfl⟩ := Option.map_eq_some_iff.mp (Except.ok.inj hwalk)
      cases h.children hc hp with
      | entry hsource _ =>
        rw [Step.children, hsource] at hchildren
        obtain rfl := Except.ok.inj hchildren
        obtain rfl := Option.some.inj htrees
        exact ⟨_, h.entry_mem_treesOf hc hp hsource, rfl⟩
      | @cells left right l r hsource hl hr _ =>
        rw [Step.children, hsource, Source.children, List.mapM_cons] at hchildren
        obtain ⟨bestl, hleft, hchildren⟩ := bind_eq_ok.mp hchildren
        obtain ⟨rest, hrest, hchildren⟩ := bind_eq_ok.mp hchildren
        rw [List.mapM_cons] at hrest
        obtain ⟨bestr, hright, hrest⟩ := bind_eq_ok.mp hrest
        obtain rfl := Except.ok.inj hrest
        obtain rfl := Except.ok.inj hchildren
        cases bestl with
        | none => cases htrees
        | some treel =>
          cases bestr with
          | none => cases htrees
          | some treer =>
            obtain rfl := Option.some.inj htrees
            obtain ⟨tl, htl, rfl⟩ := ih hleft
            obtain ⟨tr, htr, rfl⟩ := ih hright
            exact ⟨_, h.cells_mem_treesOf hc hp hsource htl htr, rfl⟩

end Chart

namespace Context

variable {S : Type} [Scalar S] {ctx : Context S} {chart : Chart S} {g : Grammar}
  {tokens : List String} {model : Model S} {options : ParseOptions}

/-- The trees of a finished chart spell the sentence. A cell has the span of its handle, and each of
its trees has this span and the category of the cell at the root. The leaves tile the span and have
the tokens of the sentence, and every branch has just the tokens of its children. The best tree is
among them, and there is one exactly if first best steps lead to no cell without a best step. All
this only needs lexicons that are tables. -/
theorem trees_spell (hnew : Context.new g tokens model options = .ok ctx)
    (hmodel : model.lexicon.IsTable) (hextra : ∀ source ∈ options.extraLexicon, source.IsTable)
    (hsentence : ∀ lexicon ∈ g.sentenceLexicons tokens options.sloppy,
      ∃ entries, lexicon = .ofEntries entries) (h : ctx.Builds chart) :
    chart.tokens = tokens ∧ ∀ id c, chart.cell id = .ok c →
      (c.span.first = id.first ∧ c.span.last = id.last ∧ c.span.size = tokens.length) ∧
      ∃ trees best, chart.trees id = .ok trees ∧ chart.viterbiTree id = .ok best ∧
        (∀ t ∈ trees, chart.Spells c.span c.category t.tree) ∧
        (best.isSome = true ↔ chart.AlwaysBest id) ∧
        ∀ tree ∈ best, chart.Spells c.span c.category tree ∧ ∃ t ∈ trees, t.tree = tree := by
  have htable := isTable_of_new hnew hmodel hextra hsentence
  have htokens : ctx.tokens = tokens := by
    simp only [Context.new] at hnew
    split_ifs at hnew
    obtain rfl := Except.ok.inj hnew
    rfl
  refine ⟨(BuildsWhere.tokens h).trans htokens, fun id c hc => ?_⟩
  have hrooted := BuildsWhere.rooted h
  have hspells := Chart.spells_treesOf h htable hc
  obtain ⟨best, hbest, hsome⟩ := hrooted.linked.exists_viterbiTree hc
  obtain ⟨hfirst, hlast, hsize⟩ := BuildsWhere.span_bounds h hc
  rw [Context.size, htokens] at hsize
  refine ⟨⟨hfirst, hlast, hsize⟩, _, best, hrooted.trees_eq hc, hbest, hspells, hsome, ?_⟩
  intro tree htree
  obtain rfl := Option.mem_def.mp htree
  obtain ⟨t, ht, rfl⟩ := hrooted.mem_treesOf_of_walk hbest
  exact ⟨hspells t ht, t, ht, rfl⟩

theorem trees_spell_sheWalks : telling.lexicon.IsTable ∧ ∃ chart, sheWalks.Builds chart ∧
    chart.tokens = ["she", "walks"] ∧ ∃ x ∈ chart.cellsAt 0 1, ∃ trees,
      chart.trees x.1 = .ok trees ∧ 2 ≤ trees.length ∧
        (∀ t ∈ trees, chart.Spells x.2.span x.2.category t.tree) ∧ chart.AlwaysBest x.1 ∧
        ∃ t ∈ trees, chart.viterbiTree x.1 = .ok (some t.tree) := by
  have htable : telling.lexicon.IsTable := .table _
  obtain ⟨chart, hbuilds, ⟨id, c⟩, hx, _, hc, htwo⟩ := exists_fullParse_sheWalks
  obtain ⟨htokens, hall⟩ := trees_spell new_sheWalks htable nofun nofun hbuilds
  obtain ⟨_, trees, best, htrees, hbest, hspells, hsome, hlisted⟩ := hall id c hc
  have hrooted := BuildsWhere.rooted hbuilds
  have halways : chart.AlwaysBest id := fun _ _ _ hd => Cell.viterbiSteps_ne_nil (hrooted.packed hd)
  obtain rfl := Except.ok.inj ((hrooted.trees_eq hc).symm.trans htrees)
  obtain ⟨tree, rfl⟩ := Option.isSome_iff_exists.mp (hsome.mpr halways)
  obtain ⟨_, t, ht, rfl⟩ := hlisted tree rfl
  exact ⟨htable, chart, hbuilds, htokens, _, hx, _, htrees, htwo, hspells, halways, t, ht, hbest⟩

end Context

end Categorial
