import Mathlib.Data.List.MinMax
import Categorial.Derivation
import Categorial.Proofs.Forest.Expectations
import Categorial.Proofs.Parser.Vetting

/-! # The results of a parse

Over the whole sentence a step stays only if it is lexical, if its category is a result, or if a
unary rule may still turn it into one. Whether a cell counts as a result is told by its category
alone, so the derivations of a finished chart are all cells of the whole sentence that the grammar
takes for results, and the best of them are those that no other one beats.
-/

namespace Categorial

section Maxima

variable {α W : Type} [LinearOrder W] {f : α → W} {xs : List α} {x top : α}

def maxima (f : α → W) (xs : List α) : List α :=
  xs.filter fun x => ∀ y ∈ xs, f y ≤ f x

theorem mem_maxima : x ∈ maxima f xs ↔ x ∈ xs ∧ ∀ y ∈ xs, f y ≤ f x := by
  simp [maxima]

theorem maxima_eq_nil : maxima f xs = [] ↔ xs = [] := by
  refine ⟨fun h => ?_, fun h => by rw [h]; rfl⟩
  rw [← List.argmax_eq_none (f := f), Option.eq_none_iff_forall_not_mem]
  intro top htop
  have hmem : top ∈ maxima f xs :=
    mem_maxima.mpr ⟨List.argmax_mem htop, fun y hy => List.le_of_mem_argmax hy htop⟩
  simp [h] at hmem

theorem maxima_concat (f : α → W) (xs : List α) (x : α) : maxima f (xs ++ [x]) =
    match maxima f xs with
    | [] => [x]
    | top :: _ =>
      if f x < f top then maxima f xs else if f x = f top then maxima f xs ++ [x] else [x] := by
  cases hm : maxima f xs with
  | nil =>
    obtain rfl := maxima_eq_nil.mp hm
    simp [maxima]
  | cons top rest =>
    obtain ⟨htop, hle⟩ := mem_maxima.mp (hm ▸ List.mem_cons_self : top ∈ maxima f xs)
    have hsplit : maxima f (xs ++ [x]) = (xs.filter fun z => (∀ y ∈ xs, f y ≤ f z) ∧ f x ≤ f z) ++
        if ∀ y ∈ xs, f y ≤ f x then [x] else [] := by
      simp only [maxima, List.filter_append, List.forall_mem_append, List.forall_mem_singleton]
      congr 1
      simp [List.filter_singleton]
    dsimp only
    rw [← hm, hsplit]
    rcases lt_trichotomy (f x) (f top) with h | h | h
    · have hnot : ¬ ∀ y ∈ xs, f y ≤ f x := fun hall => absurd (hall top htop) h.not_ge
      rw [if_neg hnot, if_pos h, List.append_nil]
      refine List.filter_congr fun z _ => decide_eq_decide.mpr ?_
      exact and_iff_left_of_imp fun hz => h.le.trans (hz top htop)
    · have hall : ∀ y ∈ xs, f y ≤ f x := fun y hy => (hle y hy).trans_eq h.symm
      rw [if_pos hall, if_neg h.not_lt, if_pos h]
      congr 1
      refine List.filter_congr fun z _ => decide_eq_decide.mpr ?_
      exact and_iff_left_of_imp fun hz => h.le.trans (hz top htop)
    · have hall : ∀ y ∈ xs, f y ≤ f x := fun y hy => (hle y hy).trans h.le
      rw [if_pos hall, if_neg h.not_gt, if_neg h.ne']
      have hnone : (xs.filter fun z => (∀ y ∈ xs, f y ≤ f z) ∧ f x ≤ f z) = [] := by
        rw [List.filter_eq_nil_iff]
        intro z hz
        have hlt : f z < f x := (hle z hz).trans_lt h
        simpa using fun _ => hlt
      rw [hnone, List.nil_append]

end Maxima

variable {S : Type} [Scalar S]

namespace Scalar.ComparedBy

variable {V : Type} [LinearOrder V] {value : S → WithBot V} (h : Scalar.ComparedBy value)

include h

theorem value_viterbi_add {t : Tally S} (ht : value t.viterbi ≠ ⊥) (p : PackedStep S) :
    value (t.add p).viterbi ≠ ⊥ := by
  unfold Tally.add
  dsimp only
  split_ifs with hbeq hblt
  · exact ht
  · exact (bot_le.trans_lt ((h.blt_iff _ _).mp hblt).2).ne'
  · exact ht

theorem value_viterbi {c : Cell S} (hc : c.Packed) : value c.viterbi ≠ ⊥ := by
  have hfold : ∀ (steps : List (PackedStep S)) (t : Tally S), value t.viterbi ≠ ⊥ →
      value (steps.foldl Tally.add t).viterbi ≠ ⊥ := by
    intro steps
    induction steps with
    | nil => exact fun t ht => ht
    | cons p steps ih => exact fun t ht => ih _ (h.value_viterbi_add ht p)
  rw [Cell.viterbi, hc.tally_eq]
  exact hfold c.steps .empty h.negInf

/-- Keeping those tied for the best score finds all that reach the greatest. -/
theorem foldl_keepBest {ds : List (Derivation S)} (hds : ∀ d ∈ ds, value d.cell.viterbi ≠ ⊥) :
    ds.foldl Chart.keepBest [] = maxima (fun d => value d.cell.viterbi) ds := by
  induction ds using List.reverseRecOn with
  | nil => rfl
  | append_singleton ds d ih =>
    have hd := hds d (List.mem_append_right _ (.head _))
    rw [List.foldl_append, ih fun e he => hds e (List.mem_append_left _ he), maxima_concat,
      List.foldl_cons, List.foldl_nil]
    cases maxima (fun d => value d.cell.viterbi) ds with
    | nil => rfl
    | cons top rest => simp [Chart.keepBest, h.blt_iff, h.beq_iff, hd]

end Scalar.ComparedBy

/-- Whether all derivations of a list have a lower score or the same. -/
def Derivation.isBestOf (ds : List (Derivation S)) (d : Derivation S) : Bool :=
  ds.all fun e =>
    Scalar.blt e.cell.viterbi d.cell.viterbi || Scalar.beq e.cell.viterbi d.cell.viterbi

theorem Scalar.ComparedBy.maxima_eq {V : Type} [LinearOrder V] {value : S → WithBot V}
    (h : Scalar.ComparedBy value) {ds : List (Derivation S)}
    (hds : ∀ d ∈ ds, value d.cell.viterbi ≠ ⊥) :
    maxima (fun d => value d.cell.viterbi) ds = ds.filter (·.isBestOf ds) := by
  refine List.filter_congr fun d _ => ?_
  rw [Derivation.isBestOf, Bool.eq_iff_iff, decide_eq_true_iff, List.all_eq_true]
  refine forall₂_congr fun e he => ?_
  rw [Bool.or_eq_true, h.blt_iff, h.beq_iff, ← and_or_left, ← le_iff_lt_or_eq]
  exact (and_iff_right (hds e he)).symm

/-- Why a step over the whole sentence stays: it is lexical, its category is a result, or it is a
binary step that a unary rule may still turn into a result. -/
inductive Context.Stays {S : Type} (ctx : Context S) (m : Making) : Prop where
  | lexical {entry : LexicalEntry} : m.source = .entry entry → m.rule = .lexical → Stays ctx m
  | result : ctx.grammar.isComplete m.root = .ok true → Stays ctx m
  | argument {left right : CellId} {rule : UnaryRule} : m.source = .cells left right →
      m.rule.isOverloaded = false → rule ∈ ctx.grammar.unaryRules →
      rule.accepts m.root m.span = .ok true → Stays ctx m

/-- No step of a binary rule is recorded under the names of two rules. -/
def Grammar.PlainBinary (g : Grammar) : Prop :=
  ∀ rule ∈ g.binaryRules, ∀ left right span result,
    rule.apply left right span = .ok (some result) → result.name.isOverloaded = false

namespace Context

variable {ctx : Context S} {chart : Chart S} {span : Span} {m : Making} {c : Cell S}
  {done : Set Job}

omit [Scalar S] in
theorem Makes.stays (hplain : ctx.grammar.PlainBinary) (h : ctx.Makes chart span m)
    (hcomplete : span.isComplete = true) : ctx.Stays m := by
  cases h with
  | entry _ _ => exact .lexical rfl rfl
  | binary _ _ _ hrule happly hprunes =>
    rcases (of_prunes_eq_false hprunes).2 hcomplete with hresult | ⟨_, unary, hunary, haccepts⟩
    · exact .result hresult
    · exact .argument rfl (hplain _ hrule _ _ _ _ happly) hunary haccepts
  | unary _ _ _ _ hprunes _ =>
    rcases (of_prunes_eq_false hprunes).2 hcomplete with hresult | ⟨hbefore, _⟩
    · exact .result hresult
    · exact absurd hbefore Bool.false_ne_true

omit [Scalar S] in
theorem Makes.isSome_or_empty (h : ctx.Makes chart span m) :
    m.root.semantics.isSome = true ∨ m.root = .empty := by
  have hroot : ∃ rule, ctx.Admits ⟨m.root, span, rule⟩ := by
    cases h with
    | entry _ hprunes => exact ⟨_, hardPrunes_eq_false_iff.mp hprunes⟩
    | binary _ _ _ _ _ hprunes => exact ⟨_, (of_prunes_eq_false hprunes).1⟩
    | unary _ _ _ _ hprunes _ => exact ⟨_, (of_prunes_eq_false hprunes).1⟩
  obtain ⟨_, hempty | ⟨hsome, _⟩⟩ := hroot
  · exact .inr hempty
  · exact .inl hsome

theorem isFullParse_iff_of_grounded (h : c.Grounded ctx done chart span) :
    c.isFullParse = true ↔
      c.span.isComplete = true ∧ ctx.grammar.isComplete c.category = .ok true := by
  have hflag := h.isFullParse
  rw [h.span_eq]
  unfold isFullParse at hflag
  split_ifs at hflag with hcomplete
  · rw [hflag, hcomplete]
    simp
  · rw [← Except.ok.inj hflag]
    simp [hcomplete]

omit [Scalar S] in
theorem mem_allDerivations_iff {d : Derivation S} : d ∈ chart.allDerivations ↔
    d.chart = chart ∧ (d.id, d.cell) ∈ chart.cellsAt 0 (chart.size - 1) ∧
      d.cell.isFullParse = true := by
  obtain ⟨chart', id, c⟩ := d
  rw [Chart.allDerivations, Chart.fullParses, List.mem_map]
  constructor
  · rintro ⟨x, hx, he⟩
    obtain ⟨rfl, rfl, rfl⟩ := Derivation.mk.inj he
    obtain ⟨hx, hfull⟩ := List.mem_filter.mp hx
    exact ⟨rfl, hx, hfull⟩
  · rintro ⟨rfl, hx, hfull⟩
    exact ⟨(id, c), List.mem_filter.mpr ⟨hx, hfull⟩, rfl⟩

/-- Cells of a finished chart have semantics unless they are empty, their flag says whether they are
results, and over the whole sentence all their steps had a reason to stay. So the derivations are
the cells that are results, and the best derivations under a filter are those of the greatest score
among all that pass it, none if none does. -/
theorem results_of_builds {S : Type} [Scalar S] {ctx : Context S} {chart : Chart S}
    (hplain : ctx.grammar.PlainBinary) (h : ctx.Builds chart) :
    (∀ id c, chart.cell id = .ok c →
      (c.category.semantics.isSome = true ∨ c.category = .empty) ∧
      (c.isFullParse = true ↔
        c.span.isComplete = true ∧ ctx.grammar.isComplete c.category = .ok true) ∧
      (c.span.isComplete = true → ∀ p ∈ c.steps, ctx.Stays p.step.making)) ∧
    (∀ d, d ∈ chart.allDerivations ↔ d.chart = chart ∧
      (d.id, d.cell) ∈ chart.cellsAt 0 (chart.size - 1) ∧
        ctx.grammar.isComplete d.cell.category = .ok true) ∧
    ∀ (V : Type) [LinearOrder V] (value : S → WithBot V), Scalar.ComparedBy value →
      ∀ filter, chart.maxDerivations filter =
          (chart.derivations filter).filter (·.isBestOf (chart.derivations filter)) ∧
        (chart.maxDerivations filter = [] ↔ chart.derivations filter = []) := by
  obtain ⟨done, hgrounded⟩ := BuildsWhere.grounded h
  refine ⟨fun id c hc => ?_, fun d => ?_, fun V _ value hvalue filter => ?_⟩
  · obtain ⟨span, _, _, _, hg⟩ := hgrounded id c hc
    refine ⟨?_, isFullParse_iff_of_grounded hg, fun hcomplete p hp => ?_⟩
    · obtain ⟨p, hp, _⟩ := hg.packed.flag
      rw [← hg.packed.root p hp]
      exact (hg.steps p hp).makes.isSome_or_empty
    · exact (hg.steps p hp).makes.stays hplain (hg.span_eq ▸ hcomplete)
  · rw [mem_allDerivations_iff]
    refine and_congr_right fun _ => and_congr_right fun hmem => ?_
    obtain ⟨hfirst, hlast, hc⟩ := Chart.mem_cellsAt_iff.mp hmem
    obtain ⟨span, hsize, hf, hl, hg⟩ := hgrounded _ _ hc
    have hcomplete : d.cell.span.isComplete = true := by
      have hlt := span.last_lt_size
      rw [BuildsWhere.size_eq h] at hlast
      rw [hg.span_eq, Span.isComplete, hf, hl, hfirst, hlast, hsize]
      simp
      omega
    rw [isFullParse_iff_of_grounded hg]
    exact and_iff_right hcomplete
  · have hdefined : ∀ d ∈ chart.derivations filter, value d.cell.viterbi ≠ ⊥ := by
      intro d hd
      obtain ⟨_, hmem, _⟩ := mem_allDerivations_iff.mp (List.mem_filter.mp hd).1
      exact hvalue.value_viterbi
        ((BuildsWhere.rooted h).packed (Chart.mem_cellsAt_iff.mp hmem).2.2)
    have hmax := hvalue.foldl_keepBest hdefined
    constructor
    · rw [Chart.maxDerivations, hmax, hvalue.maxima_eq hdefined]
    · rw [Chart.maxDerivations, hmax, maxima_eq_nil]

theorem results_of_builds_sheWalks : ∃ chart, sheWalks.grammar.PlainBinary ∧
    sheWalks.Builds chart ∧ Scalar.ComparedBy (WithBot.some : LogReal → WithBot LogReal) ∧
      chart.bestDerivations ≠ [] ∧ ∀ d ∈ chart.bestDerivations,
        d.isBestOf (chart.derivations fun _ => true) = true ∧ d.cell.category.type = .atom "S" := by
  have hplain : sheWalks.grammar.PlainBinary := fun _ hrule _ _ _ _ happly =>
    (plain_shifting.ownNames.binary_result hrule happly).2
  obtain ⟨chart, hparse⟩ := exists_parse_sheWalks
  have hbuilds := builds_of_parseSequentially hparse
  obtain ⟨_, hall, hmax⟩ := results_of_builds hplain hbuilds
  obtain ⟨hbest, hnil⟩ := hmax LogReal WithBot.some OrderedScalar.comparedBy fun _ => true
  refine ⟨chart, hplain, hbuilds, OrderedScalar.comparedBy, fun hnone => ?_, fun d hd => ?_⟩
  · have hfull := fullParses_sheWalks (covered_sheWalks.builds hparse)
    have hderived := hnil.mp hnone
    rw [Chart.derivations, List.filter_true, Chart.allDerivations, List.map_eq_nil_iff] at hderived
    exact hfull hderived
  · rw [Chart.bestDerivations, hbest] at hd
    obtain ⟨hd, htop⟩ := List.mem_filter.mp hd
    obtain ⟨_, _, hresult⟩ := (hall d).mp (List.mem_filter.mp hd).1
    exact ⟨htop, by simpa [sheWalks, shifting] using hresult⟩

end Context

end Categorial
