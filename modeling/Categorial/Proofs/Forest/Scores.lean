import Categorial.Derivation
import Categorial.Proofs.Chart.Tallies
import Categorial.Proofs.Forest.Analyses
import Categorial.Proofs.Sums

/-! # Scores and trees

In exact arithmetic the scores that a cell was packed with are those of its trees: the best score is
that of the best tree, and the mass is that of all trees together.
-/

namespace Categorial

open LogReal

noncomputable def ScoredTree.totalMass (trees : List (ScoredTree LogReal)) : ℝ :=
  (trees.map (·.score.mass)).sum

theorem Cell.mass_logInside {c : Cell LogReal} (hc : c.Packed) :
    c.logInside.mass = (c.steps.map fun p => p.logInside.mass).sum := by
  rw [hc.logInside_eq]
  show (LogSpace.sumSorted (c.steps.map PackedStep.logInside)).mass = _
  rw [mass_sumSorted, List.map_map]
  rfl

theorem Cell.exists_viterbiSteps {c : Cell LogReal} (hc : c.Packed) :
    ∃ p ∈ c.steps, p.viterbi = c.viterbi ∧ ∃ rest, c.viterbiSteps = p.step :: rest := by
  obtain ⟨_, p, hp, hbest⟩ := c.viterbi_greatest negInf_le hc
  have hmem : p ∈ c.steps.filter c.isViterbi :=
    List.mem_filter.mpr ⟨hp, (OrderedScalar.beq_iff _ _).mpr hbest⟩
  cases hfilter : c.steps.filter c.isViterbi with
  | nil => simp [hfilter] at hmem
  | cons q rest =>
    obtain ⟨hq, hbest⟩ := List.mem_filter.mp (hfilter ▸ List.mem_cons_self : q ∈ c.steps.filter _)
    refine ⟨q, hq, (OrderedScalar.beq_iff _ _).mp hbest, rest.map (·.step), ?_⟩
    rw [viterbiSteps, hfilter, List.map_cons]

theorem Cell.viterbiSteps_ne_nil {c : Cell LogReal} (hc : c.Packed) : c.viterbiSteps ≠ [] := by
  obtain ⟨p, _, _, rest, hbest⟩ := exists_viterbiSteps hc
  rw [hbest]
  exact List.cons_ne_nil _ _

namespace Chart

variable {chart : Chart LogReal} {id : CellId} {c : Cell LogReal}

theorem mass_joinTrees (step : Step LogReal) (l r : ScoredTree LogReal) :
    (joinTrees step [l, r]).score.mass = step.localScore.mass * l.score.mass * r.score.mass := by
  simp [joinTrees]

theorem viterbi_leaf {p : PackedStep LogReal} (h : p.children = .leaf) :
    p.viterbi = p.step.localScore := by
  rw [PackedStep.viterbi, h]
  exact plus_zero p.step.localScore

theorem viterbi_cells {p : PackedStep LogReal} {l r : Cell LogReal}
    (h : p.children = .ofCells [l, r]) :
    p.viterbi = p.step.localScore + l.viterbi + r.viterbi := by
  refine mass_injective ?_
  simp only [PackedStep.viterbi, h, ChildScores.ofCells, List.foldl_cons, List.foldl_nil,
    ChildScores.join, ChildScores.leaf, mass_plus, mass_zero]
  ring

theorem mass_cells {p : PackedStep LogReal} {l r : Cell LogReal}
    (h : p.children = .ofCells [l, r]) :
    p.logInside.mass = p.step.localScore.mass * l.logInside.mass * r.logInside.mass := by
  simp only [PackedStep.logInside, h, ChildScores.ofCells, List.foldl_cons, List.foldl_nil,
    ChildScores.join, ChildScores.leaf, mass_plus, mass_zero]
  ring

namespace Rooted

/-- The mass inside of a cell is that of its trees. -/
theorem mass_logInside (h : chart.Rooted) (hc : chart.cell id = .ok c) :
    c.logInside.mass = ScoredTree.totalMass (chart.treesOf id) := by
  refine h.linked.cell_induction (P := fun id c =>
    c.logInside.mass = ScoredTree.totalMass (chart.treesOf id))
    (fun {id c} hc ih => ?_) hc
  rw [Cell.mass_logInside (h.packed hc), h.treesOf_eq hc, joined, ScoredTree.totalMass,
    sum_map_flatMap]
  refine congrArg List.sum (List.map_congr_left fun p hp => ?_)
  cases h.children hc hp with
  | entry hsource hleaf =>
    rw [treesOfStep_entry hsource]
    simp [PackedStep.logInside, hleaf, ChildScores.leaf, joinTrees]
  | @cells left right l r hsource hl hr hscores =>
    have hleft := ih p hp left (Step.left_mem_children hsource) hl
    have hright := ih p hp right (Step.right_mem_children hsource) hr
    rw [treesOfStep_cells hsource, sum_map_flatMap, mass_cells hscores, hleft, hright]
    simp only [List.map_map, Function.comp_def, mass_joinTrees, List.sum_map_mul_right,
      List.sum_map_mul_left, ScoredTree.totalMass]

theorem score_le (h : chart.Rooted) (hc : chart.cell id = .ok c) :
    ∀ t ∈ chart.treesOf id, t.score ≤ c.viterbi := by
  have hstep : ∀ {id : CellId} {c : Cell LogReal}, chart.cell id = .ok c →
      ∀ p ∈ c.steps, p.viterbi ≤ c.viterbi := fun hc =>
    (Cell.viterbi_greatest negInf_le (h.packed hc)).1
  refine h.tree_induction (P := fun c t => t.score ≤ c.viterbi) ?_ ?_ hc
  · intro id c p entry hc hp _ hleaf
    refine le_trans ?_ (hstep hc p hp)
    rw [PackedStep.viterbi, hleaf]
    exact (plus_zero p.step.localScore).ge
  · intro id c p left right l r tl tr hc hp _ _ _ hscores _ _ hleft hright
    refine le_trans ?_ (hstep hc p hp)
    rw [viterbi_cells hscores]
    exact plus_le_plus (plus_le_plus le_rfl hleft) hright

/-- The first best tree of a cell has its best score. -/
theorem viterbiTreeWithin_eq (h : chart.Rooted) (hc : chart.cell id = .ok c) {width : Nat}
    (hwidth : id.length ≤ width) : ∃ t ∈ chart.treesOf id, t.score = c.viterbi ∧
      chart.viterbiTreeWithin width id = .ok (some t.tree) := by
  refine h.linked.descend (P := fun width id => ∀ c, chart.cell id = .ok c →
    ∃ t ∈ chart.treesOf id, t.score = c.viterbi ∧
      chart.viterbiTreeWithin width id = .ok (some t.tree))
    (fun width id c hc ih d hd => ?_) hc hwidth c hc
  obtain rfl := Except.ok.inj (hc.symm.trans hd)
  obtain ⟨p, hp, hbest, rest, hfirst⟩ := Cell.exists_viterbiSteps (h.packed hc)
  have hwalk : chart.viterbiTreeWithin (width + 1) id = (do
      let children ← p.step.children.mapM (chart.viterbiTreeWithin width)
      .ok ((children.mapM fun child => child).map p.step.tree)) := by
    simp only [viterbiTreeWithin, hc, bind, Except.bind, hfirst]
  rw [hwalk, ← hbest]
  cases h.children hc hp with
  | entry hsource hleaf =>
    refine ⟨_, h.entry_mem_treesOf hc hp hsource, ?_, ?_⟩
    · rw [PackedStep.viterbi, hleaf]
      exact (plus_zero p.step.localScore).symm
    · rw [Step.children, hsource]
      rfl
  | @cells left right l r hsource hl hr hscores =>
    obtain ⟨tl, htl, hsl, hwl⟩ := ih p hp left (Step.left_mem_children hsource) l hl
    obtain ⟨tr, htr, hsr, hwr⟩ := ih p hp right (Step.right_mem_children hsource) r hr
    refine ⟨_, h.cells_mem_treesOf hc hp hsource htl htr, ?_, ?_⟩
    · rw [viterbi_cells hscores, ← hsl, ← hsr]
      rfl
    · rw [Step.children, hsource]
      simp only [Source.children, List.mapM_cons, List.mapM_nil, hwl, hwr]
      rfl

theorem logNormFiltered_eq (h : chart.Rooted) {b : Beam LogReal}
    (hb : chart.beam? 0 (chart.size - 1) = some b) (filter : Category → Bool) :
    ∃ forests,
      (chart.fullParses.filter fun x => filter x.2.category).mapM (fun x => chart.trees x.1) =
        .ok forests ∧
      chart.logNormFiltered filter = .ok (ofMass (ScoredTree.totalMass forests.flatten)) := by
  set roots := chart.fullParses.filter fun x => filter x.2.category with hroots
  have hcells : ∀ x ∈ roots, chart.cell x.1 = .ok x.2 := fun x hx =>
    (mem_cellsAt_iff.mp (List.mem_filter.mp (List.mem_filter.mp hx).1).1).2.2
  refine ⟨roots.map fun x => chart.treesOf x.1,
    mapM_eq_map fun x hx => h.trees_eq (hcells x hx), ?_⟩
  have hnorm : chart.logNormFiltered filter = .ok (LogSpace.sum (roots.map (·.2.logInside))) := by
    have hbeam := beam_eq_ok_iff.mpr hb
    simp only [logNormFiltered, logNorm, hbeam, bind, Except.bind, hroots, fullParses, cellsAt, hb,
      List.filter_filter, List.filter_map, List.map_map, Function.comp_def, Bool.and_comm]
  rw [hnorm]
  refine congrArg Except.ok (eq_ofMass ?_)
  rw [mass_sum, ScoredTree.totalMass, ← List.flatMap_def, sum_map_flatMap, List.map_map]
  exact congrArg List.sum (List.map_congr_left fun x hx => h.mass_logInside (hcells x hx))

end Rooted

end Chart

namespace Context

variable {ctx : Context LogReal} {chart : Chart LogReal} {g : Grammar} {tokens : List String}
  {model : Model LogReal} {options : ParseOptions}

/-- The scores of a finished chart are those of its trees: the best score of a cell is the greatest
score of a tree, its mass is that of all trees, and its first best tree is one with the greatest
score. The norm of some full parses is the mass of all of their trees. -/
theorem scores_of_trees (hnew : Context.new g tokens model options = .ok ctx)
    (h : ctx.Builds chart) :
    (∀ id c, chart.cell id = .ok c → ∃ trees, chart.trees id = .ok trees ∧
      IsGreatest {score | ∃ t ∈ trees, t.score = score} c.viterbi ∧
      c.logInside.mass = ScoredTree.totalMass trees ∧
      ∃ best ∈ trees, chart.viterbiTree id = .ok (some best.tree) ∧
        ∀ t ∈ trees, t.score ≤ best.score) ∧
    ∀ filter : Category → Bool, ∃ forests,
      (chart.fullParses.filter fun x => filter x.2.category).mapM (fun x => chart.trees x.1) =
        .ok forests ∧
      chart.logNormFiltered filter = .ok (ofMass (ScoredTree.totalMass forests.flatten)) := by
  have hrooted := BuildsWhere.rooted h
  obtain ⟨hpos, _⟩ := exists_schedule hnew
  constructor
  · intro id c hc
    obtain ⟨best, hbest, hscore, hwalk⟩ := hrooted.viterbiTreeWithin_eq hc le_rfl
    have hle := hrooted.score_le hc
    refine ⟨_, hrooted.trees_eq hc, ⟨⟨best, hbest, hscore⟩, ?_⟩, hrooted.mass_logInside hc, best,
      hbest, hwalk, fun t ht => (hle t ht).trans_eq hscore.symm⟩
    rintro _ ⟨t, ht, rfl⟩
    exact hle t ht
  · intro filter
    obtain ⟨b, hb⟩ := BuildsWhere.exists_beam_whole h hpos
    exact hrooted.logNormFiltered_eq hb filter

theorem scores_of_trees_sheWalks : ∃ chart,
    Context.new shifting ["she", "walks"] telling .default = .ok sheWalks ∧ sheWalks.Builds chart ∧
      (∃ x ∈ chart.fullParses, ∃ trees, chart.trees x.1 = .ok trees ∧ 2 ≤ trees.length ∧
        IsGreatest {score | ∃ t ∈ trees, t.score = score} x.2.viterbi ∧
        x.2.logInside.mass = ScoredTree.totalMass trees ∧
        ∃ best ∈ trees, chart.viterbiTree x.1 = .ok (some best.tree) ∧
          ∀ t ∈ trees, t.score ≤ best.score) ∧
      ∃ forests, chart.fullParses.mapM (fun x => chart.trees x.1) = .ok forests ∧
        forests.flatten ≠ [] ∧
        chart.logNormFiltered (fun _ => true) =
          .ok (ofMass (ScoredTree.totalMass forests.flatten)) := by
  obtain ⟨chart, hbuilds, ⟨id, c⟩, _, hx, hc, htwo⟩ := exists_fullParse_sheWalks
  obtain ⟨hcells, hnorm⟩ := scores_of_trees new_sheWalks hbuilds
  obtain ⟨trees, htrees, hgreatest, hmass, hbest⟩ := hcells id c hc
  obtain ⟨forests, hforests, hlog⟩ := hnorm fun _ => true
  rw [List.filter_true] at hforests
  have hrooted := BuildsWhere.rooted hbuilds
  obtain rfl := Except.ok.inj ((hrooted.trees_eq hc).symm.trans htrees)
  refine ⟨chart, new_sheWalks, hbuilds, ⟨(id, c), hx, _, htrees, htwo, hgreatest, hmass, hbest⟩,
    forests, hforests, ?_, hlog⟩
  have hall : chart.fullParses.mapM (fun x => chart.trees x.1) =
      .ok (chart.fullParses.map fun x => chart.treesOf x.1) :=
    mapM_eq_map fun x hx =>
      hrooted.trees_eq (Chart.mem_cellsAt_iff.mp (List.mem_filter.mp hx).1).2.2
  obtain rfl := Except.ok.inj (hforests.symm.trans hall)
  obtain ⟨best, hmem, _⟩ := hbest
  exact List.ne_nil_of_mem (List.mem_flatten_of_mem (List.mem_map_of_mem hx) hmem)

end Context

end Categorial
