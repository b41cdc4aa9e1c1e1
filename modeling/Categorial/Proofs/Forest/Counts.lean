import Categorial.Proofs.Forest.Expectations

/-! # Counts of trees

The counts of a cell are those of its trees, cut off at the limit where counts stop. Cutting off
every sum and every product on the way gives the same as cutting off at the end. A cell that finds a
better step starts its count of best trees anew, so that it counts the trees of its best steps.
-/

namespace Categorial

theorem min_mul_min (a b : Nat) :
    min (a * min b countLimit) countLimit = min (a * b) countLimit := by
  rcases le_total b countLimit with hb | hb
  · rw [min_eq_left hb]
  · rcases Nat.eq_zero_or_pos a with rfl | ha
    · simp
    · have hlimit : countLimit ≤ a * countLimit := Nat.le_mul_of_pos_left _ ha
      rw [min_eq_right hb, min_eq_right hlimit, min_eq_right]
      exact hlimit.trans (Nat.mul_le_mul_left a hb)

theorem mulCounts_min (a b : Nat) :
    mulCounts (min a countLimit) (min b countLimit) = min (a * b) countLimit := by
  unfold mulCounts
  rw [min_mul_min, Nat.mul_comm, min_mul_min, Nat.mul_comm]

theorem one_eq_min : 1 = min 1 countLimit := by
  decide

theorem sum_map_ite {α : Type} (p : α → Prop) [DecidablePred p] (n : Nat) (xs : List α) :
    (xs.map fun x => if p x then n else 0).sum = xs.countP (p ·) * n := by
  induction xs with
  | nil => simp
  | cons x xs ih =>
    rw [List.map_cons, List.sum_cons, ih, List.countP_cons]
    split_ifs <;> simp_all [Nat.add_mul, Nat.add_comm]

namespace Chart

section AllTrees

variable {S : Type} [Scalar S] {chart : Chart S} {id : CellId} {c : Cell S}

theorem Rooted.numParses_eq (h : chart.Rooted) (hc : chart.cell id = .ok c) :
    c.numParses = min (chart.treesOf id).length countLimit := by
  refine h.linked.cell_induction (P := fun id c =>
    c.numParses = min (chart.treesOf id).length countLimit)
    (fun {id c} hc ih => ?_) hc
  have hsteps : ∀ p ∈ c.steps, p.children.numParses =
      min (treesOfStep p.step (p.step.children.map chart.treesOf)).length countLimit := by
    intro p hp
    cases h.children hc hp with
    | entry hsource hleaf =>
      rw [treesOfStep_entry hsource, hleaf]
      exact one_eq_min
    | @cells left right l r hsource hl hr hscores =>
      have hleft := ih p hp left (Step.left_mem_children hsource) hl
      have hright := ih p hp right (Step.right_mem_children hsource) hr
      have hproduct : (treesOfStep p.step (p.step.children.map chart.treesOf)).length =
          1 * (chart.treesOf left).length * (chart.treesOf right).length := by
        rw [treesOfStep_cells hsource]
        simp [List.length_flatMap, Nat.mul_comm]
      calc p.children.numParses
          = mulCounts (mulCounts 1 l.numParses) r.numParses := by
            rw [hscores]
            rfl
        _ = _ := by
            rw [one_eq_min, hleft, hright, mulCounts_min, mulCounts_min, hproduct]
  have htally : c.numParses = (c.steps.foldl Tally.add .empty).numParses :=
    congrArg Tally.numParses (h.packed hc).tally_eq
  rw [htally, Tally.numParses_foldl_add hsteps (k := 0) rfl, Nat.zero_add, h.treesOf_eq hc,
    joined, List.length_flatMap]

end AllTrees

end Chart

namespace LogReal

theorem plus_ne_bot {a b : LogReal} (ha : a ≠ ⊥) (hb : b ≠ ⊥) : a + b ≠ ⊥ := by
  rw [← mass_pos_iff] at ha hb ⊢
  rw [mass_plus]
  exact mul_pos ha hb

theorem plus_eq_plus_iff {a b c d : LogReal} (hac : a ≤ c) (hbd : b ≤ d) (hc : c ≠ ⊥)
    (hd : d ≠ ⊥) : a + b = c + d ↔ a = c ∧ b = d := by
  rw [← mass_pos_iff] at hc hd
  rw [← mass_le_mass] at hac hbd
  constructor
  · intro heq
    have hmass : a.mass * b.mass = c.mass * d.mass := by rw [← mass_plus, heq, mass_plus]
    constructor
    · by_contra hne
      have hlt : a.mass < c.mass := lt_of_le_of_ne hac fun h => hne (mass_injective h)
      exact hmass.not_lt (mul_lt_mul_of_lt_of_le_of_nonneg_of_pos hlt hbd (mass_nonneg a) hd)
    · by_contra hne
      have hlt : b.mass < d.mass := lt_of_le_of_ne hbd fun h => hne (mass_injective h)
      rw [mul_comm, mul_comm c.mass] at hmass
      exact hmass.not_lt (mul_lt_mul_of_lt_of_le_of_nonneg_of_pos hlt hac (mass_nonneg b) hc)
  · rintro ⟨rfl, rfl⟩
    rfl

end LogReal

namespace Chart

open LogReal

section BestTrees

noncomputable def numScored (trees : List (ScoredTree LogReal)) (score : LogReal) : Nat :=
  trees.countP fun t => t.score = score

variable {chart : Chart LogReal} {id : CellId} {c : Cell LogReal}

/-- No step of the chart has a score of nothing. -/
def Finite (chart : Chart LogReal) : Prop :=
  ∀ id c, chart.cell id = .ok c → ∀ p ∈ c.steps, p.step.localScore ≠ ⊥

theorem Rooted.viterbi_ne_bot (h : chart.Rooted) (hfinite : chart.Finite)
    (hc : chart.cell id = .ok c) : c.viterbi ≠ ⊥ := by
  refine h.linked.cell_induction (P := fun _ c => c.viterbi ≠ ⊥)
    (fun {id c} hc ih => ?_) hc
  obtain ⟨p, hp, hbest⟩ := (Cell.viterbi_greatest negInf_le (h.packed hc)).2
  have hlocal := hfinite id c hc p hp
  rw [← hbest]
  cases h.children hc hp with
  | entry hsource hleaf =>
    rw [viterbi_leaf hleaf]
    exact hlocal
  | @cells left right l r hsource hl hr hscores =>
    have hleft := ih p hp left (Step.left_mem_children hsource) hl
    have hright := ih p hp right (Step.right_mem_children hsource) hr
    rw [viterbi_cells hscores]
    exact plus_ne_bot (plus_ne_bot hlocal hleft) hright

theorem numScored_cells {p : PackedStep LogReal} {left right : CellId} {l r : Cell LogReal}
    (hsource : p.step.making.source = .cells left right)
    (hscores : p.children = .ofCells [l, r])
    (hleft : ∀ t ∈ chart.treesOf left, t.score ≤ l.viterbi)
    (hright : ∀ t ∈ chart.treesOf right, t.score ≤ r.viterbi)
    (hlocal : p.step.localScore ≠ ⊥) (hl : l.viterbi ≠ ⊥) (hr : r.viterbi ≠ ⊥) :
    numScored (treesOfStep p.step (p.step.children.map chart.treesOf)) p.viterbi =
      numScored (chart.treesOf right) r.viterbi * numScored (chart.treesOf left) l.viterbi := by
  have hpair : ∀ tr ∈ chart.treesOf right,
      numScored ((chart.treesOf left).map fun tl => joinTrees p.step [tl, tr]) p.viterbi =
        if tr.score = r.viterbi then numScored (chart.treesOf left) l.viterbi else 0 := by
    intro tr htr
    have hiff : ∀ tl ∈ chart.treesOf left, (joinTrees p.step [tl, tr]).score = p.viterbi ↔
        tl.score = l.viterbi ∧ tr.score = r.viterbi := by
      intro tl htl
      have hjoin : (joinTrees p.step [tl, tr]).score =
          p.step.localScore + tl.score + tr.score := rfl
      rw [hjoin, viterbi_cells hscores,
        plus_eq_plus_iff (plus_le_plus le_rfl (hleft tl htl)) (hright tr htr)
          (plus_ne_bot hlocal hl) hr,
        plus_eq_plus_iff le_rfl (hleft tl htl) hlocal hl]
      simp
    rw [numScored, List.countP_map]
    split_ifs with heq
    · exact List.countP_congr fun tl htl => by simp [hiff tl htl, heq]
    · exact List.countP_eq_zero.mpr fun tl htl => by simp [hiff tl htl, heq]
  rw [treesOfStep_cells hsource, numScored, List.countP_flatMap]
  exact (congrArg List.sum (List.map_congr_left hpair)).trans (sum_map_ite _ _ _)

theorem Rooted.score_le_of_step (h : chart.Rooted) (hc : chart.cell id = .ok c)
    {p : PackedStep LogReal} (hp : p ∈ c.steps) :
    ∀ t ∈ treesOfStep p.step (p.step.children.map chart.treesOf), t.score ≤ p.viterbi := by
  intro t ht
  cases h.children hc hp with
  | entry hsource hleaf =>
    rw [treesOfStep_entry hsource] at ht
    obtain rfl := List.mem_singleton.mp ht
    exact (viterbi_leaf hleaf).ge
  | @cells left right l r hsource hl hr hscores =>
    rw [treesOfStep_cells hsource] at ht
    obtain ⟨tr, htr, ht⟩ := List.mem_flatMap.mp ht
    obtain ⟨tl, htl, rfl⟩ := List.mem_map.mp ht
    rw [viterbi_cells hscores]
    exact plus_le_plus (plus_le_plus le_rfl (h.score_le hl tl htl)) (h.score_le hr tr htr)

/-- The best trees of a cell are the best trees of its best steps. -/
theorem Rooted.numScored_treesOf (h : chart.Rooted) (hc : chart.cell id = .ok c) :
    numScored (chart.treesOf id) c.viterbi = (c.steps.map fun p =>
      if p.viterbi = c.viterbi then
        numScored (treesOfStep p.step (p.step.children.map chart.treesOf)) p.viterbi
      else 0).sum := by
  rw [h.treesOf_eq hc, joined, numScored, List.countP_flatMap]
  refine congrArg List.sum (List.map_congr_left fun p hp => ?_)
  split_ifs with hbest
  · rw [← hbest]
    rfl
  · have hlt : p.viterbi < c.viterbi :=
      lt_of_le_of_ne ((Cell.viterbi_greatest negInf_le (h.packed hc)).1 p hp) hbest
    refine List.countP_eq_zero.mpr fun t ht => ?_
    have hscore := h.score_le_of_step hc hp t ht
    simp [(hscore.trans_lt hlt).ne]

theorem Rooted.numViterbiParses_eq (h : chart.Rooted) (hfinite : chart.Finite)
    (hc : chart.cell id = .ok c) :
    c.numViterbiParses = min (numScored (chart.treesOf id) c.viterbi) countLimit := by
  refine h.linked.cell_induction (P := fun id c =>
    c.numViterbiParses = min (numScored (chart.treesOf id) c.viterbi) countLimit)
    (fun {id c} hc ih => ?_) hc
  have hsteps : ∀ p ∈ c.steps, p.children.numViterbiParses =
      min (numScored (treesOfStep p.step (p.step.children.map chart.treesOf)) p.viterbi)
        countLimit := by
    intro p hp
    cases h.children hc hp with
    | entry hsource hleaf =>
      have hscore : (joinTrees p.step []).score = p.viterbi := (viterbi_leaf hleaf).symm
      have hone : numScored [joinTrees p.step []] p.viterbi = 1 := by simp [numScored, hscore]
      rw [treesOfStep_entry hsource, hone, hleaf]
      exact one_eq_min
    | @cells left right l r hsource hl hr hscores =>
      have hleft := ih p hp left (Step.left_mem_children hsource) hl
      have hright := ih p hp right (Step.right_mem_children hsource) hr
      have hproduct := numScored_cells hsource hscores (h.score_le hl) (h.score_le hr)
        (hfinite id c hc p hp) (h.viterbi_ne_bot hfinite hl) (h.viterbi_ne_bot hfinite hr)
      calc p.children.numViterbiParses
          = mulCounts (mulCounts 1 l.numViterbiParses) r.numViterbiParses := by
            rw [hscores]
            rfl
        _ = _ := by
            rw [one_eq_min, hleft, hright, mulCounts_min, mulCounts_min, hproduct, Nat.one_mul,
              Nat.mul_comm]
  have htally : c.numViterbiParses = (c.steps.foldl Tally.add .empty).numViterbiParses :=
    congrArg Tally.numViterbiParses (h.packed hc).tally_eq
  have hbest : (c.steps.foldl Tally.add .empty).viterbi = c.viterbi :=
    (congrArg Tally.viterbi (h.packed hc).tally_eq).symm
  rw [htally, Tally.numViterbiParses_foldl_add hsteps (k := 0) rfl hbest, ite_self, Nat.zero_add,
    h.numScored_treesOf hc]

end BestTrees

end Chart

namespace Context

/-- The counts of a finished chart are those of its trees, up to the limit of counts: a cell counts
its trees, and in exact arithmetic it counts those with its best score where no step is impossible.
-/
theorem counts_of_trees :
    (∀ {S : Type} [Scalar S] {ctx : Context S} {chart : Chart S}, ctx.Builds chart →
      ∀ id c, chart.cell id = .ok c → ∃ trees, chart.trees id = .ok trees ∧
        c.numParses = min trees.length countLimit) ∧
    ∀ {ctx : Context LogReal} {chart : Chart LogReal}, ctx.Builds chart → chart.Finite →
      ∀ id c, chart.cell id = .ok c → ∃ trees, chart.trees id = .ok trees ∧
        c.numViterbiParses = min (Chart.numScored trees c.viterbi) countLimit := by
  constructor
  · intro S _ ctx chart h id c hc
    have hrooted := BuildsWhere.rooted h
    exact ⟨_, hrooted.trees_eq hc, hrooted.numParses_eq hc⟩
  · intro ctx chart h hfinite id c hc
    have hrooted := BuildsWhere.rooted h
    exact ⟨_, hrooted.trees_eq hc, hrooted.numViterbiParses_eq hfinite hc⟩

theorem counts_of_trees_sheWalks : ∃ chart, sheWalks.Builds chart ∧ chart.Finite ∧
    ∃ x ∈ chart.fullParses, ∃ trees, chart.trees x.1 = .ok trees ∧
      x.2.numParses = min trees.length countLimit ∧
      x.2.numViterbiParses = min (Chart.numScored trees x.2.viterbi) countLimit := by
  obtain ⟨chart, hparse⟩ := exists_parse_sheWalks
  have hbuilds := builds_of_parseSequentially hparse
  have hfinite : chart.Finite := fun _ _ hc p hp =>
    (BuildsWhere.numeric hbuilds numeric_telling hc p hp).2
  obtain ⟨x, hx⟩ := List.exists_mem_of_ne_nil _
    (fullParses_sheWalks (covered_sheWalks.builds hparse))
  have hc := (Chart.mem_cellsAt_iff.mp (List.mem_filter.mp hx).1).2.2
  obtain ⟨trees, htrees, hall⟩ := counts_of_trees.1 hbuilds x.1 x.2 hc
  obtain ⟨trees', htrees', hbest⟩ := counts_of_trees.2 hbuilds hfinite x.1 x.2 hc
  obtain rfl := Except.ok.inj (htrees.symm.trans htrees')
  exact ⟨chart, hbuilds, hfinite, x, hx, trees, htrees, hall, hbest⟩

end Context

end Categorial
