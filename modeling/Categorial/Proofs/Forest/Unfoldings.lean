import Categorial.Proofs.Forest.Outside
import Categorial.Proofs.Forest.Walks

/-! # Unfolding best steps

A chart unfolds into a best tree where one best step is chosen at a cell and at every cell below.
Where a cell takes any of its best steps alike, each tree has the chance of all choices that made
it, and the chances of the trees of a cell sum to one.
-/

namespace Categorial

variable {S : Type}

/-- A step chosen at a cell, and what is chosen at the cells that it builds on. -/
inductive Unfolding (S : Type) where
  | entry (id : CellId) (step : Step S)
  | cells (id : CellId) (step : Step S) (left right : Unfolding S)

namespace Unfolding

def nodes : Unfolding S → List (CellId × Step S)
  | entry id step => [(id, step)]
  | cells id step left right => (id, step) :: (left.nodes ++ right.nodes)

def tree : Unfolding S → DerivationTree
  | entry _ step => step.tree []
  | cells _ step left right => step.tree [left.tree, right.tree]

noncomputable def total (f : Step S → ℝ) (u : Unfolding S) : ℝ :=
  (u.nodes.map fun x => f x.2).sum

variable {f : Step S → ℝ} {id : CellId} {step : Step S} {l r : Unfolding S}

@[simp]
theorem total_entry : (entry id step).total f = f step := by
  simp [total, nodes]

@[simp]
theorem total_cells : (cells id step l r).total f = f step + (l.total f + r.total f) := by
  simp [total, nodes]

end Unfolding

namespace Chart

variable [Scalar S] {chart : Chart S} {id left right : CellId} {c : Cell S} {step : Step S}
  {u l r : Unfolding S} {width : Nat} {below : CellId → List (Unfolding S)}

def bestSteps (chart : Chart S) (id : CellId) : List (Step S) :=
  (chart.cell id).toOption.elim [] Cell.viterbiSteps

theorem bestSteps_eq_stepsAt (chart : Chart S) (id : CellId) :
    chart.bestSteps id = chart.stepsAt true id :=
  rfl

theorem bestSteps_eq (hc : chart.cell id = .ok c) : chart.bestSteps id = c.viterbiSteps := by
  rw [bestSteps_eq_stepsAt, stepsAt_eq hc]
  rfl

/-- A tree is what a cell unfolds into if each of its steps is a best step of the cell there. -/
inductive Unfolds (chart : Chart S) : CellId → Unfolding S → Prop where
  | entry {id : CellId} {step : Step S} {entry : LexicalEntry} : step ∈ chart.bestSteps id →
      step.making.source = .entry entry → Unfolds chart id (.entry id step)
  | cells {id left right : CellId} {step : Step S} {l r : Unfolding S} :
      step ∈ chart.bestSteps id → step.making.source = .cells left right →
      Unfolds chart left l → Unfolds chart right r → Unfolds chart id (.cells id step l r)

def unfoldingsOf (below : CellId → List (Unfolding S)) (id : CellId) (step : Step S) :
    List (Unfolding S) :=
  match step.making.source with
  | .entry _ => [.entry id step]
  | .cells left right =>
    ((below left).product (below right)).map fun (l, r) => .cells id step l r

def unfoldingsWithin (chart : Chart S) : Nat → CellId → List (Unfolding S)
  | 0, _ => []
  | width + 1, id =>
    (chart.bestSteps id).flatMap (unfoldingsOf (chart.unfoldingsWithin width) id)

def unfoldings (chart : Chart S) (id : CellId) : List (Unfolding S) :=
  chart.unfoldingsWithin id.length id

/-- The chance of a tree where all best steps of each cell are taken alike. -/
noncomputable def chance (chart : Chart S) (u : Unfolding S) : ℝ :=
  (u.nodes.map fun x => 1 / ((chart.bestSteps x.1).length : ℝ)).prod

section Members

omit [Scalar S] in
theorem mem_unfoldingsOf : u ∈ unfoldingsOf below id step ↔
    (∃ entry, step.making.source = .entry entry ∧ u = .entry id step) ∨
    ∃ left right, step.making.source = .cells left right ∧
      ∃ l ∈ below left, ∃ r ∈ below right, u = .cells id step l r := by
  unfold unfoldingsOf
  cases step.making.source with
  | entry entry => simp
  | cells left right =>
    simp only [List.mem_map, Prod.exists, List.pair_mem_product, reduceCtorEq, false_and,
      exists_false, false_or, Source.cells.injEq]
    constructor
    · rintro ⟨l, r, ⟨hl, hr⟩, rfl⟩
      exact ⟨left, right, ⟨rfl, rfl⟩, l, hl, r, hr, rfl⟩
    · rintro ⟨_, _, ⟨rfl, rfl⟩, l, hl, r, hr, rfl⟩
      exact ⟨l, r, ⟨hl, hr⟩, rfl⟩

omit [Scalar S] in
theorem head?_nodes (h : u ∈ unfoldingsOf below id step) : u.nodes.head? = some (id, step) := by
  rcases mem_unfoldingsOf.mp h with ⟨_, _, rfl⟩ | ⟨_, _, _, _, _, _, _, rfl⟩
  · rfl
  · rfl

theorem Linked.mem_unfoldingsWithin_iff (h : chart.Linked) (hwidth : id.length ≤ width) :
    u ∈ chart.unfoldingsWithin width id ↔ chart.Unfolds id u := by
  induction width generalizing id u with
  | zero => exact absurd hwidth (Nat.not_le.mpr (Nat.succ_pos _))
  | succ width ih =>
    have hbelow : ∀ step ∈ chart.bestSteps id, ∀ child ∈ step.children, ∀ v,
        v ∈ chart.unfoldingsWithin width child ↔ chart.Unfolds child v := by
      intro step hstep child hchild v
      rw [bestSteps_eq_stepsAt] at hstep
      have hlt := h.length_lt hstep hchild
      exact ih (by omega)
    rw [unfoldingsWithin, List.mem_flatMap]
    constructor
    · rintro ⟨step, hstep, hu⟩
      specialize hbelow step hstep
      rcases mem_unfoldingsOf.mp hu with
        ⟨entry, hsource, rfl⟩ | ⟨left, right, hsource, l, hl, r, hr, rfl⟩
      · exact .entry hstep hsource
      · have hl := (hbelow left (Step.left_mem_children hsource) l).mp hl
        have hr := (hbelow right (Step.right_mem_children hsource) r).mp hr
        exact .cells hstep hsource hl hr
    · intro hu
      cases hu with
      | @entry _ step entry hstep hsource =>
        exact ⟨step, hstep, mem_unfoldingsOf.mpr (.inl ⟨entry, hsource, rfl⟩)⟩
      | @cells _ left right step l r hstep hsource hl hr =>
        have hl := (hbelow step hstep left (Step.left_mem_children hsource) l).mpr hl
        have hr := (hbelow step hstep right (Step.right_mem_children hsource) r).mpr hr
        exact ⟨step, hstep, mem_unfoldingsOf.mpr (.inr ⟨left, right, hsource, l, hl, r, hr, rfl⟩)⟩

theorem Rooted.nodup_unfoldingsWithin (h : chart.Rooted) (width : Nat) (id : CellId) :
    (chart.unfoldingsWithin width id).Nodup := by
  induction width generalizing id with
  | zero => exact .nil
  | succ width ih =>
    rw [unfoldingsWithin, List.nodup_flatMap]
    constructor
    · intro step _
      unfold unfoldingsOf
      cases step.making.source with
      | entry => exact List.nodup_singleton _
      | cells left right =>
        refine ((ih left).product (ih right)).map ?_
        rintro ⟨l, r⟩ ⟨l', r'⟩ heq
        cases heq
        rfl
    · refine (h.nodup_stepsAt true id).imp fun {a b} hne u ha hb => hne ?_
      have hab := (head?_nodes ha).symm.trans (head?_nodes hb)
      exact congrArg Prod.snd (Option.some.inj hab)

end Members

section Chances

theorem chance_entry :
    chart.chance (.entry id step) = 1 / ((chart.bestSteps id).length : ℝ) := by
  simp [chance, Unfolding.nodes]

theorem chance_cells : chart.chance (.cells id step l r) =
    1 / ((chart.bestSteps id).length : ℝ) * (chart.chance l * chart.chance r) := by
  simp [chance, Unfolding.nodes]

theorem sum_chance_unfoldingsOf
    (hbelow : ∀ child ∈ step.children, ((below child).map chart.chance).sum = 1) :
    ((unfoldingsOf below id step).map chart.chance).sum =
      1 / ((chart.bestSteps id).length : ℝ) := by
  unfold Step.children at hbelow
  unfold unfoldingsOf
  cases hsource : step.making.source with
  | entry entry => simp [chance_entry]
  | cells left right =>
    rw [hsource] at hbelow
    simp only [List.map_map, Function.comp_def, chance_cells, List.sum_map_mul_left,
      sum_product_mul, hbelow left (.head _), hbelow right (.tail _ (.head _)), mul_one]

theorem sum_total_unfoldingsOf {f : Step S → ℝ} {mean : CellId → ℝ}
    (hbelow : ∀ child ∈ step.children, ((below child).map chart.chance).sum = 1)
    (htotal : ∀ child ∈ step.children,
      ((below child).map fun u => chart.chance u * u.total f).sum = mean child) :
    ((unfoldingsOf below id step).map fun u => chart.chance u * u.total f).sum =
      1 / ((chart.bestSteps id).length : ℝ) * (f step + (step.children.map mean).sum) := by
  unfold Step.children at hbelow htotal ⊢
  unfold unfoldingsOf
  cases hsource : step.making.source with
  | entry entry => simp [chance_entry, Source.children]
  | cells left right =>
    rw [hsource] at hbelow htotal
    have hmean := sum_product_mean (f := Unfolding.total f) (g := Unfolding.total f)
      (hbelow left (.head _)) (hbelow right (.tail _ (.head _))) (f step)
    rw [htotal left (.head _), htotal right (.tail _ (.head _))] at hmean
    simp only [List.map_map, Function.comp_def, chance_cells, Unfolding.total_cells,
      mul_assoc (1 / (_ : ℝ)), List.sum_map_mul_left, hmean, Source.children, List.map_cons,
      List.map_nil, List.sum_cons, List.sum_nil, add_zero]

theorem sum_chance_succ (hc : chart.cell id = .ok c) (hbest : c.viterbiSteps ≠ [])
    (hbelow : ∀ p ∈ c.steps, ∀ child ∈ p.step.children,
      ((chart.unfoldingsWithin width child).map chart.chance).sum = 1) :
    ((chart.unfoldingsWithin (width + 1) id).map chart.chance).sum = 1 := by
  have hstep : ∀ step ∈ chart.bestSteps id,
      ((unfoldingsOf (chart.unfoldingsWithin width) id step).map chart.chance).sum =
        1 / ((chart.bestSteps id).length : ℝ) := by
    intro step hstep
    rw [bestSteps_eq hc] at hstep
    obtain ⟨p, hp, rfl⟩ := Linked.mem_followed true hstep
    exact sum_chance_unfoldingsOf (hbelow p hp)
  have hlength : ((chart.bestSteps id).length : ℝ) ≠ 0 := by
    rw [bestSteps_eq hc, Nat.cast_ne_zero]
    exact (List.length_pos_iff.mpr hbest).ne'
  rw [unfoldingsWithin, sum_map_flatMap, List.map_congr_left hstep, List.map_const',
    List.sum_replicate, nsmul_eq_mul, mul_one_div_cancel hlength]

theorem sum_total_succ {f : Step S → ℝ} {mean : CellId → ℝ} (hc : chart.cell id = .ok c)
    (hbelow : ∀ p ∈ c.steps, ∀ child ∈ p.step.children,
      ((chart.unfoldingsWithin width child).map chart.chance).sum = 1 ∧
      ((chart.unfoldingsWithin width child).map fun u => chart.chance u * u.total f).sum =
        mean child) :
    ((chart.unfoldingsWithin (width + 1) id).map fun u => chart.chance u * u.total f).sum =
      (c.viterbiSteps.map fun step => f step + (step.children.map mean).sum).sum /
        c.viterbiSteps.length := by
  have hstep : ∀ step ∈ chart.bestSteps id,
      ((unfoldingsOf (chart.unfoldingsWithin width) id step).map fun u =>
        chart.chance u * u.total f).sum =
        1 / ((chart.bestSteps id).length : ℝ) * (f step + (step.children.map mean).sum) := by
    intro step hstep
    rw [bestSteps_eq hc] at hstep
    obtain ⟨p, hp, rfl⟩ := Linked.mem_followed true hstep
    exact sum_total_unfoldingsOf (fun child hchild => (hbelow p hp child hchild).1)
      fun child hchild => (hbelow p hp child hchild).2
  rw [unfoldingsWithin, sum_map_flatMap, List.map_congr_left hstep, List.sum_map_mul_left,
    bestSteps_eq hc, one_div_mul_eq_div]

namespace Linked

variable (h : chart.Linked) (hbest : ∀ {id c}, chart.cell id = .ok c → c.viterbiSteps ≠ [])

include h hbest

theorem sum_chance (hc : chart.cell id = .ok c) :
    ((chart.unfoldings id).map chart.chance).sum = 1 := by
  refine h.descend (P := fun width id => ((chart.unfoldingsWithin width id).map chart.chance).sum =
    1) (fun width id c hc ih => ?_) hc le_rfl
  exact sum_chance_succ hc (hbest hc) ih

/-- What the trees of a cell have, each weighed by its chance, is the mean that is taken over the
best steps of every cell. -/
theorem sum_total {f : Step S → ℝ} {mean : CellId → ℝ}
    (hmean : ∀ {id c}, chart.cell id = .ok c → mean id =
      (c.viterbiSteps.map fun step => f step + (step.children.map mean).sum).sum /
        c.viterbiSteps.length)
    (hc : chart.cell id = .ok c) :
    ((chart.unfoldings id).map fun u => chart.chance u * u.total f).sum = mean id := by
  refine (h.descend (P := fun width id =>
    ((chart.unfoldingsWithin width id).map chart.chance).sum = 1 ∧
    ((chart.unfoldingsWithin width id).map fun u => chart.chance u * u.total f).sum = mean id)
    (fun width id c hc ih => ?_) hc le_rfl).2
  constructor
  · exact sum_chance_succ hc (hbest hc) fun p hp child hchild => (ih p hp child hchild).1
  · rw [hmean hc]
    exact sum_total_succ hc ih

end Linked

end Chances

end Chart

namespace Chart

variable {chart : Chart LogReal} {id : CellId} {c : Cell LogReal} {u : Unfolding LogReal}

/-- What a cell unfolds into are best trees of the cell. -/
theorem Rooted.exists_tree (h : chart.Rooted) (hm : chart.Measured) (hu : chart.Unfolds id u)
    (hc : chart.cell id = .ok c) :
    ∃ t ∈ chart.treesOf id, t.tree = u.tree ∧ t.score = c.viterbi ∧
      ∀ key, t.features.value key = u.total (·.features.value key) := by
  have hbest : ∀ {id c step}, chart.cell id = .ok c → step ∈ chart.bestSteps id →
      ∃ p ∈ c.steps, p.step = step ∧ p.viterbi = c.viterbi := by
    intro id c step hc hstep
    rw [bestSteps_eq hc] at hstep
    obtain ⟨p, hp, rfl⟩ := List.mem_map.mp hstep
    obtain ⟨hp, hviterbi⟩ := List.mem_filter.mp hp
    exact ⟨p, hp, rfl, (OrderedScalar.beq_iff _ _).mp hviterbi⟩
  induction hu generalizing c with
  | @entry id step entry hstep hsource =>
    obtain ⟨p, hp, rfl, hviterbi⟩ := hbest hc hstep
    refine ⟨_, h.entry_mem_treesOf hc hp hsource, rfl, ?_, fun key => ?_⟩
    · cases h.children hc hp with
      | entry _ hleaf =>
        rw [← hviterbi, viterbi_leaf hleaf]
        rfl
      | cells hcells => simp [hsource] at hcells
    · rw [Unfolding.total_entry]
      rfl
  | @cells id left right step l r hstep hsource hl hr ihl ihr =>
    obtain ⟨p, hp, rfl, hviterbi⟩ := hbest hc hstep
    cases h.children hc hp with
    | entry hentry => simp [hsource] at hentry
    | @cells _ _ cl cr hcells hleft hright hscores =>
      obtain ⟨rfl, rfl⟩ := Source.cells.inj (hsource.symm.trans hcells)
      obtain ⟨tl, htl, htreel, hscorel, hfeaturesl⟩ := ihl hleft
      obtain ⟨tr, htr, htreer, hscorer, hfeaturesr⟩ := ihr hright
      have hfinite : ∀ t ∈ [tl, tr], t.features.Finite := by
        intro t ht
        rcases List.mem_pair.mp ht with rfl | rfl
        · exact h.finite_features hm hleft _ htl
        · exact h.finite_features hm hright _ htr
      refine ⟨_, h.cells_mem_treesOf hc hp hsource htl htr, ?_, ?_, fun key => ?_⟩
      · rw [Unfolding.tree, ← htreel, ← htreer]
        rfl
      · rw [← hviterbi, viterbi_cells hscores, ← hscorel, ← hscorer]
        rfl
      · rw [(joinTrees_features (hm hc p hp) hfinite).2, Unfolding.total_cells, ← hfeaturesl,
          ← hfeaturesr]
        simp

section Ties

def Unscored (chart : Chart LogReal) : Prop :=
  ∀ id c, chart.cell id = .ok c → ∀ p ∈ c.steps, p.step.localScore = Scalar.zero

variable (h : chart.Rooted) (hscores : chart.Unscored)

include h hscores

theorem Rooted.viterbi_of_unscored (hc : chart.cell id = .ok c) :
    ∀ p ∈ c.steps, p.viterbi = Scalar.zero := by
  refine h.linked.cell_induction (P := fun _ c => ∀ p ∈ c.steps, p.viterbi = Scalar.zero)
    (fun {id c} hc ih p hp => ?_) hc
  have hbelow : ∀ child ∈ p.step.children, ∀ {d}, chart.cell child = .ok d →
      d.viterbi = Scalar.zero := by
    intro child hchild d hd
    obtain ⟨_, q, hq, hbest⟩ := d.viterbi_greatest LogReal.negInf_le (h.packed hd)
    rw [← hbest, ih p hp child hchild hd q hq]
  have hlocal := hscores id c hc p hp
  cases h.children hc hp with
  | entry _ hleaf => rw [viterbi_leaf hleaf, hlocal]
  | @cells left right l r hsource hl hr hchildren =>
    rw [viterbi_cells hchildren, hlocal, hbelow left (Step.left_mem_children hsource) hl,
      hbelow right (Step.right_mem_children hsource) hr, LogReal.plus_zero, LogReal.plus_zero]

theorem Rooted.bestSteps_of_unscored (hc : chart.cell id = .ok c) :
    chart.bestSteps id = c.steps.map (·.step) := by
  have hzero := h.viterbi_of_unscored hscores hc
  obtain ⟨_, q, hq, hbest⟩ := c.viterbi_greatest LogReal.negInf_le (h.packed hc)
  rw [bestSteps_eq hc, Cell.viterbiSteps, List.filter_eq_self.mpr]
  intro p hp
  exact (OrderedScalar.beq_iff _ _).mpr (by rw [hzero p hp, ← hbest, hzero q hq])

/-- Then a cell unfolds into as many trees as it has. -/
theorem Rooted.length_unfoldings_of_unscored (hc : chart.cell id = .ok c) :
    (chart.unfoldings id).length = (chart.treesOf id).length := by
  refine h.linked.descend (P := fun width id =>
    (chart.unfoldingsWithin width id).length = (chart.treesOf id).length)
    (fun width id c hc ih => ?_) hc le_rfl
  rw [unfoldingsWithin, h.bestSteps_of_unscored hscores hc, h.treesOf_eq hc, joined,
    List.flatMap_map, List.length_flatMap, List.length_flatMap]
  refine congrArg List.sum (List.map_congr_left fun p hp => ?_)
  cases h.children hc hp with
  | entry hsource _ =>
    rw [treesOfStep_entry hsource, unfoldingsOf, hsource]
    rfl
  | @cells left right l r hsource _ _ _ =>
    have hleft := ih p hp left (Step.left_mem_children hsource)
    have hright := ih p hp right (Step.right_mem_children hsource)
    calc (unfoldingsOf (chart.unfoldingsWithin width) id p.step).length
        = (chart.unfoldingsWithin width left).length *
            (chart.unfoldingsWithin width right).length := by
          rw [unfoldingsOf, hsource]
          exact (List.length_map _).trans (List.length_product _ _)
      _ = (chart.treesOf left).length * (chart.treesOf right).length := by rw [hleft, hright]
      _ = _ := by
          rw [treesOfStep_cells hsource]
          simp [List.length_flatMap, Nat.mul_comm]

end Ties

end Chart

end Categorial
