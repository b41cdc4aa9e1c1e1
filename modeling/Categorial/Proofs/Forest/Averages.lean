import Categorial.Proofs.Forest.Expectations
import Categorial.Proofs.Forest.Unfoldings

/-! # Averages over best trees

The features of the best trees are averaged cell by cell, and what was found for a cell is kept for
the next way to it. That gives what working out every cell anew would give. In exact arithmetic it
is the mean over all trees that come from choosing a best step at every cell, each weighed by the
chance of its choices.
-/

namespace Categorial

open LogReal

namespace Chart

variable {S : Type} [Scalar S] {chart : Chart S} {id : CellId} {c : Cell S} {width : Nat}

/-- The average below a cell, with nothing kept for the next way to it. -/
def plainAverageWithin (chart : Chart S) : Nat → CellId → Except Fault (FeatureVector S)
  | 0, _ => .error .endless
  | width + 1, id => do
    let cell ← chart.cell id
    let sum ← cell.viterbiSteps.foldlM
      (fun sum step => do
        let sum ← step.children.foldlM
          (fun sum child => do
            let features ← chart.plainAverageWithin width child
            .ok (sum.addTimes Scalar.one features))
          sum
        .ok (sum.addTimes Scalar.one step.features))
      .empty
    .ok (averageOf cell.viterbiSteps.length sum)

def plainAverage (chart : Chart S) (id : CellId) : Except Fault (FeatureVector S) :=
  chart.plainAverageWithin id.length id

/-- The average below a cell, nothing where a walk meets a fault. -/
def averageBelow (chart : Chart S) (id : CellId) : FeatureVector S :=
  (chart.plainAverage id).toOption.getD .empty

def addBelow (average : CellId → FeatureVector S) (sum : FeatureVector S) (step : Step S) :
    FeatureVector S :=
  (step.children.foldl (fun sum child => sum.addTimes Scalar.one (average child)) sum).addTimes
    Scalar.one step.features

def averageOver (average : CellId → FeatureVector S) (c : Cell S) : FeatureVector S :=
  averageOf c.viterbiSteps.length (c.viterbiSteps.foldl (addBelow average) .empty)

def Agrees (chart : Chart S) (known : Averages S) : Prop :=
  ∀ id features, known[id]? = some features → features = chart.averageBelow id

theorem plainAverageWithin_succ (hc : chart.cell id = .ok c)
    (hbelow : ∀ p ∈ c.steps, ∀ child ∈ p.step.children,
      chart.plainAverageWithin width child = .ok (chart.averageBelow child)) :
    chart.plainAverageWithin (width + 1) id = .ok (averageOver chart.averageBelow c) := by
  refine bind_eq_ok.mpr ⟨c, hc, ?_⟩
  refine bind_eq_ok.mpr ⟨_, foldlM_eq_foldl (fun step hstep sum => ?_) _, rfl⟩
  obtain ⟨p, hp, rfl⟩ := Linked.mem_followed true hstep
  refine bind_eq_ok.mpr ⟨_, foldlM_eq_foldl (fun child hchild sum => ?_) _, rfl⟩
  exact bind_eq_ok.mpr ⟨_, hbelow p hp child hchild, rfl⟩

theorem finds_averageWithin_succ (hc : chart.cell id = .ok c)
    (haverage : chart.averageBelow id = averageOver chart.averageBelow c)
    (hbelow : ∀ p ∈ c.steps, ∀ child ∈ p.step.children, ∀ known, chart.Agrees known →
      Finds chart.Agrees (chart.averageBelow child) (chart.averageWithin width child known))
    {known : Averages S} (hknown : chart.Agrees known) :
    Finds chart.Agrees (chart.averageBelow id) (chart.averageWithin (width + 1) id known) := by
  unfold averageWithin
  split
  next features hfeatures =>
    rw [hknown id features hfeatures]
    exact ⟨known, rfl, hknown⟩
  next =>
    rw [hc, haverage]
    show Finds _ _ (List.foldlM _ _ _ >>= _)
    refine Finds.bind (Finds.foldlM (fun step hstep sum known hknown => ?_) hknown)
      fun known hknown => ⟨_, rfl, ?_⟩
    · obtain ⟨p, hp, rfl⟩ := Linked.mem_followed true hstep
      refine Finds.bind (Finds.foldlM (fun child hchild sum known hknown => ?_) hknown)
        fun known hknown => ⟨known, rfl, hknown⟩
      exact (hbelow p hp child hchild known hknown).bind fun known hknown => ⟨known, rfl, hknown⟩
    · intro other features hother
      rw [Std.HashMap.getElem?_insert] at hother
      split_ifs at hother with heq
      · obtain rfl := eq_of_beq heq
        rw [haverage]
        exact (Option.some.inj hother).symm
      · exact hknown other features hother

namespace Linked

variable (h : chart.Linked)

include h

theorem plainAverageWithin_eq (hc : chart.cell id = .ok c) (hwidth : id.length ≤ width) :
    chart.plainAverageWithin width id = .ok (chart.averageBelow id) ∧
      chart.averageBelow id = averageOver chart.averageBelow c := by
  refine h.within_eq (F := chart.plainAverageWithin) (fun haverage => ?_) plainAverageWithin_succ
    hc hwidth
  rw [averageBelow, plainAverage, haverage]
  rfl

theorem plainAverage_eq (hc : chart.cell id = .ok c) :
    chart.plainAverage id = .ok (chart.averageBelow id) :=
  (h.plainAverageWithin_eq hc le_rfl).1

theorem averageBelow_eq (hc : chart.cell id = .ok c) :
    chart.averageBelow id = averageOver chart.averageBelow c :=
  (h.plainAverageWithin_eq hc le_rfl).2

/-- What is kept on the way changes nothing of what is found. -/
theorem averageMaxFeatures_eq (hc : chart.cell id = .ok c) :
    (Derivation.mk chart id c).averageMaxFeatures = chart.plainAverage id := by
  have hempty : chart.Agrees ∅ := by
    intro id features hfeatures
    simp at hfeatures
  obtain ⟨known, hok, _⟩ := h.descend
    (P := fun width id => ∀ known, chart.Agrees known →
      Finds chart.Agrees (chart.averageBelow id) (chart.averageWithin width id known))
    (fun width id c hc ih known hknown =>
      finds_averageWithin_succ hc (h.averageBelow_eq hc) ih hknown) hc le_rfl ∅ hempty
  rw [h.plainAverage_eq hc]
  exact bind_eq_ok.mpr ⟨_, hok, rfl⟩

end Linked

section Values

variable {chart : Chart LogReal} {id : CellId} {c : Cell LogReal}

theorem averageOf_ofReal {n : Nat} {sum : FeatureVector LogReal} (hsum : sum.Finite) (hn : n ≠ 0) :
    (averageOf n sum).Finite ∧ ∀ key, (averageOf n sum).value key = sum.value key / n := by
  unfold averageOf
  split_ifs with h
  · exact FeatureVector.divideBy_ofReal hsum n
  · obtain rfl : n = 1 := by omega
    exact ⟨hsum, fun key => by simp⟩

theorem averageOver_ofReal {average : CellId → FeatureVector LogReal} (hbest : c.viterbiSteps ≠ [])
    (hsteps : ∀ p ∈ c.steps, p.step.features.Finite)
    (hbelow : ∀ p ∈ c.steps, ∀ child ∈ p.step.children, (average child).Finite) :
    (averageOver average c).Finite ∧ ∀ key, (averageOver average c).value key =
      (c.viterbiSteps.map fun step => step.features.value key +
        (step.children.map fun child => (average child).value key).sum).sum /
        c.viterbiSteps.length := by
  have hstep : ∀ step ∈ c.viterbiSteps, ∀ sum : FeatureVector LogReal, sum.Finite →
      (addBelow average sum step).Finite ∧ ∀ key, (addBelow average sum step).value key =
        sum.value key + (step.features.value key +
          (step.children.map fun child => (average child).value key).sum) := by
    intro step hstep sum hsum
    obtain ⟨p, hp, rfl⟩ := Linked.mem_followed true hstep
    obtain ⟨hchildren, hvalue⟩ := FeatureVector.foldl_addTimes (hbelow p hp) hsum
    obtain ⟨hfinite, hall⟩ := FeatureVector.addTimes_one hchildren (hsteps p hp)
    refine ⟨hfinite, fun key => ?_⟩
    rw [addBelow, hall, hvalue, add_assoc, add_comm (List.sum _)]
  obtain ⟨hfinite, hvalue⟩ := FeatureVector.foldl_value hstep FeatureVector.finite_empty
  obtain ⟨haverage, hmean⟩ := averageOf_ofReal hfinite fun h => hbest (List.length_eq_zero_iff.mp h)
  refine ⟨haverage, fun key => ?_⟩
  rw [averageOver, hmean, hvalue, FeatureVector.value_empty, zero_add]

namespace Rooted

variable (h : chart.Rooted) (hm : chart.Measured)

include h hm

theorem finite_averageBelow (hc : chart.cell id = .ok c) : (chart.averageBelow id).Finite := by
  refine h.linked.descend (P := fun _ id => (chart.averageBelow id).Finite)
    (fun _ id c hc ih => ?_) hc le_rfl
  rw [h.linked.averageBelow_eq hc]
  exact (averageOver_ofReal (Cell.viterbiSteps_ne_nil (h.packed hc)) (hm hc) ih).1

/-- The average below a cell is the mean over the trees that the cell unfolds into. -/
theorem get_averageBelow (hc : chart.cell id = .ok c) (key : String) :
    (chart.averageBelow id).get key = ofReal ((chart.unfoldings id).map fun u =>
      chart.chance u * u.total (·.features.value key)).sum := by
  have hbest : ∀ {id c}, chart.cell id = .ok c → c.viterbiSteps ≠ [] := fun hc =>
    Cell.viterbiSteps_ne_nil (h.packed hc)
  have hmean : ∀ {id c}, chart.cell id = .ok c → (chart.averageBelow id).value key =
      (c.viterbiSteps.map fun step => step.features.value key +
        (step.children.map fun child => (chart.averageBelow child).value key).sum).sum /
        c.viterbiSteps.length := by
    intro id c hc
    rw [h.linked.averageBelow_eq hc]
    refine (averageOver_ofReal (hbest hc) (hm hc) fun p hp child hchild => ?_).2 key
    obtain ⟨d, hd⟩ := h.exists_child hc hp hchild
    exact h.finite_averageBelow hm hd
  rw [(h.finite_averageBelow hm hc).get_eq]
  exact congrArg ofReal (h.linked.sum_total hbest hmean hc).symm

end Rooted

end Values

end Chart

namespace Context

variable {ctx : Context LogReal} {chart : Chart LogReal} {g : Grammar} {tokens : List String}
  {model : Model LogReal} {options : ParseOptions}

/-- The features of the best trees of a finished chart, averaged cell by cell, are the mean over all
trees that come from choosing a best step at a cell and at every cell below, each weighed by the
chance of its choices. Every cell has a best step, each tree is listed once and is a best tree of
the cell with the features of its steps, and the chances sum to one. Keeping the averages of cells
that were met before changes nothing. -/
theorem averages_of_best_trees (hnew : Context.new g tokens model options = .ok ctx)
    (hmodel : ∀ view, (model.features view).Finite) (h : ctx.Builds chart) :
    ∀ id c, chart.cell id = .ok c →
      c.viterbiSteps ≠ [] ∧
      (∀ u, u ∈ chart.unfoldings id ↔ chart.Unfolds id u) ∧ (chart.unfoldings id).Nodup ∧
      (∀ u ∈ chart.unfoldings id, ∃ t ∈ chart.treesOf id, t.tree = u.tree ∧ t.score = c.viterbi ∧
        ∀ key, t.features.value key = u.total (·.features.value key)) ∧
      ((chart.unfoldings id).map chart.chance).sum = 1 ∧
      ∃ average, (Derivation.mk chart id c).averageMaxFeatures = .ok average ∧
        chart.plainAverage id = .ok average ∧
        ∀ key, average.get key = ofReal ((chart.unfoldings id).map fun u =>
          chart.chance u * u.total (·.features.value key)).sum := by
  have hrooted := BuildsWhere.rooted h
  have hmeasured : chart.Measured := BuildsWhere.measured h (model_of_new hnew ▸ hmodel)
  have hbest : ∀ {id c}, chart.cell id = .ok c → c.viterbiSteps ≠ [] := fun hc =>
    Cell.viterbiSteps_ne_nil (hrooted.packed hc)
  intro id c hc
  have hmem : ∀ u, u ∈ chart.unfoldings id ↔ chart.Unfolds id u := fun u =>
    hrooted.linked.mem_unfoldingsWithin_iff le_rfl
  refine ⟨hbest hc, hmem, hrooted.nodup_unfoldingsWithin _ id, fun u hu => ?_,
    hrooted.linked.sum_chance hbest hc, chart.averageBelow id, ?_, ?_, ?_⟩
  · exact hrooted.exists_tree hmeasured ((hmem u).mp hu) hc
  · rw [hrooted.linked.averageMaxFeatures_eq hc, hrooted.linked.plainAverage_eq hc]
  · exact hrooted.linked.plainAverage_eq hc
  · exact hrooted.get_averageBelow hmeasured hc

/-- A model that tells entries and rules apart but prefers none of them. -/
noncomputable def impartial : Model LogReal :=
  { telling with score := fun _ => Scalar.zero }

/-- Both readings of the subject are its best, and so both trees of the sentence count. -/
theorem averages_of_best_trees_sheWalks : ∃ chart,
    Context.new shifting ["she", "walks"] impartial .default = .ok (sheWalks.withModel impartial) ∧
      (∀ view, (impartial.features view).Finite) ∧ (sheWalks.withModel impartial).Builds chart ∧
      (∃ x ∈ chart.cellsAt 0 0, 2 ≤ x.2.viterbiSteps.length ∧
        ((chart.unfoldings x.1).map chart.chance).sum = 1) ∧
      ∃ x ∈ chart.fullParses, 2 ≤ (chart.unfoldings x.1).length ∧
        ((chart.unfoldings x.1).map chart.chance).sum = 1 ∧
        ∃ average, (Derivation.mk chart x.1 x.2).averageMaxFeatures = .ok average ∧
          ∀ key, average.get key = ofReal ((chart.unfoldings x.1).map fun u =>
            chart.chance u * u.total (·.features.value key)).sum := by
  obtain ⟨chart, hparse⟩ := exists_parse_withModel_sheWalks impartial
  have hspares := (covered_sheWalks.withModel impartial).builds hparse
  have hbuilds := builds_of_parseSequentially hparse
  have hnew : Context.new shifting ["she", "walks"] impartial .default =
      .ok (sheWalks.withModel impartial) := new_withModel new_sheWalks rfl
  have hrooted := hspares.rooted
  have hscores : chart.Unscored := by
    intro id c hc p hp
    rw [(hspares.features_eq hc p hp).2]
    rfl
  have haverages := averages_of_best_trees hnew numeric_telling.features hbuilds
  obtain ⟨y, hy, htwo⟩ := exists_subject hspares
  obtain ⟨x, _, hx, hc, hreadings⟩ := exists_readings hspares
  have hsubject := (Chart.mem_cellsAt_iff.mp hy).2.2
  obtain ⟨_, _, _, _, hsum, _⟩ := haverages y.1 y.2 hsubject
  obtain ⟨_, _, _, _, hsum', average, haverage, _, hmean⟩ := haverages x.1 x.2 hc
  refine ⟨chart, hnew, numeric_telling.features, hbuilds, ⟨y, hy, ?_, hsum⟩, x, hx, ?_, hsum',
    average, haverage, hmean⟩
  · rwa [← Chart.bestSteps_eq hsubject, hrooted.bestSteps_of_unscored hscores hsubject,
      List.length_map]
  · rwa [hrooted.length_unfoldings_of_unscored hscores hc]

end Context

end Categorial
