import Categorial.Proofs.Forest.Averages
import Categorial.Proofs.Forest.Rescoring

/-! # Scores under linear models

A linear model weighs the features of each step, and a product with weights takes sums to sums. So
the scores that a chart adds up along its trees are the weighed features that it adds up there. The
trees of the best score all have it, and then their features have it on average.
-/

namespace Categorial

open LogReal

namespace Chart

variable {chart : Chart LogReal} {weights : FeatureVector LogReal} {id : CellId}
  {c : Cell LogReal}

def Weighs (chart : Chart LogReal) (weights : FeatureVector LogReal) : Prop :=
  ∀ {id c}, chart.cell id = .ok c → ∀ p ∈ c.steps,
    p.step.localScore = p.step.features.dot weights

namespace Rooted

variable (h : chart.Rooted) (hm : chart.Measured) (hweights : weights.Finite)
  (hw : chart.Weighs weights)

include h hm hweights hw

theorem score_eq_weighted (hc : chart.cell id = .ok c) :
    ∀ t ∈ chart.treesOf id, t.score = ofReal (weights.weighted t.features.value) := by
  refine h.tree_induction (P := fun _ t => t.score = ofReal (weights.weighted t.features.value))
    ?_ ?_ hc
  · intro id c p entry hc hp _ _
    have hstep := (hw hc p hp).trans (FeatureVector.dot_eq (hm hc p hp) hweights)
    exact hstep
  · intro id c p left right l r tl tr hc hp _ hl hr _ htl htr hleft hright
    have hfinite : ∀ t ∈ [tl, tr], t.features.Finite := by
      intro t ht
      rcases List.mem_pair.mp ht with rfl | rfl
      · exact h.finite_features hm hl _ htl
      · exact h.finite_features hm hr _ htr
    have hvalue : (joinTrees p.step [tl, tr]).features.value = fun key =>
        p.step.features.value key + (tl.features.value key + tr.features.value key) := by
      funext key
      rw [(joinTrees_features (hm hc p hp) hfinite).2]
      simp
    have hjoin : (joinTrees p.step [tl, tr]).score = p.step.localScore + tl.score + tr.score := rfl
    rw [hjoin, hw hc p hp, FeatureVector.dot_eq (hm hc p hp) hweights, hleft, hright, hvalue,
      FeatureVector.weighted_add, FeatureVector.weighted_add, ← add_assoc]
    rfl

theorem score_eq_dot (hc : chart.cell id = .ok c) :
    ∀ t ∈ chart.treesOf id, t.score = t.features.dot weights := by
  intro t ht
  rw [h.score_eq_weighted hm hweights hw hc t ht,
    FeatureVector.dot_eq (h.finite_features hm hc t ht) hweights]

/-- All trees that a cell unfolds into have the same score, so it is that of their mean. -/
theorem viterbi_eq_dot (hc : chart.cell id = .ok c) :
    c.viterbi = (chart.averageBelow id).dot weights := by
  have hunfolding : ∀ u ∈ chart.unfoldings id,
      c.viterbi = ofReal (weights.weighted fun key => u.total (·.features.value key)) := by
    intro u hu
    obtain ⟨t, ht, _, hscore, hfeatures⟩ :=
      h.exists_tree hm ((h.linked.mem_unfoldingsWithin_iff le_rfl).mp hu) hc
    rw [← hscore, h.score_eq_weighted hm hweights hw hc t ht, funext hfeatures]
  have hchance : ((chart.unfoldings id).map chart.chance).sum = 1 :=
    h.linked.sum_chance (fun hc => Cell.viterbiSteps_ne_nil (h.packed hc)) hc
  have hvalue : (chart.averageBelow id).value = fun key => ((chart.unfoldings id).map fun u =>
      chart.chance u * u.total (·.features.value key)).sum := by
    funext key
    rw [FeatureVector.value, h.get_averageBelow hm hc, toReal_ofReal]
  obtain ⟨x, hx⟩ : ∃ x, c.viterbi = ofReal x := by
    have hne : chart.unfoldings id ≠ [] := fun hnil => by simp [hnil] at hchance
    obtain ⟨u, hu⟩ := List.exists_mem_of_ne_nil _ hne
    exact ⟨_, hunfolding u hu⟩
  have hmean : ∀ u ∈ chart.unfoldings id, weights.weighted (fun key =>
      chart.chance u * u.total (·.features.value key)) = chart.chance u * x := by
    intro u hu
    rw [FeatureVector.weighted_mul]
    exact congrArg (chart.chance u * ·) (WithBot.coe_injective ((hunfolding u hu).symm.trans hx))
  rw [FeatureVector.dot_eq (h.finite_averageBelow hm hc) hweights, hvalue,
    FeatureVector.weighted_sum (fun u key => chart.chance u * u.total (·.features.value key)),
    List.map_congr_left hmean, List.sum_map_mul_right, hchance, one_mul, hx]

end Rooted

end Chart

namespace LinearModel

variable {m : LinearModel LogReal}

theorem finite_lexical (view : StepView) {v : FeatureVector LogReal} (hv : v.Finite) :
    (FeatureSet.lexical view v).Finite := by
  unfold FeatureSet.lexical
  split
  · exact hv.add.add
  · exact hv

theorem finite_ruleUsage (skipLexical : Bool) (view : StepView) {v : FeatureVector LogReal}
    (hv : v.Finite) : (FeatureSet.ruleUsage skipLexical view v).Finite := by
  have hbase : (if skipLexical && (RuleName.plain view.rule.base).isLexical then v
      else v.add (FeatureSet.ruleKey view.rule.base) Scalar.one).Finite := by
    split
    · exact hv
    · exact hv.add
  unfold FeatureSet.ruleUsage
  split
  · exact hbase.add
  · exact hbase

theorem finite_features
    (h : ∀ featureSet ∈ m.featureSets, ∀ view v, v.Finite → (featureSet view v).Finite)
    (view : StepView) : (m.features view).Finite := by
  have hfold : ∀ (sets : List (FeatureSet LogReal)) (v : FeatureVector LogReal), v.Finite →
      (∀ featureSet ∈ sets, ∀ view v, v.Finite → (featureSet view v).Finite) →
      (sets.foldl (fun v featureSet => featureSet view v) v).Finite := by
    intro sets
    induction sets with
    | nil => exact fun _ hv _ => hv
    | cons featureSet sets ih =>
      intro v hv hsets
      exact ih _ (hsets _ (.head _) view v hv) fun f hf => hsets f (.tail _ hf)
  exact hfold _ _ FeatureVector.finite_empty h

end LinearModel

namespace Context

variable {ctx : Context LogReal} {chart : Chart LogReal} {g : Grammar} {tokens : List String}
  {m : LinearModel LogReal} {options : ParseOptions}

theorem weighs_of_new (hnew : Context.new g tokens m.toModel options = .ok ctx)
    (h : ctx.Builds chart) : chart.Weighs m.weights := by
  intro id c hc p hp
  rw [(BuildsWhere.features_eq h hc p hp).2, model_of_new hnew]
  rfl

/-- Under a linear model the score of every tree is the product of its features with the weights,
and so is the best score of a cell with the features that its best trees have on average. -/
theorem scores_are_linear (hnew : Context.new g tokens m.toModel options = .ok ctx)
    (hfeatures : ∀ view, (m.features view).Finite) (hweights : m.weights.Finite)
    (h : ctx.Builds chart) :
    ∀ id c, chart.cell id = .ok c →
      (∃ trees, chart.trees id = .ok trees ∧ ∀ t ∈ trees, t.score = t.features.dot m.weights) ∧
      ∃ average, (Derivation.mk chart id c).averageMaxFeatures = .ok average ∧
        (Derivation.mk chart id c).score = average.dot m.weights := by
  have hrooted := BuildsWhere.rooted h
  have hmodel : ∀ view, (ctx.model.features view).Finite := model_of_new hnew ▸ hfeatures
  have hmeasured : chart.Measured := BuildsWhere.measured h hmodel
  have hweighs : chart.Weighs m.weights := weighs_of_new hnew h
  intro id c hc
  refine ⟨⟨_, hrooted.trees_eq hc, hrooted.score_eq_dot hmeasured hweights hweighs hc⟩,
    chart.averageBelow id, ?_, hrooted.viterbi_eq_dot hmeasured hweights hweighs hc⟩
  rw [hrooted.linked.averageMaxFeatures_eq hc, hrooted.linked.plainAverage_eq hc]

theorem scores_are_linear_sheWalks : ∃ weights ctx chart,
    Context.new shifting ["she", "walks"] (indicating weights).toModel .default = .ok ctx ∧
      (∀ view, ((indicating weights).features view).Finite) ∧ weights.Finite ∧
      weights.value "ORIGIN#main" = 1 ∧ ctx.Builds chart ∧
      ∃ x ∈ chart.cellsAt 0 1, ∃ average,
        (Derivation.mk chart x.1 x.2).averageMaxFeatures = .ok average ∧
        (Derivation.mk chart x.1 x.2).score = average.dot weights := by
  obtain ⟨weights, hweights, hvalue⟩ : ∃ weights : FeatureVector LogReal,
      weights.Finite ∧ weights.value "ORIGIN#main" = 1 := by
    refine ⟨.add .empty "ORIGIN#main" (ofReal 1), FeatureVector.finite_empty.add, ?_⟩
    rw [FeatureVector.value_add FeatureVector.finite_empty, FeatureVector.value_empty]
    simp
  have hfeatures : ∀ view, ((indicating weights).features view).Finite := by
    refine LinearModel.finite_features fun featureSet hset view v hv => ?_
    rcases List.mem_pair.mp hset with rfl | rfl
    · exact LinearModel.finite_lexical view hv
    · exact LinearModel.finite_ruleUsage true view hv
  have hnew : Context.new shifting ["she", "walks"] (indicating weights).toModel .default =
      .ok (sheWalks.withModel (indicating weights).toModel) := new_withModel new_sheWalks rfl
  obtain ⟨chart, hbuilds, ⟨id, c⟩, hx, _⟩ := exists_fullParse_withModel_sheWalks _
  obtain ⟨_, average, haverage, hscore⟩ := scores_are_linear hnew hfeatures hweights hbuilds
    id c (Chart.mem_cellsAt_iff.mp hx).2.2
  exact ⟨weights, _, chart, hnew, hfeatures, hweights, hvalue, hbuilds, _, hx, average, haverage,
    hscore⟩

end Context

end Categorial
