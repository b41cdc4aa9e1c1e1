import Categorial.Proofs.Forest.Analyses
import Categorial.Proofs.Forest.Outside

/-! # Expected features

The features that an outside pass expects are those of the trees at the root span, each weighed by
its mass and by the score of its root. Over the full parses, divided by their mass, this is the mean
of the features of the trees.
-/

namespace Categorial

open LogReal

section Spans

variable {size : Nat}

theorem spansFromLongest_perm (size : Nat) :
    (Chart.spansFromLongest size).Perm (spansByLength size) :=
  (List.reverse_perm _).flatMap fun _ _ => .refl _

theorem nodup_spansByLength (size : Nat) : (spansByLength size).Nodup := by
  rw [spansByLength, List.nodup_flatMap]
  refine ⟨fun extra _ => ?_, List.nodup_range.imp fun {a b} hab => ?_⟩
  · exact List.nodup_range.map fun a b hab => (Prod.mk.inj hab).1
  · rintro ⟨f, l⟩ ha hb
    obtain ⟨x, _, ha⟩ := List.mem_map.mp ha
    obtain ⟨y, _, hb⟩ := List.mem_map.mp hb
    obtain ⟨rfl, rfl⟩ := Prod.mk.inj ha
    obtain ⟨rfl, hl⟩ := Prod.mk.inj hb
    omega

theorem Chart.descends_spansFromLongest (size : Nat) :
    Descends size (spansFromLongest size) where
  nodup := (spansFromLongest_perm size).nodup_iff.mpr (nodup_spansByLength size)
  sorted := by
    rw [spansFromLongest, List.pairwise_flatMap]
    constructor
    · intro extra _
      refine List.pairwise_map.mpr (List.pairwise_of_forall fun _ _ => ?_)
      simp
    · refine List.pairwise_reverse.mpr (List.pairwise_lt_range.imp fun {a b} hab x hx y hy => ?_)
      obtain ⟨_, _, rfl⟩ := List.mem_map.mp hx
      obtain ⟨_, _, rfl⟩ := List.mem_map.mp hy
      simpa using hab.le
  closed _ _ first last hle hlt _ :=
    (spansFromLongest_perm size).mem_iff.mpr (mem_spansByLength_iff.mpr ⟨hle, hlt⟩)

end Spans

namespace Chart

variable {chart after : Chart LogReal} {outside : CellId → LogReal} {id : CellId} {c : Cell LogReal}
  {key : String}

theorem Rooted.exists_stepWeight (h : chart.Rooted) (hw : chart.Weighed after outside)
    (hc : chart.cell id = .ok c) {p : PackedStep LogReal} (hp : p ∈ c.steps) (mass : LogReal) :
    ∃ weight, after.stepWeight mass p.step = .ok weight ∧
      weight.mass = mass.mass * p.logInside.mass := by
  cases h.children hc hp with
  | entry hsource hleaf =>
    refine ⟨mass + p.step.localScore + Scalar.sum [], ?_, ?_⟩
    · simp only [stepWeight, Step.children, hsource, Source.children, List.mapM_nil]
      rfl
    · simp [mass_sumPlain, PackedStep.logInside, hleaf, ChildScores.leaf]
  | @cells left right l r hsource hl hr hscores =>
    refine ⟨mass + p.step.localScore + Scalar.sum [l.logInside, r.logInside], ?_, ?_⟩
    · simp only [stepWeight, Step.children, hsource, Source.children, List.mapM_cons, List.mapM_nil,
        hw.cell hl, hw.cell hr]
      rfl
    · rw [mass_plus, mass_plus, mass_sumPlain, mass_cells hscores]
      simp only [List.map_cons, List.map_nil, List.prod_cons, List.prod_nil]
      ring

theorem Rooted.exists_collect (h : chart.Rooted) (hm : chart.Measured)
    (hw : chart.Weighed after outside) :
    ∃ expected, after.collect = .ok expected ∧
      ∀ key, expected.value key = totalOver outside (ownFeature key ·.2) chart.cells := by
  have hcells : ∀ y ∈ after.cells.filter (hasOutside ·.2), ∀ expected : LogFeatureVector LogReal,
      ∃ expected', y.2.steps.foldlM
          (fun expected p => do
            let weight ← after.stepWeight y.2.logOutside p.step
            .ok (expected.addScaled weight p.step.features)) expected = .ok expected' ∧
        ∀ key, expected'.value key =
          expected.value key + y.2.logOutside.mass * ownFeature key y.2 := by
    intro y hy expected
    rw [hw.cells] at hy
    obtain ⟨⟨id, c⟩, hx, rfl⟩ := List.mem_map.mp (List.mem_filter.mp hy).1
    have hc : chart.cell id = .ok c := (mem_cellsOver_iff.mp hx).2
    have hsteps : ∀ p ∈ c.steps, ∀ expected : LogFeatureVector LogReal, ∃ expected',
        (do
          let weight ← after.stepWeight (outside id) p.step
          .ok (expected.addScaled weight p.step.features)) = Except.ok expected' ∧
        ∀ key, expected'.value key = expected.value key +
          (outside id).mass * (p.logInside.mass * p.step.features.value key) := by
      intro p hp expected
      obtain ⟨weight, hok, hmass⟩ := h.exists_stepWeight hw hc hp (outside id)
      refine ⟨_, bind_eq_ok.mpr ⟨weight, hok, rfl⟩, fun key => ?_⟩
      rw [LogFeatureVector.value_addScaled (hm hc p hp), hmass, mul_assoc]
    obtain ⟨expected', hok, hvalue⟩ := exists_foldlM hsteps expected
    refine ⟨expected', hok, fun key => ?_⟩
    rw [hvalue, List.sum_map_mul_left]
    rfl
  obtain ⟨expected, hok, hvalue⟩ := exists_foldlM hcells .empty
  refine ⟨expected, hok, fun key => ?_⟩
  rw [hvalue, LogFeatureVector.value_empty, zero_add,
    sum_map_filter fun y _ hy => by rw [mass_eq_zero_of_hasOutside hy, zero_mul], hw.cells,
    List.map_map]
  rfl

theorem Rooted.totalOver_rootScores (h : chart.Rooted) (first last : Nat)
    (scorer : Cell LogReal → LogReal) (X : CellId → ℝ) {spans : List (Nat × Nat)}
    (hspans : spans.Perm (spansByLength chart.size)) :
    totalOver (chart.rootScores first last scorer) (X ·.1) (chart.cellsOver spans) =
      ((chart.cellsAt first last).map fun x => (scorer x.2).mass * X x.1).sum := by
  have hroot : ∀ x ∈ chart.cellsAt first last,
      (chart.rootScores first last scorer x.1).mass * X x.1 = (scorer x.2).mass * X x.1 := by
    intro x hx
    obtain ⟨hfirst, hlast, hc⟩ := mem_cellsAt_iff.mp hx
    simp [rootScores, hfirst, hlast, hc, Except.toOption]
  have hother : ∀ y ∈ spans, y ≠ (first, last) → ((chart.cellsAt y.1 y.2).map fun x =>
      (chart.rootScores first last scorer x.1).mass * X x.1).sum = 0 := by
    intro y _ hy
    refine List.sum_eq_zero fun a ha => ?_
    obtain ⟨x, hx, rfl⟩ := List.mem_map.mp ha
    obtain ⟨hfirst, hlast, _⟩ := mem_cellsAt_iff.mp hx
    rw [rootScores, if_neg, ← zero_mul (X x.1)]
    · rfl
    · rintro ⟨hf, hl⟩
      exact hy (Prod.ext (hfirst.symm.trans hf) (hlast.symm.trans hl))
  have hnodup : spans.Nodup := hspans.nodup_iff.mpr (nodup_spansByLength _)
  rw [totalOver, cellsOver, sum_map_flatMap, ← List.map_congr_left hroot]
  refine sum_map_single hnodup hother fun hmem => ?_
  have hnil : chart.cellsAt first last = [] := by
    refine List.eq_nil_iff_forall_not_mem.mpr fun x hx => hmem ?_
    obtain ⟨rfl, rfl, hc⟩ := mem_cellsAt_iff.mp hx
    exact hspans.mem_iff.mpr (mem_spansByLength_iff.mpr (h.within hc))
  rw [hnil, List.map_nil, List.sum_nil]

/-- The features that are expected at some root cells are those of their trees. -/
theorem Rooted.exists_expectedFrom (h : chart.Rooted) (hm : chart.Measured) (first last : Nat)
    (scorer : Cell LogReal → LogReal) :
    ∃ expected after, chart.expectedFrom first last scorer = .ok (expected, after) ∧
      ∀ key, expected.value key = ((chart.cellsAt first last).map fun x =>
        (scorer x.2).mass * chart.featureOf key x.1).sum := by
  have hw := weighed_initOutside h.within first last scorer
  have hperm := spansFromLongest_perm chart.size
  obtain ⟨after, outside, hpass, hw', _, htotal⟩ :=
    h.exists_propagate hm hw (descends_spansFromLongest chart.size)
  obtain ⟨expected, hcollect, hvalue⟩ := h.exists_collect hm hw'
  refine ⟨expected, after, ?_, fun key => ?_⟩
  · refine bind_eq_ok.mpr ⟨after, ?_, bind_eq_ok.mpr ⟨expected, hcollect, rfl⟩⟩
    rw [propagate, hw.size]
    exact hpass
  · have hcells : (chart.cellsOver (spansFromLongest chart.size)).Perm chart.cells :=
      hperm.flatMap fun _ _ => .refl _
    rw [hvalue, ← h.totalOver_rootScores first last scorer _ hperm, ← htotal]
    exact ((hcells.map _).sum_eq).symm

noncomputable def treesAt (chart : Chart LogReal) (roots : List (CellId × Cell LogReal)) :
    List (ScoredTree LogReal) :=
  roots.flatMap fun x => chart.treesOf x.1

theorem totalFeature_treesAt (key : String) (roots : List (CellId × Cell LogReal)) :
    ScoredTree.totalFeature key (chart.treesAt roots) =
      (roots.map fun x => chart.featureOf key x.1).sum :=
  sum_map_flatMap _ _ roots

theorem mass_indicator (b : Bool) : (indicator b : LogReal).mass = if b then 1 else 0 := by
  cases b with
  | false => rfl
  | true => exact mass_zero

theorem Rooted.exists_expectedOver (h : chart.Rooted) (hm : chart.Measured) (first last : Nat)
    (filter : Cell LogReal → Bool) :
    ∃ expected after,
      chart.expectedFrom first last (fun c => indicator (filter c)) = .ok (expected, after) ∧
      ∀ key, expected.value key = ScoredTree.totalFeature key
        (chart.treesAt ((chart.cellsAt first last).filter (filter ·.2))) := by
  obtain ⟨expected, after, hok, hvalue⟩ := h.exists_expectedFrom hm first last fun c =>
    indicator (filter c)
  refine ⟨expected, after, hok, fun key => ?_⟩
  have hpassed : ∀ x ∈ (chart.cellsAt first last).filter (filter ·.2),
      (indicator (filter x.2) : LogReal).mass * chart.featureOf key x.1 =
        chart.featureOf key x.1 := by
    intro x hx
    rw [(List.mem_filter.mp hx).2, mass_indicator, if_pos rfl, one_mul]
  have hfailed : ∀ x ∈ chart.cellsAt first last, filter x.2 = false →
      (indicator (filter x.2) : LogReal).mass * chart.featureOf key x.1 = 0 := by
    intro x _ hx
    rw [hx, mass_indicator, if_neg Bool.false_ne_true, zero_mul]
  rw [hvalue, totalFeature_treesAt, ← sum_map_filter hfailed, List.map_congr_left hpassed]

theorem Rooted.mass_pos (h : chart.Rooted)
    (hreal : ∀ {id c}, chart.cell id = .ok c → ∀ p ∈ c.steps, p.step.localScore ≠ ⊥)
    (hc : chart.cell id = .ok c) : 0 < c.logInside.mass := by
  refine h.linked.cell_induction (P := fun _ c => 0 < c.logInside.mass)
    (fun {id c} hc ih => ?_) hc
  have hstep : ∀ p ∈ c.steps, 0 < p.logInside.mass := by
    intro p hp
    have hlocal := mass_pos_iff.mpr (hreal hc p hp)
    cases h.children hc hp with
    | entry hsource hleaf => simpa [PackedStep.logInside, hleaf, ChildScores.leaf] using hlocal
    | @cells left right l r hsource hl hr hscores =>
      have hleft := ih p hp left (Step.left_mem_children hsource) hl
      have hright := ih p hp right (Step.right_mem_children hsource) hr
      rw [mass_cells hscores]
      exact mul_pos (mul_pos hlocal hleft) hright
  obtain ⟨p, hp, _⟩ := (h.packed hc).flag
  have hnonneg : ∀ m ∈ c.steps.map (·.logInside.mass), 0 ≤ m := by
    intro m hm
    obtain ⟨q, hq, rfl⟩ := List.mem_map.mp hm
    exact (hstep q hq).le
  rw [Cell.mass_logInside (h.packed hc)]
  exact (hstep p hp).trans_le (List.single_le_sum hnonneg _ (List.mem_map_of_mem hp))

/-- Divided by the mass of the full parses, what is expected is the mean over their trees. -/
theorem Rooted.exists_expectedFeatures (h : chart.Rooted) (hm : chart.Measured)
    (hreal : ∀ {id c}, chart.cell id = .ok c → ∀ p ∈ c.steps, p.step.localScore ≠ ⊥)
    (hfull : chart.fullParses ≠ []) :
    ∃ expected after, chart.expectedFeatures = .ok (expected, after) ∧
      0 < ScoredTree.totalMass (chart.treesAt chart.fullParses) ∧
      ∀ key, expected.get key = ofReal ((chart.treesAt chart.fullParses).map fun t =>
        t.score.mass / ScoredTree.totalMass (chart.treesAt chart.fullParses) *
          t.features.value key).sum := by
  have hcell : ∀ x ∈ chart.fullParses, chart.cell x.1 = .ok x.2 := fun x hx =>
    (mem_cellsAt_iff.mp (List.mem_filter.mp hx).1).2.2
  have hpos : 0 < ScoredTree.totalMass (chart.treesAt chart.fullParses) := by
    rw [ScoredTree.totalMass, treesAt, sum_map_flatMap]
    apply List.sum_pos
    · intro m hm
      obtain ⟨x, hx, rfl⟩ := List.mem_map.mp hm
      exact (h.mass_pos hreal (hcell x hx)).trans_eq (h.mass_logInside (hcell x hx))
    · simpa using hfull
  have hnorm : chart.logNormFiltered (fun _ => true) =
      .ok (ofReal (Real.log (ScoredTree.totalMass (chart.treesAt chart.fullParses)))) := by
    obtain ⟨x, hx⟩ := List.exists_mem_of_ne_nil _ hfull
    obtain ⟨hfirst, hlast, hc⟩ := mem_cellsAt_iff.mp (List.mem_filter.mp hx).1
    obtain ⟨b, hb, _⟩ := cell_eq_ok_iff.mp hc
    rw [hfirst, hlast] at hb
    obtain ⟨forests, hforests, hnorm⟩ := h.logNormFiltered_eq hb fun _ => true
    rw [List.filter_true, mapM_eq_map fun x hx => h.trees_eq (hcell x hx)] at hforests
    rw [hnorm, ← Except.ok.inj hforests, ← List.flatMap_def]
    exact congrArg Except.ok (if_pos hpos)
  obtain ⟨expected, after, hok, hvalue⟩ :=
    h.exists_expectedOver hm 0 (chart.size - 1) Cell.isFullParse
  refine ⟨_, after, bind_eq_ok.mpr ⟨_, hnorm, bind_eq_ok.mpr ⟨_, hok, rfl⟩⟩, hpos, fun key => ?_⟩
  have hmean : ∀ t ∈ chart.treesAt chart.fullParses,
      t.score.mass / ScoredTree.totalMass (chart.treesAt chart.fullParses) * t.features.value key =
        t.score.mass * t.features.value key *
          (ScoredTree.totalMass (chart.treesAt chart.fullParses))⁻¹ := by
    intro t _
    rw [div_eq_mul_inv, mul_right_comm]
  rw [LogFeatureVector.get_expNormalized, Real.exp_log hpos, hvalue, List.map_congr_left hmean,
    List.sum_map_mul_right]
  rfl

end Chart

structure Model.Numeric (model : Model LogReal) : Prop where
  features : ∀ view, (model.features view).Finite
  score : ∀ view, ∃ x, model.score (model.features view) = ofReal x

namespace Context

variable {ctx : Context LogReal} {chart : Chart LogReal} {g : Grammar} {tokens : List String}
  {model : Model LogReal} {options : ParseOptions}

theorem model_of_new {S : Type} {model : Model S} {ctx : Context S}
    (h : Context.new g tokens model options = .ok ctx) : ctx.model = model := by
  simp only [Context.new] at h
  split_ifs at h
  rw [← Except.ok.inj h]

theorem BuildsWhere.features_eq {P : Chart LogReal → Job → Prop} (h : ctx.BuildsWhere P chart)
    {id : CellId} {c : Cell LogReal} (hc : chart.cell id = .ok c) :
    ∀ p ∈ c.steps, p.step.features = ctx.model.features p.step.making.view ∧
      p.step.localScore = ctx.model.score p.step.features := by
  intro p hp
  obtain ⟨done, hgrounded⟩ := h.grounded
  obtain ⟨span, _, _, _, hg⟩ := hgrounded id c hc
  obtain ⟨full, _, hscored⟩ := (hg.steps p hp).faithful.scored
  rw [hscored]
  exact ⟨rfl, rfl⟩

theorem BuildsWhere.measured {P : Chart LogReal → Job → Prop} (h : ctx.BuildsWhere P chart)
    (hmodel : ∀ view, (ctx.model.features view).Finite) : chart.Measured := by
  intro id c hc p hp
  rw [(h.features_eq hc p hp).1]
  exact hmodel _

theorem BuildsWhere.numeric {P : Chart LogReal → Job → Prop} (h : ctx.BuildsWhere P chart)
    (hmodel : ctx.model.Numeric) {id : CellId} {c : Cell LogReal} (hc : chart.cell id = .ok c) :
    ∀ p ∈ c.steps, p.step.features.Finite ∧ p.step.localScore ≠ ⊥ := by
  intro p hp
  obtain ⟨hfeatures, hscore⟩ := h.features_eq hc p hp
  obtain ⟨x, hx⟩ := hmodel.score p.step.making.view
  refine ⟨h.measured hmodel.features hc p hp, ?_⟩
  rw [hscore, hfeatures, hx]
  exact WithBot.coe_ne_bot

/-- The features that a finished chart expects are those of its trees: at any root span with any
scores of the roots, over the full parses, and over cells and full parses that pass a filter. The
expected features of the sentence are the mean over the trees of the full parses, by their
probabilities. -/
theorem expected_of_trees (hnew : Context.new g tokens model options = .ok ctx)
    (hmodel : model.Numeric) (h : ctx.Builds chart) :
    (∀ id c, chart.cell id = .ok c → chart.trees id = .ok (chart.treesOf id)) ∧
    (∀ first last (scorer : Category → LogReal), ∃ expected after,
      chart.logExpectedFeatures first last scorer = .ok (expected, after) ∧
      ∀ key, expected.Reads key ((chart.cellsAt first last).map fun x =>
        (scorer x.2.category).mass * ScoredTree.totalFeature key (chart.treesOf x.1)).sum) ∧
    (∃ expected after, chart.logExpectedFullParses = .ok (expected, after) ∧
      ∀ key, expected.Reads key (ScoredTree.totalFeature key (chart.treesAt chart.fullParses))) ∧
    (∀ filter : Category → Bool, ∃ expected after,
      chart.logExpectedFiltered filter = .ok (expected, after) ∧
      ∀ key, expected.Reads key (ScoredTree.totalFeature key (chart.treesAt
        ((chart.cellsAt 0 (chart.size - 1)).filter fun x => filter x.2.category)))) ∧
    (∀ filter : Category → Bool, ∃ expected after,
      chart.logExpectedOver filter = .ok (expected, after) ∧
      ∀ key, expected.Reads key (ScoredTree.totalFeature key (chart.treesAt
        (chart.fullParses.filter fun x => filter x.2.category)))) ∧
    (chart.fullParses ≠ [] → ∃ expected after, chart.expectedFeatures = .ok (expected, after) ∧
      0 < ScoredTree.totalMass (chart.treesAt chart.fullParses) ∧
      ∀ key, expected.get key = ofReal ((chart.treesAt chart.fullParses).map fun t =>
        t.score.mass / ScoredTree.totalMass (chart.treesAt chart.fullParses) *
          t.features.value key).sum) := by
  have hmodel : ctx.model.Numeric := model_of_new hnew ▸ hmodel
  have hrooted := BuildsWhere.rooted h
  have hmeasured : chart.Measured := fun hc p hp => (BuildsWhere.numeric h hmodel hc p hp).1
  have hover := hrooted.exists_expectedOver hmeasured 0 (chart.size - 1)
  refine ⟨fun id c hc => hrooted.trees_eq hc, fun first last scorer => ?_, ?_, fun filter => ?_,
    fun filter => ?_, fun hfull => ?_⟩
  · obtain ⟨expected, after, hok, hvalue⟩ :=
      hrooted.exists_expectedFrom hmeasured first last (scorer ·.category)
    exact ⟨expected, after, hok, fun key => hvalue key ▸ expected.reads_value key⟩
  · obtain ⟨expected, after, hok, hvalue⟩ := hover Cell.isFullParse
    exact ⟨expected, after, hok, fun key => hvalue key ▸ expected.reads_value key⟩
  · obtain ⟨expected, after, hok, hvalue⟩ := hover fun c => filter c.category
    exact ⟨expected, after, hok, fun key => hvalue key ▸ expected.reads_value key⟩
  · obtain ⟨expected, after, hok, hvalue⟩ := hover fun c =>
      decide (c.category ∈ chart.fullParses.map (·.2.category)) && filter c.category
    rw [BuildsWhere.fullParses_filter h] at hvalue
    exact ⟨expected, after, hok, fun key => hvalue key ▸ expected.reads_value key⟩
  · exact hrooted.exists_expectedFeatures hmeasured
      (fun hc p hp => (BuildsWhere.numeric h hmodel hc p hp).2) hfull

theorem numeric_telling : telling.Numeric := by
  have hfinite : ∀ view, (telling.features view).Finite := by
    intro view
    unfold telling
    dsimp only
    split <;> exact FeatureVector.finite_empty.add
  exact ⟨hfinite, fun view => ⟨_, (hfinite view).get_eq "main"⟩⟩

theorem expected_of_trees_sheWalks : ∃ chart,
    Context.new shifting ["she", "walks"] telling .default = .ok sheWalks ∧ telling.Numeric ∧
      sheWalks.Builds chart ∧ chart.fullParses ≠ [] ∧
      ∃ expected after, chart.expectedFeatures = .ok (expected, after) ∧
        0 < ScoredTree.totalMass (chart.treesAt chart.fullParses) ∧
        ∀ key, expected.get key = ofReal ((chart.treesAt chart.fullParses).map fun t =>
          t.score.mass / ScoredTree.totalMass (chart.treesAt chart.fullParses) *
            t.features.value key).sum := by
  obtain ⟨chart, hparse⟩ := exists_parse_sheWalks
  have hbuilds := builds_of_parseSequentially hparse
  have hfull := fullParses_sheWalks (covered_sheWalks.builds hparse)
  obtain ⟨_, _, _, _, _, hmean⟩ := expected_of_trees new_sheWalks numeric_telling hbuilds
  exact ⟨chart, new_sheWalks, numeric_telling, hbuilds, hfull, hmean hfull⟩

end Context

end Categorial
