import Categorial.Proofs.Forest.Walks

/-! # Passes over a chart

Where the handles of all steps lead to cells, the passes over a chart go through: counting all
scores afresh, scoring all steps anew, and handing outside mass down. Each of them leaves a chart
with the same cells and steps, so they can be made in any number and order.
-/

namespace Categorial

variable {S : Type}

theorem Cell.outline_rescoreSteps (c : Cell S) (score : FeatureVector S → S) :
    (c.rescoreSteps score).outline = c.outline := by
  simp [Cell.outline, Cell.rescoreSteps, Function.comp_def]

theorem Cell.outline_recompute [Scalar S] {c : Cell S} {scores : List (ChildScores S)}
    (h : scores.length = c.steps.length) : (c.recompute scores).outline = c.outline := by
  have hmakings : (c.steps.zipWith (fun p s => { p with children := s }) scores).map
      (·.step.making) = c.steps.map (·.step.making) := by
    refine List.ext_getElem (by simp [h]) fun i _ _ => ?_
    simp
  simp only [Cell.outline, Cell.recompute, Cell.withSteps, hmakings]

namespace Chart

variable {chart : Chart S} {id : CellId} {c : Cell S} {first last : Nat}

theorem Linked.exists_children (h : chart.Linked) (hc : chart.cell id = .ok c)
    {p : PackedStep S} (hp : p ∈ c.steps) :
    ∃ cells, p.step.children.mapM chart.cell = .ok cells :=
  exists_mapM_ok (h.exists_child hc p hp)

theorem beam?_of_getElem? (hle : first ≤ last) {b : Beam S}
    (hb : chart.beams[slot first last]? = some b) : chart.beam? first last = some b := by
  rw [beam?, if_pos hle, hb]

variable [Scalar S]

namespace Linked

variable (h : chart.Linked)

include h

section Scores

theorem exists_childScores (hc : chart.cell id = .ok c) :
    ∃ scores, chart.childScores c = .ok scores ∧ scores.length = c.steps.length := by
  have hstep : ∀ p ∈ c.steps, ∃ scores,
      ChildScores.ofCells <$> p.step.children.mapM chart.cell = .ok scores ∧ True := by
    intro p hp
    obtain ⟨cells, hcells⟩ := h.exists_children hc hp
    exact ⟨_, map_eq_ok.mpr ⟨cells, hcells, rfl⟩, trivial⟩
  have : Nonempty (ChildScores S) := ⟨.leaf⟩
  obtain ⟨g, hg, _⟩ := exists_mapM hstep
  exact ⟨_, hg, List.length_map ..⟩

theorem exists_recomputeSpan (hle : first ≤ last) :
    ∃ after, chart.recomputeSpan first last = .ok after ∧ chart.SameOutline after := by
  have hcell : ∀ x ∈ chart.cellsAt first last, ∃ y,
      (do .ok (x.1.key, x.2.recompute (← chart.childScores x.2))) = Except.ok y ∧
        ∃ c, chart.cell ⟨first, last, y.1⟩ = .ok c ∧ y.2.outline = c.outline := by
    rintro ⟨id, c⟩ hx
    obtain ⟨rfl, rfl, hc⟩ := mem_cellsAt_iff.mp hx
    obtain ⟨scores, hscores, hlength⟩ := h.exists_childScores hc
    exact ⟨_, bind_eq_ok.mpr ⟨scores, hscores, rfl⟩, c, hc, Cell.outline_recompute hlength⟩
  obtain ⟨fresh, hfresh, hall⟩ := exists_mapM_all hcell
  refine ⟨_, bind_eq_ok.mpr ⟨fresh, hfresh, rfl⟩, sameOutline_modifyBeam fun b hb => ?_⟩
  refine Beam.outline_foldl_modify fun y hy => ?_
  obtain ⟨c, hc, hout⟩ := hall y hy
  obtain ⟨b', hb', hkey⟩ := cell_eq_ok_iff.mp hc
  obtain rfl := Option.some.inj ((beam?_of_getElem? hle hb).symm.trans hb')
  rw [hout]
  exact congrArg (Option.map Cell.outline) hkey

theorem exists_recompute : ∃ after, chart.recompute = .ok after ∧ chart.SameOutline after := by
  refine exists_foldlM_kept (fun x hx mid hmid => ?_) (SameOutline.refl chart)
  obtain ⟨after, hafter, hsame⟩ :=
    (h.of_sameOutline hmid).exists_recomputeSpan (mem_spansByLength_iff.mp hx).1
  exact ⟨after, hafter, hmid.trans hsame⟩

theorem exists_rescore (score : FeatureVector S → S) :
    ∃ after, chart.rescore score = .ok after ∧ chart.SameOutline after := by
  have hsame : chart.SameOutline (chart.mapCells (·.rescoreSteps score)) :=
    sameOutline_mapCells fun c => c.outline_rescoreSteps score
  obtain ⟨after, hafter, hsame'⟩ := (h.of_sameOutline hsame).exists_recompute
  exact ⟨after, hafter, hsame.trans hsame'⟩

end Scores

section Outside

omit h in
theorem sameOutline_initOutside (chart : Chart S) (first last : Nat) (scorer : Cell S → S) :
    chart.SameOutline (chart.initOutside first last scorer) := by
  unfold initOutside
  generalize spansByStart chart.size = spans
  induction spans generalizing chart with
  | nil => exact .refl chart
  | cons x spans ih =>
    refine SameOutline.trans ?_ (ih _)
    exact sameOutline_modifyBeam fun b _ => Beam.outline_map fun _ => rfl

omit h in
theorem exists_addOutside_outline (hc : chart.cell id = .ok c) (mass : S) :
    ∃ after, chart.addOutside id mass = .ok after ∧ chart.SameOutline after := by
  obtain ⟨b, hb, _⟩ := cell_eq_ok_iff.mp hc
  refine ⟨_, bind_eq_ok.mpr ⟨b, beam_eq_ok_iff.mpr hb, rfl⟩, sameOutline_setBeam hb ?_⟩
  exact Beam.outline_modify fun _ _ => rfl

theorem exists_stepUpdates (hc : chart.cell id = .ok c) {p : PackedStep S}
    (hp : p ∈ c.steps) (mass : S) : ∃ updates, chart.stepUpdates mass p.step = .ok updates ∧
      ∀ u ∈ updates, ∃ d, chart.cell u.1 = .ok d := by
  have hchild := h.exists_child hc p hp
  unfold Step.children at hchild
  unfold stepUpdates
  cases hsource : p.step.making.source with
  | entry entry => exact ⟨[], rfl, nofun⟩
  | cells left right =>
    rw [hsource] at hchild
    obtain ⟨l, hl⟩ := hchild left (.head _)
    obtain ⟨r, hr⟩ := hchild right (.tail _ (.head _))
    refine ⟨_, bind_eq_ok.mpr ⟨r, hr, bind_eq_ok.mpr ⟨l, hl, rfl⟩⟩, fun u hu => ?_⟩
    rcases List.mem_pair.mp hu with rfl | rfl
    · exact ⟨l, hl⟩
    · exact ⟨r, hr⟩

theorem exists_outsideUpdates (first last : Nat) :
    ∃ updates, chart.outsideUpdates first last = .ok updates ∧
      ∀ u ∈ updates, ∃ d, chart.cell u.1 = .ok d := by
  have hcell : ∀ x ∈ (chart.cellsAt first last).filter (hasOutside ·.2), ∃ updates,
      (do .ok (← x.2.steps.mapM fun p => chart.stepUpdates x.2.logOutside p.step).flatten) =
        Except.ok updates ∧ ∀ u ∈ updates, ∃ d, chart.cell u.1 = .ok d := by
    rintro ⟨id, c⟩ hx
    obtain ⟨_, _, hc⟩ := mem_cellsAt_iff.mp (List.mem_filter.mp hx).1
    obtain ⟨updates, hok, hfound⟩ :=
      exists_mapM_all fun p hp => h.exists_stepUpdates hc hp c.logOutside
    refine ⟨_, bind_eq_ok.mpr ⟨updates, hok, rfl⟩, fun u hu => ?_⟩
    obtain ⟨us, hus, hu⟩ := List.mem_flatten.mp hu
    exact hfound us hus u hu
  obtain ⟨updates, hok, hfound⟩ := exists_mapM_all hcell
  refine ⟨_, bind_eq_ok.mpr ⟨updates, hok, rfl⟩, fun u hu => ?_⟩
  obtain ⟨us, hus, hu⟩ := List.mem_flatten.mp hu
  exact hfound us hus u hu

theorem exists_propagateSpan (first last : Nat) :
    ∃ after, chart.propagateSpan first last = .ok after ∧ chart.SameOutline after := by
  obtain ⟨updates, hok, hfound⟩ := h.exists_outsideUpdates first last
  obtain ⟨after, hafter, hsame⟩ : ∃ after,
      updates.foldlM (fun chart u => chart.addOutside u.1 u.2) chart = .ok after ∧
        chart.SameOutline after := by
    refine exists_foldlM_kept (fun u hu mid hmid => ?_) (SameOutline.refl chart)
    obtain ⟨d, hd⟩ := hfound u hu
    obtain ⟨d', hd', _⟩ := hmid.exists_cell hd
    obtain ⟨after, hafter, hsame⟩ := exists_addOutside_outline hd' u.2
    exact ⟨after, hafter, hmid.trans hsame⟩
  exact ⟨after, bind_eq_ok.mpr ⟨updates, hok, hafter⟩, hsame⟩

theorem exists_propagate :
    ∃ after, chart.propagate = .ok after ∧ chart.SameOutline after := by
  refine exists_foldlM_kept (fun x _ mid hmid => ?_) (SameOutline.refl chart)
  obtain ⟨after, hafter, hsame⟩ :=
    (h.of_sameOutline hmid).exists_propagateSpan x.1 x.2
  exact ⟨after, hafter, hmid.trans hsame⟩

theorem exists_collect : ∃ expected, chart.collect = .ok expected := by
  refine exists_foldlM_ok (fun x hx expected => ?_) _
  obtain ⟨y, _, hx⟩ := List.mem_flatMap.mp (List.mem_filter.mp hx).1
  obtain ⟨_, _, hc⟩ := mem_cellsAt_iff.mp hx
  refine exists_foldlM_ok (fun p hp expected => ?_) _
  refine exists_bind_ok (exists_bind_ok (exists_mapM_ok fun child hchild => ?_)
    fun _ _ => ⟨_, rfl⟩) fun _ _ => ⟨_, rfl⟩
  obtain ⟨d, hd⟩ := h.exists_child hc p hp child hchild
  exact ⟨_, map_eq_ok.mpr ⟨d, hd, rfl⟩⟩

theorem exists_expectedFrom (first last : Nat) (scorer : Cell S → S) :
    ∃ expected after, chart.expectedFrom first last scorer = .ok (expected, after) ∧
      chart.SameOutline after := by
  have hinit := sameOutline_initOutside chart first last scorer
  obtain ⟨after, hafter, hsame⟩ := (h.of_sameOutline hinit).exists_propagate
  have hall := hinit.trans hsame
  obtain ⟨expected, hexpected⟩ := (h.of_sameOutline hall).exists_collect
  exact ⟨expected, after,
    bind_eq_ok.mpr ⟨after, hafter, bind_eq_ok.mpr ⟨expected, hexpected, rfl⟩⟩, hall⟩

end Outside

end Linked

/-- A chart that passes over another one lead to. -/
inductive Revised (chart : Chart S) : Chart S → Prop where
  | unchanged : Revised chart chart
  | recomputed {mid after : Chart S} :
      Revised chart mid → mid.recompute = .ok after → Revised chart after
  | rescored {mid after : Chart S} {score : FeatureVector S → S} :
      Revised chart mid → mid.rescore score = .ok after → Revised chart after
  | expected {mid after : Chart S} {first last : Nat} {scorer : Cell S → S}
      {expected : LogFeatureVector S} :
      Revised chart mid → mid.expectedFrom first last scorer = .ok (expected, after) →
      Revised chart after

/-- However many passes are made, the cells and steps stay. -/
theorem Revised.sameOutline {after : Chart S} (hr : chart.Revised after) (h : chart.Linked) :
    chart.SameOutline after := by
  induction hr with
  | unchanged => exact .refl chart
  | recomputed _ hok ih =>
    obtain ⟨after, hafter, hsame⟩ := (h.of_sameOutline ih).exists_recompute
    obtain rfl := Except.ok.inj (hafter.symm.trans hok)
    exact ih.trans hsame
  | rescored _ hok ih =>
    obtain ⟨after, hafter, hsame⟩ := (h.of_sameOutline ih).exists_rescore _
    obtain rfl := Except.ok.inj (hafter.symm.trans hok)
    exact ih.trans hsame
  | expected _ hok ih =>
    obtain ⟨_, after, hafter, hsame⟩ := (h.of_sameOutline ih).exists_expectedFrom _ _ _
    obtain ⟨_, rfl⟩ := Prod.mk.inj (Except.ok.inj (hafter.symm.trans hok))
    exact ih.trans hsame

/-- Every walk down a chart and every pass over it comes to its end. -/
structure Walkable (chart : Chart S) : Prop where
  trees : ∀ id c, chart.cell id = .ok c → ∃ trees, chart.trees id = .ok trees
  viterbiTree : ∀ id c, chart.cell id = .ok c → ∃ tree, chart.viterbiTree id = .ok tree
  steps : ∀ id c, chart.cell id = .ok c → ∀ viterbiOnly, ∃ steps,
    (Derivation.mk chart id c).steps viterbiOnly = .ok steps
  averageMaxFeatures : ∀ id c, chart.cell id = .ok c → ∃ features,
    (Derivation.mk chart id c).averageMaxFeatures = .ok features
  recompute : ∃ after, chart.recompute = .ok after
  rescore : ∀ score, ∃ after, chart.rescore score = .ok after
  expectedFrom : ∀ first last scorer, ∃ result, chart.expectedFrom first last scorer = .ok result
  expectedFeatures : ∃ result, chart.expectedFeatures = .ok result

theorem Linked.walkable (h : chart.Linked) (hwhole : ∃ b, chart.beam? 0 (chart.size - 1) = some b) :
    chart.Walkable where
  trees _ _ hc := h.exists_trees hc
  viterbiTree _ _ hc := (h.exists_viterbiTree hc).imp fun _ => And.left
  steps _ _ hc viterbiOnly := exists_bind_ok (h.exists_walk viterbiOnly hc _) fun _ _ => ⟨_, rfl⟩
  averageMaxFeatures _ _ hc := exists_bind_ok (h.exists_average hc _) fun _ _ => ⟨_, rfl⟩
  recompute := h.exists_recompute.imp fun _ hafter => hafter.1
  rescore score := (h.exists_rescore score).imp fun _ hafter => hafter.1
  expectedFrom first last scorer := by
    obtain ⟨expected, after, hok, _⟩ := h.exists_expectedFrom first last scorer
    exact ⟨_, hok⟩
  expectedFeatures := by
    obtain ⟨b, hb⟩ := hwhole
    obtain ⟨expected, after, hok, _⟩ :=
      h.exists_expectedFrom 0 (chart.size - 1) fun c => indicator c.isFullParse
    refine exists_bind_ok ⟨_, bind_eq_ok.mpr ⟨b, beam_eq_ok_iff.mpr hb, rfl⟩⟩ fun norm _ => ?_
    exact ⟨_, bind_eq_ok.mpr ⟨_, hok, rfl⟩⟩

end Chart

end Categorial
