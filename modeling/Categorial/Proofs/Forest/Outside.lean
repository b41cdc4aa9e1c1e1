import Categorial.Proofs.Chart.Outside
import Categorial.Proofs.Features.Values
import Categorial.Proofs.Forest.Scores

/-! # Outside mass and the features of trees

The features of the trees of a cell are those of its steps and those that the steps take over from
the trees of the children. An outside pass hands mass down in just this way, so after each span
the features that are yet to be counted below the spans at hand stay the same in total. At the end
there is nothing below, and the steps alone make up all of it.
-/

namespace Categorial

open LogReal

noncomputable def ScoredTree.totalFeature (key : String) (trees : List (ScoredTree LogReal)) : ℝ :=
  (trees.map fun t => t.score.mass * t.features.value key).sum

namespace Chart

variable {chart after : Chart LogReal} {outside : CellId → LogReal} {id : CellId} {c : Cell LogReal}
  {key : String}

def Measured (chart : Chart LogReal) : Prop :=
  ∀ {id c}, chart.cell id = .ok c → ∀ p ∈ c.steps, p.step.features.Finite

noncomputable def massOf (chart : Chart LogReal) (id : CellId) : ℝ :=
  ScoredTree.totalMass (chart.treesOf id)

noncomputable def featureOf (chart : Chart LogReal) (key : String) (id : CellId) : ℝ :=
  ScoredTree.totalFeature key (chart.treesOf id)

/-- What a step takes over of a quantity of its children: that of one child goes with every tree of
the other. -/
noncomputable def takenOver (chart : Chart LogReal) (X : CellId → ℝ) (step : Step LogReal) : ℝ :=
  match step.making.source with
  | .entry _ => 0
  | .cells left right =>
    step.localScore.mass * (chart.massOf right * X left + chart.massOf left * X right)

/-- The feature values of the steps of a cell themselves, in all trees that they are on top of. -/
noncomputable def ownFeature (key : String) (c : Cell LogReal) : ℝ :=
  (c.steps.map fun p => p.logInside.mass * p.step.features.value key).sum

noncomputable def takenOverAll (chart : Chart LogReal) (X : CellId → ℝ) (c : Cell LogReal) : ℝ :=
  (c.steps.map fun p => chart.takenOver X p.step).sum

section Features

theorem joinTrees_features {step : Step LogReal} {children : List (ScoredTree LogReal)}
    (hstep : step.features.Finite) (hchildren : ∀ t ∈ children, t.features.Finite) :
    (joinTrees step children).features.Finite ∧
    ∀ key, (joinTrees step children).features.value key =
      step.features.value key + (children.map (·.features.value key)).sum :=
  FeatureVector.foldl_addTimes hchildren hstep

theorem Rooted.finite_features (h : chart.Rooted) (hm : chart.Measured)
    (hc : chart.cell id = .ok c) :
    ∀ t ∈ chart.treesOf id, t.features.Finite := by
  refine h.tree_induction (P := fun _ t => t.features.Finite) ?_ ?_ hc
  · intro id c p entry hc hp _ _
    exact (joinTrees_features (hm hc p hp) (by simp)).1
  · intro id c p left right l r tl tr hc hp _ _ _ _ _ _ hleft hright
    refine (joinTrees_features (hm hc p hp) fun u hu => ?_).1
    rcases List.mem_pair.mp hu with rfl | rfl
    · exact hleft
    · exact hright

theorem sum_pairs (a v : ℝ) (ls rs : List (ScoredTree LogReal)) :
    (rs.map fun r => (ls.map fun l => a * l.score.mass * r.score.mass *
      (v + (l.features.value key + r.features.value key))).sum).sum =
      a * ScoredTree.totalMass ls * ScoredTree.totalMass rs * v +
        a * (ScoredTree.totalMass rs * ScoredTree.totalFeature key ls +
          ScoredTree.totalMass ls * ScoredTree.totalFeature key rs) := by
  have hinner : ∀ r ∈ rs, (ls.map fun l => a * l.score.mass * r.score.mass *
      (v + (l.features.value key + r.features.value key))).sum =
      (a * v * ScoredTree.totalMass ls + a * ScoredTree.totalFeature key ls) * r.score.mass +
        a * ScoredTree.totalMass ls * (r.score.mass * r.features.value key) := by
    intro r _
    have hterm : ∀ l ∈ ls, a * l.score.mass * r.score.mass *
        (v + (l.features.value key + r.features.value key)) =
        a * r.score.mass * (v + r.features.value key) * l.score.mass +
          a * r.score.mass * (l.score.mass * l.features.value key) := fun l _ => by ring
    rw [List.map_congr_left hterm, List.sum_map_add, List.sum_map_mul_left, List.sum_map_mul_left]
    unfold ScoredTree.totalMass ScoredTree.totalFeature
    ring
  rw [List.map_congr_left hinner, List.sum_map_add, List.sum_map_mul_left, List.sum_map_mul_left]
  unfold ScoredTree.totalMass ScoredTree.totalFeature
  ring

/-- The features of the trees of a cell are those of its steps and what these take over. -/
theorem Rooted.featureOf_eq (h : chart.Rooted) (hm : chart.Measured) (hc : chart.cell id = .ok c) :
    chart.featureOf key id = ownFeature key c + chart.takenOverAll (chart.featureOf key) c := by
  rw [featureOf, h.treesOf_eq hc, joined, ScoredTree.totalFeature, sum_map_flatMap, ownFeature,
    takenOverAll, ← List.sum_map_add]
  refine congrArg List.sum (List.map_congr_left fun p hp => ?_)
  have hstep := hm hc p hp
  cases h.children hc hp with
  | entry hsource hleaf =>
    rw [treesOfStep_entry hsource]
    simp [PackedStep.logInside, hleaf, ChildScores.leaf, joinTrees, takenOver, hsource]
  | @cells left right l r hsource hl hr hscores =>
    have hterm : ∀ tr ∈ chart.treesOf right, ∀ tl ∈ chart.treesOf left,
        (joinTrees p.step [tl, tr]).score.mass * (joinTrees p.step [tl, tr]).features.value key =
          p.step.localScore.mass * tl.score.mass * tr.score.mass * (p.step.features.value key +
            (tl.features.value key + tr.features.value key)) := by
      intro tr htr tl htl
      have hfinite : ∀ u ∈ [tl, tr], u.features.Finite := by
        intro u hu
        rcases List.mem_pair.mp hu with rfl | rfl
        · exact h.finite_features hm hl _ htl
        · exact h.finite_features hm hr _ htr
      rw [mass_joinTrees, (joinTrees_features hstep hfinite).2]
      simp
    rw [treesOfStep_cells hsource, sum_map_flatMap, mass_cells hscores, h.mass_logInside hl,
      h.mass_logInside hr, takenOver, hsource]
    simp only [List.map_map, Function.comp_def]
    rw [List.map_congr_left fun tr htr => congrArg List.sum (List.map_congr_left (hterm tr htr)),
      sum_pairs]
    rfl

end Features

section Updates

noncomputable def worth (X : CellId → ℝ) (updates : List (CellId × LogReal)) : ℝ :=
  (updates.map fun u => u.2.mass * X u.1).sum

theorem worth_flatten (X : CellId → ℝ) (updates : List (List (CellId × LogReal))) :
    worth X updates.flatten = (updates.map (worth X)).sum := by
  rw [worth, List.map_flatten, List.sum_flatten, List.map_map]
  rfl

theorem Rooted.exists_stepUpdates (h : chart.Rooted) (hw : chart.Weighed after outside)
    (hc : chart.cell id = .ok c) {p : PackedStep LogReal} (hp : p ∈ c.steps) (mass : LogReal) :
    ∃ updates, after.stepUpdates mass p.step = .ok updates ∧
      (∀ u ∈ updates, u.1 ∈ p.step.children) ∧
      ∀ X, worth X updates = mass.mass * chart.takenOver X p.step := by
  cases h.children hc hp with
  | entry hsource _ =>
    refine ⟨[], ?_, nofun, fun X => ?_⟩
    · simp only [stepUpdates, hsource]
    · simp [worth, takenOver, hsource]
  | @cells left right l r hsource hl hr _ =>
    have hok : after.stepUpdates mass p.step =
        .ok [(left, mass + p.step.localScore + Scalar.sum [r.logInside]),
          (right, mass + p.step.localScore + Scalar.sum [l.logInside])] := by
      simp only [stepUpdates, hsource, hw.cell hl, hw.cell hr]
      rfl
    refine ⟨_, hok, fun u hu => ?_, fun X => ?_⟩
    · rw [Step.children, hsource]
      rcases List.mem_pair.mp hu with rfl | rfl
      · exact .head _
      · exact .tail _ (.head _)
    · simp only [takenOver, hsource, massOf, ← h.mass_logInside hl, ← h.mass_logInside hr, worth,
        List.map_cons, List.map_nil, List.sum_cons, List.sum_nil, List.prod_cons, List.prod_nil,
        mass_plus, mass_sumPlain]
      ring

theorem Rooted.exists_cellUpdates (h : chart.Rooted) (hw : chart.Weighed after outside)
    (hc : chart.cell id = .ok c) (mass : LogReal) :
    ∃ updates, (c.steps.mapM fun p => after.stepUpdates mass p.step) = .ok updates ∧
      (∀ u ∈ updates.flatten, ∃ p ∈ c.steps, u.1 ∈ p.step.children) ∧
      ∀ X, worth X updates.flatten = mass.mass * chart.takenOverAll X c := by
  obtain ⟨g, hok, hg⟩ := exists_mapM fun p hp => h.exists_stepUpdates hw hc hp mass
  refine ⟨_, hok, fun u hu => ?_, fun X => ?_⟩
  · rw [← List.flatMap_def] at hu
    obtain ⟨p, hp, hu⟩ := List.mem_flatMap.mp hu
    exact ⟨p, hp, (hg p hp).1 u hu⟩
  · rw [worth_flatten, List.map_map, takenOverAll, ← List.sum_map_mul_left]
    exact congrArg List.sum (List.map_congr_left fun p hp => (hg p hp).2 X)

theorem mass_eq_zero_of_hasOutside (h : hasOutside c = false) : c.logOutside.mass = 0 := by
  have hbot : c.logOutside = Scalar.negInf := by simpa [hasOutside, OrderedScalar.beq_iff] using h
  rw [hbot]
  rfl

theorem Rooted.exists_outsideUpdates (h : chart.Rooted) (hw : chart.Weighed after outside)
    (first last : Nat) :
    ∃ updates, after.outsideUpdates first last = .ok updates ∧
      (∀ u ∈ updates, u.1.length < last - first + 1 ∧ ∃ c, chart.cell u.1 = .ok c) ∧
      ∀ X, worth X updates = ((chart.cellsAt first last).map fun x =>
        (outside x.1).mass * chart.takenOverAll X x.2).sum := by
  have hcells : ∀ y ∈ (after.cellsAt first last).filter (hasOutside ·.2), ∃ updates,
      (do .ok (← y.2.steps.mapM fun p => after.stepUpdates y.2.logOutside p.step).flatten) =
        Except.ok updates ∧
      (∀ u ∈ updates, u.1.length < last - first + 1 ∧ ∃ c, chart.cell u.1 = .ok c) ∧
      ∀ X, worth X updates = y.2.logOutside.mass * chart.takenOverAll X y.2 := by
    intro y hy
    rw [hw.cellsAt] at hy
    obtain ⟨⟨id, c⟩, hx, rfl⟩ := List.mem_map.mp (List.mem_filter.mp hy).1
    obtain ⟨rfl, rfl, hc⟩ := mem_cellsAt_iff.mp hx
    obtain ⟨updates, hok, hchildren, hworth⟩ := h.exists_cellUpdates hw hc (outside id)
    refine ⟨updates.flatten, bind_eq_ok.mpr ⟨updates, hok, rfl⟩, fun u hu => ?_, hworth⟩
    obtain ⟨p, hp, hu⟩ := hchildren u hu
    exact ⟨h.shorter hc p hp _ hu, h.exists_child hc hp hu⟩
  obtain ⟨g, hok, hg⟩ := exists_mapM hcells
  refine ⟨_, bind_eq_ok.mpr ⟨_, hok, rfl⟩, fun u hu => ?_, fun X => ?_⟩
  · rw [← List.flatMap_def] at hu
    obtain ⟨y, hy, hu⟩ := List.mem_flatMap.mp hu
    exact (hg y hy).1 u hu
  · rw [worth_flatten, List.map_map]
    calc (((after.cellsAt first last).filter (hasOutside ·.2)).map (worth X ∘ g)).sum
        = (((after.cellsAt first last).filter (hasOutside ·.2)).map fun x =>
            x.2.logOutside.mass * chart.takenOverAll X x.2).sum :=
          congrArg List.sum (List.map_congr_left fun y hy => (hg y hy).2 X)
      _ = ((after.cellsAt first last).map fun x =>
            x.2.logOutside.mass * chart.takenOverAll X x.2).sum :=
          sum_map_filter fun y _ hy => by rw [mass_eq_zero_of_hasOutside hy, zero_mul]
      _ = _ := by rw [hw.cellsAt, List.map_map]; rfl

end Updates

section Pass

noncomputable def totalOver (outside : CellId → LogReal) (X : CellId × Cell LogReal → ℝ)
    (cells : List (CellId × Cell LogReal)) : ℝ :=
  (cells.map fun x => (outside x.1).mass * X x).sum

theorem receive_of_notMem {updates : List (CellId × LogReal)} (h : ∀ u ∈ updates, u.1 ≠ id) :
    receive outside updates id = outside id := by
  induction updates generalizing outside with
  | nil => rfl
  | cons u updates ih =>
    have hne : id ≠ u.1 := (h u (.head _)).symm
    exact (ih fun v hv => h v (.tail _ hv)).trans (Function.update_of_ne hne _ _)

theorem totalOver_receive_one (X : CellId → ℝ) {cells : List (CellId × Cell LogReal)}
    (hnodup : (cells.map (·.1)).Nodup) {u : CellId × LogReal} (hu : u.1 ∈ cells.map (·.1)) :
    totalOver (receive outside [u]) (X ·.1) cells =
      totalOver outside (X ·.1) cells + u.2.mass * X u.1 := by
  have hterm : ∀ x ∈ cells, (receive outside [u] x.1).mass * X x.1 =
      (outside x.1).mass * X x.1 + if x.1 = u.1 then u.2.mass * X u.1 else 0 := by
    intro x _
    by_cases hx : x.1 = u.1
    · simp only [receive, List.foldl_cons, List.foldl_nil, hx, Function.update_self, mass_add,
        if_true]
      ring
    · simp [receive, hx]
  have hsingle := sum_map_single (w := fun i => if i = u.1 then u.2.mass * X u.1 else 0) hnodup
    (fun i _ hi => if_neg hi) fun hnot => absurd hu hnot
  rw [if_pos rfl, List.map_map] at hsingle
  rw [totalOver, List.map_congr_left hterm, List.sum_map_add]
  exact congrArg (_ + ·) hsingle

theorem totalOver_receive (X : CellId → ℝ) {cells : List (CellId × Cell LogReal)}
    (hnodup : (cells.map (·.1)).Nodup) {updates : List (CellId × LogReal)}
    (h : ∀ u ∈ updates, u.1 ∈ cells.map (·.1)) :
    totalOver (receive outside updates) (X ·.1) cells =
      totalOver outside (X ·.1) cells + worth X updates := by
  induction updates generalizing outside with
  | nil => simp [receive, worth]
  | cons u updates ih =>
    have hrest := @ih (receive outside [u]) fun v hv => h v (.tail _ hv)
    rw [totalOver_receive_one X hnodup (h u (.head _)), add_assoc] at hrest
    exact hrest

structure Descends (size : Nat) (spans : List (Nat × Nat)) : Prop where
  nodup : spans.Nodup
  sorted : spans.Pairwise fun x y => y.2 - y.1 ≤ x.2 - x.1
  closed : ∀ x ∈ spans, ∀ first last, first ≤ last → last < size → last - first < x.2 - x.1 →
    (first, last) ∈ spans

theorem Descends.tail {size : Nat} {x : Nat × Nat} {spans : List (Nat × Nat)}
    (h : Descends size (x :: spans)) : Descends size spans := by
  obtain ⟨hx, hsorted⟩ := List.pairwise_cons.mp h.sorted
  refine ⟨(List.nodup_cons.mp h.nodup).2, hsorted, fun y hy first last hle hlt hshort => ?_⟩
  rcases List.mem_cons.mp (h.closed y (.tail _ hy) first last hle hlt hshort) with rfl | hmem
  · exact absurd (hx y hy) (not_le.mpr hshort)
  · exact hmem

def cellsOver (chart : Chart LogReal) (spans : List (Nat × Nat)) : List (CellId × Cell LogReal) :=
  spans.flatMap fun x => chart.cellsAt x.1 x.2

theorem mem_cellsOver_iff {spans : List (Nat × Nat)} :
    (id, c) ∈ chart.cellsOver spans ↔ (id.first, id.last) ∈ spans ∧ chart.cell id = .ok c := by
  simp only [cellsOver, List.mem_flatMap, mem_cellsAt_iff]
  constructor
  · rintro ⟨x, hx, hfirst, hlast, hc⟩
    exact ⟨by rwa [hfirst, hlast], hc⟩
  · rintro ⟨hspan, hc⟩
    exact ⟨_, hspan, rfl, rfl, hc⟩

theorem nodup_cellsOver {spans : List (Nat × Nat)} (h : spans.Nodup) :
    ((chart.cellsOver spans).map (·.1)).Nodup := by
  rw [cellsOver, List.map_flatMap, List.nodup_flatMap]
  have hbounds : ∀ x : Nat × Nat, ∀ i ∈ (chart.cellsAt x.1 x.2).map (·.1),
    (i.first, i.last) = x := by
    intro x i hi
    obtain ⟨⟨_, _⟩, hmem, rfl⟩ := List.mem_map.mp hi
    obtain ⟨hfirst, hlast, _⟩ := mem_cellsAt_iff.mp hmem
    exact Prod.ext hfirst hlast
  refine ⟨fun x _ => ?_, h.imp fun {x y} hxy i hx hy => ?_⟩
  · unfold cellsAt
    split
    · next b _ =>
      rw [Beam.cells, List.map_map, List.map_map]
      have hids := b.slots.nodup_keys_toList.map (f := fun k => (⟨x.1, x.2, k⟩ : CellId))
        fun k k' hk => congrArg CellId.key hk
      rwa [List.map_map] at hids
    · exact .nil
  · exact hxy ((hbounds x i hx).symm.trans (hbounds y i hy))

theorem Rooted.exists_propagateSpan (h : chart.Rooted) (hw : chart.Weighed after outside)
    {x : Nat × Nat} {spans : List (Nat × Nat)} (hspans : Descends chart.size (x :: spans)) :
    ∃ after' outside', after.propagateSpan x.1 x.2 = .ok after' ∧ chart.Weighed after' outside' ∧
      (∀ id, (id.first, id.last) ∉ spans → outside' id = outside id) ∧
      ∀ X, totalOver outside' (X ·.1) (chart.cellsOver spans) =
        totalOver outside (X ·.1) (chart.cellsOver spans) +
          totalOver outside (chart.takenOverAll X ·.2) (chart.cellsAt x.1 x.2) := by
  obtain ⟨updates, hok, hlower, hworth⟩ := h.exists_outsideUpdates hw x.1 x.2
  have hmem : ∀ u ∈ updates, (u.1.first, u.1.last) ∈ spans := by
    intro u hu
    obtain ⟨hshort, c, hc⟩ := hlower u hu
    obtain ⟨hle, hlt⟩ := h.within hc
    unfold CellId.length at hshort
    have hspan := hspans.closed x (.head _) _ _ hle hlt (by omega)
    refine (List.mem_cons.mp hspan).resolve_left ?_
    rintro rfl
    exact absurd hshort (lt_irrefl _)
  obtain ⟨after', hafter, hw'⟩ := hw.receive fun u hu => (hlower u hu).2
  refine ⟨after', _, bind_eq_ok.mpr ⟨updates, hok, hafter⟩, hw', fun id hid => ?_, fun X => ?_⟩
  · refine receive_of_notMem fun u hu he => hid ?_
    rw [← he]
    exact hmem u hu
  · refine (totalOver_receive X (nodup_cellsOver hspans.tail.nodup) fun u hu => ?_).trans ?_
    · obtain ⟨_, c, hc⟩ := hlower u hu
      exact List.mem_map.mpr ⟨(u.1, c), mem_cellsOver_iff.mpr ⟨hmem u hu, hc⟩, rfl⟩
    · rw [hworth]
      rfl

theorem totalOver_cellsOver_cons (outside : CellId → LogReal) (X : CellId × Cell LogReal → ℝ)
    (x : Nat × Nat) (spans : List (Nat × Nat)) :
    totalOver outside X (chart.cellsOver (x :: spans)) =
      totalOver outside X (chart.cellsAt x.1 x.2) +
        totalOver outside X (chart.cellsOver spans) := by
  simp [totalOver, cellsOver]

theorem totalOver_congr {outside outside' : CellId → LogReal} {X Y : CellId × Cell LogReal → ℝ}
    {cells : List (CellId × Cell LogReal)}
    (h : ∀ x ∈ cells, (outside x.1).mass * X x = (outside' x.1).mass * Y x) :
    totalOver outside X cells = totalOver outside' Y cells :=
  congrArg List.sum (List.map_congr_left h)

/-- After the pass the steps alone make up what the trees did before. -/
theorem Rooted.exists_propagate (h : chart.Rooted) (hm : chart.Measured)
    (hw : chart.Weighed after outside) {spans : List (Nat × Nat)}
    (hspans : Descends chart.size spans) :
    ∃ after' outside',
      spans.foldlM (fun chart x => chart.propagateSpan x.1 x.2) after = .ok after' ∧
      chart.Weighed after' outside' ∧
      (∀ id, (id.first, id.last) ∉ spans → outside' id = outside id) ∧
      ∀ key, totalOver outside' (ownFeature key ·.2) (chart.cellsOver spans) =
        totalOver outside (chart.featureOf key ·.1) (chart.cellsOver spans) := by
  induction spans generalizing after outside with
  | nil => exact ⟨after, outside, rfl, hw, fun _ _ => rfl, fun _ => rfl⟩
  | cons x spans ih =>
    obtain ⟨mid, between, hstep, hw, hkept, htotal⟩ := h.exists_propagateSpan hw hspans
    obtain ⟨after', outside', hrest, hw, hkept', htotal'⟩ := ih hw hspans.tail
    refine ⟨after', outside', foldlM_cons_eq_ok.mpr ⟨mid, hstep, hrest⟩, hw, ?_, fun key => ?_⟩
    · intro id hid
      rw [List.mem_cons, not_or] at hid
      rw [hkept' id hid.2, hkept id hid.2]
    · have hown : totalOver outside' (ownFeature key ·.2) (chart.cellsAt x.1 x.2) =
          totalOver outside (ownFeature key ·.2) (chart.cellsAt x.1 x.2) := by
        refine totalOver_congr fun y hy => ?_
        obtain ⟨hfirst, hlast, _⟩ := mem_cellsAt_iff.mp hy
        have hnew : (y.1.first, y.1.last) ∉ spans := by
          rw [hfirst, hlast]
          exact (List.nodup_cons.mp hspans.nodup).1
        rw [hkept' _ hnew, hkept _ hnew]
      have hsplit : totalOver outside (chart.featureOf key ·.1) (chart.cellsAt x.1 x.2) =
          totalOver outside (ownFeature key ·.2) (chart.cellsAt x.1 x.2) +
            totalOver outside (chart.takenOverAll (chart.featureOf key) ·.2)
              (chart.cellsAt x.1 x.2) := by
        rw [totalOver, totalOver, totalOver, ← List.sum_map_add]
        refine congrArg List.sum (List.map_congr_left fun y hy => ?_)
        rw [h.featureOf_eq hm (mem_cellsAt_iff.mp hy).2.2, mul_add]
      rw [totalOver_cellsOver_cons, totalOver_cellsOver_cons, hown, htotal' key, htotal, hsplit]
      ring

end Pass

end Chart

end Categorial
