import Categorial.Derivation
import Categorial.Proofs.Chart.Outline
import Categorial.Proofs.Forest.Trees

/-! # Walks down a chart

A walk goes from a cell to the cells that its steps build on, and on from there. Where the handles
of all steps lead to cells of shorter spans, no walk meets a handle that leads nowhere, and none
needs to go deeper than the cell that it began with has tokens.
-/

namespace Categorial

variable {S : Type}

namespace Chart

variable {chart after : Chart S}

theorem Linked.of_sameOutline (h : chart.Linked) (hs : chart.SameOutline after) :
    after.Linked := by
  have hstep : ∀ {id d}, after.cell id = .ok d → ∀ p ∈ d.steps,
      ∃ c, chart.cell id = .ok c ∧ ∃ q ∈ c.steps, q.step.making = p.step.making := by
    intro id d hd p hp
    obtain ⟨c, hc, hout⟩ := hs.symm.exists_cell hd
    exact ⟨c, hc, Cell.exists_step_of_outline hout.symm hp⟩
  constructor
  · intro id d hd p hp child hchild
    obtain ⟨c, hc, q, hq, hmaking⟩ := hstep hd p hp
    rw [Step.children, ← hmaking] at hchild
    obtain ⟨e, he⟩ := h.exists_child hc q hq child hchild
    obtain ⟨e', he', _⟩ := hs.exists_cell he
    exact ⟨e', he'⟩
  · intro id d hd p hp child hchild
    obtain ⟨c, hc, q, hq, hmaking⟩ := hstep hd p hp
    rw [Step.children, ← hmaking] at hchild
    exact h.shorter hc q hq child hchild

section FirstSteps

variable [Scalar S] {id : CellId} {c : Cell S}

def FirstStep (chart : Chart S) (id child : CellId) : Prop :=
  ∃ c step rest, chart.cell id = .ok c ∧ c.viterbiSteps = step :: rest ∧ child ∈ step.children

/-- First best steps lead to no cell without a best step. -/
def AlwaysBest (chart : Chart S) (id : CellId) : Prop :=
  ∀ other, Relation.ReflTransGen chart.FirstStep id other →
    ∀ c, chart.cell other = .ok c → c.viterbiSteps ≠ []

theorem alwaysBest_iff {step : Step S} {rest : List (Step S)} (hc : chart.cell id = .ok c)
    (hsteps : c.viterbiSteps = step :: rest) :
    chart.AlwaysBest id ↔ ∀ child ∈ step.children, chart.AlwaysBest child := by
  constructor
  · intro h child hchild other hother
    exact h other (.head ⟨c, step, rest, hc, hsteps, hchild⟩ hother)
  · intro h other hother d hd
    rcases hother.cases_head with rfl | ⟨child, ⟨c', step', rest', hc', hsteps', hchild⟩, hother⟩
    · obtain rfl := Except.ok.inj (hc.symm.trans hd)
      simp [hsteps]
    · obtain rfl := Except.ok.inj (hc.symm.trans hc')
      obtain ⟨rfl, _⟩ := List.cons.inj (hsteps.symm.trans hsteps')
      exact h child hchild other hother d hd

theorem isSome_mapM {α β : Type} (g : α → Option β) (xs : List α) :
    ((xs.map g).mapM fun y => y).isSome = true ↔ ∀ x ∈ xs, (g x).isSome = true := by
  induction xs with
  | nil => simp
  | cons x xs ih =>
    rw [List.map_cons, List.mapM_cons, List.forall_mem_cons, ← ih]
    cases g x <;> cases (xs.map g).mapM fun y => y <;> simp

end FirstSteps

namespace Linked

variable (h : chart.Linked)

include h

variable [Scalar S]

omit h in
theorem mem_followed (viterbiOnly : Bool) {c : Cell S} {step : Step S}
    (hstep : step ∈ followed viterbiOnly c) : ∃ p ∈ c.steps, p.step = step := by
  cases viterbiOnly with
  | false => exact List.mem_map.mp hstep
  | true =>
    obtain ⟨p, hp, rfl⟩ := List.mem_map.mp hstep
    exact ⟨p, (List.mem_filter.mp hp).1, rfl⟩

variable {id : CellId} {c : Cell S}

theorem exists_trees (hc : chart.cell id = .ok c) : ∃ trees, chart.trees id = .ok trees := by
  refine h.descend (P := fun width id => ∃ trees, chart.treesWithin width id = .ok trees)
    (fun width id c hc ih => ?_) hc le_rfl
  refine exists_bind_ok ⟨c, hc⟩ fun d hd => ?_
  obtain rfl := Except.ok.inj (hc.symm.trans hd)
  refine exists_bind_ok (exists_mapM_ok fun p hp => ?_) fun _ _ => ⟨_, rfl⟩
  exact exists_bind_ok (exists_mapM_ok (ih p hp)) fun _ _ => ⟨_, rfl⟩

/-- The walk along first best steps finds a tree exactly if it finds a best step everywhere. -/
theorem exists_viterbiTree (hc : chart.cell id = .ok c) :
    ∃ best, chart.viterbiTree id = .ok best ∧ (best.isSome = true ↔ chart.AlwaysBest id) := by
  refine h.descend (P := fun width id => ∃ best, chart.viterbiTreeWithin width id = .ok best ∧
    (best.isSome = true ↔ chart.AlwaysBest id)) (fun width id c hc ih => ?_) hc le_rfl
  cases hsteps : c.viterbiSteps with
  | nil =>
    refine ⟨none, bind_eq_ok.mpr ⟨c, hc, by rw [hsteps]⟩, ?_⟩
    exact iff_of_false nofun fun hbest => hbest id .refl c hc hsteps
  | cons step rest =>
    obtain ⟨p, hp, rfl⟩ := mem_followed true (hsteps ▸ List.mem_cons_self)
    obtain ⟨best, hbest, hiff⟩ := exists_mapM (ih p hp)
    refine ⟨((p.step.children.map best).mapM fun child => child).map p.step.tree,
      bind_eq_ok.mpr ⟨c, hc, ?_⟩, ?_⟩
    · rw [hsteps]
      exact bind_eq_ok.mpr ⟨_, hbest, rfl⟩
    · rw [Option.isSome_map, isSome_mapM, alwaysBest_iff hc hsteps]
      exact forall₂_congr hiff

theorem exists_walk (viterbiOnly : Bool) (hc : chart.cell id = .ok c) (walk : Walk S) :
    ∃ walk', chart.walkWithin viterbiOnly id.length id walk = .ok walk' := by
  refine h.descend (P := fun width id => ∀ walk, ∃ walk',
    chart.walkWithin viterbiOnly width id walk = .ok walk')
    (fun width id c hc ih walk => ?_) hc le_rfl walk
  unfold walkWithin
  split_ifs
  · exact ⟨_, rfl⟩
  · refine exists_bind_ok ⟨c, hc⟩ fun d hd => ?_
    obtain rfl := Except.ok.inj (hc.symm.trans hd)
    refine exists_foldlM_ok (fun step hstep walk => ?_) _
    obtain ⟨p, hp, rfl⟩ := mem_followed viterbiOnly hstep
    exact exists_bind_ok (exists_foldlM_ok (ih p hp) walk) fun _ _ => ⟨_, rfl⟩

theorem exists_average (hc : chart.cell id = .ok c) (known : Averages S) :
    ∃ result, chart.averageWithin id.length id known = .ok result := by
  refine h.descend (P := fun width id => ∀ known, ∃ result,
    chart.averageWithin width id known = .ok result)
    (fun width id c hc ih known => ?_) hc le_rfl known
  unfold averageWithin
  split
  · exact ⟨_, rfl⟩
  · refine exists_bind_ok ⟨c, hc⟩ fun d hd => ?_
    obtain rfl := Except.ok.inj (hc.symm.trans hd)
    refine exists_bind_ok (exists_foldlM_ok (fun step hstep total => ?_) _) fun _ _ => ⟨_, rfl⟩
    obtain ⟨p, hp, rfl⟩ := mem_followed true hstep
    refine exists_bind_ok (exists_foldlM_ok (fun child hchild total => ?_) _) fun _ _ => ⟨_, rfl⟩
    exact exists_bind_ok (ih p hp child hchild total.2) fun _ _ => ⟨_, rfl⟩

end Linked

section Following

variable [Scalar S] {viterbiOnly : Bool} {id child : CellId} {c : Cell S} {step : Step S}

def stepsAt (chart : Chart S) (viterbiOnly : Bool) (id : CellId) : List (Step S) :=
  (chart.cell id).toOption.elim [] (followed viterbiOnly)

theorem stepsAt_eq (hc : chart.cell id = .ok c) :
    chart.stepsAt viterbiOnly id = followed viterbiOnly c := by
  rw [stepsAt, hc]
  rfl

theorem mem_stepsAt_iff : step ∈ chart.stepsAt viterbiOnly id ↔
    ∃ c, chart.cell id = .ok c ∧ step ∈ followed viterbiOnly c := by
  constructor
  · intro hstep
    cases hc : chart.cell id with
    | error fault =>
      rw [stepsAt, hc] at hstep
      exact absurd hstep List.not_mem_nil
    | ok c => exact ⟨c, rfl, stepsAt_eq hc ▸ hstep⟩
  · rintro ⟨c, hc, hstep⟩
    exact stepsAt_eq hc ▸ hstep

theorem Linked.length_lt (h : chart.Linked) (hstep : step ∈ chart.stepsAt viterbiOnly id)
    (hchild : child ∈ step.children) : child.length < id.length := by
  obtain ⟨c, hc, hstep⟩ := mem_stepsAt_iff.mp hstep
  obtain ⟨p, hp, rfl⟩ := Linked.mem_followed viterbiOnly hstep
  exact h.shorter hc p hp child hchild

theorem Rooted.nodup_stepsAt (h : chart.Rooted) (viterbiOnly : Bool) (id : CellId) :
    (chart.stepsAt viterbiOnly id).Nodup := by
  cases hc : chart.cell id with
  | error fault =>
    rw [stepsAt, hc]
    exact .nil
  | ok c =>
    have hsteps : (c.steps.map (·.step)).Nodup := by
      refine List.Nodup.of_map (·.making) ?_
      rw [List.map_map]
      exact (h.packed hc).nodup
    rw [stepsAt_eq hc]
    cases viterbiOnly with
    | false => exact hsteps
    | true => exact hsteps.sublist (List.filter_sublist.map _)

end Following

end Chart

end Categorial
