import Mathlib.Logic.Relation
import Categorial.Proofs.Forest.Walks

/-! # What a walk visits

A walk marks a cell when it enters it, and passes by the cells that are marked. So a step is visited
once, and the cells that it builds on are marked by then. Where the walk begins with no cell marked,
these are behind it, with all of their steps.
-/

namespace Categorial

variable {S : Type}

namespace Chart

variable [Scalar S] {chart : Chart S} {viterbiOnly : Bool} {id child : CellId} {c : Cell S}
  {step : Step S}

def Reaches (chart : Chart S) (viterbiOnly : Bool) : CellId → CellId → Prop :=
  Relation.ReflTransGen fun id child => ∃ step ∈ chart.stepsAt viterbiOnly id,
    child ∈ step.children

theorem Reaches.of_child (hstep : step ∈ chart.stepsAt viterbiOnly id)
    (hchild : child ∈ step.children) : chart.Reaches viterbiOnly id child :=
  .single ⟨step, hstep, hchild⟩

theorem Linked.length_le (h : chart.Linked) {j : CellId} (hj : chart.Reaches viterbiOnly id j) :
    j.length ≤ id.length := by
  induction hj with
  | refl => exact le_rfl
  | tail _ hstep ih =>
    obtain ⟨step, hstep, hchild⟩ := hstep
    exact ((h.length_lt hstep hchild).trans_le ih).le

/-- In front of a list, steps whose cells are marked, or have all of their steps further back. -/
inductive Settled (chart : Chart S) (viterbiOnly : Bool) (marked : Std.HashSet CellId) :
    List (CellId × Step S) → Prop
  | nil : Settled chart viterbiOnly marked []
  | cons {id : CellId} {step : Step S} {rest : List (CellId × Step S)} :
      (∀ child ∈ step.children, child ∈ marked ∨
        ∀ below ∈ chart.stepsAt viterbiOnly child, (child, below) ∈ rest) →
      Settled chart viterbiOnly marked rest →
      Settled chart viterbiOnly marked ((id, step) :: rest)

namespace Settled

variable {marked marked' : Std.HashSet CellId} {xs ys : List (CellId × Step S)}

theorem append (hxs : chart.Settled viterbiOnly marked' xs)
    (hys : chart.Settled viterbiOnly marked ys)
    (h : ∀ child ∈ marked', child ∈ marked ∨
      ∀ below ∈ chart.stepsAt viterbiOnly child, (child, below) ∈ ys) :
    chart.Settled viterbiOnly marked (xs ++ ys) := by
  induction hxs with
  | nil => exact hys
  | cons hchildren _ ih =>
    refine .cons (fun child hchild => ?_) ih
    rcases hchildren child hchild with hmarked | hbelow
    · exact (h child hmarked).imp_right fun hbelow below hmem =>
        List.mem_append_right _ (hbelow below hmem)
    · exact .inr fun below hmem => List.mem_append_left _ (hbelow below hmem)

theorem imp (hxs : chart.Settled viterbiOnly marked xs)
    (h : ∀ x ∈ xs, ∀ child ∈ x.2.children, child ∈ marked → child ∈ marked') :
    chart.Settled viterbiOnly marked' xs := by
  induction hxs with
  | nil => exact .nil
  | cons hchildren _ ih =>
    obtain ⟨hstep, hrest⟩ := List.forall_mem_cons.mp h
    exact .cons (fun child hchild => (hchildren child hchild).imp_left (hstep child hchild))
      (ih hrest)

theorem of_append {x : CellId × Step S} (h : chart.Settled viterbiOnly marked (xs ++ x :: ys)) :
    ∀ child ∈ x.2.children, child ∈ marked ∨
      ∀ below ∈ chart.stepsAt viterbiOnly child, (child, below) ∈ ys := by
  induction xs with
  | nil =>
    cases h with
    | cons hchildren _ => exact hchildren
  | cons y xs ih =>
    cases h with
    | cons _ hrest => exact ih hrest

end Settled

/-- Between two points of a walk below a cell, the steps `new` were visited, the last one in front:
some of the cell itself, and all of every cell that was marked in between. -/
structure Visits (chart : Chart S) (viterbiOnly : Bool) (root : CellId) (walk : Walk S)
    (done : List (Step S)) (new : List (CellId × Step S)) (walk' : Walk S) : Prop where
  visited : walk'.visited = new.map Prod.snd ++ walk.visited
  marked : ∀ j ∈ walk.seen, j ∈ walk'.seen
  opened : ∀ step ∈ done, root ∈ walk.seen
  nodup : new.Nodup
  mem_iff : ∀ j step, (j, step) ∈ new ↔ (j = root ∧ step ∈ done) ∨
    (j ∈ walk'.seen ∧ j ∉ walk.seen ∧ step ∈ chart.stepsAt viterbiOnly j)
  settled : chart.Settled viterbiOnly walk.seen new
  reach : ∀ j ∈ walk'.seen, j ∉ walk.seen → chart.Reaches viterbiOnly root j

namespace Visits

variable {root : CellId} {walk walk₁ walk₂ : Walk S} {done : List (Step S)}
  {new new' : List (CellId × Step S)}

theorem refl (root : CellId) (walk : Walk S) : chart.Visits viterbiOnly root walk [] [] walk where
  visited := rfl
  marked _ hj := hj
  opened := by simp
  nodup := .nil
  mem_iff j step := by simp +contextual
  settled := .nil
  reach _ hj hnot := absurd hj hnot

theorem complete (h : chart.Visits viterbiOnly root walk done new walk₁) {j : CellId}
    (hj : j ∈ walk₁.seen) : j ∈ walk.seen ∨
      ∀ step ∈ chart.stepsAt viterbiOnly j, (j, step) ∈ new := by
  by_cases hseen : j ∈ walk.seen
  · exact .inl hseen
  · exact .inr fun step hstep => (h.mem_iff j step).mpr (.inr ⟨hj, hseen, hstep⟩)

theorem trans (h : chart.Visits viterbiOnly root walk done new walk₁)
    (h' : chart.Visits viterbiOnly child walk₁ [] new' walk₂)
    (hchild : chart.Reaches viterbiOnly root child) :
    chart.Visits viterbiOnly root walk done (new' ++ new) walk₂ where
  visited := by rw [h'.visited, h.visited, List.map_append, List.append_assoc]
  marked j hj := h'.marked j (h.marked j hj)
  opened := h.opened
  nodup := by
    refine List.nodup_append.mpr ⟨h'.nodup, h.nodup, ?_⟩
    rintro ⟨j, step⟩ hnew' _ hnew rfl
    obtain ⟨-, hdone⟩ | ⟨-, hnot, -⟩ := (h'.mem_iff j step).mp hnew'
    · exact absurd hdone List.not_mem_nil
    · obtain ⟨rfl, hdone⟩ | ⟨hseen, -⟩ := (h.mem_iff j step).mp hnew
      · exact hnot (h.marked j (h.opened step hdone))
      · exact hnot hseen
  mem_iff j step := by
    have hmarked := h.marked j
    have hmarked' := h'.marked j
    rw [List.mem_append, h'.mem_iff, h.mem_iff]
    by_cases hj : j ∈ walk₁.seen
    · simp [hj, hmarked' hj]
    · have hnot : j ∉ walk.seen := fun hseen => hj (hmarked hseen)
      simp [hj, hnot, or_comm]
  settled := h'.settled.append h.settled fun _ hj => h.complete hj
  reach j hj hnot := by
    by_cases hseen : j ∈ walk₁.seen
    · exact h.reach j hseen hnot
    · exact hchild.trans (h'.reach j hj hseen)

theorem push (h : chart.Visits viterbiOnly root walk done new walk₁) (hroot : root ∈ walk.seen)
    (hdone : step ∉ done) (hchildren : ∀ child ∈ step.children, child ∈ walk₁.seen) :
    chart.Visits viterbiOnly root walk (done ++ [step]) ((root, step) :: new)
      { walk₁ with visited := step :: walk₁.visited } where
  visited := by rw [h.visited, List.map_cons, List.cons_append]
  marked := h.marked
  opened _ _ := hroot
  nodup := by
    refine List.nodup_cons.mpr ⟨fun hmem => ?_, h.nodup⟩
    obtain ⟨-, hmem⟩ | ⟨-, hnot, -⟩ := (h.mem_iff root step).mp hmem
    · exact hdone hmem
    · exact hnot hroot
  mem_iff j other := by
    rw [List.mem_cons, h.mem_iff, Prod.mk.injEq, List.mem_append, List.mem_singleton, and_or_left,
      or_assoc, or_left_comm]
  settled := .cons (fun child hchild => h.complete (hchildren child hchild)) h.settled
  reach := h.reach

theorem close (hlinked : chart.Linked) (hroot : root ∉ walk.seen)
    (h : chart.Visits viterbiOnly root { walk with seen := walk.seen.insert root }
      (chart.stepsAt viterbiOnly root) new walk₁) :
    chart.Visits viterbiOnly root walk [] new walk₁ := by
  have hmarked : root ∈ walk₁.seen := h.marked root Std.HashSet.mem_insert_self
  have hinsert : ∀ {j}, j ∈ walk.seen.insert root ↔ j = root ∨ j ∈ walk.seen := by
    intro j
    rw [Std.HashSet.mem_insert, beq_iff_eq, eq_comm]
  have hreach : ∀ j ∈ walk₁.seen, j ∉ walk.seen → chart.Reaches viterbiOnly root j := by
    intro j hj hnot
    by_cases heq : j = root
    · exact heq ▸ .refl
    · exact h.reach j hj fun hmem => (hinsert.mp hmem).elim heq hnot
  have hmem : ∀ j step, (j, step) ∈ new ↔
      j ∈ walk₁.seen ∧ j ∉ walk.seen ∧ step ∈ chart.stepsAt viterbiOnly j := by
    intro j step
    rw [h.mem_iff, hinsert]
    by_cases heq : j = root
    · subst heq
      simp [hmarked, hroot]
    · simp [heq]
  refine ⟨h.visited, fun j hj => h.marked j (hinsert.mpr (.inr hj)), by simp, h.nodup,
    fun j step => by simp [hmem], h.settled.imp ?_, hreach⟩
  rintro ⟨j, step⟩ hx child hchild hseen
  obtain ⟨hj, hnot, hstep⟩ := (hmem j step).mp hx
  -- No step below the cell builds on the cell, which is longer.
  have hlt : child.length < root.length :=
    (hlinked.length_lt hstep hchild).trans_le (hlinked.length_le (hreach j hj hnot))
  refine (hinsert.mp hseen).resolve_left ?_
  rintro rfl
  exact hlt.false

end Visits

/-- Wherever a walk comes to a cell, it goes on from there to visit what is not visited yet. -/
def Sweeps (chart : Chart S) (viterbiOnly : Bool) (width : Nat) (id : CellId) : Prop :=
  ∀ walk, ∃ new walk', chart.walkWithin viterbiOnly width id walk = .ok walk' ∧
    chart.Visits viterbiOnly id walk [] new walk' ∧ id ∈ walk'.seen

namespace Visits

variable {width : Nat} {root : CellId} {walk walk₁ : Walk S} {done : List (Step S)}
  {new : List (CellId × Step S)}

theorem walk_children {children : List CellId}
    (h : chart.Visits viterbiOnly root walk done new walk₁)
    (hreach : ∀ child ∈ children, chart.Reaches viterbiOnly root child)
    (hsweeps : ∀ child ∈ children, chart.Sweeps viterbiOnly width child) :
    ∃ new' walk', children.foldlM (fun walk child =>
        chart.walkWithin viterbiOnly width child walk) walk₁ = .ok walk' ∧
      chart.Visits viterbiOnly root walk done new' walk' ∧
      (∀ j ∈ walk₁.seen, j ∈ walk'.seen) ∧ ∀ child ∈ children, child ∈ walk'.seen := by
  induction children generalizing new walk₁ with
  | nil => exact ⟨new, walk₁, rfl, h, fun _ hj => hj, nofun⟩
  | cons child children ih =>
    obtain ⟨hchild, hchildren⟩ := List.forall_mem_cons.mp hreach
    obtain ⟨hsweep, hsweeps⟩ := List.forall_mem_cons.mp hsweeps
    obtain ⟨below, walk₂, hwalk, hvisits, hseen⟩ := hsweep walk₁
    obtain ⟨new', walk', hrest, hvisits', hmarked, hall⟩ :=
      ih (h.trans hvisits hchild) hchildren hsweeps
    refine ⟨new', walk', foldlM_cons_eq_ok.mpr ⟨walk₂, hwalk, hrest⟩, hvisits',
      fun j hj => hmarked j (hvisits.marked j hj), ?_⟩
    exact List.forall_mem_cons.mpr ⟨hmarked child hseen, hall⟩

theorem walk_steps (steps : List (Step S)) (h : chart.Visits viterbiOnly root walk done new walk₁)
    (hroot : root ∈ walk.seen) (hnodup : (done ++ steps).Nodup)
    (hsteps : ∀ step ∈ steps, step ∈ chart.stepsAt viterbiOnly root)
    (hsweeps : ∀ step ∈ steps, ∀ child ∈ step.children, chart.Sweeps viterbiOnly width child) :
    ∃ new' walk', steps.foldlM (fun walk step => do
        let walk ← step.children.foldlM (fun walk child =>
          chart.walkWithin viterbiOnly width child walk) walk
        .ok { walk with visited := step :: walk.visited }) walk₁ = .ok walk' ∧
      chart.Visits viterbiOnly root walk (done ++ steps) new' walk' := by
  induction steps generalizing done new walk₁ with
  | nil => exact ⟨new, walk₁, rfl, by rwa [List.append_nil]⟩
  | cons step steps ih =>
    obtain ⟨hstep, hsteps⟩ := List.forall_mem_cons.mp hsteps
    obtain ⟨hsweep, hsweeps⟩ := List.forall_mem_cons.mp hsweeps
    have hdone : step ∉ done := fun hmem =>
      (List.nodup_append.mp hnodup).2.2 step hmem step (.head _) rfl
    obtain ⟨below, walk₂, hwalk, hvisits, _, hchildren⟩ :=
      h.walk_children (fun child hchild => .of_child hstep hchild) hsweep
    rw [List.append_cons] at hnodup ⊢
    obtain ⟨new', walk', hrest, hvisits'⟩ :=
      ih (hvisits.push hroot hdone hchildren) hnodup hsteps hsweeps
    refine ⟨new', walk', foldlM_cons_eq_ok.mpr ⟨_, ?_, hrest⟩, hvisits'⟩
    exact bind_eq_ok.mpr ⟨walk₂, hwalk, rfl⟩

end Visits

theorem Linked.sweeps (h : chart.Linked) (hnodup : ∀ id, (chart.stepsAt viterbiOnly id).Nodup)
    (hc : chart.cell id = .ok c) : chart.Sweeps viterbiOnly id.length id := by
  refine h.descend (P := chart.Sweeps viterbiOnly) (fun width id c hc ih walk => ?_) hc le_rfl
  unfold walkWithin
  split_ifs with hseen
  · exact ⟨[], walk, rfl, .refl id walk, hseen⟩
  · have hfollowed : chart.stepsAt viterbiOnly id = followed viterbiOnly c := stepsAt_eq hc
    have hdistinct : ([] ++ followed viterbiOnly c).Nodup := hfollowed ▸ hnodup id
    have hbelow : ∀ step ∈ followed viterbiOnly c, ∀ child ∈ step.children,
        chart.Sweeps viterbiOnly width child := by
      intro step hstep child hchild
      obtain ⟨p, hp, rfl⟩ := mem_followed viterbiOnly hstep
      exact ih p hp child hchild
    obtain ⟨new, walk', hwalk, hvisits⟩ :=
      (Visits.refl id { walk with seen := walk.seen.insert id }).walk_steps (followed viterbiOnly c)
        Std.HashSet.mem_insert_self hdistinct (fun step hstep => hfollowed ▸ hstep) hbelow
    rw [List.nil_append, ← hfollowed] at hvisits
    refine ⟨new, walk', bind_eq_ok.mpr ⟨c, hc, hwalk⟩, hvisits.close h hseen, ?_⟩
    exact hvisits.marked id Std.HashSet.mem_insert_self

/-- The steps of all cells below a cell, each listed once and after the steps of the cells that it
builds on. -/
structure Listing (chart : Chart S) (viterbiOnly : Bool) (id : CellId)
    (listing : List (CellId × Step S)) : Prop where
  nodup : listing.Nodup
  mem_iff : ∀ j step, (j, step) ∈ listing ↔
    chart.Reaches viterbiOnly id j ∧ step ∈ chart.stepsAt viterbiOnly j
  children_first : ∀ before x after, listing = before ++ x :: after →
    ∀ child ∈ x.2.children, ∀ step ∈ chart.stepsAt viterbiOnly child, (child, step) ∈ before

/-- What is visited from the beginning of a walk on, in the order of the walk. -/
theorem Visits.listing {new : List (CellId × Step S)} {walk' : Walk S}
    (h : chart.Visits viterbiOnly id ⟨∅, []⟩ [] new walk') (hid : id ∈ walk'.seen) :
    chart.Listing viterbiOnly id new.reverse := by
  have hchildren : ∀ before x after, new.reverse = before ++ x :: after →
      ∀ child ∈ x.2.children, ∀ step ∈ chart.stepsAt viterbiOnly child,
        (child, step) ∈ before := by
    intro before x after hsplit child hchild step hstep
    have hnew : new = after.reverse ++ x :: before.reverse := by
      rw [← List.reverse_reverse new, hsplit]
      simp
    have hsettled := (hnew ▸ h.settled).of_append child hchild
    exact List.mem_reverse.mp (hsettled.resolve_left Std.HashSet.not_mem_empty step hstep)
  refine ⟨List.nodup_reverse.mpr h.nodup, fun j step => ?_, hchildren⟩
  constructor
  · intro hmem
    obtain ⟨-, hdone⟩ | ⟨hj, hnot, hstep⟩ := (h.mem_iff j step).mp (List.mem_reverse.mp hmem)
    · exact absurd hdone List.not_mem_nil
    · exact ⟨h.reach j hj hnot, hstep⟩
  · rintro ⟨hreach, hstep⟩
    induction hreach generalizing step with
    | refl =>
      have hcomplete := (h.complete hid).resolve_left Std.HashSet.not_mem_empty
      exact List.mem_reverse.mpr (hcomplete step hstep)
    | tail _ hedge ih =>
      obtain ⟨above, habove, hchild⟩ := hedge
      obtain ⟨before, after, hsplit⟩ := List.append_of_mem (ih above habove)
      rw [hsplit]
      exact List.mem_append_left _ (hchildren before _ after hsplit _ hchild step hstep)

/-- A walk lists all steps below the cell where it begins. -/
theorem Linked.exists_listing (h : chart.Linked)
    (hnodup : ∀ id, (chart.stepsAt viterbiOnly id).Nodup)
    (hc : chart.cell id = .ok c) :
    ∃ listing, (Derivation.mk chart id c).steps viterbiOnly = .ok (listing.map Prod.snd) ∧
      chart.Listing viterbiOnly id listing := by
  obtain ⟨new, walk, hwalk, hvisits, hid⟩ := h.sweeps hnodup hc ⟨∅, []⟩
  refine ⟨new.reverse, bind_eq_ok.mpr ⟨walk, hwalk, ?_⟩, hvisits.listing hid⟩
  rw [hvisits.visited, List.append_nil, List.map_reverse]

end Chart

end Categorial
