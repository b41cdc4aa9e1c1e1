import Mathlib.Data.List.Perm.Basic
import Mathlib.Tactic.Order
import Categorial.Chart.Cell
import Categorial.Proofs.Scalar.Ordered

/-! # Packing steps into cells

A cell is determined by its set of steps, up to their order: the counts and scores that it carries
do not depend on the order in which the steps were merged. Merging unites the step sets, and in
exact arithmetic it never lowers the prune key.
-/

namespace Categorial

theorem addCounts_right_comm (a b c : Nat) :
    addCounts (addCounts a b) c = addCounts (addCounts a c) b := by
  unfold addCounts
  omega

theorem addCounts_comm (a b : Nat) : addCounts a b = addCounts b a := by
  unfold addCounts
  omega

namespace Tally

variable {S : Type} [OrderedScalar S]

theorem add_eq (t : Tally S) (p : PackedStep S) :
    t.add p =
      if p.viterbi = t.viterbi then
        ⟨t.viterbi, addCounts t.numParses p.children.numParses,
          addCounts t.numViterbiParses p.children.numViterbiParses, t.numViterbiSteps + 1⟩
      else if t.viterbi < p.viterbi then
        ⟨p.viterbi, addCounts t.numParses p.children.numParses, p.children.numViterbiParses, 1⟩
      else { t with numParses := addCounts t.numParses p.children.numParses } := by
  simp only [add, OrderedScalar.beq_iff, OrderedScalar.blt_iff]

theorem viterbi_add (t : Tally S) (p : PackedStep S) :
    (t.add p).viterbi = max t.viterbi p.viterbi := by
  rw [add_eq]
  split_ifs with heq hlt
  · simp [heq]
  · exact (max_eq_right hlt.le).symm
  · exact (max_eq_left (not_lt.mp hlt)).symm

theorem add_right_comm (t : Tally S) (p q : PackedStep S) :
    (t.add p).add q = (t.add q).add p := by
  have hn := addCounts_right_comm t.numParses p.children.numParses q.children.numParses
  have hv := addCounts_right_comm t.numViterbiParses p.children.numViterbiParses
    q.children.numViterbiParses
  have hc := addCounts_comm p.children.numViterbiParses q.children.numViterbiParses
  simp only [add_eq]
  rcases lt_trichotomy p.viterbi t.viterbi with hp | hp | hp <;>
    rcases lt_trichotomy q.viterbi t.viterbi with hq | hq | hq <;>
    rcases lt_trichotomy p.viterbi q.viterbi with hpq | hpq | hpq <;>
    grind

theorem ofSteps_perm {xs ys : List (PackedStep S)} (h : xs.Perm ys) : ofSteps xs = ofSteps ys :=
  have : RightCommutative (add : Tally S → PackedStep S → Tally S) := ⟨add_right_comm⟩
  h.foldl_eq empty

theorem viterbi_le_foldl_add (t : Tally S) (ps : List (PackedStep S)) :
    t.viterbi ≤ (ps.foldl add t).viterbi := by
  induction ps generalizing t with
  | nil => exact le_rfl
  | cons p ps ih => exact (viterbi_add t p ▸ le_max_left ..).trans (ih (t.add p))

end Tally

/-- Equal steps carry equal scores. -/
def Coherent {S : Type} (steps : List (PackedStep S)) : Prop :=
  ∀ p ∈ steps, ∀ q ∈ steps, p.step.making = q.step.making → p = q

theorem Coherent.mono {S : Type} {steps more : List (PackedStep S)} (h : Coherent more)
    (hsub : ∀ p ∈ steps, p ∈ more) : Coherent steps :=
  fun p hp q hq => h p (hsub p hp) q (hsub q hq)

namespace Cell

section Packed

variable {S : Type}

theorem containsStep_iff (cell : Cell S) (m : Making) :
    cell.containsStep m = true ↔ m ∈ cell.steps.map (·.step.making) := by
  simp only [containsStep, List.any_eq_true, beq_iff_eq, List.mem_map]

theorem hasLexicalStep_iff (cell : Cell S) :
    cell.hasLexicalStep = true ↔ ∃ p ∈ cell.steps, p.step.isLexical = true := by
  simp [hasLexicalStep]

variable [Scalar S]

/-- A cell as it is built from steps: each step is there once, has the category and span of the
cell, and is counted in its scores. -/
structure Packed (cell : Cell S) : Prop where
  nodup : (cell.steps.map (·.step.making)).Nodup
  root : ∀ p ∈ cell.steps, p.step.root = cell.category
  span : ∀ p ∈ cell.steps, p.step.span = cell.span
  flag : ∃ p ∈ cell.steps, cell.isFullParse = p.step.isFullParse
  tally_eq : cell.tally = .ofSteps cell.steps
  logInside_eq : cell.logInside = sumInside cell.steps

theorem Packed.steps_nodup {cell : Cell S} (h : cell.Packed) : cell.steps.Nodup :=
  h.nodup.of_map

theorem packed_new (step : Step S) (children : ChildScores S) : (new step children).Packed where
  nodup := by simp [new]
  root := by simp [new]
  span := by simp [new]
  flag := ⟨⟨step, children⟩, by simp [new], rfl⟩
  tally_eq := rfl
  logInside_eq := rfl

structure Single (cell : Cell S) (p : PackedStep S) : Prop where
  packed : cell.Packed
  steps : cell.steps = [p]

section Single

variable {cell : Cell S} {p : PackedStep S} (h : cell.Single p)

include h

theorem Single.mem : p ∈ cell.steps := by
  rw [h.steps]
  exact .head _

theorem Single.category : cell.category = p.step.root :=
  (h.packed.root p h.mem).symm

theorem Single.span_eq : cell.span = p.step.span :=
  (h.packed.span p h.mem).symm

theorem Single.hasLexicalStep : cell.hasLexicalStep = p.step.isLexical := by
  simp [Cell.hasLexicalStep, h.steps]

end Single

/-- What stays and what is added when steps are added one after the other. -/
structure Extends (cell more : Cell S) : Prop where
  category : more.category = cell.category
  span : more.span = cell.span
  isFullParse : more.isFullParse = cell.isFullParse
  logInside : more.logInside = cell.logInside
  logOutside : more.logOutside = cell.logOutside
  steps : ∃ added, more.steps = cell.steps ++ added ∧ more.tally = added.foldl .add cell.tally
  nodup : (cell.steps.map (·.step.making)).Nodup → (more.steps.map (·.step.making)).Nodup

theorem Extends.refl (cell : Cell S) : cell.Extends cell :=
  ⟨rfl, rfl, rfl, rfl, rfl, ⟨[], by simp⟩, id⟩

theorem Extends.trans {a b c : Cell S} (hab : a.Extends b) (hbc : b.Extends c) : a.Extends c where
  category := hbc.category.trans hab.category
  span := hbc.span.trans hab.span
  isFullParse := hbc.isFullParse.trans hab.isFullParse
  logInside := hbc.logInside.trans hab.logInside
  logOutside := hbc.logOutside.trans hab.logOutside
  steps := by
    obtain ⟨xs, hxs, htx⟩ := hab.steps
    obtain ⟨ys, hys, hty⟩ := hbc.steps
    exact ⟨xs ++ ys, by rw [hys, hxs, List.append_assoc], by rw [hty, htx, List.foldl_append]⟩
  nodup := hbc.nodup ∘ hab.nodup

theorem extends_addStep (cell : Cell S) (p : PackedStep S) : cell.Extends (cell.addStep p).1 := by
  unfold addStep
  split_ifs with h
  · exact .refl cell
  · refine ⟨rfl, rfl, rfl, rfl, rfl, ⟨[p], rfl, rfl⟩, fun hn => ?_⟩
    rw [containsStep_iff] at h
    simpa [List.nodup_append, hn] using h

theorem extends_addSteps (cell : Cell S) (ps : List (PackedStep S)) :
    cell.Extends (cell.addSteps ps).1 := by
  induction ps generalizing cell with
  | nil => exact .refl cell
  | cons p ps ih => exact (cell.extends_addStep p).trans (ih _)

theorem mem_of_mem_addStep {cell : Cell S} {p q : PackedStep S}
    (h : q ∈ (cell.addStep p).1.steps) : q ∈ cell.steps ∨ q = p := by
  unfold addStep at h
  split_ifs at h
  · exact .inl h
  · simpa using h

theorem mem_of_mem_addSteps {cell : Cell S} {ps : List (PackedStep S)} {q : PackedStep S}
    (h : q ∈ (cell.addSteps ps).1.steps) : q ∈ cell.steps ∨ q ∈ ps := by
  induction ps generalizing cell with
  | nil => exact .inl h
  | cons p ps ih =>
    rcases ih h with h | h
    · rcases mem_of_mem_addStep h with h | rfl
      · exact .inl h
      · exact .inr (.head _)
    · exact .inr (.tail _ h)

theorem mem_addStep_iff {cell : Cell S} {p : PackedStep S} (hco : Coherent (p :: cell.steps))
    (q : PackedStep S) : q ∈ (cell.addStep p).1.steps ↔ q ∈ cell.steps ∨ q = p := by
  unfold addStep
  split_ifs with h
  · rw [containsStep_iff, List.mem_map] at h
    obtain ⟨r, hr, he⟩ := h
    -- the step that is there already is the new one
    have hrp : r = p := hco r (.tail _ hr) p (.head _) he
    exact ⟨.inl, fun hq => hq.elim id fun hq => hq ▸ hrp ▸ hr⟩
  · simp

theorem mem_addSteps_iff {cell : Cell S} {ps : List (PackedStep S)}
    (hco : Coherent (cell.steps ++ ps)) (q : PackedStep S) :
    q ∈ (cell.addSteps ps).1.steps ↔ q ∈ cell.steps ∨ q ∈ ps := by
  induction ps generalizing cell with
  | nil => simp [addSteps]
  | cons p ps ih =>
    have hhead : Coherent (p :: cell.steps) := hco.mono fun r hr => by
      rcases List.mem_cons.mp hr with rfl | hr
      · simp
      · simp [hr]
    have hp := mem_addStep_iff hhead
    have hrest : Coherent ((cell.addStep p).1.steps ++ ps) := by
      refine hco.mono fun r hr => ?_
      rcases List.mem_append.mp hr with hr | hr
      · rcases (hp r).mp hr with hr | rfl <;> simp_all
      · simp [hr]
    rw [addSteps, ih hrest, hp, List.mem_cons, or_assoc]

theorem addSteps_eq_self {c : Cell S} {ps : List (PackedStep S)}
    (h : (c.addSteps ps).1.numSteps = c.numSteps) : (c.addSteps ps).1 = c := by
  obtain ⟨hcategory, hspan, hflag, hinside, houtside, ⟨added, hsteps, htally⟩, _⟩ :=
    c.extends_addSteps ps
  obtain rfl : added = [] := by simpa [numSteps, hsteps] using h
  rw [List.append_nil] at hsteps
  rw [List.foldl_nil] at htally
  generalize (c.addSteps ps).1 = more at *
  cases more
  cases c
  simp_all

variable {c d m : Cell S} {changed : Bool}

theorem exists_merge (hspan : d.span = c.span) (hcat : d.category = c.category) :
    ∃ merged, c.merge d = .ok merged := by
  unfold merge
  rw [if_pos ⟨hspan, hcat⟩]
  dsimp only
  split_ifs
  · exact ⟨_, rfl⟩
  · exact ⟨_, rfl⟩

/-- A merged cell is what adding the steps makes of it but for the mass, which is summed afresh if
some step is new. -/
theorem merge_eq_ok (h : c.merge d = .ok (m, changed)) :
    d.span = c.span ∧ d.category = c.category ∧ changed = (c.addSteps d.steps).2 ∧
      (m = c ∨ m.logInside = sumInside m.steps) ∧
      ∃ mass, m = { (c.addSteps d.steps).1 with logInside := mass } := by
  unfold merge at h
  split_ifs at h with hsame
  dsimp only at h
  split_ifs at h with hnum
  · obtain ⟨rfl, rfl⟩ := Prod.mk.inj (Except.ok.inj h)
    refine ⟨hsame.1, hsame.2, rfl, .inl rfl, c.logInside, ?_⟩
    rw [addSteps_eq_self hnum]
  · obtain ⟨rfl, rfl⟩ := Prod.mk.inj (Except.ok.inj h)
    exact ⟨hsame.1, hsame.2, rfl, .inr rfl, _, rfl⟩

/-- What merging does without any law of arithmetic. -/
structure Merges (c d m : Cell S) : Prop where
  category : m.category = c.category
  span : m.span = c.span
  logOutside : m.logOutside = c.logOutside
  other_category : d.category = c.category
  mem_steps : ∀ p ∈ m.steps, p ∈ c.steps ∨ p ∈ d.steps
  packed : c.Packed → d.Packed → m.Packed

theorem merges_of_merge (h : c.merge d = .ok (m, changed)) : c.Merges d m := by
  obtain ⟨hspan, hcategory, _, hinside, mass, hm⟩ := merge_eq_ok h
  have hext := c.extends_addSteps d.steps
  obtain ⟨added, hsteps, htally⟩ := hext.steps
  have hcat : m.category = c.category := by rw [hm, ← hext.category]
  have hspn : m.span = c.span := by rw [hm, ← hext.span]
  have hmem : ∀ p ∈ m.steps, p ∈ c.steps ∨ p ∈ d.steps := by
    intro p hp
    rw [hm] at hp
    exact mem_of_mem_addSteps hp
  refine ⟨hcat, hspn, by rw [hm, ← hext.logOutside], hcategory, hmem, fun hc hd => ?_⟩
  constructor
  · rw [hm]
    exact hext.nodup hc.nodup
  · intro p hp
    rw [hcat]
    rcases hmem p hp with hp | hp
    · exact hc.root p hp
    · exact (hd.root p hp).trans hcategory
  · intro p hp
    rw [hspn]
    rcases hmem p hp with hp | hp
    · exact hc.span p hp
    · exact (hd.span p hp).trans hspan
  · obtain ⟨p, hp, hflag⟩ := hc.flag
    rw [hm]
    exact ⟨p, hsteps ▸ List.mem_append_left _ hp, hext.isFullParse.trans hflag⟩
  · rw [hm]
    show (c.addSteps d.steps).1.tally = .ofSteps (c.addSteps d.steps).1.steps
    rw [htally, hsteps, hc.tally_eq, Tally.ofSteps, Tally.ofSteps, List.foldl_append]
  · rcases hinside with rfl | hinside
    · exact hc.logInside_eq
    · exact hinside

end Packed

theorem viterbi_new {S : Type} [OrderedScalar S] (step : Step S) (children : ChildScores S) :
    (new step children).viterbi = max Scalar.negInf (step.localScore + children.viterbi) :=
  Tally.viterbi_add .empty ⟨step, children⟩

theorem Single.viterbi_eq {S : Type} [OrderedScalar S] {cell : Cell S} {p : PackedStep S}
    (h : cell.Single p) : cell.viterbi = max Scalar.negInf p.viterbi := by
  rw [viterbi, h.packed.tally_eq, h.steps]
  exact Tally.viterbi_add .empty p

theorem sumInside_perm {S : Type} [OrderedScalar S] {xs ys : List (PackedStep S)}
    (h : xs.Perm ys) : sumInside xs = sumInside ys :=
  LogSpace.sumSorted_perm (h.map _)

section Merge

variable {S : Type} [ExactScalar S]

theorem sumInside_le_append (xs ys : List (PackedStep S)) :
    sumInside xs ≤ sumInside (xs ++ ys) := by
  rw [sumInside_perm List.perm_append_comm]
  induction ys with
  | nil => exact le_rfl
  | cons y ys ih => exact ih.trans (ExactScalar.sumSorted_le_cons _ _)

theorem Packed.pruneKey_le {c d : Cell S} (hc : c.Packed) (hd : d.Packed) {added}
    (h : d.steps = c.steps ++ added) : c.pruneKey ≤ d.pruneKey := by
  apply PruneKey.le_of_parts
  · show c.tally.viterbi ≤ d.tally.viterbi
    rw [hc.tally_eq, hd.tally_eq, h, Tally.ofSteps, Tally.ofSteps, List.foldl_append]
    exact Tally.viterbi_le_foldl_add _ _
  · show c.logInside ≤ d.logInside
    rw [hc.logInside_eq, hd.logInside_eq, h]
    exact sumInside_le_append _ _

/-- A cell that holds the steps of two cells of one category and span, and no others. -/
structure Joins (c d m : Cell S) : Prop where
  packed : m.Packed
  category : m.category = c.category
  span : m.span = c.span
  mem_steps : ∀ p, p ∈ m.steps ↔ p ∈ c.steps ∨ p ∈ d.steps
  key_le : c.pruneKey ≤ m.pruneKey

/-- Cells of one category and span can be merged, and no step is lost or doubled. -/
theorem merge_joins {c d : Cell S} (hc : c.Packed) (hd : d.Packed) (hs : d.span = c.span)
    (hcat : d.category = c.category) (hco : Coherent (c.steps ++ d.steps)) :
    ∃ m changed, c.merge d = .ok (m, changed) ∧ c.Joins d m := by
  obtain ⟨⟨m, changed⟩, hmerge⟩ := exists_merge hs hcat
  have hmerges := merges_of_merge hmerge
  have hpacked := hmerges.packed hc hd
  obtain ⟨_, _, _, _, mass, hm⟩ := merge_eq_ok hmerge
  have hsteps : m.steps = (c.addSteps d.steps).1.steps := by rw [hm]
  obtain ⟨added, hadded, _⟩ := (c.extends_addSteps d.steps).steps
  refine ⟨m, changed, hmerge, hpacked, hmerges.category, hmerges.span, fun p => ?_,
    hc.pruneKey_le hpacked (hsteps.trans hadded)⟩
  rw [hsteps]
  exact mem_addSteps_iff hco p

theorem Joins.hasLexicalStep {c d m : Cell S} (h : c.Joins d m) :
    m.hasLexicalStep = (c.hasLexicalStep || d.hasLexicalStep) := by
  rw [Bool.eq_iff_iff, Bool.or_eq_true]
  simp only [hasLexicalStep_iff, h.mem_steps, or_and_right, exists_or]

end Merge

end Cell

end Categorial
