import Categorial.Proofs.Chart.Keyed
import Categorial.Proofs.Chart.Names
import Categorial.Proofs.Chart.Selection
import Categorial.Proofs.Chart.Sparing
import Categorial.Proofs.Chart.Tallies

/-! # Merging as a join

Cells come about from single steps and by merging. Where equal steps carry equal scores, the steps
alone decide what a cell counts: neither the order of merging nor the grouping can be told from it.
-/

namespace Categorial

variable {S : Type}

/-- What the scores of a cell depend on in a step. -/
def PackedStep.bare (p : PackedStep S) : PackedStep S :=
  { p with step := { p.step with isFullParse := false, features := .empty } }

def Agree (steps : List (PackedStep S)) : Prop :=
  ∀ p ∈ steps, ∀ q ∈ steps, p.step.making = q.step.making →
    p.step.localScore = q.step.localScore ∧ p.children = q.children

section Bare

variable {p q : PackedStep S} {xs ys : List (PackedStep S)}

theorem PackedStep.bare_eq_of (hmaking : p.step.making = q.step.making)
    (hscores : p.step.localScore = q.step.localScore ∧ p.children = q.children) :
    p.bare = q.bare := by
  simp [bare, hmaking, hscores.1, hscores.2]

theorem map_making_bare (xs : List (PackedStep S)) :
    (xs.map PackedStep.bare).map (·.step.making) = xs.map (·.step.making) :=
  List.map_map

theorem nodup_bare (h : (xs.map (·.step.making)).Nodup) : (xs.map PackedStep.bare).Nodup :=
  .of_map (·.step.making) ((map_making_bare xs).symm ▸ h)

theorem mem_bare_of_making {more : List (PackedStep S)} (hagree : Agree more)
    (hxs : ∀ p ∈ xs, p ∈ more) (hys : ∀ p ∈ ys, p ∈ more)
    (hsub : ∀ m ∈ xs.map (·.step.making), m ∈ ys.map (·.step.making)) :
    ∀ p ∈ xs.map PackedStep.bare, p ∈ ys.map PackedStep.bare := by
  intro bare hbare
  obtain ⟨p, hp, rfl⟩ := List.mem_map.mp hbare
  obtain ⟨q, hq, hmaking⟩ := List.mem_map.mp (hsub _ (List.mem_map.mpr ⟨p, hp, rfl⟩))
  have hscores := hagree q (hys q hq) p (hxs p hp) hmaking
  exact List.mem_map.mpr ⟨q, hq, PackedStep.bare_eq_of hmaking hscores⟩

/-- Up to their order, the bare steps are known by what makes them. -/
theorem perm_bare {more : List (PackedStep S)} (hagree : Agree more)
    (hxs : ∀ p ∈ xs, p ∈ more) (hys : ∀ p ∈ ys, p ∈ more)
    (hxn : (xs.map (·.step.making)).Nodup) (hyn : (ys.map (·.step.making)).Nodup)
    (hsame : ∀ m, m ∈ xs.map (·.step.making) ↔ m ∈ ys.map (·.step.making)) :
    (xs.map PackedStep.bare).Perm (ys.map PackedStep.bare) :=
  (List.perm_ext_iff_of_nodup (nodup_bare hxn) (nodup_bare hyn)).mpr fun p =>
    ⟨mem_bare_of_making hagree hxs hys (fun m => (hsame m).mp) p,
      mem_bare_of_making hagree hys hxs (fun m => (hsame m).mpr) p⟩

variable [Scalar S]

theorem Tally.ofSteps_bare (steps : List (PackedStep S)) :
    ofSteps (steps.map PackedStep.bare) = ofSteps steps := by
  rw [ofSteps, List.foldl_map]
  rfl

theorem Cell.sumInside_bare (steps : List (PackedStep S)) :
    sumInside (steps.map PackedStep.bare) = sumInside steps := by
  rw [sumInside, List.map_map]
  rfl

end Bare

namespace Cell

/-- Cells as they come about, with the steps that went in, in the order in which they did. -/
inductive Merging [Scalar S] : List (PackedStep S) → Cell S → Prop
  | new (step : Step S) (children : ChildScores S) : Merging [⟨step, children⟩] (.new step children)
  | merge {xs ys : List (PackedStep S)} {c d m : Cell S} {changed : Bool} :
      Merging xs c → Merging ys d → c.merge d = .ok (m, changed) → Merging (xs ++ ys) m

section Steps

variable [Scalar S] {xs : List (PackedStep S)} {c : Cell S}

theorem Merging.packed (h : Merging xs c) : c.Packed := by
  induction h with
  | new step children => exact packed_new step children
  | merge _ _ hmerge hc hd => exact (merges_of_merge hmerge).packed hc hd

theorem Merging.mem_of_mem_steps (h : Merging xs c) : ∀ p ∈ c.steps, p ∈ xs := by
  induction h with
  | new step children => exact fun p hp => hp
  | merge _ _ hmerge hc hd =>
    intro p hp
    rcases (merges_of_merge hmerge).mem_steps p hp with hp | hp
    · exact List.mem_append_left _ (hc p hp)
    · exact List.mem_append_right _ (hd p hp)

theorem Merging.containsStep_of_mem (h : Merging xs c) :
    ∀ p ∈ xs, c.containsStep p.step.making = true := by
  induction h with
  | new step children => simp [containsStep, Cell.new]
  | merge _ _ hmerge hc hd =>
    obtain ⟨hleft, hright⟩ := within_of_merge hmerge
    intro p hp
    rcases List.mem_append.mp hp with hp | hp
    · exact hleft.steps _ (hc p hp)
    · exact hright.steps _ (hd p hp)

theorem Merging.containsStep_iff (h : Merging xs c) (m : Making) :
    c.containsStep m = true ↔ m ∈ xs.map (·.step.making) := by
  constructor
  · intro hm
    obtain ⟨p, hp, rfl⟩ := List.mem_map.mp ((c.containsStep_iff m).mp hm)
    exact List.mem_map.mpr ⟨p, h.mem_of_mem_steps p hp, rfl⟩
  · intro hm
    obtain ⟨p, hp, rfl⟩ := List.mem_map.mp hm
    exact h.containsStep_of_mem p hp

theorem addSteps_of_contained {ps : List (PackedStep S)}
    (h : ∀ p ∈ ps, c.containsStep p.step.making = true) : c.addSteps ps = (c, false) := by
  induction ps with
  | nil => rfl
  | cons p ps ih =>
    have hp : c.addStep p = (c, false) := if_pos (h p (.head _))
    rw [addSteps, hp]
    simp [ih fun q hq => h q (.tail _ hq)]

theorem merge_of_contained {d : Cell S} (hspan : d.span = c.span)
    (hcategory : d.category = c.category)
    (h : ∀ p ∈ d.steps, c.containsStep p.step.making = true) : c.merge d = .ok (c, false) := by
  rw [merge, if_pos ⟨hspan, hcategory⟩]
  simp [addSteps_of_contained h]

end Steps

section Scores

variable [OrderedScalar S] {xs ys : List (PackedStep S)} {c d m : Cell S} {changed : Bool}

/-- The steps that are added to a cell are new to it, and they tell whether the best score was
reached. -/
structure Added (c more : Cell S) (reached : Bool) (added : List (PackedStep S)) : Prop where
  steps : more.steps = c.steps ++ added
  tally : more.tally = added.foldl .add c.tally
  fresh : ∀ p ∈ added, c.containsStep p.step.making = false
  reached_iff : reached = true ↔ ∃ p ∈ added, p.viterbi = more.viterbi

/-- A step that reaches the best score so far has the best score in the end, unless one of the rest
has. -/
theorem Added.cons {p : PackedStep S} {more : Cell S} {reached : Bool}
    {added : List (PackedStep S)} (hp : c.containsStep p.step.making = false)
    (h : Added { c with steps := c.steps ++ [p], tally := c.tally.add p } more reached added) :
    Added c more (c.tally.reached p || reached) (p :: added) := by
  have htally : more.tally = added.foldl .add (c.tally.add p) := h.tally
  constructor
  · rw [h.steps, List.append_assoc, List.singleton_append]
  · exact htally
  · intro q hq
    rcases List.mem_cons.mp hq with rfl | hq
    · exact hp
    · have hq := h.fresh q hq
      simp only [containsStep, List.any_append, Bool.or_eq_false_iff] at hq
      exact hq.1
  · rw [Bool.or_eq_true, h.reached_iff, List.exists_mem_cons_iff, Tally.reached_iff]
    have hmax := c.tally.viterbi_add p
    have hle : max c.tally.viterbi p.viterbi ≤ more.viterbi := by
      rw [← hmax, Cell.viterbi, htally]
      exact Tally.viterbi_le_foldl_add _ added
    constructor
    · rintro (hreached | hrest)
      · have hend := ((c.tally.add p).foldl_add_viterbi added).2
        rw [← htally, hmax, max_eq_right hreached] at hend
        exact hend.imp Eq.symm id
      · exact .inr hrest
    · rintro (hbest | hrest)
      · exact .inl (hbest ▸ (le_max_left ..).trans hle)
      · exact .inr hrest

theorem exists_added (c : Cell S) (ps : List (PackedStep S)) :
    ∃ added, Added c (c.addSteps ps).1 (c.addSteps ps).2 added := by
  induction ps generalizing c with
  | nil => exact ⟨[], by simp [addSteps], rfl, by simp, by simp [addSteps]⟩
  | cons p ps ih =>
    cases hp : c.containsStep p.step.making with
    | true =>
      have hsame : c.addStep p = (c, false) := if_pos hp
      simpa [addSteps, hsame] using ih c
    | false =>
      have hnew : c.addStep p =
          ({ c with steps := c.steps ++ [p], tally := c.tally.add p }, c.tally.reached p) := by
        simp [addStep, hp]
      obtain ⟨added, h⟩ := ih (c.addStep p).1
      rw [hnew] at h
      rw [addSteps, hnew]
      exact ⟨p :: added, h.cons hp⟩

theorem Added.reached_iff_mem {more : Cell S} {reached : Bool} {added : List (PackedStep S)}
    (h : Added c more reached added) : reached = true ↔
      ∃ p ∈ more.steps, c.containsStep p.step.making = false ∧ p.viterbi = more.viterbi := by
  rw [h.reached_iff, h.steps]
  constructor
  · rintro ⟨p, hp, hbest⟩
    exact ⟨p, List.mem_append_right _ hp, h.fresh p hp, hbest⟩
  · rintro ⟨p, hp, hfresh, hbest⟩
    rcases List.mem_append.mp hp with hp | hp
    · have hold := (c.containsStep_iff _).mpr (List.mem_map.mpr ⟨p, hp, rfl⟩)
      exact absurd hfresh (by simp [hold])
    · exact ⟨p, hp, hbest⟩

theorem changed_iff (h : c.merge d = .ok (m, changed)) :
    changed = true ↔
      ∃ p ∈ m.steps, c.containsStep p.step.making = false ∧ p.viterbi = m.viterbi := by
  obtain ⟨added, hadded⟩ := c.exists_added d.steps
  obtain ⟨_, _, rfl, _, mass, rfl⟩ := merge_eq_ok h
  exact hadded.reached_iff_mem

structure Totals (c : Cell S) : Prop where
  viterbi : IsGreatest {score | ∃ p ∈ c.steps, p.step.localScore + p.children.viterbi = score}
    c.viterbi
  numViterbiSteps : c.tally.numViterbiSteps = c.viterbiSteps.length
  numParses : c.numParses = min (c.steps.map (·.children.numParses)).sum countLimit
  numViterbiParses : c.numViterbiParses =
    min ((c.steps.filter c.isViterbi).map (·.children.numViterbiParses)).sum countLimit

theorem sum_isViterbi (c : Cell S) (n : PackedStep S → Nat) :
    (c.steps.map fun p => if p.viterbi = c.viterbi then n p else 0).sum =
      ((c.steps.filter c.isViterbi).map n).sum := by
  induction c.steps with
  | nil => rfl
  | cons p steps ih =>
    rw [List.map_cons, List.sum_cons, ih, List.filter_cons]
    simp only [isViterbi, OrderedScalar.beq_iff]
    split_ifs
    · simp
    · simp

def InRange (steps : List (PackedStep S)) : Prop :=
  ∀ p ∈ steps, p.children.numParses ≤ countLimit ∧ p.children.numViterbiParses ≤ countLimit

theorem Packed.totals (hbot : ∀ a : S, Scalar.negInf ≤ a) (hc : c.Packed)
    (hrange : InRange c.steps) : c.Totals := by
  have htally : c.tally = c.steps.foldl Tally.add .empty := hc.tally_eq
  have hbest : (c.steps.foldl Tally.add .empty).viterbi = c.viterbi :=
    (congrArg Tally.viterbi htally).symm
  obtain ⟨hle, hattained⟩ := viterbi_greatest hbot hc
  constructor
  · refine ⟨hattained, ?_⟩
    rintro _ ⟨p, hp, rfl⟩
    exact hle p hp
  · have hempty : (Tally.empty : Tally S).numViterbiSteps = 0 := rfl
    rw [htally, Tally.numViterbiSteps_foldl_add hbest, sum_isViterbi, viterbiSteps, hempty]
    simp
  · have hcounts : ∀ p ∈ c.steps, p.children.numParses = min p.children.numParses countLimit :=
      fun p hp => (min_eq_left (hrange p hp).1).symm
    rw [numParses, htally, Tally.numParses_foldl_add hcounts (k := 0) rfl, Nat.zero_add]
  · have hcounts : ∀ p ∈ c.steps,
        p.children.numViterbiParses = min p.children.numViterbiParses countLimit :=
      fun p hp => (min_eq_left (hrange p hp).2).symm
    rw [numViterbiParses, htally, Tally.numViterbiParses_foldl_add hcounts (k := 0) rfl hbest,
      ite_self, Nat.zero_add, sum_isViterbi]

/-- Two cells with the same scores and counts, the same rule names and the same prune key. -/
structure Ties (c d : Cell S) : Prop where
  tally : c.tally = d.tally
  logInside : c.logInside = d.logInside
  ruleNames : c.ruleNames = d.ruleNames
  pruneKey : c.pruneKey = d.pruneKey

theorem Packed.ties {more : List (PackedStep S)} (hagree : Agree more) (hc : c.Packed)
    (hd : d.Packed) (hcs : ∀ p ∈ c.steps, p ∈ more) (hds : ∀ p ∈ d.steps, p ∈ more)
    (hsame : ∀ m, c.containsStep m = d.containsStep m) : c.Ties d := by
  have hmakings : ∀ m, m ∈ c.steps.map (·.step.making) ↔ m ∈ d.steps.map (·.step.making) := by
    intro m
    rw [← c.containsStep_iff, ← d.containsStep_iff, hsame m]
  have hbare := perm_bare hagree hcs hds hc.nodup hd.nodup hmakings
  have htally : c.tally = d.tally := by
    rw [hc.tally_eq, hd.tally_eq, ← Tally.ofSteps_bare c.steps, ← Tally.ofSteps_bare d.steps,
      Tally.ofSteps_perm hbare]
  have hinside : c.logInside = d.logInside := by
    rw [hc.logInside_eq, hd.logInside_eq, ← sumInside_bare c.steps, ← sumInside_bare d.steps,
      sumInside_perm hbare]
  have hnames : c.ruleNames = d.ruleNames := by
    apply ruleNames_eq_of_mem
    intro name
    have hname (e : Cell S) : (∃ p ∈ e.steps, p.step.rule = name) ↔
        ∃ m ∈ e.steps.map (·.step.making), m.rule = name := by
      simp [Step.rule]
    simp only [hname, hmakings]
  have hkey : c.pruneKey = d.pruneKey := by
    rw [pruneKey, pruneKey, Cell.viterbi, Cell.viterbi, htally, hinside]
  exact ⟨htally, hinside, hnames, hkey⟩

/-- Merging is a join. Over any linear order in which `negInf` is the least score, a cell that came
about by merging has each of the steps that went in once and counts them: its best score is the
greatest of theirs, the number of best steps is that of the steps which reach it, and the counts of
trees are sums over the steps, up to the limit of counts. Where equal steps carry equal scores, all
ways to merge the same steps give cells that tie. Merging what is there already changes nothing, and
merging reports a change just if a step that is new reaches the best score in the end. -/
theorem merging_isJoin (hbot : ∀ a : S, Scalar.negInf ≤ a) (h : Merging xs c)
    (hrange : InRange xs) :
    ((c.steps.map (·.step.making)).Nodup ∧ (∀ p ∈ c.steps, p ∈ xs) ∧
      ∀ p ∈ xs, c.containsStep p.step.making = true) ∧
    c.Totals ∧
    (∀ ys d, Merging ys d → Agree (xs ++ ys) →
      (∀ m, m ∈ xs.map (·.step.making) ↔ m ∈ ys.map (·.step.making)) → c.Ties d) ∧
    ∀ d : Cell S, d.span = c.span → d.category = c.category →
      ((∀ p ∈ d.steps, c.containsStep p.step.making = true) → c.merge d = .ok (c, false)) ∧
      ∃ m changed, c.merge d = .ok (m, changed) ∧ (changed = true ↔
        ∃ p ∈ m.steps, c.containsStep p.step.making = false ∧ p.viterbi = m.viterbi) := by
  have hpacked := h.packed
  have hsub := h.mem_of_mem_steps
  refine ⟨⟨hpacked.nodup, hsub, h.containsStep_of_mem⟩,
    hpacked.totals hbot fun p hp => hrange p (hsub p hp), ?_, ?_⟩
  · intro ys d hd hagree hsame
    have hsame : ∀ m, c.containsStep m = d.containsStep m := fun m => by
      rw [Bool.eq_iff_iff, h.containsStep_iff, hd.containsStep_iff, hsame m]
    exact hpacked.ties hagree hd.packed (fun p hp => List.mem_append_left _ (hsub p hp))
      (fun p hp => List.mem_append_right _ (hd.mem_of_mem_steps p hp)) hsame
  · intro d hspan hcategory
    obtain ⟨⟨m, changed⟩, hmerge⟩ := exists_merge hspan hcategory
    exact ⟨merge_of_contained hspan hcategory, m, changed, hmerge, changed_iff hmerge⟩

end Scores

noncomputable def sense (span : Span) (origin : String) (score : ℝ) : PackedStep LogReal :=
  ⟨⟨⟨.entry ⟨["walk"], ⟨.atom "N", some (.const "walk")⟩, origin⟩, .lexical, span,
    ⟨.atom "N", some (.const "walk")⟩, none⟩, true, .empty, .ofReal score⟩, .leaf⟩

theorem merging_isJoin_senses :
    let span : Span := ⟨0, 0, 1, le_rfl, one_pos⟩
    InRange [sense span "path" 1, sense span "gait" 2] ∧ ∃ c d,
      Merging [sense span "path" 1, sense span "gait" 2] c ∧
      Merging [sense span "gait" 2, sense span "path" 1] d ∧ c.Totals ∧ c.Ties d := by
  intro span
  set path := sense span "path" 1 with hpath
  set gait := sense span "gait" 2 with hgait
  have hrange : InRange [path, gait] := by
    have hone : 1 ≤ countLimit := by decide
    simp [InRange, hpath, hgait, sense, ChildScores.leaf, hone]
  have hagree : Agree ([path, gait] ++ [gait, path]) := by
    simp [Agree, hpath, hgait, sense]
  obtain ⟨⟨c, changed⟩, hc⟩ := exists_merge (c := .new path.step path.children)
    (d := .new gait.step gait.children) rfl rfl
  obtain ⟨⟨d, changed'⟩, hd⟩ := exists_merge (c := .new gait.step gait.children)
    (d := .new path.step path.children) rfl rfl
  have hc := Merging.merge (.new path.step path.children) (.new gait.step gait.children) hc
  have hd := Merging.merge (.new gait.step gait.children) (.new path.step path.children) hd
  obtain ⟨_, htotals, hties, _⟩ := merging_isJoin LogReal.negInf_le hc hrange
  exact ⟨hrange, c, d, hc, hd, htotals, hties _ d hd hagree fun m => (List.Perm.swap ..).mem_iff⟩

end Cell

end Categorial
