import Categorial.Proofs.Forest.Expectations
import Categorial.Proofs.Forest.Unfoldings
import Categorial.Proofs.Forest.Visits
import Categorial.Proofs.Lexicon.Groups

/-! # What trees use

A walk knows nothing of trees. But where every cell that it comes to has a step to follow, each of
the steps grows into a tree: what it builds on has trees, and so does what lies beside the way to
it. So what the steps of a walk use is what the trees use.
-/

namespace Categorial

variable {S : Type}

namespace Unfolding

def steps (u : Unfolding S) : List (Step S) :=
  u.nodes.map Prod.snd

def scored [Scalar S] : Unfolding S → ScoredTree S
  | entry _ step => Chart.joinTrees step []
  | cells _ step left right => Chart.joinTrees step [left.scored, right.scored]

/-- A list has what some of the trees use, each thing once. -/
structure UsedIn {β : Type} (trees : Unfolding S → Prop) (use : Step S → Option β)
    (xs : List β) : Prop where
  nodup : xs.Nodup
  mem_iff : ∀ x, x ∈ xs ↔ ∃ u, trees u ∧ ∃ step ∈ u.steps, use step = some x

theorem UsedIn.distinct {β : Type} [DecidableEq β] {trees : Unfolding S → Prop}
    {steps : List (Step S)} (h : ∀ step, step ∈ steps ↔ ∃ u, trees u ∧ step ∈ u.steps)
    (use : Step S → Option β) : UsedIn trees use (distinct (steps.filterMap use)) := by
  refine ⟨nodup_distinct _, fun x => ?_⟩
  rw [mem_distinct, List.mem_filterMap]
  constructor
  · rintro ⟨step, hstep, huse⟩
    obtain ⟨u, hu, hmem⟩ := (h step).mp hstep
    exact ⟨u, hu, step, hmem, huse⟩
  · rintro ⟨u, hu, step, hmem, huse⟩
    exact ⟨step, (h step).mpr ⟨u, hu, hmem⟩, huse⟩

end Unfolding

namespace Chart

variable [Scalar S] {chart : Chart S} {viterbiOnly : Bool} {id j : CellId} {c : Cell S}
  {step : Step S} {u : Unfolding S}

/-- A cell packs a tree that takes, at every cell, one of the steps that a walk follows. -/
inductive Packs (chart : Chart S) (viterbiOnly : Bool) : CellId → Unfolding S → Prop where
  | entry {id : CellId} {step : Step S} {entry : LexicalEntry} :
      step ∈ chart.stepsAt viterbiOnly id → step.making.source = .entry entry →
      Packs chart viterbiOnly id (.entry id step)
  | cells {id left right : CellId} {step : Step S} {l r : Unfolding S} :
      step ∈ chart.stepsAt viterbiOnly id → step.making.source = .cells left right →
      Packs chart viterbiOnly left l → Packs chart viterbiOnly right r →
      Packs chart viterbiOnly id (.cells id step l r)

theorem packs_true_iff : chart.Packs true id u ↔ chart.Unfolds id u := by
  constructor
  · intro h
    induction h with
    | entry hstep hsource => exact .entry hstep hsource
    | cells hstep hsource _ _ ihl ihr => exact .cells hstep hsource ihl ihr
  · intro h
    induction h with
    | entry hstep hsource => exact .entry hstep hsource
    | cells hstep hsource _ _ ihl ihr => exact .cells hstep hsource ihl ihr

theorem mem_stepsAt_of_best (hstep : step ∈ chart.bestSteps id) :
    step ∈ chart.stepsAt false id := by
  obtain ⟨c, hc, hstep⟩ := mem_stepsAt_iff.mp (bestSteps_eq_stepsAt chart id ▸ hstep)
  exact mem_stepsAt_iff.mpr ⟨c, hc, List.mem_map.mpr (Linked.mem_followed true hstep)⟩

/-- A cell unfolds into the packed trees that take a best step everywhere. -/
theorem unfolds_iff : chart.Unfolds id u ↔
    chart.Packs false id u ∧ ∀ x ∈ u.nodes, x.2 ∈ chart.bestSteps x.1 := by
  constructor
  · intro h
    induction h with
    | entry hstep hsource =>
      exact ⟨.entry (mem_stepsAt_of_best hstep) hsource, List.forall_mem_singleton.mpr hstep⟩
    | cells hstep hsource _ _ ihl ihr =>
      refine ⟨.cells (mem_stepsAt_of_best hstep) hsource ihl.1 ihr.1, ?_⟩
      exact List.forall_mem_cons.mpr ⟨hstep, List.forall_mem_append.mpr ⟨ihl.2, ihr.2⟩⟩
  · rintro ⟨h, hbest⟩
    induction h with
    | entry _ hsource => exact .entry (hbest _ (.head _)) hsource
    | cells _ hsource _ _ ihl ihr =>
      obtain ⟨hstep, hbelow⟩ := List.forall_mem_cons.mp hbest
      obtain ⟨hl, hr⟩ := List.forall_mem_append.mp hbelow
      exact .cells hstep hsource (ihl hl) (ihr hr)

theorem Packs.scored_mem_treesOf (hu : chart.Packs false id u) (h : chart.Rooted) :
    u.scored ∈ chart.treesOf id := by
  induction hu with
  | entry hstep hsource =>
    obtain ⟨c, hc, hstep⟩ := mem_stepsAt_iff.mp hstep
    obtain ⟨p, hp, rfl⟩ := Linked.mem_followed false hstep
    exact h.entry_mem_treesOf hc hp hsource
  | cells hstep hsource _ _ ihl ihr =>
    obtain ⟨c, hc, hstep⟩ := mem_stepsAt_iff.mp hstep
    obtain ⟨p, hp, rfl⟩ := Linked.mem_followed false hstep
    exact h.cells_mem_treesOf hc hp hsource ihl ihr

theorem Rooted.exists_packs_of_mem (h : chart.Rooted) (hc : chart.cell id = .ok c)
    {t : ScoredTree S} (ht : t ∈ chart.treesOf id) :
    ∃ u, chart.Packs false id u ∧ u.scored = t := by
  have hstep : ∀ {id c p}, chart.cell id = .ok c → p ∈ c.steps →
      p.step ∈ chart.stepsAt false id :=
    fun hc hp => mem_stepsAt_iff.mpr ⟨_, hc, List.mem_map_of_mem hp⟩
  refine h.tree_induction (P := fun c t => ∀ id, chart.cell id = .ok c →
    ∃ u, chart.Packs false id u ∧ u.scored = t) ?_ ?_ hc t ht id hc
  · intro _ c p entry _ hp hsource _ id hc
    exact ⟨.entry id p.step, .entry (hstep hc hp) hsource, rfl⟩
  · intro _ c p left right l r tl tr _ hp hsource hl hr _ _ _ ihl ihr id hc
    obtain ⟨ul, hul, rfl⟩ := ihl left hl
    obtain ⟨ur, hur, rfl⟩ := ihr right hr
    exact ⟨.cells id p.step ul ur, .cells (hstep hc hp) hsource hul hur, rfl⟩

theorem Rooted.mem_treesOf_iff (h : chart.Rooted) (hc : chart.cell id = .ok c)
    (t : ScoredTree S) : t ∈ chart.treesOf id ↔ ∃ u, chart.Packs false id u ∧ u.scored = t := by
  constructor
  · exact h.exists_packs_of_mem hc
  · rintro ⟨u, hu, rfl⟩
    exact hu.scored_mem_treesOf h

theorem Packs.reaches (h : chart.Packs viterbiOnly id u) :
    ∀ x ∈ u.nodes, chart.Reaches viterbiOnly id x.1 ∧ x.2 ∈ chart.stepsAt viterbiOnly x.1 := by
  induction h with
  | entry hstep _ =>
    intro x hx
    obtain rfl := List.mem_singleton.mp hx
    exact ⟨.refl, hstep⟩
  | cells hstep hsource _ _ ihl ihr =>
    intro x hx
    rcases List.mem_cons.mp hx with rfl | hx
    · exact ⟨.refl, hstep⟩
    · rcases List.mem_append.mp hx with hx | hx
      · have hleft := Reaches.of_child hstep (Step.left_mem_children hsource)
        exact (ihl x hx).imp_left hleft.trans
      · have hright := Reaches.of_child hstep (Step.right_mem_children hsource)
        exact (ihr x hx).imp_left hright.trans

section Growing

variable (hstep : step ∈ chart.stepsAt viterbiOnly id)
  (hbelow : ∀ child ∈ step.children, ∃ u, chart.Packs viterbiOnly child u)

include hstep hbelow

theorem exists_packs_over : ∃ u, chart.Packs viterbiOnly id u ∧ (id, step) ∈ u.nodes := by
  cases hsource : step.making.source with
  | entry entry => exact ⟨.entry id step, .entry hstep hsource, .head _⟩
  | cells left right =>
    obtain ⟨l, hl⟩ := hbelow left (Step.left_mem_children hsource)
    obtain ⟨r, hr⟩ := hbelow right (Step.right_mem_children hsource)
    exact ⟨.cells id step l r, .cells hstep hsource hl hr, .head _⟩

/-- A tree of a cell that the step builds on is a part of some tree over the step. -/
theorem exists_packs_around {child : CellId} (hchild : child ∈ step.children)
    (hu : chart.Packs viterbiOnly child u) :
    ∃ v, chart.Packs viterbiOnly id v ∧ ∀ x ∈ u.nodes, x ∈ v.nodes := by
  cases hsource : step.making.source with
  | entry entry => simp [Step.children, hsource, Source.children] at hchild
  | cells left right =>
    obtain ⟨l, hl⟩ := hbelow left (Step.left_mem_children hsource)
    obtain ⟨r, hr⟩ := hbelow right (Step.right_mem_children hsource)
    rw [Step.children, hsource] at hchild
    rcases List.mem_pair.mp hchild with rfl | rfl
    · exact ⟨.cells id step u r, .cells hstep hsource hu hr,
        fun x hx => .tail _ (List.mem_append_left _ hx)⟩
    · exact ⟨.cells id step l u, .cells hstep hsource hl hu,
        fun x hx => .tail _ (List.mem_append_right _ hx)⟩

end Growing

namespace Linked

variable (h : chart.Linked)
  (hnonempty : ∀ j, chart.Reaches viterbiOnly id j → chart.stepsAt viterbiOnly j ≠ [])

include h hnonempty

theorem exists_packs : ∃ u, chart.Packs viterbiOnly id u := by
  induction hn : id.length using Nat.strong_induction_on generalizing id with
  | _ n ih =>
    obtain ⟨step, hstep⟩ := List.exists_mem_of_ne_nil _ (hnonempty id .refl)
    obtain ⟨u, hu, _⟩ := exists_packs_over hstep fun child hchild =>
      ih child.length (hn ▸ h.length_lt hstep hchild)
        (fun j hj => hnonempty j ((Reaches.of_child hstep hchild).trans hj)) rfl
    exact ⟨u, hu⟩

theorem exists_packs_below (hstep : step ∈ chart.stepsAt viterbiOnly id) :
    ∀ child ∈ step.children, ∃ u, chart.Packs viterbiOnly child u :=
  fun _ hchild => h.exists_packs fun j hj =>
    hnonempty j ((Reaches.of_child hstep hchild).trans hj)

theorem exists_packs_through (hreach : chart.Reaches viterbiOnly id j)
    (hstep : step ∈ chart.stepsAt viterbiOnly j) :
    ∃ u, chart.Packs viterbiOnly id u ∧ (j, step) ∈ u.nodes := by
  induction hreach using Relation.ReflTransGen.head_induction_on with
  | refl => exact exists_packs_over hstep (h.exists_packs_below hnonempty hstep)
  | head hedge _ ih =>
    -- On the way down, the tree below is kept and any tree is taken beside it.
    obtain ⟨above, habove, hchild⟩ := hedge
    obtain ⟨u, hu, hmem⟩ := ih fun j hj => hnonempty j ((Reaches.of_child habove hchild).trans hj)
    obtain ⟨v, hv, hall⟩ :=
      exists_packs_around habove (h.exists_packs_below hnonempty habove) hchild hu
    exact ⟨v, hv, hall _ hmem⟩

theorem mem_listing_iff {listing : List (CellId × Step S)}
    (hlisting : chart.Listing viterbiOnly id listing) (step : Step S) :
    step ∈ listing.map Prod.snd ↔ ∃ u, chart.Packs viterbiOnly id u ∧ step ∈ u.steps := by
  simp only [Unfolding.steps, List.mem_map, Prod.exists, exists_eq_right]
  constructor
  · rintro ⟨j, hmem⟩
    obtain ⟨hreach, hstep⟩ := (hlisting.mem_iff j step).mp hmem
    obtain ⟨u, hu, hnode⟩ := h.exists_packs_through hnonempty hreach hstep
    exact ⟨u, hu, j, hnode⟩
  · rintro ⟨u, hu, j, hnode⟩
    exact ⟨j, (hlisting.mem_iff j step).mpr (hu.reaches _ hnode)⟩

end Linked

theorem Rooted.stepsAt_ne_nil (h : chart.Rooted) (hc : chart.cell id = .ok c) :
    chart.stepsAt false id ≠ [] := by
  obtain ⟨p, hp, _⟩ := (h.packed hc).flag
  rw [stepsAt_eq hc]
  exact List.ne_nil_of_mem (List.mem_map.mpr ⟨p, hp, rfl⟩)

theorem Linked.exists_reached (h : chart.Linked) (hc : chart.cell id = .ok c)
    (hj : chart.Reaches viterbiOnly id j) : ∃ d, chart.cell j = .ok d := by
  induction hj with
  | refl => exact ⟨c, hc⟩
  | tail _ hedge _ =>
    obtain ⟨step, hstep, hchild⟩ := hedge
    obtain ⟨d, hd, hstep⟩ := mem_stepsAt_iff.mp hstep
    obtain ⟨p, hp, rfl⟩ := mem_followed viterbiOnly hstep
    exact h.exists_child hd p hp _ hchild

end Chart

namespace Context

open Chart Unfolding

variable [Scalar S] {ctx : Context S} {chart : Chart S} {id : CellId} {c : Cell S}

/-- A walk lists the steps of all cells that it reaches, each once and the steps of the cells that
it builds on before it. The entries of all steps are those that the packed trees use. If there are
best steps everywhere, the entries and the rules of the best steps are those of the packed trees
that take best steps only. -/
theorem walks_cover_trees (h : ctx.Builds chart) (hc : chart.cell id = .ok c) :
    (∃ listing, (Derivation.mk chart id c).allSteps = .ok (listing.map Prod.snd) ∧
      chart.Listing false id listing) ∧
    (∃ listing, (Derivation.mk chart id c).maxSteps = .ok (listing.map Prod.snd) ∧
      chart.Listing true id listing) ∧
    (∃ trees, (Derivation.mk chart id c).trees = .ok trees ∧
      ∀ t, t ∈ trees ↔ ∃ u, chart.Packs false id u ∧ u.scored = t) ∧
    (∃ entries, (Derivation.mk chart id c).allEntries = .ok entries ∧
      UsedIn (chart.Packs false id) Step.entry? entries) ∧
    ((∀ j, chart.Reaches true id j → chart.bestSteps j ≠ []) →
      (∃ entries, (Derivation.mk chart id c).maxEntries = .ok entries ∧
        UsedIn (fun u => chart.Packs false id u ∧ ∀ x ∈ u.nodes, x.2 ∈ chart.bestSteps x.1)
          Step.entry? entries) ∧
      ∃ rules, (Derivation.mk chart id c).maxRulesUsed = .ok rules ∧
        UsedIn (fun u => chart.Packs false id u ∧ ∀ x ∈ u.nodes, x.2 ∈ chart.bestSteps x.1)
          (fun step => some (RuleUsage.ofMaking step.making)) rules) := by
  have hrooted := BuildsWhere.rooted h
  have hlinked := hrooted.linked
  obtain ⟨all, hall, hlisting⟩ := hlinked.exists_listing (hrooted.nodup_stepsAt false) hc
  obtain ⟨best, hbest, hlisting'⟩ := hlinked.exists_listing (hrooted.nodup_stepsAt true) hc
  refine ⟨⟨all, hall, hlisting⟩, ⟨best, hbest, hlisting'⟩,
    ⟨chart.treesOf id, hrooted.trees_eq hc, hrooted.mem_treesOf_iff hc⟩, ?_, fun hnonempty => ?_⟩
  · have hnonempty : ∀ j, chart.Reaches false id j → chart.stepsAt false j ≠ [] := by
      intro j hj
      obtain ⟨d, hd⟩ := hlinked.exists_reached hc hj
      exact hrooted.stepsAt_ne_nil hd
    exact ⟨_, bind_eq_ok.mpr ⟨_, hall, rfl⟩,
      .distinct (hlinked.mem_listing_iff hnonempty hlisting) _⟩
  · simp only [← unfolds_iff, ← packs_true_iff]
    have hused := hlinked.mem_listing_iff hnonempty hlisting'
    refine ⟨⟨_, bind_eq_ok.mpr ⟨_, hbest, rfl⟩, .distinct hused _⟩,
      ⟨_, bind_eq_ok.mpr ⟨_, hbest, rfl⟩, ?_⟩⟩
    rw [← List.filterMap_eq_map]
    exact .distinct hused _

theorem walks_cover_trees_sheWalks : ∃ chart, sheWalks.Builds chart ∧
    ∃ x ∈ chart.fullParses, chart.cell x.1 = .ok x.2 ∧
      (∀ j, chart.Reaches true x.1 j → chart.bestSteps j ≠ []) ∧
      ∃ entries, (Derivation.mk chart x.1 x.2).maxEntries = .ok entries ∧
        UsedIn (fun u => chart.Packs false x.1 u ∧ ∀ y ∈ u.nodes, y.2 ∈ chart.bestSteps y.1)
          Step.entry? entries := by
  obtain ⟨chart, hbuilds, ⟨id, c⟩, _, hx, hc, _⟩ := exists_fullParse_sheWalks
  have hrooted := BuildsWhere.rooted hbuilds
  have hbest : ∀ j, chart.Reaches true id j → chart.bestSteps j ≠ [] := by
    intro j hj
    obtain ⟨d, hd⟩ := hrooted.linked.exists_reached hc hj
    rw [bestSteps_eq hd]
    exact Cell.viterbiSteps_ne_nil (hrooted.packed hd)
  obtain ⟨_, _, _, _, hmax⟩ := walks_cover_trees hbuilds hc
  obtain ⟨entries, hentries, hused⟩ := (hmax hbest).1
  exact ⟨chart, hbuilds, (id, c), hx, hc, hbest, entries, hentries, hused⟩

end Context

end Categorial
