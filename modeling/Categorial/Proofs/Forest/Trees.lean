import Categorial.Forest
import Categorial.Proofs.Parser.Grounding

/-! # The trees of a chart

In a chart that was built by parsing, steps lead from a cell to cells of shorter spans that the
chart has. So every walk down a chart ends, and the trees of a cell are those that its steps join
from the trees of its children.
-/

namespace Categorial

variable {S : Type}

namespace Step

variable {s : Step S} {left right : CellId}

theorem left_mem_children (h : s.making.source = .cells left right) : left ∈ s.children := by
  rw [children, h]
  exact .head _

theorem right_mem_children (h : s.making.source = .cells left right) : right ∈ s.children := by
  rw [children, h]
  exact .tail _ (.head _)

end Step

/-- The handles of all steps lead to cells of shorter spans. -/
structure Chart.Linked (chart : Chart S) : Prop where
  exists_child : ∀ {id c}, chart.cell id = .ok c → ∀ p ∈ c.steps, ∀ child ∈ p.step.children,
    ∃ d, chart.cell child = .ok d
  shorter : ∀ {id c}, chart.cell id = .ok c → ∀ p ∈ c.steps, ∀ child ∈ p.step.children,
    child.length < id.length

namespace Chart.Linked

variable {chart : Chart S} (h : chart.Linked)

include h

/-- What holds of a cell once it holds of all cells below, at one level less, holds of every cell at
a level for each of its tokens. -/
theorem descend {P : Nat → CellId → Prop}
    (hstep : ∀ width id c, chart.cell id = .ok c →
      (∀ p ∈ c.steps, ∀ child ∈ p.step.children, P width child) → P (width + 1) id) :
    ∀ {width id c}, chart.cell id = .ok c → id.length ≤ width → P width id := by
  intro width
  induction width with
  | zero =>
    intro id c _ hwidth
    exact absurd hwidth (Nat.not_le.mpr (Nat.succ_pos _))
  | succ width ih =>
    intro id c hc hwidth
    refine hstep width id c hc fun p hp child hchild => ?_
    obtain ⟨d, hd⟩ := h.exists_child hc p hp child hchild
    exact ih hd (Nat.le_of_lt_succ ((h.shorter hc p hp child hchild).trans_le hwidth))

theorem cell_induction {P : CellId → Cell S → Prop}
    (hstep : ∀ {id c}, chart.cell id = .ok c →
      (∀ p ∈ c.steps, ∀ child ∈ p.step.children, ∀ {d}, chart.cell child = .ok d → P child d) →
      P id c)
    {id : CellId} {c : Cell S} (hc : chart.cell id = .ok c) : P id c := by
  induction hn : id.length using Nat.strong_induction_on generalizing id c with
  | _ n ih =>
    refine hstep hc fun p hp child hchild d hd => ?_
    exact ih child.length (hn ▸ h.shorter hc p hp child hchild) hd rfl

/-- A recursion that works out a cell from the cells below gives the same at every level that is
deep enough. -/
theorem within_eq {β : Type} {F : Nat → CellId → Except Fault β} {g : CellId → β} {k : Cell S → β}
    (hg : ∀ {id b}, F id.length id = .ok b → g id = b)
    (hsucc : ∀ {width id c}, chart.cell id = .ok c →
      (∀ p ∈ c.steps, ∀ child ∈ p.step.children, F width child = .ok (g child)) →
      F (width + 1) id = .ok (k c))
    {width : Nat} {id : CellId} {c : Cell S} (hc : chart.cell id = .ok c)
    (hwidth : id.length ≤ width) : F width id = .ok (g id) ∧ g id = k c := by
  induction hn : id.length using Nat.strong_induction_on generalizing id c width with
  | _ n ih =>
    have hall : ∀ width, id.length ≤ width → F width id = .ok (k c) := by
      intro width hwidth
      obtain ⟨width, rfl⟩ : ∃ w, width = w + 1 :=
        ⟨width - 1, by unfold CellId.length at hwidth; omega⟩
      refine hsucc hc fun p hp child hchild => ?_
      have hshorter := h.shorter hc p hp child hchild
      obtain ⟨d, hd⟩ := h.exists_child hc p hp child hchild
      exact (ih child.length (hn ▸ hshorter) hd (by omega) rfl).1
    have hk := hg (hall id.length le_rfl)
    exact ⟨hk ▸ hall width hwidth, hk⟩

end Chart.Linked

variable [Scalar S]

/-- Cells lie within the sentence. Their steps lead to cells of shorter spans, and carry the scores
of these. -/
structure Chart.Rooted (chart : Chart S) : Prop where
  packed : ∀ {id c}, chart.cell id = .ok c → c.Packed
  scores : ∀ {id c}, chart.cell id = .ok c → ∀ p ∈ c.steps,
    chart.scoresOf p.step.making.source = .ok p.children
  shorter : ∀ {id c}, chart.cell id = .ok c → ∀ p ∈ c.steps, ∀ child ∈ p.step.children,
    child.length < id.length
  within : ∀ {id c}, chart.cell id = .ok c → id.first ≤ id.last ∧ id.last < chart.size

theorem Context.BuildsWhere.rooted {ctx : Context S} {P : Chart S → Job → Prop} {chart : Chart S}
    (h : ctx.BuildsWhere P chart) : chart.Rooted := by
  obtain ⟨done, hgrounded⟩ := h.grounded
  refine ⟨fun {id c} hc => ?_, fun {id c} hc p hp => ?_, fun {id c} hc p hp child hchild => ?_,
    fun {id c} hc => ?_⟩
  all_goals obtain ⟨span, hsize, hfirst, hlast, hg⟩ := hgrounded id c hc
  · exact hg.packed
  · exact (hg.steps p hp).faithful.scores
  · have hsplits := (hg.steps p hp).faithful.splits
    unfold Step.children at hchild
    cases hsource : p.step.making.source with
    | entry entry => simp [hsource, Source.children] at hchild
    | cells left right =>
      rw [hsource] at hchild hsplits
      obtain ⟨k, hk, hlf, hll, hrf, hrl⟩ := hsplits
      unfold Span.numSplits at hk
      unfold CellId.length
      rcases List.mem_pair.mp hchild with rfl | rfl <;> omega
  · rw [← hfirst, ← hlast, h.size_eq, ← hsize]
    exact ⟨span.first_le_last, span.last_lt_size⟩

namespace Chart

/-- All trees of a cell, none where a walk meets a fault. -/
def treesOf (chart : Chart S) (id : CellId) : List (ScoredTree S) :=
  (chart.trees id).toOption.getD []

variable {chart : Chart S} {id : CellId} {c : Cell S}

inductive Children (chart : Chart S) (p : PackedStep S) : Prop where
  | entry {entry : LexicalEntry} : p.step.making.source = .entry entry → p.children = .leaf →
      Children chart p
  | cells {left right : CellId} {l r : Cell S} : p.step.making.source = .cells left right →
      chart.cell left = .ok l → chart.cell right = .ok r → p.children = .ofCells [l, r] →
      Children chart p

namespace Rooted

variable (h : chart.Rooted)

include h

theorem children (hc : chart.cell id = .ok c) {p : PackedStep S} (hp : p ∈ c.steps) :
    chart.Children p := by
  have hscores := h.scores hc p hp
  cases hsource : p.step.making.source with
  | entry entry =>
    rw [hsource] at hscores
    exact .entry hsource (Except.ok.inj hscores).symm
  | cells left right =>
    rw [hsource] at hscores
    obtain ⟨l, hl, hscores⟩ := bind_eq_ok.mp hscores
    obtain ⟨r, hr, hscores⟩ := bind_eq_ok.mp hscores
    exact .cells hsource hl hr (Except.ok.inj hscores).symm

theorem exists_child (hc : chart.cell id = .ok c) {p : PackedStep S} (hp : p ∈ c.steps)
    {child : CellId} (hchild : child ∈ p.step.children) : ∃ d, chart.cell child = .ok d := by
  unfold Step.children at hchild
  cases h.children hc hp with
  | entry hsource => simp [hsource, Source.children] at hchild
  | cells hsource hl hr =>
    rw [hsource] at hchild
    rcases List.mem_pair.mp hchild with rfl | rfl
    · exact ⟨_, hl⟩
    · exact ⟨_, hr⟩

theorem linked : chart.Linked :=
  ⟨fun hc _ hp _ hchild => h.exists_child hc hp hchild, h.shorter⟩

end Rooted

def joined (chart : Chart S) (c : Cell S) : List (ScoredTree S) :=
  c.steps.flatMap fun p => treesOfStep p.step (p.step.children.map chart.treesOf)

theorem treesWithin_succ {width : Nat} (hc : chart.cell id = .ok c)
    (hchildren : ∀ p ∈ c.steps, ∀ child ∈ p.step.children,
      chart.treesWithin width child = .ok (chart.treesOf child)) :
    chart.treesWithin (width + 1) id = .ok (chart.joined c) := by
  have hsteps : (c.steps.mapM fun p => do
      .ok (treesOfStep p.step (← p.step.children.mapM (chart.treesWithin width)))) =
      Except.ok (c.steps.map fun p => treesOfStep p.step (p.step.children.map chart.treesOf)) := by
    refine mapM_eq_map fun p hp => ?_
    rw [mapM_eq_map (hchildren p hp)]
    rfl
  refine bind_eq_ok.mpr ⟨c, hc, bind_eq_ok.mpr ⟨_, hsteps, ?_⟩⟩
  rw [joined, List.flatMap_def]

namespace Rooted

variable (h : chart.Rooted)

include h

theorem treesWithin_eq (hc : chart.cell id = .ok c) {width : Nat} (hwidth : id.length ≤ width) :
    chart.treesWithin width id = .ok (chart.treesOf id) ∧ chart.treesOf id = chart.joined c := by
  refine h.linked.within_eq (F := chart.treesWithin) (fun htrees => ?_) treesWithin_succ hc hwidth
  rw [treesOf, trees, htrees]
  rfl

theorem trees_eq (hc : chart.cell id = .ok c) : chart.trees id = .ok (chart.treesOf id) :=
  (h.treesWithin_eq hc le_rfl).1

theorem treesOf_eq (hc : chart.cell id = .ok c) : chart.treesOf id = chart.joined c :=
  (h.treesWithin_eq hc le_rfl).2

end Rooted

theorem treesOfStep_entry {step : Step S} {entry : LexicalEntry}
    (hsource : step.making.source = .entry entry) :
    treesOfStep step (step.children.map chart.treesOf) = [joinTrees step []] := by
  simp [treesOfStep, Step.children, hsource, Source.children]

theorem treesOfStep_cells {step : Step S} {left right : CellId}
    (hsource : step.making.source = .cells left right) :
    treesOfStep step (step.children.map chart.treesOf) =
      (chart.treesOf right).flatMap fun r => (chart.treesOf left).map fun l =>
        joinTrees step [l, r] := by
  simp [treesOfStep, Step.children, hsource, Source.children, choices, List.flatMap_map,
    List.map_flatMap, Function.comp_def]

namespace Rooted

variable (h : chart.Rooted)

include h

theorem entry_mem_treesOf (hc : chart.cell id = .ok c) {p : PackedStep S} (hp : p ∈ c.steps)
    {entry : LexicalEntry} (hsource : p.step.making.source = .entry entry) :
    joinTrees p.step [] ∈ chart.treesOf id := by
  rw [h.treesOf_eq hc, joined, List.mem_flatMap]
  refine ⟨p, hp, ?_⟩
  rw [treesOfStep_entry hsource]
  exact .head _

theorem cells_mem_treesOf (hc : chart.cell id = .ok c) {p : PackedStep S} (hp : p ∈ c.steps)
    {left right : CellId} (hsource : p.step.making.source = .cells left right)
    {tl tr : ScoredTree S} (hl : tl ∈ chart.treesOf left) (hr : tr ∈ chart.treesOf right) :
    joinTrees p.step [tl, tr] ∈ chart.treesOf id := by
  rw [h.treesOf_eq hc, joined, List.mem_flatMap]
  refine ⟨p, hp, ?_⟩
  rw [treesOfStep_cells hsource]
  exact List.mem_flatMap.mpr ⟨tr, hr, List.mem_map.mpr ⟨tl, hl, rfl⟩⟩

/-- What holds of the trees of lexical steps, and of those of binary steps once it holds of the
trees of both children, holds of all trees of a cell. -/
theorem tree_induction {P : Cell S → ScoredTree S → Prop}
    (hentry : ∀ {id c p entry}, chart.cell id = .ok c → p ∈ c.steps →
      p.step.making.source = .entry entry → p.children = .leaf → P c (joinTrees p.step []))
    (hcells : ∀ {id c p left right l r tl tr}, chart.cell id = .ok c → p ∈ c.steps →
      p.step.making.source = .cells left right → chart.cell left = .ok l →
      chart.cell right = .ok r → p.children = .ofCells [l, r] → tl ∈ chart.treesOf left →
      tr ∈ chart.treesOf right → P l tl → P r tr → P c (joinTrees p.step [tl, tr]))
    (hc : chart.cell id = .ok c) : ∀ t ∈ chart.treesOf id, P c t := by
  refine h.linked.cell_induction (P := fun id c => ∀ t ∈ chart.treesOf id, P c t)
    (fun {id c} hc ih t ht => ?_) hc
  rw [h.treesOf_eq hc] at ht
  obtain ⟨p, hp, ht⟩ := List.mem_flatMap.mp ht
  cases h.children hc hp with
  | entry hsource hleaf =>
    rw [treesOfStep_entry hsource] at ht
    obtain rfl := List.mem_singleton.mp ht
    exact hentry hc hp hsource hleaf
  | @cells left right l r hsource hl hr hscores =>
    rw [treesOfStep_cells hsource] at ht
    obtain ⟨tr, htr, ht⟩ := List.mem_flatMap.mp ht
    obtain ⟨tl, htl, rfl⟩ := List.mem_map.mp ht
    have hleft := ih p hp left (Step.left_mem_children hsource) hl tl htl
    have hright := ih p hp right (Step.right_mem_children hsource) hr tr htr
    exact hcells hc hp hsource hl hr hscores htl htr hleft hright

end Rooted

theorem Rooted.treesOf_ne_nil (h : chart.Rooted) (hc : chart.cell id = .ok c) :
    chart.treesOf id ≠ [] := by
  refine h.linked.cell_induction (P := fun id _ => chart.treesOf id ≠ [])
    (fun {id c} hc ih => ?_) hc
  obtain ⟨p, hp, _⟩ := (h.packed hc).flag
  cases h.children hc hp with
  | entry hsource => exact List.ne_nil_of_mem (h.entry_mem_treesOf hc hp hsource)
  | @cells left right l r hsource hl hr =>
    have hleft := ih p hp left (Step.left_mem_children hsource) hl
    have hright := ih p hp right (Step.right_mem_children hsource) hr
    obtain ⟨tl, htl⟩ := List.exists_mem_of_ne_nil _ hleft
    obtain ⟨tr, htr⟩ := List.exists_mem_of_ne_nil _ hright
    exact List.ne_nil_of_mem (h.cells_mem_treesOf hc hp hsource htl htr)

end Chart

end Categorial
