import Categorial.Proofs.Forest.Expectations
import Categorial.Proofs.Forest.Passes

/-! # Counting what was counted already

The counts of a cell follow from its steps and from the counts of the cells below. So counting a
parsed chart afresh changes nothing, and a chart with the steps of a parsed one but other counts
becomes that one.
-/

namespace Categorial

variable {S : Type}

/-- A cell without what is counted over its steps. -/
structure Frame (S : Type) where
  category : Category
  span : Span
  isFullParse : Bool
  steps : List (Step S)
  logOutside : S

namespace Cell

def frame (c : Cell S) : Frame S :=
  ⟨c.category, c.span, c.isFullParse, c.steps.map (·.step), c.logOutside⟩

variable [Scalar S] {c d : Cell S}

/-- The counts of a cell follow from its steps and the scores of their children. -/
theorem recompute_eq (h : c.frame = d.frame) (hd : d.Packed) :
    c.recompute (d.steps.map (·.children)) = d := by
  obtain ⟨hcategory, hspan, hflag, hsteps, houtside⟩ := Frame.mk.inj h
  have hlength : c.steps.length = d.steps.length := by simpa using congrArg List.length hsteps
  have hzip : c.steps.zipWith (fun p scores => { p with children := scores })
      (d.steps.map (·.children)) = d.steps := by
    refine List.ext_getElem (by simp [hlength]) fun i hi hi' => ?_
    have hstep : (c.steps.map (·.step))[i]? = (d.steps.map (·.step))[i]? := by rw [hsteps]
    rw [List.getElem?_map, List.getElem?_map, List.getElem?_eq_getElem (hlength ▸ hi'),
      List.getElem?_eq_getElem hi'] at hstep
    simp [Option.some.inj hstep]
  simp only [recompute, withSteps, hzip, hcategory, hspan, hflag, houtside, ← hd.tally_eq,
    ← hd.logInside_eq]

end Cell

def Beam.write (b : Beam S) (fresh : List (Nat × Cell S)) : Beam S :=
  { b with
    slots := fresh.foldl
      (fun slots x => slots.modify x.1 fun held => { held with cell := x.2 }) b.slots }

namespace Beam

variable {b : Beam S} {fresh : List (Nat × Cell S)}

theorem write_cons (x : Nat × Cell S) : b.write (x :: fresh) = (b.write [x]).write fresh := rfl

theorem write_eq_self (h : ∀ x ∈ fresh, b.cell? x.1 = some x.2) : b.write fresh = b := by
  induction fresh with
  | nil => rfl
  | cons x fresh ih =>
    have hsame : b.slots.modify x.1 (fun held => { held with cell := x.2 }) = b.slots := by
      refine Slots.modify_eq_self fun held hheld => ?_
      have hx := h x (.head _)
      rw [cell?, hheld, Option.map_some, Option.some.injEq] at hx
      rw [← hx]
    have hone : b.write [x] = b := by rw [write, List.foldl_cons, List.foldl_nil, hsame]
    rw [write_cons, hone]
    exact ih fun y hy => h y (.tail _ hy)

theorem cell?_write_one (x : Nat × Cell S) (key : Nat) : (b.write [x]).cell? key =
    if x.1 = key then (b.cell? key).map fun _ => x.2 else b.cell? key := by
  simp only [write, cell?, List.foldl_cons, List.foldl_nil, Slots.get?_modify]
  split_ifs <;> simp [Function.comp_def]

theorem cell?_write_eq_none {key : Nat} (h : b.cell? key = none) :
    (b.write fresh).cell? key = none := by
  induction fresh generalizing b with
  | nil => exact h
  | cons x fresh ih => exact ih (b := b.write [x]) (by simp [cell?_write_one, h])

theorem cell?_write {key : Nat} {c : Cell S} (hheld : (b.cell? key).isSome)
    (hval : ∀ x ∈ fresh, x.1 = key → x.2 = c)
    (h : b.cell? key = some c ∨ ∃ x ∈ fresh, x.1 = key) : (b.write fresh).cell? key = some c := by
  induction fresh generalizing b with
  | nil =>
    rcases h with h | ⟨x, hx, _⟩
    · exact h
    · simp at hx
  | cons x fresh ih =>
    obtain ⟨old, hold⟩ := Option.isSome_iff_exists.mp hheld
    refine ih (b := b.write [x]) ?_ (fun y hy => hval y (.tail _ hy)) ?_
    · rw [cell?_write_one, hold]
      split_ifs <;> rfl
    · rw [cell?_write_one]
      split_ifs with hx
      · exact .inl (by rw [hold, ← hval x (.head _) hx]; rfl)
      · refine h.imp_right fun ⟨y, hy, hkey⟩ => ⟨y, ?_, hkey⟩
        exact (List.mem_cons.mp hy).resolve_left fun he => hx (he ▸ hkey)

end Beam

namespace Chart

variable [Scalar S] {chart start goal mid : Chart S} {id : CellId} {c d : Cell S} {first last : Nat}

/-- Under every handle both charts have cells that differ in their counts at most, or neither has
one. -/
def SameFrames (start goal : Chart S) : Prop :=
  ∀ id, Cell.frame <$> start.cell id = Cell.frame <$> goal.cell id

omit [Scalar S] in
theorem SameFrames.exists_cell (h : start.SameFrames goal) (hc : start.cell id = .ok c) :
    ∃ d, goal.cell id = .ok d ∧ c.frame = d.frame := by
  have hframe := h id
  rw [hc] at hframe
  obtain ⟨d, hd, he⟩ := map_eq_ok.mp hframe.symm
  exact ⟨d, hd, he.symm⟩

theorem Rooted.childScores_eq (h : goal.Rooted) (hd : goal.cell id = .ok d)
    (hframe : c.frame = d.frame)
    (hbelow : ∀ child, child.length < id.length → mid.cell child = goal.cell child) :
    mid.childScores c = .ok (d.steps.map (·.children)) := by
  have hsteps : c.steps.map (·.step) = d.steps.map (·.step) := congrArg Frame.steps hframe
  have hmap : mid.childScores c = d.steps.mapM fun p =>
      ChildScores.ofCells <$> p.step.children.mapM mid.cell := by
    show (c.steps.mapM ((fun s : Step S => ChildScores.ofCells <$> s.children.mapM mid.cell) ∘
      PackedStep.step)) = _
    rw [← List.mapM_map, hsteps, List.mapM_map]
    rfl
  rw [hmap]
  refine mapM_eq_map fun p hp => ?_
  have hchildren : ∀ child ∈ p.step.children, mid.cell child = goal.cell child :=
    fun child hchild => hbelow child (h.shorter hd p hp child hchild)
  unfold Step.children at hchildren ⊢
  cases h.children hd hp with
  | entry hsource hleaf =>
    rw [hsource, hleaf]
    rfl
  | cells hsource hl hr hscores =>
    rw [hsource] at hchildren ⊢
    have hleft := (hchildren _ (.head _)).trans hl
    have hright := (hchildren _ (.tail _ (.head _))).trans hr
    rw [hscores, Source.children, List.mapM_cons, List.mapM_cons, List.mapM_nil, hleft, hright]
    rfl

theorem Rooted.recomputeSpan_eq (h : goal.Rooted) (hframes : mid.SameFrames goal)
    (hbelow : ∀ child : CellId, child.length < last - first + 1 →
      mid.cell child = goal.cell child) :
    ∃ fresh, mid.recomputeSpan first last = .ok (mid.modifyBeam first last (·.write fresh)) ∧
      ∀ key d, (key, d) ∈ fresh ↔ goal.cell ⟨first, last, key⟩ = .ok d := by
  let found (x : CellId × Cell S) : Nat × Cell S := (x.1.key, (goal.cell x.1).toOption.getD x.2)
  have hfound : ∀ x ∈ mid.cellsAt first last, ∃ d, goal.cell x.1 = .ok d ∧ found x = (x.1.key, d) ∧
      x.2.frame = d.frame := by
    intro x hx
    obtain ⟨_, _, hc⟩ := mem_cellsAt_iff.mp hx
    obtain ⟨d, hd, hframe⟩ := hframes.exists_cell hc
    exact ⟨d, hd, by simp [found, hd, Except.toOption], hframe⟩
  have hfresh : (mid.cellsAt first last).mapM (fun x => do
      .ok (x.1.key, x.2.recompute (← mid.childScores x.2))) =
        Except.ok ((mid.cellsAt first last).map found) := by
    refine mapM_eq_map fun x hx => ?_
    obtain ⟨d, hd, hx', hframe⟩ := hfound x hx
    obtain ⟨hfirst, hlast, _⟩ := mem_cellsAt_iff.mp hx
    have hscores := h.childScores_eq hd hframe fun child hchild => by
      refine hbelow child (hchild.trans_eq ?_)
      rw [CellId.length, hfirst, hlast]
    refine bind_eq_ok.mpr ⟨_, hscores, ?_⟩
    rw [Cell.recompute_eq hframe (h.packed hd), hx']
  refine ⟨_, bind_eq_ok.mpr ⟨_, hfresh, rfl⟩, fun key d => ?_⟩
  rw [List.mem_map]
  constructor
  · rintro ⟨x, hx, he⟩
    obtain ⟨d', hd', hx', _⟩ := hfound x hx
    obtain ⟨rfl, rfl, _⟩ := mem_cellsAt_iff.mp hx
    obtain ⟨rfl, rfl⟩ := Prod.mk.inj (hx'.symm.trans he)
    exact hd'
  · intro hd
    have hframe := hframes ⟨first, last, key⟩
    rw [hd] at hframe
    obtain ⟨c, hc, _⟩ := map_eq_ok.mp hframe
    refine ⟨(⟨first, last, key⟩, c), mem_cellsAt_iff.mpr ⟨rfl, rfl, hc⟩, ?_⟩
    simp [found, hd, Except.toOption]

omit [Scalar S] in
theorem modifyBeam_eq_self {f : Beam S → Beam S}
    (h : ∀ b ∈ chart.beams[slot first last]?, f b = b) : chart.modifyBeam first last f = chart := by
  have hbeams : chart.beams.modify (slot first last) f = chart.beams := by
    refine Array.ext_getElem? fun i => ?_
    rw [Array.getElem?_modify]
    split_ifs with hi
    · subst hi
      exact (Option.map_congr h).trans Option.map_id'
    · rfl
  rw [modifyBeam, hbeams]

theorem Rooted.recompute_eq (h : chart.Rooted) : chart.recompute = .ok chart := by
  have hspan : ∀ x ∈ spansByLength chart.size, chart.recomputeSpan x.1 x.2 = .ok chart := by
    rintro ⟨first, last⟩ hx
    obtain ⟨hle, _⟩ := mem_spansByLength_iff.mp hx
    obtain ⟨fresh, hok, hfresh⟩ := h.recomputeSpan_eq (fun _ => rfl) fun _ _ => rfl
    rw [hok, modifyBeam_eq_self fun b hb => Beam.write_eq_self fun x hx => ?_]
    obtain ⟨b', hb', hc⟩ := cell_eq_ok_iff.mp ((hfresh x.1 x.2).mp hx)
    obtain rfl := Option.some.inj ((beam?_of_getElem? hle hb).symm.trans hb')
    exact hc
  unfold recompute
  generalize spansByLength chart.size = spans at hspan
  induction spans with
  | nil => rfl
  | cons x spans ih =>
    exact foldlM_cons_eq_ok.mpr
      ⟨chart, hspan x (.head _), ih fun y hy => hspan y (.tail _ hy)⟩

omit [Scalar S] in
theorem SameFrames.cell_of_error (h : start.SameFrames goal) {fault : Fault}
    (hc : goal.cell id = .error fault) : start.cell id = .error fault :=
  map_eq_error.mp ((h id).trans (map_eq_error.mpr hc))

theorem Rooted.exists_recomputeSpan (h : goal.Rooted) (hframes : mid.SameFrames goal)
    (hle : first ≤ last) (hbelow : ∀ child : CellId, child.length < last - first + 1 →
      mid.cell child = goal.cell child) :
    ∃ after, mid.recomputeSpan first last = .ok after ∧ after.tokens = mid.tokens ∧
      ∀ id : CellId, after.cell id =
        if (id.first, id.last) = (first, last) then goal.cell id else mid.cell id := by
  obtain ⟨fresh, hok, hfresh⟩ := h.recomputeSpan_eq hframes hbelow
  refine ⟨_, hok, rfl, fun id => ?_⟩
  split_ifs with hid
  · obtain ⟨f, l, key⟩ := id
    obtain ⟨rfl, rfl⟩ := Prod.mk.inj hid
    cases hd : goal.cell ⟨f, l, key⟩ with
    | ok d =>
      obtain ⟨c, hc, _⟩ := map_eq_ok.mp ((hframes ⟨f, l, key⟩).trans (congrArg _ hd))
      obtain ⟨b, hb, hkey⟩ := cell_eq_ok_iff.mp hc
      refine cell_eq_ok_iff.mpr ⟨b.write fresh, ?_, Beam.cell?_write ?_ ?_ (.inr ?_)⟩
      · rw [beam?_modifyBeam_self hle, hb, Option.map_some]
      · exact hkey ▸ rfl
      · rintro x hx rfl
        exact Except.ok.inj (((hfresh x.1 x.2).mp hx).symm.trans hd)
      · exact ⟨(key, d), (hfresh key d).mpr hd, rfl⟩
    | error fault =>
      have hmid := hframes.cell_of_error hd
      rw [← hmid]
      simp only [Chart.cell, Chart.beam, beam?_modifyBeam_self hle] at hmid ⊢
      cases hb : mid.beam? f l with
      | none => rfl
      | some b =>
        cases hkey : b.cell? key with
        | none =>
          simp only [Option.map_some, bind, Except.bind, Beam.cell?_write_eq_none hkey, hkey]
        | some c => simp [hb, hkey, bind, Except.bind] at hmid
  · simp only [Chart.cell, Chart.beam, beam?_modifyBeam_ne hle hid]

/-- These spans are as in the goal, and the others have its steps. -/
structure CountedUpTo (goal : Chart S) (spans : List (Nat × Nat)) (mid : Chart S) : Prop where
  tokens : mid.tokens = goal.tokens
  frames : mid.SameFrames goal
  cells : ∀ id : CellId, (id.first, id.last) ∈ spans → mid.cell id = goal.cell id

theorem Rooted.countedUpTo_next (h : goal.Rooted) {before rest : List (Nat × Nat)} {x : Nat × Nat}
    (hspans : before ++ x :: rest = spansByLength goal.size) (hmid : goal.CountedUpTo before mid) :
    ∃ next, mid.recomputeSpan x.1 x.2 = .ok next ∧ goal.CountedUpTo (before ++ [x]) next := by
  have hx : x ∈ spansByLength goal.size := hspans ▸ List.mem_append_right _ (.head _)
  have hpair := pairwise_spansByLength goal.size
  rw [← hspans, List.pairwise_append, List.pairwise_cons] at hpair
  have hbelow : ∀ child : CellId, child.length < x.2 - x.1 + 1 →
      mid.cell child = goal.cell child := by
    intro child hchild
    unfold CellId.length at hchild
    cases hd : goal.cell child with
    | error fault => exact hmid.frames.cell_of_error hd
    | ok d =>
      -- a shorter span comes before
      have hmem := mem_spansByLength_iff.mpr (h.within hd)
      rw [← hspans, List.mem_append, List.mem_cons] at hmem
      rw [← hd]
      refine hmid.cells child (hmem.resolve_right ?_)
      rintro (rfl | hafter)
      · exact absurd hchild (lt_irrefl _)
      · have hle := (hpair.2.1.1 _ hafter).2
        exact absurd hle (by simp only; omega)
  obtain ⟨next, hnext, htokens, hcell⟩ :=
    h.exists_recomputeSpan hmid.frames (mem_spansByLength_iff.mp hx).1 hbelow
  refine ⟨next, hnext, htokens.trans hmid.tokens, fun id => ?_, fun id hid => ?_⟩
  · rw [hcell]
    split_ifs
    · rfl
    · exact hmid.frames id
  · rw [hcell]
    split_ifs with he
    · rfl
    · exact hmid.cells id ((List.mem_append.mp hid).resolve_right (he ∘ List.mem_singleton.mp))

theorem Rooted.countedUpTo_all (h : goal.Rooted) {before rest : List (Nat × Nat)}
    (hspans : before ++ rest = spansByLength goal.size) (hmid : goal.CountedUpTo before mid) :
    ∃ after, rest.foldlM (fun chart x => chart.recomputeSpan x.1 x.2) mid = .ok after ∧
      goal.CountedUpTo (before ++ rest) after := by
  induction rest generalizing before mid with
  | nil => exact ⟨mid, rfl, by rwa [List.append_nil]⟩
  | cons x rest ih =>
    obtain ⟨next, hnext, hcounted⟩ := h.countedUpTo_next hspans hmid
    rw [List.append_cons] at hspans
    obtain ⟨after, hafter, hall⟩ := ih hspans hcounted
    rw [List.append_cons]
    exact ⟨after, foldlM_cons_eq_ok.mpr ⟨next, hnext, hafter⟩, hall⟩

/-- A chart with the steps of the goal becomes the goal when all is counted afresh. -/
theorem Rooted.exists_recompute_eq (h : goal.Rooted) (htokens : start.tokens = goal.tokens)
    (hframes : start.SameFrames goal) :
    ∃ after, start.recompute = .ok after ∧ after.tokens = goal.tokens ∧
      ∀ id, after.cell id = goal.cell id := by
  have hstart : goal.CountedUpTo [] start := ⟨htokens, hframes, by simp⟩
  obtain ⟨after, hafter, hall⟩ := h.countedUpTo_all (List.nil_append _) hstart
  have hsize : start.size = goal.size := congrArg List.length htokens
  refine ⟨after, ?_, hall.tokens, fun id => ?_⟩
  · rw [recompute, hsize]
    exact hafter
  · cases hd : goal.cell id with
    | error fault => exact hall.frames.cell_of_error hd
    | ok d => exact hd ▸ hall.cells id (mem_spansByLength_iff.mpr (h.within hd))

end Chart

/-- Counting the scores of a parsed chart afresh leaves it as it is, whatever way it was built. -/
theorem Context.recompute_parsed {S : Type} [Scalar S] {ctx : Context S} {chart : Chart S}
    (h : ctx.Builds chart) : chart.recompute = .ok chart :=
  h.rooted.recompute_eq

theorem Context.recompute_parsed_sheWalks : ∃ chart, sheWalks.Builds chart ∧
    chart.fullParses ≠ [] ∧ chart.recompute = .ok chart := by
  obtain ⟨chart, hparse⟩ := exists_parse_sheWalks
  have hbuilds := builds_of_parseSequentially hparse
  have hfull := fullParses_sheWalks (covered_sheWalks.builds hparse)
  exact ⟨chart, hbuilds, hfull, recompute_parsed hbuilds⟩

end Categorial
