import Categorial.Proofs.Chart.Seats
import Categorial.Proofs.Parser.Raising
import Categorial.Proofs.Parser.Unpruned

/-! # What jobs make without scores

Rules, filters and the normal form see categories, spans and the names of rules, but no scores. So
parses with different models push the same candidates in the same order, and as long as nothing is
turned away their beams have the same seats.
-/

namespace Categorial

variable {S : Type}

section Outlines

variable {α α' κ : Type} {f : α → Except Fault (List (Cell S))}
  {f' : α' → Except Fault (List (Cell S))}

def outlines (x : Except Fault (List (Cell S))) : Except Fault (List Outline) :=
  List.map Cell.outline <$> x

theorem outlines_bind {x : Except Fault α} {f f' : α → Except Fault (List (Cell S))}
    (h : ∀ a, outlines (f a) = outlines (f' a)) : outlines (x >>= f) = outlines (x >>= f') :=
  map_bind_congr id id rfl fun a a' (he : a = a') => he ▸ h a

theorem outlines_yieldAll (key : α → κ) (key' : α' → κ) {xs : List α} {xs' : List α'}
    (hxs : xs.map key = xs'.map key')
    (h : ∀ a a', key a = key' a' → outlines (f a) = outlines (f' a')) :
    outlines (yieldAll f xs) = outlines (yieldAll f' xs') := by
  induction xs generalizing xs' with
  | nil =>
    obtain rfl := List.map_eq_nil_iff.mp hxs.symm
    rfl
  | cons a xs ih =>
    cases xs' with
    | nil => simp at hxs
    | cons a' xs' =>
      obtain ⟨ha, hxs⟩ := List.cons.inj hxs
      refine map_bind_congr (List.map Cell.outline) (List.map Cell.outline) (h a a' ha) ?_
      intro ys ys' hys
      refine map_bind_congr (List.map Cell.outline) (List.map Cell.outline) (ih hxs) ?_
      intro rest rest' hrest
      exact congrArg Except.ok (by rw [List.map_append, List.map_append, hys, hrest])

theorem outlines_yieldAll_same {f f' : α → Except Fault (List (Cell S))} {xs : List α}
    (h : ∀ a, outlines (f a) = outlines (f' a)) :
    outlines (yieldAll f xs) = outlines (yieldAll f' xs) :=
  outlines_yieldAll id id rfl fun a a' (he : a = a') => he ▸ h a

end Outlines

namespace Outline

def ruleNames (o : Outline) : List RuleName :=
  ((o.makings.map (·.rule)).mergeSort RuleName.ble).eraseReps

end Outline

theorem Cell.ruleNames_eq (c : Cell S) : c.ruleNames = c.outline.ruleNames := by
  rw [ruleNames, Outline.ruleNames, outline, List.map_map]
  rfl

namespace Context

def Argument.outline (a : Argument S) : CellId × Outline × List RuleName :=
  (a.id, a.cell.outline, a.ruleNames)

variable {ctx : Context S} {model : Model S} {span : Span} {left right left' right' : Argument S}
  {a a' : Cell S}

theorem applyBinary_congr (rule : BinaryRule) (hleft : left.outline = left'.outline)
    (hright : right.outline = right'.outline) :
    (ctx.withModel model).applyBinary rule left' right' = ctx.applyBinary rule left right := by
  obtain ⟨_, hl⟩ := Prod.mk.inj hleft
  obtain ⟨_, hr⟩ := Prod.mk.inj hright
  obtain ⟨hl, hlnames⟩ := Prod.mk.inj hl
  obtain ⟨hr, hrnames⟩ := Prod.mk.inj hr
  simp only [applyBinary, withModel, Cell.span_of_outline hl, Cell.span_of_outline hr,
    Cell.category_of_outline hl, Cell.category_of_outline hr, hlnames, hrnames]
  rfl

theorem applyUnary_congr (rule : UnaryRule) (h : left.outline = left'.outline) :
    (ctx.withModel model).applyUnary rule left' = ctx.applyUnary rule left := by
  obtain ⟨_, h⟩ := Prod.mk.inj h
  obtain ⟨hcell, hnames⟩ := Prod.mk.inj h
  simp only [applyUnary, withModel, Cell.span_of_outline hcell, Cell.category_of_outline hcell,
    hnames]
  rfl

theorem makings_plainSteps (c : Cell S) : (plainSteps c).map (·.step.making) =
    c.outline.makings.filter (!·.rule.isOverloaded) := by
  rw [plainSteps, Cell.outline, List.filter_map]
  rfl

variable [Scalar S]

theorem outlines_entryCells (entry : LexicalEntry) :
    outlines ((ctx.withModel model).entryCells span entry) = outlines (ctx.entryCells span entry) :=
  outlines_bind fun pruned => by
    cases pruned with
    | true => rfl
    | false => exact outlines_bind fun _ => rfl

theorem outlines_binaryCells (rule : BinaryRule) (hleft : left.outline = left'.outline)
    (hright : right.outline = right'.outline) :
    outlines ((ctx.withModel model).binaryCells span left' right' rule) =
      outlines (ctx.binaryCells span left right rule) := by
  have hlid : left.id = left'.id := congrArg Prod.fst hleft
  have hrid : right.id = right'.id := congrArg Prod.fst hright
  unfold binaryCells
  rw [applyBinary_congr rule hleft hright]
  refine outlines_bind fun result => ?_
  cases result with
  | none => rfl
  | some result =>
    refine outlines_bind fun pruned => ?_
    cases pruned with
    | true => rfl
    | false =>
      rw [hlid, hrid]
      exact outlines_bind fun _ => rfl

theorem outlines_overloadCells (result : RuleResult) (full : Bool) {p p' : PackedStep S}
    (h : p.step.making = p'.step.making) :
    outlines ((ctx.withModel model).overloadCells result full p') =
      outlines (ctx.overloadCells result full p) := by
  unfold overloadCells Step.overload Step.rule Step.span Step.root
  rw [← h]
  cases p.step.making.rule.overload result.name <;> rfl

theorem outlines_unaryOf (h : a.outline = a'.outline) :
    outlines ((ctx.withModel model).unaryOf span a') = outlines (ctx.unaryOf span a) := by
  refine outlines_yieldAll_same fun rule => ?_
  have hargument : Argument.outline ⟨⟨span.first, span.last, 0⟩, a, a.ruleNames⟩ =
      Argument.outline ⟨⟨span.first, span.last, 0⟩, a', a'.ruleNames⟩ := by
    rw [Argument.outline, Argument.outline, Cell.ruleNames_eq, Cell.ruleNames_eq, h]
  unfold unaryCellsOf
  rw [applyUnary_congr rule hargument]
  refine outlines_bind fun result => ?_
  cases result with
  | none => rfl
  | some result =>
    refine outlines_bind fun pruned => ?_
    cases pruned with
    | true => rfl
    | false =>
      refine outlines_bind fun full => ?_
      refine outlines_yieldAll (·.step.making) (·.step.making) ?_ fun p p' hp => ?_
      · rw [makings_plainSteps, makings_plainSteps, h]
      · exact outlines_overloadCells result full hp.symm

end Context

/-- The beams of all spans have the same seats. -/
def Chart.SameSeats (ctx : Context S) (chart chart' : Chart S) : Prop :=
  ∀ span : Span, span.size = ctx.size → (chart.beam? span.first span.last).map Beam.seating =
    (chart'.beam? span.first span.last).map Beam.seating

namespace Chart.SameSeats

variable {ctx : Context S} {chart chart' : Chart S} {span : Span} {b b' : Beam S}

theorem exists_beam (h : chart.SameSeats ctx chart') (hsize : span.size = ctx.size)
    (hb : chart.beam? span.first span.last = some b) :
    ∃ b', chart'.beam? span.first span.last = some b' ∧ b.seating = b'.seating := by
  have hspan := h span hsize
  rw [hb] at hspan
  obtain ⟨b', hb', hseats⟩ := Option.map_eq_some_iff.mp hspan.symm
  exact ⟨b', hb', hseats.symm⟩

theorem beam (h : chart.SameSeats ctx chart') (hsize : span.size = ctx.size) :
    Beam.seating <$> chart.beam span.first span.last =
      Beam.seating <$> chart'.beam span.first span.last := by
  unfold Chart.beam
  cases hb : chart.beam? span.first span.last with
  | none =>
    have hspan := h span hsize
    rw [hb] at hspan
    rw [Option.map_eq_none_iff.mp hspan.symm]
  | some b =>
    obtain ⟨b', hb', hseats⟩ := h.exists_beam hsize hb
    rw [hb']
    exact congrArg Except.ok hseats

end Chart.SameSeats

theorem Chart.SameSeats.outline_cell {ctx : Context S} {chart chart' : Chart S}
    (h : chart.SameSeats ctx chart')
    (hsize : chart.beams.size = numSpans ctx.size) (hsize' : chart'.beams.size = numSpans ctx.size)
    (id : CellId) : Cell.outline <$> chart.cell id = Cell.outline <$> chart'.cell id := by
  by_cases hid : id.first ≤ id.last ∧ id.last < ctx.size
  · let span : Span := ⟨id.first, id.last, ctx.size, hid.1, hid.2⟩
    have hseats := h.beam (rfl : span.size = ctx.size)
    refine map_bind_congr _ _ hseats fun b b' hb => ?_
    have hkey := (b.cell?_seating id.key).trans (hb ▸ (b'.cell?_seating id.key).symm)
    cases hc : b.cell? id.key with
    | none =>
      rw [hc] at hkey
      rw [Option.map_eq_none_iff.mp hkey.symm]
    | some c =>
      rw [hc] at hkey
      obtain ⟨c', hc', he⟩ := Option.map_eq_some_iff.mp hkey.symm
      rw [hc']
      exact congrArg Except.ok he.symm
  · have hnone : ∀ {chart : Chart S}, chart.beams.size = numSpans ctx.size →
        chart.cell id = .error .noSuchSpan := by
      intro chart hsize
      unfold Chart.cell Chart.beam
      cases hb : chart.beam? id.first id.last with
      | none => rfl
      | some b => exact absurd (Chart.bounds_of_beam? hsize hb) hid
    rw [hnone hsize, hnone hsize']

theorem Beam.map_cells_of_seating {α : Type} {b b' : Beam S} (h : b.seating = b'.seating)
    (f : Nat → Outline → α) :
    (b.cells.map fun x => f x.1 x.2.outline) = b'.cells.map fun x => f x.1 x.2.outline := by
  have hcells := congrArg (List.map fun x => f x.1 x.2)
    ((cells_seating b).trans (h ▸ (cells_seating b').symm))
  rw [List.map_map, List.map_map] at hcells
  exact hcells

namespace Context

variable {ctx : Context S} {model : Model S} {chart chart' : Chart S} {span : Span}
  {job : Job} {cells : List (Cell S)} {pruned : Bool}

theorem outlines_arguments (h : chart.SameSeats ctx chart') (hsize : span.size = ctx.size) :
    List.map Argument.outline <$> arguments chart span.first span.last =
      List.map Argument.outline <$> arguments chart' span.first span.last := by
  refine map_bind_congr _ _ (h.beam hsize) fun b b' hseats => congrArg Except.ok ?_
  rw [List.map_map, List.map_map]
  simp only [Function.comp_def, Argument.outline, Cell.ruleNames_eq]
  exact Beam.map_cells_of_seating hseats
    fun key o => ((⟨span.first, span.last, key⟩ : CellId), o, o.ruleNames)

variable [Scalar S]

theorem outlines_candidates (ctx : Context S) (model : Model S)
    (h : chart.SameSeats ctx chart') (hsize : span.size = ctx.size) (hjob : job.Of span) :
    outlines ((ctx.withModel model).candidates chart' job) =
      outlines (ctx.candidates chart job) := by
  have hsize' : span.size = (ctx.withModel model).size := hsize
  rcases hjob with hbase | rfl
  · cases hbase with
    | lexical =>
      rw [candidates_lexical hsize, candidates_lexical hsize']
      exact outlines_yieldAll_same fun entry => outlines_entryCells entry
    | @split k hk =>
      rw [candidates_split hsize hk, candidates_split hsize' hk]
      have hsize₁ : (span.split k hk).1.size = ctx.size := hsize
      have hsize₂ : (span.split k hk).2.size = ctx.size := hsize
      have hleft := outlines_arguments h hsize₁
      have hright := outlines_arguments h hsize₂
      refine map_bind_congr _ _ hleft.symm fun lefts' lefts hlefts => ?_
      refine map_bind_congr _ _ hright.symm fun rights' rights hrights => ?_
      refine outlines_yieldAll _ _ hlefts fun left' left hleft => ?_
      refine outlines_yieldAll _ _ hrights fun right' right hright => ?_
      exact outlines_yieldAll_same fun rule => outlines_binaryCells rule hleft.symm hright.symm
  · rw [candidates_unary hsize, candidates_unary hsize']
    refine map_bind_congr _ _ (h.beam hsize).symm fun b' b hseats => ?_
    refine outlines_yieldAll Cell.outline Cell.outline ?_ fun a' a ha => outlines_unaryOf ha.symm
    rw [List.map_map, List.map_map]
    exact Beam.map_cells_of_seating hseats fun _ o => o

omit [Scalar S] in
theorem batchFor_withModel : (ctx.withModel model).batchFor job = ctx.batchFor job := by
  cases job <;> rfl

/-- A job hands over the same cells under every model, as long as no queue turns one away. -/
theorem exists_cellsOf_withModel (h : chart.SameSeats ctx chart') (hsize : span.size = ctx.size)
    (hjob : job.Of span)
    (hspans : ∀ candidates, ctx.candidates chart job = .ok candidates →
      ∀ c ∈ candidates, c.span = span)
    (hs : ctx.Spares chart job) (hs' : (ctx.withModel model).Spares chart' job)
    (hcells : ctx.cellsOf chart job = .ok (cells, pruned)) :
    ∃ cells' pruned', (ctx.withModel model).cellsOf chart' job = .ok (cells', pruned') ∧
      cells'.map Cell.outline = cells.map Cell.outline := by
  obtain ⟨candidates, first, batch, hcands, hfirst, hpush, hfinish⟩ :=
    (ctx.keeps_cellsOf chart job cells pruned).mp hcells
  have houtlines := ctx.outlines_candidates model h hsize hjob
  rw [hcands] at houtlines
  obtain ⟨candidates', hcands', hsame⟩ := map_eq_ok.mp houtlines
  have hfirst' : (ctx.withModel model).batchFor job = .ok first := batchFor_withModel.trans hfirst
  have hkeeps := (ctx.withModel model).keeps_cellsOf chart' job
  rcases batchFor_eq_ok hfirst with rfl | ⟨capacity, order, rfl⟩
  · rw [Batch.pushAll_all] at hpush
    obtain rfl := Except.ok.inj hpush
    obtain ⟨rfl, rfl⟩ := Prod.mk.inj hfinish
    refine ⟨_, _, (hkeeps _ _).mpr ⟨_, _, _, hcands', hfirst', Batch.pushAll_all .., rfl⟩, ?_⟩
    simpa using hsame
  · obtain ⟨b, hoffer, rfl⟩ := Batch.pushAll_best_eq_ok.mp hpush
    obtain ⟨rfl, rfl⟩ := Prod.mk.inj hfinish
    have hspans' : ∀ c ∈ candidates', c.span = span := by
      intro c hc
      have hmem : c.outline ∈ candidates.map Cell.outline := hsame ▸ List.mem_map_of_mem hc
      obtain ⟨d, hd, hout⟩ := List.mem_map.mp hmem
      rw [← Cell.span_of_outline hout]
      exact hspans candidates hcands d hd
    obtain ⟨b', hoffer'⟩ :=
      (Beam.receptive_empty capacity order false span).exists_offerAll hspans'
    refine ⟨_, _, (hkeeps _ _).mpr ⟨_, _, _, hcands', hfirst',
      Batch.pushAll_best_eq_ok.mpr ⟨b', hoffer', rfl⟩, rfl⟩, ?_⟩
    have hcalm := Beam.calm_empty (S := S) capacity order false
    have hseats := hcalm.seating_offerAll (hs.batch _ _ hfirst hcands) hoffer
    have hseats' := hcalm.seating_offerAll (hs'.batch _ _ hfirst' hcands') hoffer'
    rw [← hsame, ← hseats'] at hseats
    rw [List.map_map, List.map_map]
    exact Beam.map_cells_of_seating hseats.symm fun _ o => o

end Context

variable [Scalar S] {ctx : Context S} {model : Model S} {done : Set Job}
  {chart chart' next : Chart S} {span : Span} {job : Job}

theorem Filled.seating_add (h : Filled ctx ctx.Spares done chart) (hready : Ready ctx.size done job)
    (hsize : span.size = ctx.size) (hjob : job.Of span) (hs : ctx.Spares chart job)
    {cells : List (Cell S)} {pruned : Bool} (hcells : ctx.cellsOf chart job = .ok (cells, pruned))
    (hadd : chart.addAll job.first job.last cells pruned = .ok next) :
    ∃ b b', chart.beam? span.first span.last = some b ∧ next.beam? span.first span.last = some b' ∧
      b'.seating = (cells.map Cell.outline).foldl .add b.seating ∧
      ∀ other : Span, other.size = ctx.size → other ≠ span →
        next.beam? other.first other.last = chart.beam? other.first other.last := by
  obtain ⟨span', b, b', hsize', hjob', hat⟩ := h.exists_addsAt hready (Chart.adds_of_addAll hadd)
  obtain ⟨hf, hl⟩ := Prod.mk.inj hjob.bounds
  obtain ⟨hf', hl'⟩ := Prod.mk.inj hjob'.bounds
  obtain rfl : span' = span :=
    Span.ext_bounds (hsize'.trans hsize.symm) (hf'.symm.trans hf) (hl'.symm.trans hl)
  have hbeam : chart.beam job.first job.last = .ok b := by
    rw [hf, hl, Chart.beam_eq_ok_iff]
    exact hat.beam
  have hcalm := h.calm hsize hat.beam
  have hspares := hs.beam _ _ _ hcells hbeam
  refine ⟨b, _, hat.beam, hat.self, ?_, fun other hother =>
    hat.others other (hother.trans hsize.symm)⟩
  rw [Beam.seating_markPruned_if]
  exact hcalm.seating_offerAll hspares (hcalm.offerAll_of_takes hspares hat.takes)

/-- A job that prunes nothing leaves the same seats under every model. -/
theorem Filled.exists_run_withModel (h : Filled ctx ctx.Spares done chart)
    (h' : Filled (ctx.withModel model) (ctx.withModel model).Spares done chart')
    (hsame : chart.SameSeats ctx chart') (hready : Ready ctx.size done job)
    (hs : ctx.Spares chart job) (hs' : (ctx.withModel model).Spares chart' job)
    (hrun : ctx.run chart job = .ok next) :
    ∃ next', (ctx.withModel model).run chart' job = .ok next' ∧ next.SameSeats ctx next' := by
  obtain ⟨⟨cells, pruned⟩, hcells, hadd⟩ := bind_eq_ok.mp hrun
  obtain ⟨span, hsize, hjob⟩ := hready.within
  have hspans : ∀ candidates, ctx.candidates chart job = .ok candidates →
      ∀ c ∈ candidates, c.span = span := fun candidates hcands c hc =>
    (h.grounded.of_candidates hsize hjob hready hcands c hc).span_eq
  obtain ⟨cells', pruned', hcells', houtlines⟩ :=
    Context.exists_cellsOf_withModel hsame hsize hjob hspans hs hs' hcells
  obtain ⟨next', hadd'⟩ := h'.exists_addAll hready hcells'
  refine ⟨next', bind_eq_ok.mpr ⟨_, hcells', hadd'⟩, fun other hother => ?_⟩
  obtain ⟨b, b₁, hb, hb₁, hseats, hothers⟩ := h.seating_add hready hsize hjob hs hcells hadd
  obtain ⟨b', b₁', hb', hb₁', hseats', hothers'⟩ :=
    h'.seating_add hready hsize hjob hs' hcells' hadd'
  by_cases hspan : other = span
  · subst hspan
    obtain ⟨b'', hb'', hbefore⟩ := hsame.exists_beam hsize hb
    obtain rfl := Option.some.inj (hb'.symm.trans hb'')
    rw [hb₁, hb₁', Option.map_some, Option.map_some, hseats, hseats', hbefore, houtlines]
  · rw [hothers other hother hspan, hothers' other hother hspan]
    exact hsame other hother

end Categorial
