import Categorial.Proofs.Forest.Recounting
import Categorial.Proofs.Parser.Coverage
import Categorial.Proofs.Parser.Outlines

/-! # Scoring a parsed chart anew

As long as no queue evicts or rejects a cell, a parse under other weights has the same cells and
steps, and differs in the scores alone. So the chart of one parse becomes the chart of the other by
scoring its steps anew, and there is no need to parse again.
-/

namespace Categorial

variable {S : Type} [Scalar S] {ctx : Context S} {model : Model S} {chart chart' whole : Chart S}
  {done : Set Job} {span : Span} {c : Cell S}

namespace Context

theorem exists_runs_withModel {before between after : List Job}
    (hjobs : Job.ofSentence ctx.size = before ++ (between ++ after))
    (h : Filled ctx ctx.Spares {j | j ∈ before} chart)
    (h' : Filled (ctx.withModel model) (ctx.withModel model).Spares {j | j ∈ before} chart')
    (hs : ∀ first job rest part, between = first ++ job :: rest →
      first.foldlM ctx.run chart = .ok part → ctx.Spares part job)
    (hs' : ∀ first job rest part, between = first ++ job :: rest →
      first.foldlM (ctx.withModel model).run chart' = .ok part →
        (ctx.withModel model).Spares part job)
    (hsame : chart.SameSeats ctx chart') (hrun : between.foldlM ctx.run chart = .ok whole) :
    ∃ whole', between.foldlM (ctx.withModel model).run chart' = .ok whole' ∧
      whole.SameSeats ctx whole' := by
  induction between generalizing before chart chart' with
  | nil =>
    obtain rfl := Except.ok.inj hrun
    exact ⟨chart', rfl, hsame⟩
  | cons job between ih =>
    obtain ⟨hready, hnew⟩ := Job.ready_in_turn hjobs
    obtain ⟨next, hnext, hrest⟩ := foldlM_cons_eq_ok.mp hrun
    have hspares := hs [] job between chart rfl rfl
    have hspares' := hs' [] job between chart' rfl rfl
    obtain ⟨next', hnext', hsame'⟩ :=
      h.exists_run_withModel h' hsame hready hspares hspares' hnext
    obtain ⟨whole', hwhole', hend⟩ := ih (by rw [hjobs, List.append_assoc]; rfl)
      (filled_concat h hready hnew hspares hnext) (filled_concat h' hready hnew hspares' hnext')
      (fun first j rest part he hpart => hs (job :: first) j rest part (by rw [he]; rfl)
        (foldlM_cons_eq_ok.mpr ⟨next, hnext, hpart⟩))
      (fun first j rest part he hpart => hs' (job :: first) j rest part (by rw [he]; rfl)
        (foldlM_cons_eq_ok.mpr ⟨next', hnext', hpart⟩))
      hsame' hrest
    exact ⟨whole', foldlM_cons_eq_ok.mpr ⟨next', hnext', hwhole'⟩, hend⟩

/-- Without pruning, the charts of one sentence differ in their scores alone under all models. -/
theorem exists_parse_withModel (hs : ctx.RunsWhere ctx.Spares)
    (hs' : (ctx.withModel model).RunsWhere (ctx.withModel model).Spares)
    (hparse : ctx.parseSequentially = .ok chart) :
    ∃ chart', (ctx.withModel model).parseSequentially = .ok chart' ∧
      ∀ id, Cell.outline <$> chart.cell id = Cell.outline <$> chart'.cell id := by
  have hsize := BuildsWhere.size_beams (builds_of_parseSequentially hparse)
  obtain ⟨start, hstart, hparse⟩ := bind_eq_ok.mp hparse
  obtain ⟨whole, hwhole, hparse⟩ := bind_eq_ok.mp hparse
  obtain rfl := Except.ok.inj hparse
  have hjobs : Job.ofSentence ctx.size = [] ++ (Job.ofSentence ctx.size ++ []) :=
    (List.append_nil _).symm
  have hstart' : Filled (ctx.withModel model) (ctx.withModel model).Spares {j | j ∈ []} start :=
    filled_nil hstart
  obtain ⟨whole', hwhole', hsame⟩ := exists_runs_withModel hjobs (filled_nil hstart) hstart'
    (fun first job rest part he => hs first job rest start part he hstart)
    (fun first job rest part he => hs' first job rest start part he hstart)
    (fun _ _ => rfl) hwhole
  have hparse' : (ctx.withModel model).parseSequentially = .ok whole'.close :=
    bind_eq_ok.mpr ⟨start, hstart, bind_eq_ok.mpr ⟨whole', hwhole', rfl⟩⟩
  have hsize' : whole'.close.beams.size = numSpans (ctx.withModel model).size :=
    BuildsWhere.size_beams (builds_of_parseSequentially hparse')
  have hclose : whole.close.SameSeats ctx whole'.close := by
    intro span hspan
    rw [Chart.beam?_close, Chart.beam?_close, Option.map_map, Option.map_map]
    exact hsame span hspan
  exact ⟨whole'.close, hparse', hclose.outline_cell hsize hsize'⟩

end Context

/-- The cell of a parse under a model, told by all that does not depend on the model. -/
def Outline.frame (model : Model S) (o : Outline) : Frame S :=
  ⟨o.category, o.span, o.isFullParse, o.makings.map (.scored model · o.isFullParse), Scalar.negInf⟩

namespace Cell.Grounded

theorem scored (h : c.Grounded ctx done chart span) {p : PackedStep S} (hp : p ∈ c.steps) :
    p.step = .scored ctx.model p.step.making c.isFullParse := by
  obtain ⟨full, hfull, hstep⟩ := (h.steps p hp).faithful.scored
  rw [h.packed.root p hp, h.isFullParse] at hfull
  rwa [← Except.ok.inj hfull] at hstep

theorem frame_eq (h : c.Grounded ctx done chart span) : c.frame = c.outline.frame ctx.model := by
  have hsteps : c.steps.map (·.step) =
      (c.steps.map (·.step.making)).map (.scored ctx.model · c.isFullParse) := by
    rw [List.map_map]
    exact List.map_congr_left fun p hp => h.scored hp
  rw [Cell.frame, hsteps, h.logOutside]
  rfl

theorem frame_rescoreSteps (h : c.Grounded ctx done chart span)
    (hfeatures : model.features = ctx.model.features) :
    (c.rescoreSteps model.score).frame = c.outline.frame model := by
  have hsteps : (c.rescoreSteps model.score).steps.map (·.step) =
      (c.steps.map (·.step.making)).map (.scored model · c.isFullParse) := by
    rw [Cell.rescoreSteps, List.map_map, List.map_map]
    refine List.map_congr_left fun p hp => ?_
    simp only [Function.comp_apply]
    rw [h.scored hp]
    simp only [Step.scored, hfeatures]
  rw [Cell.frame, hsteps]
  exact congrArg (Frame.mk _ _ _ _) h.logOutside

end Cell.Grounded

namespace Chart

omit [Scalar S] in
theorem cell_mapCells (f : Cell S → Cell S) (id : CellId) :
    (chart.mapCells f).cell id = f <$> chart.cell id := by
  unfold Chart.cell Chart.beam beam? mapCells
  split_ifs
  · rw [Array.getElem?_map]
    cases chart.beams[slot id.first id.last]? with
    | none => rfl
    | some b =>
      simp only [Option.map_some, bind, Except.bind, Beam.cell?, Slots.get?_map]
      cases b.slots.get? id.key <;> rfl
  · rfl

end Chart

namespace Context

theorem exists_rescore_withModel (hs : ctx.RunsWhere ctx.Spares)
    (hs' : (ctx.withModel model).RunsWhere (ctx.withModel model).Spares)
    (hfeatures : model.features = ctx.model.features) (hparse : ctx.parseSequentially = .ok chart) :
    ∃ chart' after, (ctx.withModel model).parseSequentially = .ok chart' ∧
      chart.rescore model.score = .ok after ∧ after.tokens = chart'.tokens ∧
      ∀ id, after.cell id = chart'.cell id := by
  obtain ⟨chart', hparse', houtline⟩ := exists_parse_withModel hs hs' hparse
  have hbuilds := builds_of_parseSequentially hparse
  have hbuilds' := builds_of_parseSequentially hparse'
  obtain ⟨_, hgrounded⟩ := BuildsWhere.grounded hbuilds
  obtain ⟨_, hgrounded'⟩ := BuildsWhere.grounded hbuilds'
  have hframes : (chart.mapCells (·.rescoreSteps model.score)).SameFrames chart' := by
    intro id
    rw [Chart.cell_mapCells, Functor.map_map]
    refine map_congr_of_map (houtline id) fun c d hc hd hout => ?_
    obtain ⟨_, _, _, _, hg⟩ := hgrounded id c hc
    obtain ⟨_, _, _, _, hg'⟩ := hgrounded' id d hd
    rw [hg.frame_rescoreSteps hfeatures, hg'.frame_eq, hout]
    rfl
  have htokens : (chart.mapCells (·.rescoreSteps model.score)).tokens = chart'.tokens :=
    (BuildsWhere.tokens hbuilds).trans (BuildsWhere.tokens hbuilds').symm
  obtain ⟨after, hafter, hend⟩ :=
    (BuildsWhere.rooted hbuilds').exists_recompute_eq htokens hframes
  exact ⟨chart', after, hparse', hafter, hend⟩

/-- Parsing with some weights and scoring the steps anew with others leads to the chart of a parse
with the others, when neither parse has to turn a cell away. -/
theorem rescore_parsed {S : Type} [Scalar S] {g : Grammar} {tokens : List String}
    {options : ParseOptions} {m : LinearModel S} {w w' : FeatureVector S} {ctx ctx' : Context S}
    {chart : Chart S}
    (hnew : Context.new g tokens { m with weights := w }.toModel options = .ok ctx)
    (hnew' : Context.new g tokens { m with weights := w' }.toModel options = .ok ctx')
    (hs : ctx.RunsWhere ctx.Spares) (hs' : ctx'.RunsWhere ctx'.Spares)
    (hparse : ctx.parseSequentially = .ok chart) :
    ∃ chart' after, ctx'.parseSequentially = .ok chart' ∧ chart.rescore (·.dot w') = .ok after ∧
      after.tokens = chart'.tokens ∧ (∀ id, after.cell id = chart'.cell id) ∧
      ∀ first last, after.cellsAt first last = chart'.cellsAt first last := by
  obtain rfl := Except.ok.inj (hnew'.symm.trans (new_withModel hnew rfl))
  have hfeatures : { m with weights := w' }.toModel.features = ctx.model.features := by
    rw [model_of_new hnew]
    rfl
  obtain ⟨chart', after, hparse', hafter, htokens, hcells⟩ :=
    exists_rescore_withModel hs hs' hfeatures hparse
  exact ⟨chart', after, hparse', hafter, htokens, hcells, Chart.cellsAt_congr hcells⟩

noncomputable def indicating (weights : FeatureVector LogReal) : LinearModel LogReal :=
  { LinearModel.withDefaultFeatures subjects with weights }

/-- No weights at all, and then a liking for entries of one origin: the chart has a result, and it
need not be parsed again. -/
theorem rescore_parsed_sheWalks : ∃ ctx ctx' chart chart' after,
    Context.new shifting ["she", "walks"] (indicating .empty).toModel .default = .ok ctx ∧
      Context.new shifting ["she", "walks"]
        (indicating (.set .empty "ORIGIN#main" (.ofReal 1))).toModel .default = .ok ctx' ∧
      ctx.parseSequentially = .ok chart ∧ ctx'.parseSequentially = .ok chart' ∧
      chart.rescore (·.dot (.set .empty "ORIGIN#main" (.ofReal 1))) = .ok after ∧
      (∀ id, after.cell id = chart'.cell id) ∧ after.cellsAt 0 1 ≠ [] := by
  have hmodel : ∀ w, Context.new shifting ["she", "walks"] (indicating w).toModel .default =
      .ok (sheWalks.withModel (indicating w).toModel) := fun w => new_withModel new_sheWalks rfl
  have hcovered : ∀ w, (sheWalks.withModel (indicating w).toModel).Covered predications :=
    fun w => covered_sheWalks.withModel _
  obtain ⟨chart, hparse⟩ := exists_parse_withModel_sheWalks (indicating .empty).toModel
  obtain ⟨chart', after, hparse', hafter, _, hcells, hlist⟩ :=
    rescore_parsed (hmodel .empty) (hmodel (.set .empty "ORIGIN#main" (.ofReal 1)))
      (hcovered _).runs (hcovered _).runs hparse
  obtain ⟨x, hx, _⟩ := exists_readings ((hcovered _).builds hparse')
  rw [← hlist 0 1] at hx
  exact ⟨_, _, chart, chart', after, hmodel _, hmodel _, hparse, hparse', hafter, hcells,
    List.ne_nil_of_mem hx⟩

end Context

end Categorial
