import Categorial.Proofs.Parser.Normality

/-! # What a normal form leaves

A normal form is checked for cells, not for steps: a unary rule that may not follow one of the steps
of a cell is not applied to any of them. Apart from that, a parse without pruning makes all that the
grammar makes and the normal form lets pass.
-/

namespace Categorial

variable {S : Type}

/-- What the grammar makes under its normal form. A unary rule is folded into a step only if it
passes with all steps that the normal form leaves of the same category. -/
structure Context.MakesNormal (ctx : Context S) (chart : Chart S) (span : Span) (m : Making) :
    Prop where
  makes : ctx.Makes chart span m
  allows : ctx.AllowsStep chart m
  folds : ∀ nf ∈ ctx.grammar.normalForm, ∀ u ∈ m.rule.unary, ∀ other,
    ctx.Makes chart span other → ctx.AllowsStep chart other → other.rule.isOverloaded = false →
    m.intermediate = some other.root → nf.allowsUnary [other.rule] (.plain u) = true

namespace Context

variable {ctx : Context S} {chart chart' : Chart S} {span : Span} {m : Making} {done : Set Job}

theorem AllowsStep.transfer (hcells : ∀ id ∈ m.source.children, chart'.cell id = chart.cell id)
    (h : ctx.AllowsStep chart m) : ctx.AllowsStep chart' m :=
  fun nf hnf => (h nf hnf).transfer hcells

theorem MakesNormal.of_plain (hplain : m.rule.isOverloaded = false)
    (hmakes : ctx.Makes chart span m) (hallows : ctx.AllowsStep chart m) :
    ctx.MakesNormal chart span m where
  makes := hmakes
  allows := hallows
  folds _ _ _ hu := absurd ((RuleName.unary_eq_none hplain).symm.trans hu) nofun

theorem Makes.job_folded (h : ctx.Makes chart span m) (hfolded : m.rule.isOverloaded = true) :
    m.job = .unary span.first span.last := by
  rw [Making.job, if_pos hfolded, h.span_eq]

/-- What could be folded into the same unary rule was made before the turn of the unary rules. -/
theorem Makes.mem_of_folded (hready : Ready ctx.size done m.job) (hm : ctx.Makes chart span m)
    {u : BaseName} (hu : u ∈ m.rule.unary) {other : Making} (hother : ctx.Makes chart' span other)
    (hplain : other.rule.isOverloaded = false) : other.job ∈ done := by
  have hfolded : m.rule.isOverloaded = true := by
    rw [RuleName.isOverloaded, Option.mem_def.mp hu, Option.isSome_some]
  rw [hm.job_folded hfolded] at hready
  exact hready.awaited _ (Job.base_iff_mem_awaits.mp (hother.job_base hplain))

theorem MakesNormal.transfer (hnames : ctx.grammar.OwnNames) (hclosed : Closed ctx.size done)
    (hready : Ready ctx.size done m.job)
    (hcells : ∀ id : CellId, .unary id.first id.last ∈ done → chart'.cell id = chart.cell id)
    (h : ctx.MakesNormal chart span m) : ctx.MakesNormal chart' span m where
  makes := h.makes.transfer hcells (h.makes.finished hnames hclosed hready)
  allows := h.allows.transfer fun id hid =>
    hcells id (h.makes.finished hnames hclosed hready id hid)
  folds nf hnf u hu other hmakes hallows hplain hroot := by
    have hfinished := hmakes.finished hnames hclosed
      (hclosed _ (h.makes.mem_of_folded hready hu hmakes hplain))
    have hback : ∀ id : CellId, .unary id.first id.last ∈ done →
        chart.cell id = chart'.cell id := fun id hid => (hcells id hid).symm
    exact h.folds nf hnf u hu other (hmakes.transfer hback hfinished)
      (hallows.transfer fun id hid => hback id (hfinished id hid)) hplain hroot

variable [Scalar S]

theorem makeable_makesNormal (hnames : ctx.grammar.OwnNames)
    (hstd : ∀ nf ∈ ctx.grammar.normalForm, nf.Standard) :
    ctx.Makeable ctx.MakesNormal where
  makes h := h.makes
  before hclosed hready hcells h :=
    h.transfer hnames hclosed hready fun id hid => (hcells id hid).symm
  exists_candidate := by
    intro P done chart span m b candidates hfilled hsize hb hnew h hhas hcands
    have hgrounded := hfilled.grounded
    obtain ⟨hmakes, hallows, hfolds⟩ := h
    cases hmakes with
    | entry hentry hprunes => exact exists_candidate_of_entry hsize hentry hprunes hcands
    | @binary left right l r rule result hsplits hl hr hrule happly hprunes =>
      obtain ⟨hname, hplain⟩ := hnames.binary_result hrule happly
      obtain ⟨k, hk, hlf, hll, hrf, hrl, hjob⟩ := Making.job_cells hplain hsplits
      have hpass : ∀ nf ∈ ctx.grammar.normalForm,
          nf.allowsBinary l.ruleNames r.ruleNames rule.name = true := by
        intro nf hnf
        obtain ⟨l', r', hl', hr', hpass⟩ := (hallows nf hnf).binary left right rfl
        obtain rfl := Except.ok.inj (hl.symm.trans hl')
        obtain rfl := Except.ok.inj (hr.symm.trans hr')
        rwa [RuleName.plain_base hplain, hname] at hpass
      rw [hjob] at hcands
      exact exists_candidate_of_split hsize hgrounded hk hlf hll hrf hrl hl hr hrule hpass happly
        hprunes hcands
    | @unary base rule result name hbase hbaserule hrule happly hprunes hname =>
      obtain ⟨hresult, _⟩ := hnames.unary_result hrule happly
      obtain ⟨_, hplain, rfl⟩ := RuleName.overload_eq_ok.mp hname
      have hnormal : ctx.MakesNormal chart span base := by
        refine .of_plain hbaserule hbase fun nf hnf => ⟨(hallows nf hnf).binary, fun u hu => ?_⟩
        exact absurd ((RuleName.unary_eq_none hbaserule).symm.trans hu) nofun
      refine exists_candidate_of_unary hsize hgrounded hb (hhas rfl base hnormal hbaserule)
        hbase.span_eq hrule (fun a ha hhas nf hnf => ?_) happly hprunes hname hcands
      have hbefore : .unary span.first span.last ∉ done := hnew
      -- the steps of the cell are those that the rule has to pass with
      have hstock := Beam.mem_stock_of_kept ha
      refine (hstd nf hnf).allowsUnary_of_forall fun name hname => ?_
      obtain ⟨q, hq, rfl⟩ := Cell.mem_ruleNames.mp hname
      obtain ⟨hjob, hpass⟩ :=
        hfilled.allSteps hnames (upholds_allowsStep hnames hstd) hsize hb a hstock q hq
      have hq_makes := ((hgrounded span hsize b hb a hstock).steps q hq).makes
      have hq_plain : q.step.rule.isOverloaded = false := by
        rw [Bool.eq_false_iff]
        exact fun hfolded => hbefore (hq_makes.job_folded hfolded ▸ hjob)
      have hroot : q.step.making.root = base.root :=
        ((hgrounded span hsize b hb a hstock).packed.root q hq).trans hhas.category
      have hfold := hfolds nf hnf _ rfl q.step.making hq_makes hpass hq_plain
        (congrArg some hroot.symm)
      rwa [RuleName.plain_base hplain, hresult] at hfold

/-- Without pruning, jobs push nothing else. -/
theorem upholds_makesNormal (hnames : ctx.grammar.OwnNames)
    (hstd : ∀ nf ∈ ctx.grammar.normalForm, nf.Standard) :
    ctx.Upholds ctx.Spares ctx.MakesNormal where
  offers := by
    intro done chart span job m hfilled hsize hready hnew hspares hsteps hmakes hoffer
    have hallows : ctx.AllowsStep chart m := by
      refine (upholds_allowsStep hnames hstd).offers hfilled hsize hready hnew hspares
        (fun b hb c hc p hp => ?_) hmakes hoffer
      obtain ⟨hjob, hnormal⟩ := hsteps b hb c hc p hp
      exact ⟨hjob, hnormal.allows⟩
    refine ⟨hmakes, hallows, fun nf hnf u hu other hother hother_allows hother_plain hroot => ?_⟩
    have hm_ready : Ready ctx.size done m.job :=
      hoffer.job_eq hnames hmakes.span_eq ▸ hready
    have hdone := hmakes.mem_of_folded hm_ready hu hother hother_plain
    have hother_normal : ctx.MakesNormal chart span other :=
      .of_plain hother_plain hother hother_allows
    cases hoffer with
    | entry entry => exact absurd hu nofun
    | split _ _ _ _ _ _ _ hrule happly _ =>
      obtain ⟨_, hplain⟩ := hnames.binary_result hrule happly
      exact absurd ((RuleName.unary_eq_none hplain).symm.trans hu) nofun
    | @unary b a p rule result name hb ha hp hrule happly hpass hname =>
      obtain ⟨hresult, _⟩ := hnames.unary_result hrule happly
      obtain ⟨_, hplain, rfl⟩ := RuleName.overload_eq_ok.mp hname
      obtain rfl := Option.some.inj hu
      -- the other step is in the same cell
      obtain ⟨d, hd, hhas⟩ :=
        hfilled.has (makeable_makesNormal hnames hstd) hsize hb hother_normal hdone
      have hstock := Beam.mem_stock_of_kept ha
      have hproot := (hfilled.grounded span hsize b hb a hstock).packed.root p
        (List.mem_filter.mp hp).1
      have hcat : d.category = a.category :=
        hhas.category.trans ((Option.some.inj hroot).symm.trans hproot)
      obtain rfl := (hfilled.calm hsize hb).eq_of_category hd ha hcat
      obtain ⟨q, hq, hmaking⟩ := List.mem_map.mp ((Cell.containsStep_iff _ _).mp hhas.step)
      rw [RuleName.plain_base hplain, hresult]
      refine (hstd nf hnf).allowsUnary_of_endIn (.of_subset fun name hname => ?_) (hpass nf hnf)
      obtain rfl := List.mem_singleton.mp hname
      exact Cell.mem_ruleNames.mpr ⟨q, hq, congrArg Making.rule hmaking⟩
  stays hclosed hready hcells _ h := h.transfer hnames hclosed hready hcells

end Context

end Categorial
