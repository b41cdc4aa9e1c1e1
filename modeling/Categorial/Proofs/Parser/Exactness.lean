import Categorial.Proofs.Parser.Crowding
import Categorial.Proofs.Parser.Equivalence

/-! # Charts that no wider beam changes

A chart without pruned spans is the same for all wider beams if and only if the unary rules have
missed nothing. If they have, the chart lacks steps that a wider beam would find, but does not say
so.
-/

namespace Categorial

variable {S : Type} {ρ : CellId → CellId} {chart chart' : Chart S} {first last : Nat} {span : Span}

theorem Chart.SameUnder.matched {b b' : Beam S} (h : chart.SameUnder ρ chart')
    (hb : chart.beam? first last = some b) (hb' : chart'.beam? first last = some b') :
    Matched ρ chart chart' first last := by
  refine ⟨⟨⟨b, hb⟩, b', hb'⟩, fun key c hc => ?_, fun key' d hd => ?_,
    fun key key' c c' hc hc' heq => ?_⟩
  · obtain ⟨hfirst, hlast, d, hd, halike, _⟩ := h.forth _ c hc
    have hid : ρ ⟨first, last, key⟩ = ⟨first, last, (ρ ⟨first, last, key⟩).key⟩ := by
      rw [CellId.mk.injEq]
      exact ⟨hfirst, hlast, rfl⟩
    exact ⟨_, d, hid, hid ▸ hd, halike⟩
  · obtain ⟨⟨f, l, key⟩, c, hc, hid⟩ := h.back _ d hd
    obtain ⟨hfirst, hlast, _⟩ := h.forth _ c hc
    rw [hid] at hfirst hlast
    obtain rfl : first = f := hfirst
    obtain rfl : last = l := hlast
    exact ⟨key, c, hc, hid⟩
  · exact (CellId.mk.inj (h.inj _ _ c c' hc hc' heq)).2.2

theorem Chart.SameUnder.mem_steps_of_mem {q : PackedStep S} {d : Cell S} {key : Nat}
    (h : chart.SameUnder ρ chart') (hd : chart'.cell ⟨first, last, key⟩ = .ok d)
    (hq : q ∈ d.steps) :
    ∃ key' c p, chart.cell ⟨first, last, key'⟩ = .ok c ∧ p ∈ c.steps ∧ p.rename ρ = q := by
  obtain ⟨⟨f, l, key'⟩, c, hc, hid⟩ := h.back _ d hd
  obtain ⟨hfirst, hlast, d', hd', halike, _⟩ := h.forth _ c hc
  rw [hid] at hfirst hlast hd'
  obtain rfl : first = f := hfirst
  obtain rfl : last = l := hlast
  obtain rfl := Except.ok.inj (hd.symm.trans hd')
  obtain ⟨p, hp, hpq⟩ := List.mem_map.mp (halike.steps.mem_iff.mp hq)
  exact ⟨key', c, p, hc, hp, hpq⟩

variable [ExactScalar S] {ctx : Context S} {beam : Nat} {done done' : Set Job}
  {before b : Beam S} {steps : List (PackedStep S)} {candidates cells : List (Cell S)}
    {pruned : Bool}

theorem Finishes.exists_kept (h : Finishes ctx span before steps candidates cells pruned b)
    (hc : Collects ctx chart done span before steps) (hctx : ctx.Regular)
    (hsize : span.size = ctx.size) {p : PackedStep S} (hp : p ∈ steps ++ stepsOf cells)
    {category : Category} (hcategory : p.step.intermediate = some category) :
    ∃ a ∈ before.cells.map (·.2), a.category = category := by
  rcases List.mem_append.mp hp with hp | hp
  · obtain ⟨job, hjob, _, ⟨cs, _⟩, hr, hp⟩ := (hc.mem_iff p).mp hp
    obtain ⟨cands, hcands, _, hs⟩ := sieved_of_base hctx hsize hjob hr
    obtain ⟨c, hc, hp⟩ := mem_stepsOf.mp (hs.mem_stepsOf hp)
    rw [Context.intermediate_of_base hsize hjob hcands hc hp] at hcategory
    exact absurd hcategory nofun
  · obtain ⟨c, hmem, hp⟩ := mem_stepsOf.mp (h.sieved.mem_stepsOf hp)
    obtain ⟨a, ha, cs, hcs, hmem⟩ := (mem_yieldAll h.yields).mp hmem
    obtain ⟨r, hr, q, hq, hbetween⟩ := Context.step_of_unaryOf hcs hmem
    obtain rfl := List.mem_singleton.mp (hq ▸ hp)
    have hpacks := hc.holds.stocks.packs a (Beam.mem_stock_of_kept ha)
    refine ⟨a, ha, ?_⟩
    rw [← hpacks.packed.root r hr]
    exact Option.some.inj (hbetween.symm.trans hcategory)

theorem Finishes.mem_kept (h : Finishes ctx span before steps candidates cells pruned b)
    (hpruned : b.isPruned = false) {p : PackedStep S} (hp : p ∈ stepsOf candidates) :
    ∃ c ∈ b.cells.map (·.2), p ∈ c.steps := by
  obtain ⟨_, rfl⟩ := h.unmarked hpruned
  have hp : p ∈ steps ++ stepsOf cells :=
    List.mem_append_right _ (h.sieved.mem_of_not_pruned.mpr hp)
  obtain ⟨c, hc, hcat⟩ := h.holds.stocks.covers p hp
  refine ⟨c, ?_, ((h.holds.stocks.packs c hc).mem_steps p).mpr ⟨hp, hcat.symm⟩⟩
  have haside := (Beam.isPruned_eq_false_iff.mp hpruned).2.2
  rw [Beam.kept_eq]
  simpa [Beam.stock, haside] using hc

/-- If a beam with room for all gives the same chart, nothing was missed. -/
theorem Beside.unaryOf_setAside (h : Beside ctx beam done done' chart chart')
    (hall' : ∀ job, job.Within ctx.size → job ∈ done') (hsame : chart.SameUnder ρ chart')
    (hexact : chart.prunedSpans = []) (hsize : span.size = ctx.size)
    (hb : chart.beam? span.first span.last = some b)
    (hc : Collects ctx chart done span before steps)
    (hf : Finishes ctx span before steps candidates cells pruned b)
    (hroom : before.stock.length ≤ beam) : ∀ c ∈ before.setAside, ctx.unaryOf span c = .ok [] := by
  intro c haside
  have hctx' := h.regular.withBeam h.beam_le
  have hpruned := h.whole.prunedSpans_eq_nil_iff.mp hexact _ _ _ hb
  have hmatched : ∀ part : Span, part.size = ctx.size →
      Matched ρ chart chart' part.first part.last := by
    intro part hpart
    obtain ⟨b, _, hb, _⟩ := (h.whole.spans part hpart).exists_beam h.regular hpart
    obtain ⟨b', _, hb', _⟩ := (h.part.spans part hpart).exists_beam hctx' hpart
    exact hsame.matched hb hb'
  have hbelow : MatchedBelow ρ chart chart' span := fun k hk =>
    ⟨hmatched (span.split k hk).1 hsize, hmatched (span.split k hk).2 hsize⟩
  obtain ⟨before', b', steps', candidates', cells', pruned', hb', hc', hf'⟩ :=
    h.part.exists_finished hall' hsize
  have hpruned' := h.part.prunedSpans_eq_nil_iff.mp (hsame.prunedSpans.trans hexact) _ _ _ hb'
  obtain ⟨hsteps, _⟩ := h.steps_same hbelow hsize
    (fun job hjob => hall' job ⟨span, hsize, .inl hjob⟩)
    hc hc' (.inr (hf.unmarked hpruned).1)
  -- the counterpart of the cell is kept
  have hstock := hc.holds.stocks.alike hc'.holds.stocks hsteps.mem_iff hsteps.inj
  obtain ⟨d, hd, halike⟩ := hstock.exists_of_mem (List.mem_append_right _ haside)
  have hnone : before'.setAside = [] := by
    rw [hc'.holds.setAside_eq_nil_iff, hc'.suits.capacity]
    calc (contenders before'.separateLexical before'.stock).length
        ≤ before'.stock.length := List.length_filter_le _ _
      _ = before.stock.length := hstock.length_eq.symm
      _ ≤ beam := hroom
  have hkept : d ∈ before'.cells.map (·.2) := by
    rw [Beam.kept_eq]
    simpa [Beam.stock, hnone] using hd
  obtain ⟨ds, hds⟩ := exists_yieldAll_iff.mp ⟨_, hf'.yields⟩ d hkept
  rw [← Context.unaryOf_eq_nil_congr halike]
  suffices hnil : ds = [] by rwa [hnil] at hds
  refine List.eq_nil_iff_forall_not_mem.mpr fun e he => ?_
  -- so what the rules make of it is in both charts, but the first made nothing of that category
  obtain ⟨r, hr, q, hq, hbetween⟩ := Context.step_of_unaryOf hds he
  have hroot : r.step.root = c.category := by
    rw [(hc'.holds.stocks.packs d hd).packed.root r hr, halike.category]
  have hmem : q ∈ stepsOf candidates' :=
    mem_stepsOf.mpr ⟨e, (mem_yieldAll hf'.yields).mpr ⟨d, hkept, ds, hds, he⟩, hq ▸ .head _⟩
  obtain ⟨e', he', hqe⟩ := hf'.mem_kept hpruned' hmem
  obtain ⟨key', hkey'⟩ := Beam.mem_kept_iff.mp he'
  obtain ⟨key, f, p, hcell, hp, hpq⟩ :=
    hsame.mem_steps_of_mem (Chart.cell_eq_ok_iff.mpr ⟨b', hb', hkey'⟩) hqe
  obtain ⟨b₁, hb₁, hkey⟩ := Chart.cell_eq_ok_iff.mp hcell
  obtain rfl := Option.some.inj (hb.symm.trans hb₁)
  have hmade := hf.holds.mem_of_kept (Beam.mem_kept_iff.mpr ⟨key, hkey⟩) hp
  have hsome : p.step.intermediate = some c.category := by
    rw [← hroot, ← hbetween, ← hpq]
    rfl
  obtain ⟨a, ha, hcat⟩ := hf.exists_kept hc h.regular hsize hmade hsome
  exact hc.holds.category_ne ha haside hcat

namespace Context

variable {g : Grammar} {tokens : List String} {model : Model S} {options : ParseOptions}

/-- A chart without pruned spans is the same for all wider beams if and only if the unary rules have
missed nothing. Where lexical cells are pruned like all others they never do. -/
theorem isExact_iff_missesNothing (hnew : Context.new g tokens model options = .ok ctx)
    (hties : g.breakTies = false) (hparse : ctx.parseSequentially = .ok chart)
    (hexact : chart.isExact = true) :
    ((∀ beam, ctx.config.beam ≤ beam → ∃ wider chart',
        Context.new g tokens model { options with beam := some beam } = .ok wider ∧
          wider.parseSequentially = .ok chart' ∧ chart.Same chart') ↔ ctx.MissesNothing chart) ∧
      (g.pruneLexical = true → ctx.MissesNothing chart) := by
  obtain ⟨hctx, _⟩ := regular_of_new hnew hties
  obtain ⟨whole, hwhole, rfl⟩ := sound_of_parseSequentially hctx hparse
  have hall : ∀ job : Job, job.Within ctx.size → job ∈ {j | j ∈ Job.ofSentence ctx.size} :=
    fun job hjob => Job.mem_ofSentence_iff.mpr hjob
  have hexact : whole.prunedSpans = [] := by
    rw [← Chart.prunedSpans_close]
    exact List.isEmpty_iff.mp hexact
  have hunpruned := hwhole.prunedSpans_eq_nil_iff.mp hexact
  rw [missesNothing_close]
  refine ⟨⟨fun hwider => ?_, fun hmisses beam hle => ?_⟩, fun hlexical => ?_⟩
  · refine hwhole.missesNothing hctx hall fun span before b steps _ _ _ hsize hb hc hf => ?_
    obtain ⟨wider, chart', hnew', hparse', ρ, hsame⟩ :=
      hwider (max ctx.config.beam before.stock.length) (le_max_left _ _)
    obtain rfl := Except.ok.inj ((new_withBeam hnew (le_max_left _ _)).symm.trans hnew')
    have hle : ctx.config.beam ≤ max ctx.config.beam before.stock.length := le_max_left _ _
    obtain ⟨whole', hwhole', rfl⟩ := sound_of_parseSequentially (hctx.withBeam hle) hparse'
    exact Beside.unaryOf_setAside ⟨hctx, hwhole, hall, hwhole', hle⟩ hall
      (Chart.sameUnder_close.mp hsame) hexact hsize hb hc hf (le_max_right _ _)
  · have hcomplete := hmisses.complete hctx hall hunpruned
    have hcompared : ∀ done' chart', Sound (ctx.withBeam beam) done' chart' →
        Compared ctx beam {j | j ∈ Job.ofSentence ctx.size} done' whole chart' := fun _ _ hpart =>
      ⟨⟨hctx, hwhole, hall, hpart, hle⟩, .inr hcomplete⟩
    have hworks : (ctx.withBeam beam).Works := fun _ _ _ hpart => (hcompared _ _ hpart).works
    obtain ⟨chart', hparse'⟩ := exists_parseSequentially (hctx.withBeam hle) hworks
    obtain ⟨whole', hwhole', rfl⟩ := sound_of_parseSequentially (hctx.withBeam hle) hparse'
    have hsame := (hcompared _ _ hwhole').sameUnder hall
    exact ⟨_, _, new_withBeam hnew hle, hparse', _, Chart.sameUnder_close.mpr hsame⟩
  · have hsep : ctx.config.separateLexical = false := by
      simp only [Context.new] at hnew
      split_ifs at hnew
      obtain rfl := Except.ok.inj hnew
      simp [Grammar.chartConfig, hlexical]
    refine hwhole.missesNothing hctx hall
      fun span before b steps _ _ _ hsize hb hc hf c haside => ?_
    have hnone := hf.setAside_eq_nil hc hsep
      (Beam.isPruned_eq_false_iff.mp (hunpruned _ _ _ hb)).2.2
    simp [hnone] at haside

/-- In an exact chart of two words that a wider beam changes, the unary rules have missed
something. -/
theorem isExact_iff_missesNothing_crowded : ∃ ctx chart,
    Context.new crowding ["a", "b"] preferring .default = .ok ctx ∧
      ctx.parseSequentially = .ok chart ∧ chart.isExact = true ∧
      ((∀ beam, ctx.config.beam ≤ beam → ∃ wider chart',
        Context.new crowding ["a", "b"] preferring { ParseOptions.default with beam := some beam } =
            .ok wider ∧
          wider.parseSequentially = .ok chart' ∧ chart.Same chart') ↔ ctx.MissesNothing chart) ∧
      ¬ ctx.MissesNothing chart := by
  obtain ⟨chart, hchart, hexact, hmissed⟩ := exists_parse_crowded
  exact ⟨crowded, chart, new_crowded, hchart, hexact,
    (isExact_iff_missesNothing new_crowded rfl hchart hexact).1, hmissed⟩

end Context

end Categorial
