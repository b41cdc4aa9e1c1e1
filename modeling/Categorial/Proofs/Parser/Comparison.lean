import Categorial.Proofs.Parser.InTurn
import Categorial.Proofs.Parser.Matching

/-! # Two parses of one sentence

A whole chart and another one that is still being filled, with the same beam or with a wider one. On
all spans that the second has finished they match, and whatever job of it is ready meets no fault.
-/

namespace Categorial

variable {S : Type}

def Context.withBeam (ctx : Context S) (beam : Nat) : Context S :=
  { ctx with config := { ctx.config with beam } }

theorem Context.Regular.withBeam {ctx : Context S} {beam : Nat} (h : ctx.Regular)
    (hle : ctx.config.beam ≤ beam) : (ctx.withBeam beam).Regular :=
  ⟨h.order, h.beam_pos.trans_le hle⟩

theorem Context.new_withBeam {ctx : Context S} {g : Grammar} {tokens : List String}
    {model : Model S}
    {options : ParseOptions} (hnew : Context.new g tokens model options = .ok ctx) {beam : Nat}
    (hle : ctx.config.beam ≤ beam) :
    Context.new g tokens model { options with beam := some beam } = .ok (ctx.withBeam beam) := by
  simp only [Context.new] at hnew ⊢
  split_ifs at hnew with htokens hbeam
  obtain rfl := Except.ok.inj hnew
  have hpos : beam ≠ 0 := ((Nat.pos_of_ne_zero hbeam).trans_le hle).ne'
  rw [if_neg htokens]
  exact if_neg hpos

def Context.withModel (ctx : Context S) (model : Model S) : Context S :=
  { ctx with model }

theorem Context.new_withModel {ctx : Context S} {g : Grammar} {tokens : List String}
    {model model' : Model S} {options : ParseOptions}
    (hnew : Context.new g tokens model options = .ok ctx)
    (hlexicon : model'.lexicon = model.lexicon) :
    Context.new g tokens model' options = .ok (ctx.withModel model') := by
  simp only [Context.new] at hnew ⊢
  split_ifs at hnew ⊢
  obtain rfl := Except.ok.inj hnew
  rw [hlexicon]
  rfl

theorem addCounts_mono {a b c : Nat} (h : a ≤ b) : addCounts a c ≤ addCounts b c :=
  min_le_min_right _ (Nat.add_le_add_right h c)

theorem mulCounts_mono {a b c : Nat} (h : a ≤ b) : mulCounts a c ≤ mulCounts b c :=
  min_le_min_right _ (Nat.mul_le_mul_right c h)

theorem exists_tight {c : Prop} [Decidable c] {tight wide : Nat} (hle : tight ≤ wide) :
    ∀ limit ∈ (if c then some wide else none), ∃ t ∈ (if c then some tight else none),
      t ≤ limit := by
  split_ifs
  · rintro limit ⟨⟩
    exact ⟨_, rfl, hle⟩
  · nofun

theorem Context.batchCapacity_wider {ctx : Context S} {beam : Nat} (hle : ctx.config.beam ≤ beam)
    (job : Job) : ∀ limit ∈ (ctx.withBeam beam).batchCapacity job,
      ∃ tight ∈ ctx.batchCapacity job, tight ≤ limit := by
  cases job with
  | lexical first last => exact exists_tight hle
  | split first last k => exact exists_tight (addCounts_mono (mulCounts_mono hle))
  | unary first last => exact exists_tight (addCounts_mono (mulCounts_mono hle))

theorem Beam.isPruned_eq_false_iff {b : Beam S} : b.isPruned = false ↔
    b.rejected = false ∧ b.externallyPruned = false ∧ b.setAside = [] := by
  simp [Beam.isPruned, and_assoc]

variable [ExactScalar S]

/-- Nothing was pruned, and the unary rules would have made nothing of the cells that were set aside
before it was their turn. -/
structure Complete (ctx : Context S) (done : Set Job) (chart : Chart S) : Prop where
  unpruned : ∀ first last b, chart.beam? first last = some b → b.isPruned = false
  unmissed : ∀ (span : Span) before steps, span.size = ctx.size →
    Collects ctx chart done span before steps → ∀ c ∈ before.setAside, ctx.unaryOf span c = .ok []

/-- A whole chart and one that is being filled with the same beam or with a wider one. -/
structure Beside (ctx : Context S) (beam : Nat) (done done' : Set Job) (chart chart' : Chart S) :
    Prop where
  regular : ctx.Regular
  whole : Sound ctx done chart
  all : ∀ job, job.Within ctx.size → job ∈ done
  part : Sound (ctx.withBeam beam) done' chart'
  beam_le : ctx.config.beam ≤ beam

/-- If the beam is wider, the whole chart is complete. -/
structure Compared (ctx : Context S) (beam : Nat) (done done' : Set Job) (chart chart' : Chart S) :
    Prop extends Beside ctx beam done done' chart chart' where
  complete : beam = ctx.config.beam ∨ Complete ctx done chart

variable {ctx : Context S} {beam : Nat} {done done' : Set Job} {chart chart' : Chart S}
  {ρ : CellId → CellId} {span : Span} {job : Job} {before before' b b' : Beam S}
  {steps steps' : List (PackedStep S)} {candidates candidates' cells cells' : List (Cell S)}
  {pruned pruned' : Bool}

theorem Sound.exists_finished (h : Sound ctx done chart)
    (hall : ∀ job, job.Within ctx.size → job ∈ done) (hsize : span.size = ctx.size) :
    ∃ before b steps candidates cells pruned, chart.beam? span.first span.last = some b ∧
      Collects ctx chart done span before steps ∧
      Finishes ctx span before steps candidates cells pruned b := by
  cases h.spans span hsize with
  | growing hu => exact absurd (hall _ ⟨span, hsize, .inr rfl⟩) hu
  | finished _ hbeam hcollects hfinishes => exact ⟨_, _, _, _, _, _, hbeam, hcollects, hfinishes⟩

theorem Finishes.unmarked (h : Finishes ctx span before steps candidates cells pruned b)
    (hpruned : b.isPruned = false) : before.externallyPruned = false ∧ pruned = false := by
  have hmarked := (Beam.isPruned_eq_false_iff.mp hpruned).2.1
  rwa [h.marked, Bool.or_eq_false_iff] at hmarked

namespace Beside

variable (h : Beside ctx beam done done' chart chart')

include h

/-- Of the same candidates both parses hand over the same. -/
theorem sieved_same (hs : Sieved span candidates (ctx.batchCapacity job) cells pruned)
    (hs' : Sieved span candidates' ((ctx.withBeam beam).batchCapacity job) cells' pruned')
    (hsame : SameSteps ρ (stepsOf candidates) (stepsOf candidates'))
    (hpruned : beam = ctx.config.beam ∨ pruned = false) :
    SameSteps ρ (stepsOf cells) (stepsOf cells') ∧ pruned' = pruned := by
  rcases hpruned with rfl | rfl
  · exact hs.same hs' hsame
  · exact hs.same_of_wider hs' hsame (Context.batchCapacity_wider h.beam_le job)

theorem steps_same (hm : MatchedBelow ρ chart chart' span) (hsize : span.size = ctx.size)
    (hbase : ∀ job, job.Base span → job ∈ done') (hc : Collects ctx chart done span before steps)
    (hc' : Collects (ctx.withBeam beam) chart' done' span before' steps')
    (hmarked : beam = ctx.config.beam ∨ before.externallyPruned = false) :
    SameSteps ρ steps steps' ∧ before'.externallyPruned = before.externallyPruned := by
  have hagree : ∀ job, job.Base span → ∃ r r', ctx.cellsOf chart job = .ok r ∧
      (ctx.withBeam beam).cellsOf chart' job = .ok r' ∧
      SameSteps ρ (stepsOf r.1) (stepsOf r'.1) ∧ r'.2 = r.2 := by
    intro job hjob
    have hd := h.all job ⟨span, hsize, .inl hjob⟩
    obtain ⟨⟨cells, pruned⟩, hcells⟩ := hc.worked job hjob hd
    obtain ⟨⟨cells', pruned'⟩, hcells'⟩ := hc'.worked job hjob (hbase job hjob)
    obtain ⟨cs, hcs, hfresh, hs⟩ := sieved_of_base h.regular hsize hjob hcells
    obtain ⟨cs', hcs', _, hs'⟩ := sieved_of_base (h.regular.withBeam h.beam_le) hsize hjob hcells'
    have hcor := candidates_correspond hsize hjob (hm.of_reads hjob)
    have hsame := sameSteps_of_fresh hm hcor hcs hcs' hfresh
    refine ⟨_, _, hcells, hcells', h.sieved_same hs hs' hsame
      (hmarked.imp_right fun hunmarked => ?_)⟩
    by_contra hpruned
    have hsupplied : Supplied ctx chart done span fun r => r.2 = true :=
      ⟨job, hjob, hd, _, hcells, by simpa using hpruned⟩
    rw [← hc.marked_iff, hunmarked] at hsupplied
    exact absurd hsupplied (by decide)
  constructor
  · refine sameSteps_of_faithful hm (fun p hp => hc.faithful h.regular hsize hp) fun q => ?_
    rw [hc'.mem_iff]
    constructor
    · rintro ⟨job, hjob, _, r', hr', hq⟩
      obtain ⟨r, r₂, hr, hr₂, hsame, _⟩ := hagree job hjob
      obtain rfl := Except.ok.inj (hr'.symm.trans hr₂)
      obtain ⟨p, hp, hpq⟩ := (hsame.mem_iff q).mp hq
      exact ⟨p, (hc.mem_iff p).mpr ⟨job, hjob, h.all job ⟨span, hsize, .inl hjob⟩, r, hr, hp⟩, hpq⟩
    · rintro ⟨p, hp, hpq⟩
      obtain ⟨job, hjob, _, r, hr, hp⟩ := (hc.mem_iff p).mp hp
      obtain ⟨r₁, r', hr₁, hr', hsame, _⟩ := hagree job hjob
      obtain rfl := Except.ok.inj (hr.symm.trans hr₁)
      exact ⟨job, hjob, hbase job hjob, r', hr', (hsame.mem_iff q).mpr ⟨p, hp, hpq⟩⟩
  · rw [Bool.eq_iff_iff, hc.marked_iff, hc'.marked_iff]
    constructor
    · rintro ⟨job, hjob, _, r', hr', hp⟩
      obtain ⟨r, r₂, hr, hr₂, _, heq⟩ := hagree job hjob
      obtain rfl := Except.ok.inj (hr'.symm.trans hr₂)
      exact ⟨job, hjob, h.all job ⟨span, hsize, .inl hjob⟩, r, hr, heq.symm.trans hp⟩
    · rintro ⟨job, hjob, _, r, hr, hp⟩
      obtain ⟨r₁, r', hr₁, hr', _, heq⟩ := hagree job hjob
      obtain rfl := Except.ok.inj (hr.symm.trans hr₁)
      exact ⟨job, hjob, hbase job hjob, r', hr', heq.trans hp⟩

theorem unary_corresponds (hc : Collects ctx chart done span before steps)
    (hc' : Collects (ctx.withBeam beam) chart' done' span before' steps')
    (hsame : SameSteps ρ steps steps')
    (hmissed : beam = ctx.config.beam ∨ ∀ c ∈ before.setAside, ctx.unaryOf span c = .ok []) :
    Corresponds ρ (yieldAll (ctx.unaryOf span) (before.cells.map (·.2)))
      (yieldAll ((ctx.withBeam beam).unaryOf span) (before'.cells.map (·.2))) := by
  have hsep := hc'.suits.separateLexical.trans hc.suits.separateLexical.symm
  have hcap := hc'.suits.capacity
  rcases hmissed with rfl | hmissed
  · obtain ⟨hkept, _⟩ := hc.holds.alike hc'.holds (hcap.trans hc.suits.capacity.symm) hsep
      hsame.mem_iff hsame.inj
    exact .yieldAll (hkept.paired.imp fun c d hcd => Context.unaryOf_corresponds hcd)
  · have hstock := hc.holds.stocks.alike hc'.holds.stocks hsame.mem_iff hsame.inj
    refine .yieldAll_of (fun c hcell => ?_) fun d hcell => ?_
    · have hmem : c ∈ before.stock := Beam.mem_stock_of_kept hcell
      obtain ⟨d, hd, halike⟩ := hstock.exists_of_mem hmem
      refine ⟨d, ?_, Context.unaryOf_corresponds halike⟩
      refine hc.holds.mem_kept_of_wider hc'.holds ?_ hsep hsame.mem_iff hsame.inj hcell hd halike
      rw [hc.suits.capacity, hcap]
      exact h.beam_le
    · have hmem : d ∈ before'.stock := Beam.mem_stock_of_kept hcell
      obtain ⟨c, hcell', halike⟩ := hstock.exists_of_mem_right hmem
      have hcor : Corresponds ρ (ctx.unaryOf span c) (ctx.unaryOf span d) :=
        Context.unaryOf_corresponds halike
      rcases List.mem_append.mp hcell' with hkept | haside
      · exact .inl ⟨c, Beam.kept_eq before ▸ hkept, hcor⟩
      · exact .inr (hcor.idle_iff.mpr ⟨[], hmissed c haside, rfl⟩)

theorem kept_alike (hb : b.Holds span steps) (hb' : b'.Holds span steps')
    (hsuits : b.Suits ctx.config) (hsuits' : b'.Suits (ctx.withBeam beam).config)
    (hsame : SameSteps ρ steps steps') (hmarked : b'.externallyPruned = b.externallyPruned)
    (hpruned : beam = ctx.config.beam ∨ b.isPruned = false) :
    AlikeCells ρ (b.cells.map (·.2)) (b'.cells.map (·.2)) ∧ b'.isPruned = b.isPruned := by
  have hsep := hsuits'.separateLexical.trans hsuits.separateLexical.symm
  rcases hpruned with rfl | hpruned
  · obtain ⟨hkept, haside⟩ := hb.alike hb' (hsuits'.capacity.trans hsuits.capacity.symm) hsep
      hsame.mem_iff hsame.inj
    refine ⟨hkept, ?_⟩
    rw [Beam.isPruned, Beam.isPruned, hb.rejected, hb'.rejected, hmarked, haside.isEmpty_eq]
  · obtain ⟨hrejected, hexternally, haside⟩ := Beam.isPruned_eq_false_iff.mp hpruned
    have hcap : b.capacity ≤ b'.capacity := by
      rw [hsuits.capacity, hsuits'.capacity]
      exact h.beam_le
    obtain ⟨hkept, haside'⟩ := hb.alike_of_wider hb' hcap hsep hsame.mem_iff hsame.inj haside
    refine ⟨hkept, ?_⟩
    rw [hpruned, Beam.isPruned_eq_false_iff]
    exact ⟨hb'.rejected, hmarked.trans hexternally, haside'⟩

end Beside

namespace Compared

variable (h : Compared ctx beam done done' chart chart')

include h

theorem exists_finished (hsize : span.size = ctx.size) :
    ∃ before b steps candidates cells pruned, chart.beam? span.first span.last = some b ∧
      Collects ctx chart done span before steps ∧
      Finishes ctx span before steps candidates cells pruned b ∧
      (beam = ctx.config.beam ∨ before.externallyPruned = false ∧ pruned = false ∧
        b.isPruned = false ∧ ∀ c ∈ before.setAside, ctx.unaryOf span c = .ok []) := by
  obtain ⟨before, b, steps, candidates, cells, pruned, hbeam, hcollects, hfinishes⟩ :=
    h.whole.exists_finished h.all hsize
  refine ⟨_, _, _, _, _, _, hbeam, hcollects, hfinishes, h.complete.imp_right fun hcomplete => ?_⟩
  have hpruned := hcomplete.unpruned _ _ _ hbeam
  obtain ⟨hmarked, hsieved⟩ := hfinishes.unmarked hpruned
  exact ⟨hmarked, hsieved, hpruned, hcomplete.unmissed span before steps hsize hcollects⟩

/-- A span that both have finished matches if all that is below it does. -/
theorem matched_of_below (hm : MatchedBelow (chart.counterpart chart') chart chart' span)
    (hsize : span.size = ctx.size) (hu : .unary span.first span.last ∈ done') :
    Matched (chart.counterpart chart') chart chart' span.first span.last ∧
      ∃ b b', chart.beam? span.first span.last = some b ∧
        chart'.beam? span.first span.last = some b' ∧ b'.isPruned = b.isPruned := by
  have hbase : ∀ job, job.Base span → job ∈ done' := fun job hjob =>
    (h.part.closed _ hu).awaited job (Job.base_iff_mem_awaits.mp hjob)
  obtain ⟨before, b, steps, cs, cells, pruned, hbeam, hc, hf, hcomplete⟩ := h.exists_finished hsize
  cases h.part.spans span hsize with
  | growing hnot => exact absurd hu hnot
  | @finished before' b' steps' cs' cells' pruned' _ hbeam' hc' hf' =>
    obtain ⟨hsame, hmarked⟩ := h.steps_same hm hsize hbase hc hc'
      (hcomplete.imp_right fun hcomp => hcomp.1)
    have hcor := h.unary_corresponds hc hc' hsame (hcomplete.imp_right fun hcomp => hcomp.2.2.2)
    have hfresh := hc.fresh h.regular hsize hf.yields
    have hcands := sameSteps_of_fresh hm hcor hf.yields hf'.yields hfresh
    obtain ⟨hcells, hpruned⟩ := h.sieved_same hf.sieved hf'.sieved hcands
      (hcomplete.imp_right fun hcomp => hcomp.2.1)
    have hfaithful : ∀ p ∈ steps ++ stepsOf cells, Faithful ctx chart span p := fun p hp =>
      (List.mem_append.mp hp).elim (hc.faithful h.regular hsize) (hf.sieved.faithful hfresh)
    have hall : SameSteps (chart.counterpart chart') (steps ++ stepsOf cells)
        (steps' ++ stepsOf cells') := by
      refine sameSteps_of_faithful hm hfaithful fun q => ?_
      simp only [List.mem_append, hsame.mem_iff, hcells.mem_iff, or_and_right, exists_or]
    have hflag : b'.externallyPruned = b.externallyPruned := by
      rw [hf.marked, hf'.marked, hmarked, hpruned]
    obtain ⟨hkept, hflags⟩ := h.kept_alike hf.holds hf'.holds hf.suits hf'.suits hall hflag
      (hcomplete.imp_right fun hcomp => hcomp.2.2.1)
    exact ⟨matched_of_alike hbeam hbeam' hf.holds.indexed hf'.holds.indexed hkept, b, b', hbeam,
      hbeam', hflags⟩

theorem matched (part : Span) (hsize : part.size = ctx.size)
    (hu : .unary part.first part.last ∈ done') :
    Matched (chart.counterpart chart') chart chart' part.first part.last ∧
      ∃ b b', chart.beam? part.first part.last = some b ∧
        chart'.beam? part.first part.last = some b' ∧ b'.isPruned = b.isPruned := by
  induction hn : part.length using Nat.strong_induction_on generalizing part with
  | _ n ih =>
    subst hn
    refine h.matched_of_below (fun k hk => ?_) hsize hu
    have hsplit : .split part.first part.last k ∈ done' :=
      (h.part.closed _ hu).awaited _ (Job.base_iff_mem_awaits.mp (.split hk))
    have hready := h.part.closed _ hsplit
    have hlength := part.length_split hk
    have hleft := (part.split k hk).1.length_pos
    have hright := (part.split k hk).2.length_pos
    exact ⟨(ih _ (by omega) (part.split k hk).1 hsize (hready.awaited _ (.head _)) rfl).1,
      (ih _ (by omega) (part.split k hk).2 hsize (hready.awaited _ (.tail _ (.head _))) rfl).1⟩

theorem matched_reads (hjob : job.Base span) (hsize : span.size = ctx.size)
    (hready : Ready ctx.size done' job) :
    ∀ x ∈ job.reads, Matched (chart.counterpart chart') chart chart' x.1 x.2 := by
  intro x hx
  cases hjob with
  | lexical => simp [Job.reads] at hx
  | split hk =>
    rcases List.mem_pair.mp hx with rfl | rfl
    · exact (h.matched (span.split _ hk).1 hsize (hready.awaited _ (.head _))).1
    · exact (h.matched (span.split _ hk).2 hsize (hready.awaited _ (.tail _ (.head _)))).1

/-- Whatever job is ready in the second parse meets no fault. -/
theorem works (hready : Ready ctx.size done' job) (hnew : job ∉ done') :
    ∃ r, (ctx.withBeam beam).cellsOf chart' job = .ok r := by
  refine h.part.exists_cellsOf (h.regular.withBeam h.beam_le) hready hnew ?_
  obtain ⟨span, hsize, hjob⟩ := hready.within
  obtain ⟨before, b, steps, _, _, _, hbeam, hc, hf, hcomplete⟩ := h.exists_finished hsize
  rcases hjob with hjob | rfl
  · obtain ⟨⟨cells, pruned⟩, hcells⟩ := hc.worked job hjob (h.all job ⟨span, hsize, .inl hjob⟩)
    have hcor := candidates_correspond hsize hjob (h.matched_reads hjob hsize hready)
    exact hcor.ok_iff.mpr (Context.exists_candidates hcells)
  · have hbase : ∀ job, job.Base span → job ∈ done' := fun job hjob =>
      hready.awaited job (Job.base_iff_mem_awaits.mp hjob)
    have hm : MatchedBelow (chart.counterpart chart') chart chart' span := fun k hk => by
      have hreads := h.matched_reads (.split hk) hsize (h.part.closed _ (hbase _ (.split hk)))
      exact ⟨hreads _ (.head _), hreads _ (.tail _ (.head _))⟩
    cases h.part.spans span hsize with
    | finished hu => exact absurd hu hnew
    | @growing before' steps' _ hbeam' hc' =>
      obtain ⟨hsame, _⟩ := h.steps_same hm hsize hbase hc hc'
        (hcomplete.imp_right fun hcomp => hcomp.1)
      have hcor := h.unary_corresponds hc hc' hsame (hcomplete.imp_right fun hcomp => hcomp.2.2.2)
      obtain ⟨cs', hcs'⟩ := hcor.ok_iff.mpr ⟨_, hf.yields⟩
      have hsize' : span.size = (ctx.withBeam beam).size := hsize
      rw [Context.candidates_unary hsize']
      exact ⟨cs', bind_eq_ok.mpr ⟨before', Chart.beam_eq_ok_iff.mpr hbeam', hcs'⟩⟩

end Compared

end Categorial
