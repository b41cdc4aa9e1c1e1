import Categorial.Proofs.Parser.Comparison
import Categorial.Proofs.Chart.Same

/-! # Grammars that raise no fault

A parse ends with a chart if no rule and no filter raises a fault, and the unary rules do not report
overloaded names.
-/

namespace Categorial

namespace Context

variable {S : Type} {ctx : Context S}

/-- No rule and no filter raises a fault. -/
structure Faultless (ctx : Context S) : Prop where
  filter : ∀ filter, ctx.filter = some filter → ∀ c, ∃ keeps, filter c = .ok keeps
  isComplete : ∀ category, ∃ full, ctx.grammar.isComplete category = .ok full
  binary : ∀ rule ∈ ctx.grammar.binaryRules, ∀ left right span, ∃ result,
    rule.apply left right span = .ok result
  accepts : ∀ rule ∈ ctx.grammar.unaryRules, ∀ category span, ∃ could,
    rule.accepts category span = .ok could
  unary : ∀ rule ∈ ctx.grammar.unaryRules, ∀ category span, ∃ result,
    rule.apply category span = .ok result ∧ ∀ r ∈ result, r.name.isOverloaded = false

namespace Faultless

variable (h : ctx.Faultless)

include h

theorem hardPrunes (c : Candidate) : ∃ prunes, ctx.hardPrunes c = .ok prunes := by
  unfold Context.hardPrunes
  split
  · exact ⟨_, rfl⟩
  · exact ⟨_, rfl⟩
  next hfilter =>
    obtain ⟨keeps, hkeeps⟩ := h.filter _ hfilter c
    exact ⟨!keeps, by rw [hkeeps]; rfl⟩

theorem isFullParse (span : Span) (category : Category) :
    ∃ full, ctx.isFullParse span category = .ok full := by
  unfold Context.isFullParse
  split_ifs
  · exact h.isComplete category
  · exact ⟨_, rfl⟩

theorem anyAccepts (c : Candidate) :
    ∃ could, Context.anyAccepts c ctx.grammar.unaryRules = .ok could := by
  have haccepts := h.accepts
  generalize ctx.grammar.unaryRules = rules at haccepts
  induction rules with
  | nil => exact ⟨_, rfl⟩
  | cons rule rules ih =>
    obtain ⟨could, hcould⟩ := haccepts rule (.head _) c.category c.span
    unfold Context.anyAccepts
    rw [hcould]
    cases could with
    | true => exact ⟨_, rfl⟩
    | false => exact ih fun r hr => haccepts r (.tail _ hr)

theorem prunes (c : Candidate) (beforeUnary : Bool) :
    ∃ prunes, ctx.prunes c beforeUnary = .ok prunes := by
  obtain ⟨hard, hhard⟩ := h.hardPrunes c
  obtain ⟨full, hfull⟩ := h.isFullParse c.span c.category
  obtain ⟨could, hcould⟩ := h.anyAccepts c
  simp only [Context.prunes, hhard, hfull, hcould]
  cases hard with
  | true => exact ⟨_, rfl⟩
  | false =>
    cases c.span.isComplete with
    | false => exact ⟨_, rfl⟩
    | true => cases full <;> cases beforeUnary <;> exact ⟨_, rfl⟩

variable [Scalar S] {span : Span}

theorem entryCells (entry : LexicalEntry) : ∃ cells, ctx.entryCells span entry = .ok cells := by
  obtain ⟨prunes, hprunes⟩ := h.hardPrunes ⟨entry.category, span, .lexical⟩
  obtain ⟨full, hfull⟩ := h.isFullParse span entry.category
  simp only [Context.entryCells, hprunes, hfull]
  cases prunes <;> exact ⟨_, rfl⟩

theorem binaryCells {left right : Argument S} {rule : BinaryRule}
    (hrule : rule ∈ ctx.grammar.binaryRules)
    (hmeets : left.cell.span.meets right.cell.span = true)
    (hjoin : left.cell.span.join right.cell.span = .ok span) :
    ∃ cells, ctx.binaryCells span left right rule = .ok cells := by
  obtain ⟨result, hresult⟩ : ∃ result, ctx.applyBinary rule left right = .ok result := by
    simp only [applyBinary, hmeets, hjoin]
    split
    · simp at *
    · split
      · exact ⟨_, rfl⟩
      · exact h.binary rule hrule _ _ _
  cases result with
  | none => exact ⟨[], bind_eq_ok.mpr ⟨_, hresult, rfl⟩⟩
  | some result =>
    obtain ⟨prunes, hprunes⟩ := h.prunes ⟨result.category, span, rule.name⟩ true
    obtain ⟨full, hfull⟩ := h.isFullParse span result.category
    simp only [Context.binaryCells, hresult, hprunes, hfull, bind, Except.bind]
    cases prunes <;> exact ⟨_, rfl⟩

theorem unaryCellsOf (argument : Argument S) {rule : UnaryRule}
    (hrule : rule ∈ ctx.grammar.unaryRules) :
    ∃ cells, ctx.unaryCellsOf span argument rule = .ok cells := by
  obtain ⟨result, hresult, hplain⟩ : ∃ result, ctx.applyUnary rule argument = .ok result ∧
      ∀ r ∈ result, r.name.isOverloaded = false := by
    unfold applyUnary
    split_ifs
    · exact ⟨none, rfl, nofun⟩
    · exact h.unary rule hrule _ _
  cases result with
  | none => exact ⟨[], bind_eq_ok.mpr ⟨_, hresult, rfl⟩⟩
  | some result =>
    obtain ⟨prunes, hprunes⟩ := h.prunes ⟨result.category, span, rule.name⟩ false
    obtain ⟨full, hfull⟩ := h.isFullParse span result.category
    have hcells : ∃ cells, yieldAll (ctx.overloadCells result full) (plainSteps argument.cell) =
        .ok cells := by
      refine exists_yieldAll_iff.mpr fun p hp => ?_
      have hbase : p.step.rule.isOverloaded = false := by simpa using (List.mem_filter.mp hp).2
      have hname : p.step.rule.overload result.name =
          .ok ⟨p.step.rule.base, some result.name.base⟩ := by
        rw [RuleName.overload, RuleName.overload?, hbase, hplain result rfl]
        rfl
      exact ⟨_, bind_eq_ok.mpr ⟨_, bind_eq_ok.mpr ⟨_, hname, rfl⟩, rfl⟩⟩
    simp only [Context.unaryCellsOf, hresult, hprunes, hfull, bind, Except.bind]
    cases prunes with
    | true => exact ⟨_, rfl⟩
    | false => exact hcells

end Faultless

variable [ExactScalar S]

theorem Faultless.works (h : ctx.Faultless) (hctx : ctx.Regular) : ctx.Works := by
  intro done chart job hsound hready hnew
  refine hsound.exists_cellsOf hctx hready hnew ?_
  have hbeam : ∀ part : Span, part.size = ctx.size → ∃ b, chart.beam part.first part.last = .ok b ∧
      ∀ x ∈ b.cells, x.2.span = part := by
    intro part hsize
    obtain ⟨b, steps, hb, hholds, _⟩ := (hsound.spans part hsize).exists_beam hctx hsize
    refine ⟨b, Chart.beam_eq_ok_iff.mpr hb, fun x hx => ?_⟩
    have hmem : x.2 ∈ b.cells.map (·.2) := List.mem_map_of_mem hx
    exact (hholds.stocks.packs _ (Beam.mem_stock_of_kept hmem)).span_eq
  have harguments : ∀ part : Span, part.size = ctx.size → ∃ args,
      arguments chart part.first part.last = .ok args ∧ ∀ a ∈ args, a.cell.span = part := by
    intro part hsize
    obtain ⟨b, hb, hspan⟩ := hbeam part hsize
    refine ⟨_, bind_eq_ok.mpr ⟨b, hb, rfl⟩, fun a ha => ?_⟩
    obtain ⟨x, hx, rfl⟩ := List.mem_map.mp ha
    exact hspan x hx
  obtain ⟨span, hsize, hbase | rfl⟩ := hready.within
  · cases hbase with
    | lexical =>
      rw [candidates_lexical hsize, exists_yieldAll_iff]
      exact fun entry _ => h.entryCells entry
    | split hk =>
      obtain ⟨lefts, hlefts, hlspan⟩ := harguments (span.split _ hk).1 hsize
      obtain ⟨rights, hrights, hrspan⟩ := harguments (span.split _ hk).2 hsize
      obtain ⟨cs, hcs⟩ : ∃ cs, ctx.binaryYield span lefts rights = .ok cs := by
        refine exists_yieldAll_iff.mpr fun l hl => exists_yieldAll_iff.mpr fun r hr =>
          exists_yieldAll_iff.mpr fun rule hrule => h.binaryCells hrule ?_ ?_
        · rw [hlspan l hl, hrspan r hr]
          exact span.meets_split hk
        · rw [hlspan l hl, hrspan r hr]
          exact span.ofBounds_self
      rw [candidates_split hsize hk]
      exact ⟨cs, bind_eq_ok.mpr ⟨lefts, hlefts, bind_eq_ok.mpr ⟨rights, hrights, hcs⟩⟩⟩
  · obtain ⟨b, hb, _⟩ := hbeam span hsize
    rw [candidates_unary hsize]
    obtain ⟨cs, hcs⟩ : ∃ cs, yieldAll (ctx.unaryOf span) (b.cells.map (·.2)) = .ok cs :=
      exists_yieldAll_iff.mpr fun c _ => exists_yieldAll_iff.mpr fun rule hrule =>
        h.unaryCellsOf _ hrule
    exact ⟨cs, bind_eq_ok.mpr ⟨b, hb, hcs⟩⟩

end Context

end Categorial
