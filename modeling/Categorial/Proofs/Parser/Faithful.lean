import Categorial.Proofs.Chart.Layout
import Categorial.Proofs.Parser.Sieve

/-! # Steps that follow from their making

What a job records of a step follows from what makes the step and from the finished cells that it
builds on. So no two jobs disagree about a step, and their cells can be offered to one beam.
-/

namespace Categorial

variable {S : Type}

/-- The handles below a step cover the two parts of its span. -/
def Source.Splits (span : Span) : Source → Prop
  | entry _ => True
  | cells left right => ∃ k < span.numSplits, left.first = span.first ∧ left.last = span.first + k ∧
    right.first = span.first + k + 1 ∧ right.last = span.last

def Context.Argument.FoundIn (a : Context.Argument S) (chart : Chart S) (first last : Nat) : Prop :=
  ∃ key cell, chart.cell ⟨first, last, key⟩ = .ok cell ∧
    a = ⟨⟨first, last, key⟩, cell, cell.ruleNames⟩

theorem mem_arguments_iff {chart : Chart S} {first last : Nat}
    {arguments : List (Context.Argument S)}
    (h : Context.arguments chart first last = .ok arguments) {a : Context.Argument S} :
    a ∈ arguments ↔ a.FoundIn chart first last := by
  obtain ⟨b, hb, h⟩ := bind_eq_ok.mp h
  obtain rfl := Except.ok.inj h
  have hb' := Chart.beam_eq_ok_iff.mp hb
  rw [List.mem_map]
  constructor
  · rintro ⟨⟨key, cell⟩, hm, rfl⟩
    exact ⟨key, cell, Chart.cell_eq_ok_iff.mpr ⟨b, hb', Chart.mem_cells_iff.mp hm⟩, rfl⟩
  · rintro ⟨key, cell, hcell, rfl⟩
    obtain ⟨b', hb'', hkey⟩ := Chart.cell_eq_ok_iff.mp hcell
    obtain rfl := Option.some.inj (hb'.symm.trans hb'')
    exact ⟨(key, cell), Chart.mem_cells_iff.mpr hkey, rfl⟩

variable [Scalar S]

def Chart.scoresOf (chart : Chart S) : Source → Except Fault (ChildScores S)
  | .entry _ => .ok .leaf
  | .cells left right => do
    let l ← chart.cell left
    let r ← chart.cell right
    .ok (.ofCells [l, r])

/-- A step of a span whose scores are those of its making. -/
structure Faithful (ctx : Context S) (chart : Chart S) (span : Span) (p : PackedStep S) : Prop where
  span_eq : p.step.span = span
  scored : ∃ full, ctx.isFullParse span p.step.root = .ok full ∧
    p.step = .scored ctx.model p.step.making full
  splits : p.step.making.source.Splits span
  scores : chart.scoresOf p.step.making.source = .ok p.children

/-- A cell of one step as jobs push it. -/
def Fresh (ctx : Context S) (chart : Chart S) (span : Span) (cell : Cell S) : Prop :=
  ∃ p : PackedStep S, cell = .new p.step p.children ∧ Faithful ctx chart span p

variable {ctx : Context S} {chart chart' : Chart S} {span : Span} {p q : PackedStep S}

namespace Faithful

theorem eq_of_making (hp : Faithful ctx chart span p) (hq : Faithful ctx chart span q)
    (h : p.step.making = q.step.making) : p = q := by
  obtain ⟨full, hfull, hstep⟩ := hp.scored
  obtain ⟨full', hfull', hstep'⟩ := hq.scored
  have hroot : p.step.root = q.step.root := congrArg Making.root h
  rw [hroot] at hfull
  obtain rfl := Except.ok.inj (hfull.symm.trans hfull')
  have hchildren : p.children = q.children := by
    have := hp.scores
    rw [h] at this
    exact Except.ok.inj (this.symm.trans hq.scores)
  have hsteps : p.step = q.step :=
    hstep.trans ((congrArg (Step.scored ctx.model · full) h).trans hstep'.symm)
  obtain ⟨s, c⟩ := p
  obtain ⟨s', c'⟩ := q
  exact congrArg₂ PackedStep.mk hsteps hchildren

theorem isFullParse (hp : Faithful ctx chart span p) :
    ctx.isFullParse span p.step.root = .ok p.step.isFullParse := by
  obtain ⟨full, hfull, hstep⟩ := hp.scored
  rw [hfull, hstep]
  rfl

end Faithful

theorem coherent_of_faithful {steps : List (PackedStep S)}
    (h : ∀ p ∈ steps, Faithful ctx chart span p) : Coherent steps :=
  fun p hp q hq => (h p hp).eq_of_making (h q hq)

theorem Fresh.faithful {cell : Cell S} (h : Fresh ctx chart span cell) (hp : p ∈ cell.steps) :
    Faithful ctx chart span p := by
  obtain ⟨q, rfl, hq⟩ := h
  obtain rfl : p = q := List.mem_singleton.mp hp
  exact hq

section Candidates

variable {cells : List (Cell S)} {cell : Cell S}

/-- The unary rules make fresh cells of cells whose steps are faithful. -/
theorem fresh_of_unaryOf {arguments : List (Cell S)}
    (ha : ∀ a ∈ arguments, ∀ p ∈ a.steps, Faithful ctx chart span p)
    (h : yieldAll (ctx.unaryOf span) arguments = .ok cells) (hc : cell ∈ cells) :
    Fresh ctx chart span cell := by
  obtain ⟨a, hmem, cs, hcs, hc⟩ := (mem_yieldAll h).mp hc
  obtain ⟨p, hp, result, full, step, hfull, hstep, rfl⟩ := Context.mem_unaryOf hcs hc
  obtain ⟨name, _, hstep⟩ := bind_eq_ok.mp hstep
  obtain rfl := Except.ok.inj hstep
  have hfaithful := ha a hmem p hp
  exact ⟨⟨_, p.children⟩, rfl, hfaithful.span_eq, ⟨full, hfull, rfl⟩, hfaithful.splits,
    hfaithful.scores⟩

theorem Span.ofBounds_self (span : Span) :
    Span.ofBounds span.first span.last span.size = .ok span := by
  simp [Span.ofBounds, Span.ofBounds?, span.first_le_last, span.last_lt_size]

namespace Context

variable (hsize : span.size = ctx.size)

include hsize

theorem candidates_lexical : ctx.candidates chart (.lexical span.first span.last) =
    yieldAll (ctx.entryCells span) (ctx.lexicon.entriesFor (ctx.tokensOf span)) := by
  simp only [candidates, Job.first, Job.last, ← hsize, Span.ofBounds_self]
  rfl

theorem candidates_split {k : Nat} (hk : k < span.numSplits) :
    ctx.candidates chart (.split span.first span.last k) = (do
      let lefts ← arguments chart span.first (span.first + k)
      let rights ← arguments chart (span.first + k + 1) span.last
      ctx.binaryYield span lefts rights) := by
  have hsplit : span.splitAt k = .ok (span.split k hk) := dif_pos hk
  simp only [candidates, Job.first, Job.last, ← hsize, Span.ofBounds_self]
  show (span.splitAt k >>= _) = _
  rw [hsplit]
  rfl

theorem candidates_unary : ctx.candidates chart (.unary span.first span.last) = (do
    let beam ← chart.beam span.first span.last
    yieldAll (ctx.unaryOf span) (beam.cells.map (·.2))) := by
  simp only [candidates, Job.first, Job.last, ← hsize, Span.ofBounds_self]
  rfl

theorem mem_candidates_lexical
    (h : ctx.candidates chart (.lexical span.first span.last) = .ok cells) :
    cell ∈ cells ↔ ∃ entry ∈ ctx.lexicon.entriesFor (ctx.tokensOf span),
      ctx.hardPrunes ⟨entry.category, span, .lexical⟩ = .ok false ∧
      ∃ full, ctx.isFullParse span entry.category = .ok full ∧
        cell = .new (.lexical ctx.model entry span full) .leaf := by
  rw [candidates_lexical hsize] at h
  exact mem_yieldAll_iff h fun _ _ _ => mem_entryCells_iff

theorem mem_candidates_split {k : Nat} (hk : k < span.numSplits)
    (h : ctx.candidates chart (.split span.first span.last k) = .ok cells) :
    cell ∈ cells ↔ ∃ left right, left.FoundIn chart span.first (span.first + k) ∧
      right.FoundIn chart (span.first + k + 1) span.last ∧
      ∃ rule ∈ ctx.grammar.binaryRules, ∃ result,
        ctx.applyBinary rule left right = .ok (some result) ∧
        ctx.prunes ⟨result.category, span, rule.name⟩ true = .ok false ∧
        ∃ full, ctx.isFullParse span result.category = .ok full ∧
          cell = .new (.binary ctx.model result span left.id right.id full)
            (.ofCells [left.cell, right.cell]) := by
  rw [candidates_split hsize hk] at h
  obtain ⟨lefts, hlefts, h⟩ := bind_eq_ok.mp h
  obtain ⟨rights, hrights, h⟩ := bind_eq_ok.mp h
  rw [mem_yieldAll_iff h fun _ _ _ h => mem_yieldAll_iff h fun _ _ _ h =>
    mem_yieldAll_iff h fun _ _ _ => mem_binaryCells_iff]
  constructor
  · rintro ⟨left, hl, right, hr, hmade⟩
    exact ⟨left, right, (mem_arguments_iff hlefts).mp hl, (mem_arguments_iff hrights).mp hr, hmade⟩
  · rintro ⟨left, right, hl, hr, hmade⟩
    exact ⟨left, (mem_arguments_iff hlefts).mpr hl, right, (mem_arguments_iff hrights).mpr hr,
      hmade⟩

theorem mem_candidates_unary
    (h : ctx.candidates chart (.unary span.first span.last) = .ok cells) :
    cell ∈ cells ↔ ∃ b, chart.beam? span.first span.last = some b ∧ ∃ a ∈ b.cells.map (·.2),
      ∃ rule ∈ ctx.grammar.unaryRules, ∃ result,
        ctx.applyUnary rule ⟨⟨span.first, span.last, 0⟩, a, a.ruleNames⟩ = .ok (some result) ∧
        ctx.prunes ⟨result.category, span, rule.name⟩ false = .ok false ∧
        ∃ full, ctx.isFullParse span result.category = .ok full ∧
        ∃ p ∈ plainSteps a, ∃ step, p.step.overload ctx.model result full = .ok step ∧
          cell = .new step p.children := by
  rw [candidates_unary hsize] at h
  obtain ⟨b, hb, h⟩ := bind_eq_ok.mp h
  have hb := Chart.beam_eq_ok_iff.mp hb
  rw [mem_yieldAll_iff h fun _ _ _ => mem_unaryOf_iff]
  constructor
  · exact fun hmade => ⟨b, hb, hmade⟩
  · rintro ⟨b', hb', hmade⟩
    obtain rfl := Option.some.inj (hb.symm.trans hb')
    exact hmade

end Context

end Candidates

theorem offerable_of_fresh {S : Type} [ExactScalar S] {ctx : Context S} {chart : Chart S}
    {span : Span}
    {cells : List (Cell S)} (h : ∀ c ∈ cells, Fresh ctx chart span c) : Offerable span cells where
  packed c hc := by
    obtain ⟨p, rfl, _⟩ := h c hc
    exact Cell.packed_new _ _
  span_eq c hc := by
    obtain ⟨p, rfl, hp⟩ := h c hc
    exact hp.span_eq
  coherent := coherent_of_faithful fun p hp => by
    obtain ⟨c, hc, hp⟩ := mem_stepsOf.mp hp
    exact (h c hc).faithful hp

end Categorial
