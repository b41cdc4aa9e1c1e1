import Categorial.Proofs.Chart.Same
import Categorial.Proofs.Parser.Comparison

/-! # Whole charts of one sentence

Where both charts of a comparison are whole, they are the same but for the names of handles.
-/

namespace Categorial

variable {S : Type} [ExactScalar S] {ctx : Context S} {beam : Nat} {done done' : Set Job}
  {chart chart' : Chart S} {id : CellId} {c : Cell S}

namespace Sound

theorem exists_span (h : Sound ctx done chart) (hc : chart.cell id = .ok c) :
    ∃ span : Span, span.size = ctx.size ∧ span.first = id.first ∧ span.last = id.last := by
  obtain ⟨b, hb, _⟩ := Chart.cell_eq_ok_iff.mp hc
  obtain ⟨hle, hlt⟩ := Chart.bounds_of_beam? h.size hb
  exact ⟨⟨id.first, id.last, ctx.size, hle, hlt⟩, rfl, rfl, rfl⟩

theorem isFullParse (h : Sound ctx done chart) (hctx : ctx.Regular) {span : Span}
    (hsize : span.size = ctx.size) {key : Nat}
    (hc : chart.cell ⟨span.first, span.last, key⟩ = .ok c) :
    ctx.isFullParse span c.category = .ok c.isFullParse := by
  obtain ⟨b, steps, hbeam, hholds, _, hfaithful⟩ := (h.spans span hsize).exists_beam hctx hsize
  obtain ⟨b', hbeam', hkey⟩ := Chart.cell_eq_ok_iff.mp hc
  obtain rfl := Option.some.inj (hbeam.symm.trans hbeam')
  have hkept : c ∈ b.cells.map (·.2) := Beam.mem_kept_iff.mpr ⟨key, hkey⟩
  have hpacks := hholds.stocks.packs c (Beam.mem_stock_of_kept hkept)
  obtain ⟨p, hp, hflag⟩ := hpacks.packed.flag
  rw [hflag, ← hpacks.packed.root p hp]
  exact (hfaithful p (hholds.mem_of_kept hkept hp)).isFullParse

end Sound

namespace Compared

/-- Whole charts are the same under the renaming by category. -/
theorem sameUnder (h : Compared ctx beam done done' chart chart')
    (hall : ∀ job, job.Within ctx.size → job ∈ done') :
    chart.SameUnder (chart.counterpart chart') chart' := by
  have hmatched : ∀ span : Span, span.size = ctx.size → _ := fun span hsize =>
    h.matched span hsize (hall _ ⟨span, hsize, .inr rfl⟩)
  have htokens : chart'.tokens = chart.tokens := h.part.tokens.trans h.whole.tokens.symm
  refine ⟨htokens, ?_, ?_, ?_, ?_⟩
  · intro id c hc
    obtain ⟨span, hsize, hf, hl⟩ := h.whole.exists_span hc
    obtain ⟨f, l, key⟩ := id
    obtain rfl : span.first = f := hf
    obtain rfl : span.last = l := hl
    obtain ⟨key', d, hid, hd, halike⟩ := (hmatched span hsize).1.forth key c hc
    rw [hid]
    refine ⟨rfl, rfl, d, hd, halike, ?_⟩
    have hflag := h.whole.isFullParse h.regular hsize hc
    have hflag' : ctx.isFullParse span d.category = .ok d.isFullParse :=
      h.part.isFullParse (h.regular.withBeam h.beam_le) hsize hd
    rw [halike.category] at hflag'
    exact Except.ok.inj (hflag'.symm.trans hflag)
  · intro id d hd
    obtain ⟨span, hsize, hf, hl⟩ := h.part.exists_span hd
    obtain ⟨f, l, key'⟩ := id
    obtain rfl : span.first = f := hf
    obtain rfl : span.last = l := hl
    obtain ⟨key, c, hc, hid⟩ := (hmatched span hsize).1.back key' d hd
    exact ⟨_, c, hc, hid⟩
  · intro id id' c c' hc hc' heq
    obtain ⟨span, hsize, hf, hl⟩ := h.whole.exists_span hc
    obtain ⟨span', hsize', hf', hl'⟩ := h.whole.exists_span hc'
    obtain ⟨f, l, key⟩ := id
    obtain ⟨f', l', key'⟩ := id'
    obtain rfl : span.first = f := hf
    obtain rfl : span.last = l := hl
    obtain rfl : span'.first = f' := hf'
    obtain rfl : span'.last = l' := hl'
    obtain ⟨_, _, hid, _⟩ := (hmatched span hsize).1.forth key c hc
    obtain ⟨_, _, hid', _⟩ := (hmatched span' hsize').1.forth key' c' hc'
    obtain ⟨hfirst, hlast, _⟩ := CellId.mk.inj (hid.symm.trans (heq.trans hid'))
    obtain rfl := Span.ext_bounds (hsize.trans hsize'.symm) hfirst hlast
    rw [(hmatched span hsize).1.inj key key' c c' hc hc' heq]
  · have hsize : chart'.size = chart.size := congrArg List.length htokens
    unfold Chart.prunedSpans
    rw [hsize]
    refine List.filter_congr fun (first, last) hx => ?_
    obtain ⟨hle, hlt⟩ := mem_spansByStart_iff.mp hx
    have hlt : last < ctx.size := lt_of_lt_of_eq hlt (congrArg List.length h.whole.tokens)
    obtain ⟨_, b, b', hb, hb', hpruned⟩ := hmatched ⟨first, last, ctx.size, hle, hlt⟩ rfl
    show (chart'.beam? first last).any Beam.isPruned = (chart.beam? first last).any Beam.isPruned
    rw [hb, hb']
    exact hpruned

end Compared

end Categorial
