import Categorial.Proofs.Parser.Correspondence
import Categorial.Proofs.Parser.Growth

/-! # Charts that match

Spans of two charts match if they have the same cells under other handles. What a job yields on one
chart it then yields on the other, up to handles.
-/

namespace Categorial

variable {S : Type}

/-- The spans have the same cells, and a renaming of handles takes one to the other. -/
structure Matched (ρ : CellId → CellId) (chart chart' : Chart S) (first last : Nat) : Prop where
  beams : (∃ b, chart.beam? first last = some b) ∧ ∃ b, chart'.beam? first last = some b
  forth : ∀ key c, chart.cell ⟨first, last, key⟩ = .ok c → ∃ key' d,
    ρ ⟨first, last, key⟩ = ⟨first, last, key'⟩ ∧ chart'.cell ⟨first, last, key'⟩ = .ok d ∧
      c.Alike ρ d
  back : ∀ key' d, chart'.cell ⟨first, last, key'⟩ = .ok d → ∃ key c,
    chart.cell ⟨first, last, key⟩ = .ok c ∧ ρ ⟨first, last, key⟩ = ⟨first, last, key'⟩
  inj : ∀ key key' c c', chart.cell ⟨first, last, key⟩ = .ok c →
    chart.cell ⟨first, last, key'⟩ = .ok c' → ρ ⟨first, last, key⟩ = ρ ⟨first, last, key'⟩ →
      key = key'

def Chart.counterpart (chart chart' : Chart S) (id : CellId) : CellId :=
  match chart.cell id with
  | .ok cell =>
    match chart'.find id.first id.last cell.category with
    | .ok (some other) => other
    | _ => id
  | .error _ => id

variable {chart chart' : Chart S} {b b' : Beam S} {span : Span} {first last : Nat}
  {ρ : CellId → CellId} {id : CellId} {c d : Cell S}

theorem Beam.mem_kept_iff : c ∈ b.cells.map (·.2) ↔ ∃ key, b.cell? key = some c := by
  rw [List.mem_map]
  constructor
  · rintro ⟨⟨key, c⟩, hm, rfl⟩
    exact ⟨key, Chart.mem_cells_iff.mp hm⟩
  · rintro ⟨key, hkey⟩
    exact ⟨(key, c), Chart.mem_cells_iff.mpr hkey, rfl⟩

theorem counterpart_eq (hcell : chart.cell id = .ok c)
    (hbeam : chart'.beam? id.first id.last = some b')
    (hb' : b'.Indexed) {key : Nat} (hkey : b'.cell? key = some d) (hcat : d.category = c.category) :
    chart.counterpart chart' id = ⟨id.first, id.last, key⟩ := by
  have hfind : chart'.find id.first id.last c.category = .ok (some ⟨id.first, id.last, key⟩) := by
    refine bind_eq_ok.mpr ⟨b', Chart.beam_eq_ok_iff.mpr hbeam, ?_⟩
    rw [← hcat, hb'.find?_eq hkey]
    rfl
  simp only [Chart.counterpart, hcell, hfind]

theorem matched_of_alike (hbeam : chart.beam? first last = some b)
    (hbeam' : chart'.beam? first last = some b') (hb : b.Indexed) (hb' : b'.Indexed)
    (h : AlikeCells (chart.counterpart chart') (b.cells.map (·.2)) (b'.cells.map (·.2))) :
    Matched (chart.counterpart chart') chart chart' first last := by
  have hcell : ∀ key c, chart.cell ⟨first, last, key⟩ = .ok c ↔ b.cell? key = some c := by
    intro key c
    simp [Chart.cell_eq_ok_iff, hbeam]
  have hcell' : ∀ key d, chart'.cell ⟨first, last, key⟩ = .ok d ↔ b'.cell? key = some d := by
    intro key d
    simp [Chart.cell_eq_ok_iff, hbeam']
  have hforth : ∀ key c, chart.cell ⟨first, last, key⟩ = .ok c → ∃ key' d,
      chart.counterpart chart' ⟨first, last, key⟩ = ⟨first, last, key'⟩ ∧
        chart'.cell ⟨first, last, key'⟩ = .ok d ∧ c.Alike (chart.counterpart chart') d := by
    intro key c hc
    obtain ⟨d, hd, halike⟩ := h.exists_of_mem (Beam.mem_kept_iff.mpr ⟨_, (hcell key c).mp hc⟩)
    obtain ⟨key', hkey'⟩ := Beam.mem_kept_iff.mp hd
    exact ⟨key', d, counterpart_eq hc hbeam' hb' hkey' halike.category, (hcell' key' d).mpr hkey',
      halike⟩
  refine ⟨⟨⟨b, hbeam⟩, b', hbeam'⟩, hforth, ?_, ?_⟩
  · intro key' d hd
    have hkey' := (hcell' key' d).mp hd
    obtain ⟨c, hc, halike⟩ := h.exists_of_mem_right (Beam.mem_kept_iff.mpr ⟨_, hkey'⟩)
    obtain ⟨key, hkey⟩ := Beam.mem_kept_iff.mp hc
    have hc := (hcell key c).mpr hkey
    exact ⟨key, c, hc, counterpart_eq hc hbeam' hb' hkey' halike.category⟩
  · intro key₁ key₂ c₁ c₂ hc₁ hc₂ heq
    obtain ⟨key', d, hid, hd, halike₁⟩ := hforth key₁ c₁ hc₁
    obtain ⟨key'', d', hid', hd', halike₂⟩ := hforth key₂ c₂ hc₂
    obtain rfl : key' = key'' := (CellId.mk.inj (hid.symm.trans (heq.trans hid'))).2.2
    obtain rfl := Except.ok.inj (hd.symm.trans hd')
    obtain ⟨held₁, hheld₁, rfl⟩ := Option.map_eq_some_iff.mp ((hcell key₁ c₁).mp hc₁)
    obtain ⟨held₂, hheld₂, rfl⟩ := Option.map_eq_some_iff.mp ((hcell key₂ c₂).mp hc₂)
    exact hb.key_unique hheld₁ hheld₂ (halike₁.category.symm.trans halike₂.category)

namespace Matched

theorem exists_arguments (h : Matched ρ chart chart' first last) :
    ∃ arguments arguments', Context.arguments chart first last = .ok arguments ∧
      Context.arguments chart' first last = .ok arguments' ∧
      Paired (Context.Argument.Renamed ρ) arguments arguments' := by
  obtain ⟨⟨b, hb⟩, b', hb'⟩ := h.beams
  obtain ⟨as, has⟩ : ∃ as, Context.arguments chart first last = .ok as :=
    ⟨_, bind_eq_ok.mpr ⟨b, Chart.beam_eq_ok_iff.mpr hb, rfl⟩⟩
  obtain ⟨as', has'⟩ : ∃ as, Context.arguments chart' first last = .ok as :=
    ⟨_, bind_eq_ok.mpr ⟨b', Chart.beam_eq_ok_iff.mpr hb', rfl⟩⟩
  refine ⟨as, as', has, has', fun a ha => ?_, fun a' ha' => ?_⟩
  · obtain ⟨key, c, hc, rfl⟩ := (mem_arguments_iff has).mp ha
    obtain ⟨key', d, hid, hd, halike⟩ := h.forth key c hc
    exact ⟨_, (mem_arguments_iff has').mpr ⟨key', d, hd, rfl⟩, hid.symm, halike, rfl, rfl⟩
  · obtain ⟨key', d, hd, rfl⟩ := (mem_arguments_iff has').mp ha'
    obtain ⟨key, c, hc, hid⟩ := h.back key' d hd
    obtain ⟨key'', d', hid', hd', halike⟩ := h.forth key c hc
    obtain rfl : key'' = key' := (CellId.mk.inj (hid'.symm.trans hid)).2.2
    obtain rfl := Except.ok.inj (hd.symm.trans hd')
    exact ⟨_, (mem_arguments_iff has).mpr ⟨key, c, hc, rfl⟩, hid.symm, halike, rfl, rfl⟩

end Matched

def MatchedBelow (ρ : CellId → CellId) (chart chart' : Chart S) (span : Span) : Prop :=
  ∀ k < span.numSplits, Matched ρ chart chart' span.first (span.first + k) ∧
    Matched ρ chart chart' (span.first + k + 1) span.last

theorem MatchedBelow.of_reads (h : MatchedBelow ρ chart chart' span) {job : Job}
    (hjob : job.Base span) : ∀ x ∈ job.reads, Matched ρ chart chart' x.1 x.2 := by
  intro x hx
  cases hjob with
  | lexical => simp [Job.reads] at hx
  | split hk =>
    rcases List.mem_pair.mp hx with rfl | rfl
    · exact (h _ hk).1
    · exact (h _ hk).2

section Candidates

variable [Scalar S] {ctx : Context S} {p q : PackedStep S}

theorem exists_cells_of_scoresOf {left right : CellId} {scores : ChildScores S}
    (h : chart.scoresOf (.cells left right) = .ok scores) :
    (∃ c, chart.cell left = .ok c) ∧ ∃ c, chart.cell right = .ok c := by
  obtain ⟨l, hl, h⟩ := bind_eq_ok.mp h
  obtain ⟨r, hr, _⟩ := bind_eq_ok.mp h
  exact ⟨⟨l, hl⟩, r, hr⟩

theorem Source.eq_of_rename_eq {source source' : Source} (hm : MatchedBelow ρ chart chart' span)
    (hs : source.Splits span) (hs' : source'.Splits span) {scores scores' : ChildScores S}
    (hc : chart.scoresOf source = .ok scores) (hc' : chart.scoresOf source' = .ok scores')
    (h : source.rename ρ = source'.rename ρ) : source = source' := by
  cases source with
  | entry e => cases source' with
    | entry e' => exact h
    | cells left right => exact absurd h nofun
  | cells left right => cases source' with
    | entry e' => exact absurd h nofun
    | cells left' right' =>
      obtain ⟨⟨l, hl⟩, r, hr⟩ := exists_cells_of_scoresOf hc
      obtain ⟨⟨l', hl'⟩, r', hr'⟩ := exists_cells_of_scoresOf hc'
      obtain ⟨lf, ll, lk⟩ := left
      obtain ⟨rf, rl, rk⟩ := right
      obtain ⟨lf', ll', lk'⟩ := left'
      obtain ⟨rf', rl', rk'⟩ := right'
      obtain ⟨k, hk, rfl, rfl, rfl, rfl⟩ := hs
      obtain ⟨k', hk', rfl, rfl, rfl, rfl⟩ := hs'
      obtain ⟨hleft, hright⟩ := Source.cells.inj h
      -- the renaming stays in the span, so both are cut at the same place
      obtain ⟨_, _, hid, _⟩ := (hm k hk).1.forth lk l hl
      obtain ⟨_, _, hid', _⟩ := (hm k' hk').1.forth lk' l' hl'
      obtain rfl : k = k' := by
        have := (CellId.mk.inj (hid.symm.trans (hleft.trans hid'))).2.1
        omega
      rw [(hm k hk).1.inj lk lk' l l' hl hl' hleft, (hm k hk).2.inj rk rk' r r' hr hr' hright]

theorem Faithful.rename_inj (hm : MatchedBelow ρ chart chart' span)
    (hp : Faithful ctx chart span p) (hq : Faithful ctx chart span q)
    (h : p.rename ρ = q.rename ρ) : p = q := by
  refine hp.eq_of_making hq ?_
  have hmaking : p.step.making.rename ρ = q.step.making.rename ρ :=
    congrArg (fun x : PackedStep S => x.step.making) h
  have hsource : p.step.making.source = q.step.making.source :=
    Source.eq_of_rename_eq hm hp.splits hq.splits hp.scores hq.scores
      (congrArg Making.source hmaking)
  calc p.step.making
      = { p.step.making.rename ρ with source := p.step.making.source } := rfl
    _ = { q.step.making.rename ρ with source := q.step.making.source } := by rw [hmaking, hsource]
    _ = q.step.making := rfl

/-- Faithful steps stay apart under a renaming that matches what they build on. -/
theorem sameSteps_of_faithful {xs ys : List (PackedStep S)} (hm : MatchedBelow ρ chart chart' span)
    (hf : ∀ p ∈ xs, Faithful ctx chart span p)
    (hmem : ∀ q, q ∈ ys ↔ ∃ p ∈ xs, p.rename ρ = q) : SameSteps ρ xs ys :=
  ⟨hmem, fun p hp q hq => (hf p hp).rename_inj hm (hf q hq)⟩

theorem sameSteps_of_fresh {cs ds : List (Cell S)} {x y : Except Fault (List (Cell S))}
    (hm : MatchedBelow ρ chart chart' span) (h : Corresponds ρ x y) (hx : x = .ok cs)
    (hy : y = .ok ds)
    (hf : ∀ c ∈ cs, Fresh ctx chart span c) : SameSteps ρ (stepsOf cs) (stepsOf ds) := by
  have hfaithful : ∀ p ∈ stepsOf cs, Faithful ctx chart span p := fun p hp => by
    obtain ⟨c, hc, hp⟩ := mem_stepsOf.mp hp
    exact (hf c hc).faithful hp
  exact sameSteps_of_faithful hm hfaithful (h.mem_iff cs ds hx hy)

variable {job : Job}

/-- On charts that match where a job reads, it has the same candidates. -/
theorem candidates_correspond (hsize : span.size = ctx.size) (hjob : job.Base span)
    (h : ∀ x ∈ job.reads, Matched ρ chart chart' x.1 x.2) :
    Corresponds ρ (ctx.candidates chart job) (ctx.candidates chart' job) := by
  cases hjob with
  | lexical =>
    rw [Context.candidates_lexical hsize, Context.candidates_lexical hsize]
    exact .yieldAll (.refl (fun entry => Context.entryCells_corresponds entry) _)
  | split hk =>
    obtain ⟨lefts, lefts', hl, hl', hlefts⟩ := (h _ (.head _)).exists_arguments
    obtain ⟨rights, rights', hr, hr', hrights⟩ := (h _ (.tail _ (.head _))).exists_arguments
    rw [Context.candidates_split hsize hk, Context.candidates_split hsize hk, hl, hr, hl', hr']
    exact Context.binaryYield_corresponds hlefts hrights

end Candidates

end Categorial
