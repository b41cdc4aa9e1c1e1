import Categorial.Proofs.Forest.Expectations
import Categorial.Proofs.Forest.Passes
import Categorial.Proofs.Lexicon.Groups
import Categorial.Proofs.Parser.Raising

/-! # Well-formed charts

Each step of a finished chart can be read back: it holds an entry for the tokens of its span, or the
handles of two cells that meet and that a rule of the grammar joined, and a unary rule folded into
it has made its category of the one in between. This is so whatever way the chart was built and
however it was pruned, and passes over its scores do not change it.
-/

namespace Categorial

/-- The source is a table of entries, or several. -/
inductive EntrySource.IsTable : EntrySource → Prop where
  | table (entries : List LexicalEntry) : IsTable (.ofLexicon (.ofEntries entries))
  | union {sources : List EntrySource} :
      (∀ source ∈ sources, IsTable source) → IsTable (.union sources)

theorem EntrySource.IsTable.tokens_eq {source : EntrySource} (h : source.IsTable)
    {tokens : List String} {entry : LexicalEntry} (hentry : entry ∈ source.entriesFor tokens) :
    entry.tokens = tokens := by
  induction h with
  | table entries => exact (Lexicon.tabular_ofEntries entries).tokens_of_mem_entriesFor hentry
  | union _ ih =>
    obtain ⟨source, hsource, hentry⟩ := mem_union.mp hentry
    exact ih source hsource hentry

variable {S : Type}

/-- The category that the entry or the binary rule of a step gives. -/
def Making.base (m : Making) : Category :=
  m.intermediate.getD m.root

/-- What a step is built on: an entry for the tokens of its span, or two cells that meet within its
span and that a binary rule joins. -/
inductive Making.Founded (ctx : Context S) (chart : Chart S) (m : Making) : Prop where
  | entry {entry : LexicalEntry} :
      m.source = .entry entry → entry.tokens = ctx.tokensOf m.span → m.base = entry.category →
      Founded ctx chart m
  | cells {left right : CellId} {l r : Cell S} {cut : Nat} {rule : BinaryRule} :
      m.source = .cells left right → m.span.first ≤ cut → cut < m.span.last →
      left.first = m.span.first → left.last = cut →
      right.first = cut + 1 → right.last = m.span.last →
      chart.cell left = .ok l → chart.cell right = .ok r → rule ∈ ctx.grammar.binaryRules →
      rule.apply l.category r.category m.span = .ok (some ⟨rule.name, m.base⟩) →
      Founded ctx chart m

/-- A unary rule makes the category of the step of the one in between, and without a unary rule
there is none in between. -/
structure Making.Folded (ctx : Context S) (m : Making) : Prop where
  overloaded : m.rule.isOverloaded = true → ∃ between ∈ m.intermediate,
    ∃ rule ∈ ctx.grammar.unaryRules, rule.apply between m.span = .ok (some ⟨rule.name, m.root⟩)
  plain : m.rule.isOverloaded = false → m.intermediate = none

namespace Context.Makes

variable {ctx : Context S} {chart : Chart S} {span : Span} {m : Making}

theorem base_eq_root (hnames : ctx.grammar.OwnNames) (h : ctx.Makes chart span m)
    (hplain : m.rule.isOverloaded = false) : m.base = m.root := by
  have hnone : m.intermediate = none := by simpa [hplain] using (h.isOverloaded hnames).symm
  rw [Making.base, hnone, Option.getD_none]

theorem folded (hnames : ctx.grammar.OwnNames) (h : ctx.Makes chart span m) : m.Folded ctx where
  overloaded := by
    intro hrule
    cases h with
    | entry _ _ =>
      have hplain : RuleName.lexical.isOverloaded = false := rfl
      exact absurd (hplain.symm.trans hrule) Bool.false_ne_true
    | binary _ _ _ hmem happly _ =>
      rw [(hnames.binary_result hmem happly).2] at hrule
      exact absurd hrule Bool.false_ne_true
    | @unary base rule result _ _ _ hmem happly _ _ =>
      refine ⟨base.root, rfl, rule, hmem, happly.trans ?_⟩
      rw [← (hnames.unary_result hmem happly).1]
  plain hrule := by simpa [hrule] using (h.isOverloaded hnames).symm

theorem founded (hnames : ctx.grammar.OwnNames)
    (htokens : ∀ entry ∈ ctx.lexicon.entriesFor (ctx.tokensOf span),
      entry.tokens = ctx.tokensOf span)
    (h : ctx.Makes chart span m) : m.Founded ctx chart := by
  induction h with
  | entry hentry _ => exact .entry rfl (htokens _ hentry) rfl
  | @binary left right l r rule result hsplits hl hr hmem happly _ =>
    obtain ⟨k, hk, hlf, hll, hrf, hrl⟩ := hsplits
    unfold Span.numSplits at hk
    have hle : span.first ≤ span.first + k := Nat.le_add_right _ _
    have hlt : span.first + k < span.last := by omega
    refine .cells rfl hle hlt hlf hll hrf hrl hl hr hmem (happly.trans ?_)
    rw [← (hnames.binary_result hmem happly).1]
    rfl
  | unary hbase hplain _ _ _ _ ih =>
    -- the unary rule leaves what the step is built on
    have hroot := hbase.base_eq_root hnames hplain
    have hspan := hbase.span_eq
    cases ih with
    | entry hsource hentry hcat =>
      exact .entry hsource (hspan ▸ hentry) (hroot.symm.trans hcat)
    | cells hsource hle hlt hlf hll hrf hrl hl hr hmem happly =>
      rw [hroot, hspan] at happly
      rw [hspan] at hle hlt hlf hrl
      exact .cells hsource hle hlt hlf hll hrf hrl hl hr hmem happly

end Context.Makes

/-- A step of the cell under a handle, read back. -/
structure Making.WellFormed (ctx : Context S) (chart : Chart S) (id : CellId) (c : Cell S)
    (m : Making) : Prop where
  root : m.root = c.category
  span : m.span = c.span
  founded : m.Founded ctx chart
  folded : m.Folded ctx
  shorter : ∀ child ∈ m.source.children, child.length < id.length

/-- All steps of all cells can be read back, and a search by category finds no other category. -/
structure Chart.WellFormed (ctx : Context S) (chart : Chart S) : Prop where
  bounds : ∀ id c, chart.cell id = .ok c →
    c.span.first = id.first ∧ c.span.last = id.last ∧ c.span.size = ctx.size
  steps : ∀ id c, chart.cell id = .ok c → ∀ p ∈ c.steps, p.step.making.WellFormed ctx chart id c
  found : ∀ first last category id, chart.find first last category = .ok (some id) →
    id.first = first ∧ id.last = last ∧ ∃ c, chart.cell id = .ok c ∧ c.category = category

variable {ctx : Context S} {chart after : Chart S}

section Passes

variable (hs : chart.SameOutline after)

include hs

theorem Making.Founded.of_sameOutline {m : Making} (h : m.Founded ctx chart) :
    m.Founded ctx after := by
  cases h with
  | entry hsource hentry hcat => exact .entry hsource hentry hcat
  | cells hsource hle hlt hlf hll hrf hrl hl hr hmem happly =>
    obtain ⟨l, hl, hleft⟩ := hs.exists_cell hl
    obtain ⟨r, hr, hright⟩ := hs.exists_cell hr
    rw [← Cell.category_of_outline hleft, ← Cell.category_of_outline hright] at happly
    exact .cells hsource hle hlt hlf hll hrf hrl hl hr hmem happly

/-- Passes over the scores of a chart leave it well-formed. -/
theorem Chart.WellFormed.of_sameOutline (h : chart.WellFormed ctx) : after.WellFormed ctx where
  bounds id d hd := by
    obtain ⟨c, hc, hout⟩ := hs.symm.exists_cell hd
    rw [← Cell.span_of_outline hout]
    exact h.bounds id c hc
  steps id d hd p hp := by
    obtain ⟨c, hc, hout⟩ := hs.symm.exists_cell hd
    obtain ⟨q, hq, hmaking⟩ := Cell.exists_step_of_outline hout.symm hp
    have hwell := h.steps id c hc q hq
    rw [hmaking] at hwell
    exact ⟨hwell.root.trans (Cell.category_of_outline hout),
      hwell.span.trans (Cell.span_of_outline hout), hwell.founded.of_sameOutline hs,
      hwell.folded, hwell.shorter⟩
  found first last category id hfind := by
    rw [hs.find] at hfind
    obtain ⟨hfirst, hlast, c, hc, hcat⟩ := h.found first last category id hfind
    obtain ⟨d, hd, hout⟩ := hs.exists_cell hc
    exact ⟨hfirst, hlast, d, hd, (Cell.category_of_outline hout).trans hcat⟩

end Passes

theorem Beam.Keyed.category_of_find? {b : Beam S} (hb : b.Keyed) {category : Category} {key : Nat}
    {c : Cell S} (h : b.find? category = some (key, c)) :
    b.cell? key = some c ∧ c.category = category := by
  obtain ⟨k, hk, h⟩ := Option.bind_eq_some_iff.mp h
  obtain ⟨d, hd, h⟩ := Option.bind_eq_some_iff.mp h
  obtain ⟨rfl, rfl⟩ := Prod.mk.inj (Option.some.inj h)
  obtain ⟨held, hheld, hcat⟩ := hb category k hk
  rw [Beam.cell?, hheld] at hd
  obtain rfl := Option.some.inj hd
  exact ⟨by rw [Beam.cell?, hheld]; rfl, hcat⟩

variable [Scalar S] {P : Chart S → Job → Prop}

namespace Context

theorem BuildsWhere.keyed (h : ctx.BuildsWhere P chart) {first last : Nat} {b : Beam S}
    (hb : chart.beam? first last = some b) : b.Keyed := by
  obtain ⟨done, whole, hwhole, _, rfl⟩ := h.filled
  rw [Chart.beam?_close] at hb
  obtain ⟨unclosed, hunclosed, rfl⟩ := Option.map_eq_some_iff.mp hb
  obtain ⟨hle, hlt⟩ := Chart.bounds_of_beam? hwhole.size hunclosed
  let span : Span := ⟨first, last, ctx.size, hle, hlt⟩
  have hkeyed : unclosed.Keyed := hwhole.keyed (rfl : span.size = ctx.size) hunclosed
  exact hkeyed

theorem BuildsWhere.span_bounds (h : ctx.BuildsWhere P chart) {id : CellId} {c : Cell S}
    (hc : chart.cell id = .ok c) :
    c.span.first = id.first ∧ c.span.last = id.last ∧ c.span.size = ctx.size := by
  obtain ⟨done, hgrounded⟩ := h.grounded
  obtain ⟨span, hsize, hfirst, hlast, hg⟩ := hgrounded id c hc
  rw [hg.span_eq]
  exact ⟨hfirst, hlast, hsize⟩

theorem BuildsWhere.wellFormed (h : ctx.BuildsWhere P chart) (hnames : ctx.grammar.OwnNames)
    (htable : ctx.lexicon.IsTable) : chart.WellFormed ctx where
  bounds id c hc := h.span_bounds hc
  steps id c hc p hp := by
    obtain ⟨done, hgrounded⟩ := h.grounded
    obtain ⟨span, _, _, _, hg⟩ := hgrounded id c hc
    have hmakes := (hg.steps p hp).makes
    exact ⟨hg.packed.root p hp, hg.packed.span p hp,
      hmakes.founded hnames fun _ hentry => htable.tokens_eq hentry, hmakes.folded hnames,
      h.rooted.shorter hc p hp⟩
  found first last category id hfind := by
    obtain ⟨b, hb, hkey⟩ := bind_eq_ok.mp hfind
    have hb := Chart.beam_eq_ok_iff.mp hb
    obtain ⟨⟨key, c⟩, hfound, rfl⟩ := Option.map_eq_some_iff.mp (Except.ok.inj hkey)
    obtain ⟨hcell, hcat⟩ := (h.keyed hb).category_of_find? hfound
    exact ⟨rfl, rfl, c, Chart.cell_eq_ok_iff.mpr ⟨b, hb, hcell⟩, hcat⟩

theorem BuildsWhere.walkable (h : ctx.BuildsWhere P chart) (hpos : 0 < ctx.size)
    (hr : chart.Revised after) : after.Walkable := by
  have hlinked := h.rooted.linked
  have hsame := hr.sameOutline hlinked
  obtain ⟨b, hb⟩ := h.exists_beam_whole hpos
  obtain ⟨b', hb', _⟩ := hsame.exists_beam hb
  rw [← hsame.size] at hb'
  exact (hlinked.of_sameOutline hsame).walkable ⟨b', hb'⟩

variable {g : Grammar} {tokens : List String} {model : Model S} {options : ParseOptions}

omit [Scalar S] in
theorem of_new (h : Context.new g tokens model options = .ok ctx) :
    ctx.grammar = g ∧ 0 < ctx.config.beam ∧ 0 < ctx.size ∧
      ctx.lexicon = .union ((g.sentenceLexicons tokens options.sloppy).map EntrySource.ofLexicon ++
        model.lexicon :: options.extraLexicon.toList) := by
  simp only [Context.new] at h
  split_ifs at h with htokens hbeam
  obtain rfl := Except.ok.inj h
  refine ⟨rfl, Nat.pos_of_ne_zero hbeam, ?_, rfl⟩
  exact List.length_pos_iff.mpr fun hnil => htokens (List.isEmpty_iff.mpr hnil)

omit [Scalar S] in
theorem isTable_of_new (hnew : Context.new g tokens model options = .ok ctx)
    (hmodel : model.lexicon.IsTable) (hextra : ∀ source ∈ options.extraLexicon, source.IsTable)
    (hsentence : ∀ lexicon ∈ g.sentenceLexicons tokens options.sloppy,
      ∃ entries, lexicon = .ofEntries entries) : ctx.lexicon.IsTable := by
  obtain ⟨_, _, _, hlexicon⟩ := of_new hnew
  rw [hlexicon]
  refine .union fun source hsource => ?_
  rcases List.mem_append.mp hsource with hsource | hsource
  · obtain ⟨lexicon, hmem, rfl⟩ := List.mem_map.mp hsource
    obtain ⟨entries, rfl⟩ := hsentence lexicon hmem
    exact .table entries
  · rcases List.mem_cons.mp hsource with rfl | hsource
    · exact hmodel
    · exact hextra source (Option.mem_toList.mp hsource)

/-- Every finished chart is well-formed and lets all walks and passes come to their end, also after
any passes that were made before. And while a chart is built, no fault is met but one that a rule
or a filter of the caller raises. -/
theorem charts_wellFormed (hnew : Context.new g tokens model options = .ok ctx)
    (hnames : g.OwnNames) (hmodel : model.lexicon.IsTable)
    (hextra : ∀ source ∈ options.extraLexicon, source.IsTable)
    (hsentence : ∀ lexicon ∈ g.sentenceLexicons tokens options.sloppy,
      ∃ entries, lexicon = .ofEntries entries) :
    (∀ chart, ctx.Builds chart → ∀ after, chart.Revised after →
      after.WellFormed ctx ∧ after.Walkable) ∧
    (∀ fault, ctx.parseSequentially = .error fault → ctx.Raises fault) ∧
    ∀ job fault, Trace.Panics ctx job fault → ctx.Raises fault := by
  have htable := isTable_of_new hnew hmodel hextra hsentence
  obtain ⟨rfl, hbeam, hpos, _⟩ := of_new hnew
  refine ⟨fun chart hbuilds after hrevised => ⟨?_, ?_⟩, fun fault hfault => ?_,
    fun job fault hpanics => ?_⟩
  · have hsame := hrevised.sameOutline (BuildsWhere.rooted hbuilds).linked
    exact (BuildsWhere.wellFormed hbuilds hnames htable).of_sameOutline hsame
  · exact BuildsWhere.walkable hbuilds hpos hrevised
  · exact (parseSequentially_ends hbeam hnames).of_error hfault
  · exact hpanics.raises hbeam hnames

theorem charts_wellFormed_sheWalks : shifting.OwnNames ∧ telling.lexicon.IsTable ∧
    ∃ chart, sheWalks.Builds chart ∧ ∃ x ∈ chart.cellsAt 0 1, x.2.steps ≠ [] ∧
      (∀ p ∈ x.2.steps, p.step.making.WellFormed sheWalks chart x.1 x.2) ∧
      (∃ trees, chart.trees x.1 = .ok trees) ∧
      ∀ score, ∃ after, chart.rescore score = .ok after ∧ after.WellFormed sheWalks := by
  have hnames := plain_shifting.ownNames
  have htable : telling.lexicon.IsTable := .table _
  obtain ⟨chart, hbuilds, ⟨id, c⟩, hx, _, hc, _⟩ := exists_fullParse_sheWalks
  obtain ⟨hall, _, _⟩ := charts_wellFormed new_sheWalks hnames htable nofun nofun
  obtain ⟨hwell, hwalk⟩ := hall chart hbuilds chart .unchanged
  obtain ⟨p, hp, _⟩ := ((BuildsWhere.rooted hbuilds).packed hc).flag
  refine ⟨hnames, htable, chart, hbuilds, ⟨id, c⟩, hx, List.ne_nil_of_mem hp, hwell.steps id c hc,
    hwalk.trees id c hc, fun score => ?_⟩
  obtain ⟨after, hafter⟩ := hwalk.rescore score
  exact ⟨after, hafter, (hall chart hbuilds after (.rescored .unchanged hafter)).1⟩

end Context

end Categorial
