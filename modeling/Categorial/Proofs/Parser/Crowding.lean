import Categorial.Proofs.Parser.Coverage
import Categorial.Proofs.Parser.Missed

/-! # Cells that come back

Where jobs hand over all that they make, a span is pruned if and only if one of its cells is set
aside in the end. This says nothing about the turn of the unary rules: what was set aside then may
be back.
-/

namespace Categorial

variable {S : Type} [ExactScalar S] {ctx : Context S} {done : Set Job} {chart : Chart S}
  {span : Span} {before b : Beam S} {steps : List (PackedStep S)} {candidates cells : List (Cell S)}
  {pruned : Bool} {p : PackedStep S}

/-- No job drops anything before it hands its cells over. -/
def Context.Unbatched (ctx : Context S) : Prop :=
  ∀ job, ctx.batchCapacity job = none

omit [ExactScalar S] in
theorem Context.unbatched (hlexical : ctx.grammar.pruneLexical = false)
    (hpruning : ctx.grammar.preChartPruning = false) : ctx.Unbatched := by
  intro job
  cases job with
  | lexical first last => simp [batchCapacity, hlexical]
  | split first last k => simp [batchCapacity, hpruning]
  | unary first last => simp [batchCapacity, hpruning]

namespace Context.Unbatched

variable (h : ctx.Unbatched)

include h

theorem cellsOf_eq (hctx : ctx.Regular) (hsize : span.size = ctx.size) {job : Job}
    (hjob : job.Base span) (hcells : ctx.cellsOf chart job = .ok (cells, pruned)) :
    ctx.candidates chart job = .ok cells ∧ pruned = false := by
  obtain ⟨candidates, hcands, _, hs⟩ := sieved_of_base hctx hsize hjob hcells
  rw [h job] at hs
  obtain ⟨rfl, rfl⟩ := hs.eq_all
  exact ⟨hcands, rfl⟩

theorem mem_steps_iff (hctx : ctx.Regular) (hsize : span.size = ctx.size)
    (hbase : ∀ job, job.Base span → job ∈ done)
    (hc : Collects ctx chart done span before steps) :
    p ∈ steps ↔ ∃ job, job.Base span ∧ ∃ candidates, ctx.candidates chart job = .ok candidates ∧
      p ∈ stepsOf candidates := by
  rw [hc.mem_iff]
  constructor
  · rintro ⟨job, hjob, _, ⟨cells, pruned⟩, hr, hp⟩
    exact ⟨job, hjob, cells, (h.cellsOf_eq hctx hsize hjob hr).1, hp⟩
  · rintro ⟨job, hjob, candidates, hcands, hp⟩
    obtain ⟨⟨cells, pruned⟩, hr⟩ := hc.worked job hjob (hbase job hjob)
    obtain ⟨hcells, _⟩ := h.cellsOf_eq hctx hsize hjob hr
    obtain rfl := Except.ok.inj (hcells.symm.trans hcands)
    exact ⟨job, hjob, hbase job hjob, _, hr, hp⟩

/-- What the unary rules make is handed over as it is, and only cells set aside are missing. -/
theorem finishes (hctx : ctx.Regular) (hsize : span.size = ctx.size)
    (hc : Collects ctx chart done span before steps)
    (hf : Finishes ctx span before steps candidates cells pruned b) :
    cells = candidates ∧ (b.isPruned = false ↔ b.setAside = []) := by
  have hsieved := hf.sieved
  rw [h] at hsieved
  obtain ⟨rfl, rfl⟩ := hsieved.eq_all
  refine ⟨rfl, ?_⟩
  have hunmarked : before.externallyPruned = false := by
    rw [← Bool.not_eq_true, hc.marked_iff]
    rintro ⟨job, hjob, _, ⟨cells, pruned⟩, hr, hpruned⟩
    rw [(h.cellsOf_eq hctx hsize hjob hr).2] at hpruned
    exact Bool.false_ne_true hpruned
  rw [Beam.isPruned_eq_false_iff, hf.holds.rejected, hf.marked, hunmarked]
  simp

/-- A span for which a single entry is all there is, and to which no unary rule applies, has one
cell. -/
theorem exists_single (hctx : ctx.Regular) (hsound : Sound ctx done chart)
    (hall : ∀ job, job.Within ctx.size → job ∈ done) (hsize : span.size = ctx.size)
    (hword : span.numSplits = 0) {c : Cell S} (hsteps : c.steps = [p])
    (hcands : ctx.candidates chart (.lexical span.first span.last) = .ok [c])
    (hidle : ∀ a : Cell S, a.category = p.step.root → ctx.unaryOf span a = .ok []) :
    ∃ b x, chart.beam? span.first span.last = some b ∧ b.isPruned = false ∧ b.cells = [x] ∧
      x.2.Single p := by
  obtain ⟨before, b, steps, candidates, cells, pruned, hb, hc, hf⟩ :=
    hsound.exists_finished hall hsize
  have honly : ∀ q, q ∈ steps ↔ q = p := by
    intro q
    rw [h.mem_steps_iff hctx hsize (fun job hjob => hall job ⟨span, hsize, .inl hjob⟩) hc]
    constructor
    · rintro ⟨job, hjob, candidates, hok, hq⟩
      cases hjob with
      | lexical =>
        obtain rfl := Except.ok.inj (hcands.symm.trans hok)
        simpa [stepsOf, hsteps] using hq
      | split hk => omega
    · rintro rfl
      exact ⟨_, .lexical, _, hcands, by simp [stepsOf, hsteps]⟩
  obtain ⟨rfl, hpruned⟩ := h.finishes hctx hsize hc hf
  have hnone : cells = [] := by
    refine List.eq_nil_iff_forall_not_mem.mpr fun d hd => ?_
    obtain ⟨a, ha, cs, hcs, hd⟩ := (mem_yieldAll hf.yields).mp hd
    have ha := Beam.mem_stock_of_kept ha
    obtain ⟨a', hstock, hsingle⟩ := hc.holds.stocks.eq_singleton honly
    rw [hstock, List.mem_singleton] at ha
    rw [hidle a (ha ▸ hsingle.category)] at hcs
    obtain rfl := Except.ok.inj hcs
    simp at hd
  have hholds := hf.holds
  rw [hnone] at hholds
  obtain ⟨a, hstock, hsingle⟩ := hholds.stocks.eq_singleton (p := p) (by simpa [stepsOf])
  have haside : b.setAside = [] := by
    rw [hholds.setAside_eq_nil_iff, hf.suits.capacity]
    calc (contenders b.separateLexical b.stock).length
        ≤ b.stock.length := List.length_filter_le _ _
      _ = 1 := by rw [hstock, List.length_singleton]
      _ ≤ ctx.config.beam := hctx.beam_pos
  rw [Beam.stock, haside, List.append_nil, ← Beam.kept_eq] at hstock
  obtain ⟨x, hx, rfl⟩ := List.map_eq_singleton_iff.mp hstock
  exact ⟨b, x, hb, hpruned.mpr haside, hx, hsingle⟩

end Context.Unbatched

namespace Context

def joining (name result meaning : String) : BinaryRule :=
  .ofCombine (.simple name) fun left right =>
    if left.type = .atom "A" ∧ right.type = .atom "B" then
      some ⟨.atom result, some (.const meaning)⟩
    else none

/-- A grammar with room for one of the two categories that it makes of two words. An idiom can be
shifted to the better one. -/
def crowding : Grammar :=
  { Grammar.default with
    binaryRules := [joining "make" "NP" "c", joining "other" "X" "x"]
    unaryRules := [.typeShift "up" (.atom "N") (.atom "NP") none,
      .typeShift "down" (.atom "X") (.atom "Y") none]
    beam := 1 }

def meaning (words : List String) (type sense : String) : LexicalEntry :=
  ⟨words, ⟨.atom type, some (.const sense)⟩, "main"⟩

def compounds : Lexicon :=
  .ofEntries [meaning ["a"] "A" "a", meaning ["b"] "B" "b", meaning ["a", "b"] "N" "c"]

noncomputable def preferring : Model LogReal where
  features view := .set .empty view.rule.base.label Scalar.one
  score features :=
    if features.keys = ["make"] then .ofReal (2 : ℕ)
    else if features.keys = ["other"] then .ofReal 1
    else .ofReal 0
  lexicon := .ofLexicon compounds

noncomputable def crowded : Context LogReal :=
  ⟨crowding, ["a", "b"], crowding.chartConfig 1, preferring, .union [.ofLexicon compounds], none⟩

theorem new_crowded : Context.new crowding ["a", "b"] preferring .default = .ok crowded :=
  rfl

theorem regular_crowded : crowded.Regular :=
  ⟨rfl, by decide⟩

theorem standard_crowding : crowding.Standard where
  binary rule h := by
    rcases List.mem_pair.mp h with rfl | rfl <;> exact ⟨_, _, rfl⟩
  unary rule h := by
    rcases List.mem_pair.mp h with rfl | rfl <;> exact ⟨_, _, _, _, rfl⟩

theorem faultless_crowded : crowded.Faultless :=
  standard_crowding.faultless rfl fun _ => ⟨_, rfl⟩

theorem unbatched_crowded : crowded.Unbatched :=
  unbatched rfl rfl

variable {chart : Chart LogReal} {done : Set Job} {before b : Beam LogReal}
  {steps : List (PackedStep LogReal)}

noncomputable def found (entry : LexicalEntry) (span : Span) : PackedStep LogReal :=
  ⟨.lexical preferring entry span span.isComplete, .leaf⟩

noncomputable def joined (name type meaning : String) (span : Span)
    (left right : Nat × Cell LogReal) : PackedStep LogReal :=
  ⟨.binary preferring ⟨.simple name, ⟨.atom type, some (.const meaning)⟩⟩ span ⟨0, 0, left.1⟩
    ⟨1, 1, right.1⟩ true, .ofCells [left.2, right.2]⟩

noncomputable def phrases (span : Span) (left right : Nat × Cell LogReal) :
    List (PackedStep LogReal) :=
  [found (meaning ["a", "b"] "N" "c") span, joined "make" "NP" "c" span left right,
    joined "other" "X" "x" span left right]

theorem exists_words (hsound : Sound crowded done chart)
    (hall : ∀ job, job.Within crowded.size → job ∈ done) :
    (∃ b left, chart.beam? 0 0 = some b ∧ b.isPruned = false ∧ b.cells = [left] ∧
      left.2.Single (found (meaning ["a"] "A" "a") ⟨0, 0, 2, by decide, by decide⟩)) ∧
    ∃ b right, chart.beam? 1 1 = some b ∧ b.isPruned = false ∧ b.cells = [right] ∧
      right.2.Single (found (meaning ["b"] "B" "b") ⟨1, 1, 2, by decide, by decide⟩) := by
  constructor
  · have hsize : (⟨0, 0, 2, by decide, by decide⟩ : Span).size = crowded.size := rfl
    exact unbatched_crowded.exists_single regular_crowded hsound hall hsize rfl rfl
      ((candidates_lexical hsize).trans rfl) (by rintro ⟨⟩ ⟨⟩; rfl)
  · have hsize : (⟨1, 1, 2, by decide, by decide⟩ : Span).size = crowded.size := rfl
    exact unbatched_crowded.exists_single regular_crowded hsound hall hsize rfl rfl
      ((candidates_lexical hsize).trans rfl) (by rintro ⟨⟩ ⟨⟩; rfl)

theorem candidates_idiom {span : Span} (hspan : span = ⟨0, 1, 2, by decide, by decide⟩) :
    crowded.candidates chart (.lexical 0 1) =
      .ok [.new (found (meaning ["a", "b"] "N" "c") span).step .leaf] := by
  have hsize : span.size = crowded.size := hspan ▸ rfl
  subst hspan
  exact (candidates_lexical hsize).trans rfl

/-- Both rules apply to the two words. -/
theorem candidates_joined {span : Span} (hspan : span = ⟨0, 1, 2, by decide, by decide⟩)
    {b b' : Beam LogReal} {left right : Nat × Cell LogReal} (hb : chart.beam? 0 0 = some b)
    (hb' : chart.beam? 1 1 = some b') (hcells : b.cells = [left]) (hcells' : b'.cells = [right])
    (hl : left.2.Single (found (meaning ["a"] "A" "a") ⟨0, 0, 2, by decide, by decide⟩))
    (hr : right.2.Single (found (meaning ["b"] "B" "b") ⟨1, 1, 2, by decide, by decide⟩)) :
    crowded.candidates chart (.split 0 1 0) =
      .ok [.new (joined "make" "NP" "c" span left right).step (.ofCells [left.2, right.2]),
        .new (joined "other" "X" "x" span left right).step (.ofCells [left.2, right.2])] := by
  have hsize : span.size = crowded.size := hspan ▸ rfl
  have hlefts : arguments chart 0 0 = .ok [⟨⟨0, 0, left.1⟩, left.2, left.2.ruleNames⟩] :=
    bind_eq_ok.mpr ⟨b, Chart.beam_eq_ok_iff.mpr hb, by rw [hcells]; rfl⟩
  have hrights : arguments chart 1 1 = .ok [⟨⟨1, 1, right.1⟩, right.2, right.2.ruleNames⟩] :=
    bind_eq_ok.mpr ⟨b', Chart.beam_eq_ok_iff.mpr hb', by rw [hcells']; rfl⟩
  subst hspan
  refine (candidates_split hsize (k := 0) (by decide)).trans
    (bind_eq_ok.mpr ⟨_, hlefts, bind_eq_ok.mpr ⟨_, hrights, ?_⟩⟩)
  obtain ⟨_, ⟨⟩⟩ := left
  obtain ⟨_, ⟨⟩⟩ := right
  obtain rfl := hl.span_eq
  obtain rfl := hr.span_eq
  obtain rfl := hl.category
  obtain rfl := hr.category
  rfl

/-- The phrase has the idiom, and what both rules make of the words. -/
theorem exists_mem_steps_iff (hsound : Sound crowded done chart)
    (hall : ∀ job, job.Within crowded.size → job ∈ done) {span : Span}
    (hspan : span = ⟨0, 1, 2, by decide, by decide⟩)
    (hc : Collects crowded chart done span before steps) :
    ∃ left right : Nat × Cell LogReal, left.2.viterbi = .ofReal 0 ∧ right.2.viterbi = .ofReal 0 ∧
      ∀ p, p ∈ steps ↔ p ∈ phrases span left right := by
  obtain ⟨⟨b, left, hb, _, hcells, hl⟩, b', right, hb', _, hcells', hr⟩ := exists_words hsound hall
  have hsize : span.size = crowded.size := hspan ▸ rfl
  have hlexical : crowded.candidates chart (.lexical 0 1) = _ := candidates_idiom hspan
  have hsplit := candidates_joined hspan hb hb' hcells hcells' hl hr
  refine ⟨left, right, ?_, ?_, fun p => ?_⟩
  · rw [hl.viterbi_eq, max_eq_right (LogReal.negInf_le _)]
    exact LogReal.plus_zero _
  · rw [hr.viterbi_eq, max_eq_right (LogReal.negInf_le _)]
    exact LogReal.plus_zero _
  rw [unbatched_crowded.mem_steps_iff regular_crowded hsize
    (fun job hjob => hall job ⟨span, hsize, .inl hjob⟩) hc]
  subst hspan
  constructor
  · rintro ⟨job, hjob, candidates, hcands, hp⟩
    cases hjob with
    | lexical =>
      obtain rfl := Except.ok.inj (hlexical.symm.trans hcands)
      exact List.mem_cons.mpr (.inl (List.mem_singleton.mp hp))
    | @split k hk =>
      obtain rfl : k = 0 := Nat.lt_one_iff.mp hk
      obtain rfl := Except.ok.inj (hsplit.symm.trans hcands)
      exact .tail _ hp
  · intro hp
    rcases List.mem_cons.mp hp with rfl | hp
    · exact ⟨_, .lexical, _, hlexical, .head _⟩
    · exact ⟨_, .split (by decide), _, hsplit, hp⟩

theorem viterbi_joined_lt {span : Span} {left right : Nat × Cell LogReal}
    (hl : left.2.viterbi = .ofReal 0) (hr : right.2.viterbi = .ofReal 0) :
    (joined "other" "X" "x" span left right).viterbi <
      (joined "make" "NP" "c" span left right).viterbi := by
  have hviterbi : ∀ score name type meaning,
      (joined name type meaning span left right).step.localScore = .ofReal score →
      (joined name type meaning span left right).viterbi = .ofReal (score + (0 + 0 + 0)) := by
    intro score name type meaning hscore
    rw [PackedStep.viterbi, hscore]
    show LogReal.ofReal score + (Scalar.zero + left.2.viterbi + right.2.viterbi) = _
    rw [hl, hr]
    rfl
  rw [hviterbi 1 _ _ _ rfl, hviterbi (2 : ℕ) _ _ _ rfl, LogReal.ofReal_lt_ofReal]
  norm_num

noncomputable def shifted (span : Span) : PackedStep LogReal :=
  ⟨.scored preferring ⟨.entry (meaning ["a", "b"] "N" "c"), ⟨RuleName.lexical.base,
    some (RuleName.simple "up").base⟩, span, ⟨.atom "NP", some (.const "c")⟩,
    some ⟨.atom "N", some (.const "c")⟩⟩ true, .leaf⟩

section Phrase

variable {span : Span} {left right : Nat × Cell LogReal}

theorem unaryOf_found (hspan : span = ⟨0, 1, 2, by decide, by decide⟩) {c : Cell LogReal}
    (h : c.Single (found (meaning ["a", "b"] "N" "c") span)) :
    crowded.unaryOf span c = .ok [.new (shifted span).step .leaf] := by
  subst hspan
  obtain ⟨⟩ := c
  obtain rfl := h.steps
  obtain rfl := h.category
  obtain rfl := h.span_eq
  rfl

theorem unaryOf_make {c : Cell LogReal}
    (h : c.Single (joined "make" "NP" "c" span left right)) : crowded.unaryOf span c = .ok [] := by
  obtain ⟨⟩ := c
  obtain rfl := h.category
  rfl

theorem unaryOf_other (hspan : span = ⟨0, 1, 2, by decide, by decide⟩) {c : Cell LogReal}
    (h : c.Single (joined "other" "X" "x" span left right)) :
    crowded.unaryOf span c ≠ .ok [] := by
  subst hspan
  obtain ⟨⟩ := c
  obtain rfl := h.steps
  obtain rfl := h.category
  obtain rfl := h.span_eq
  nofun

theorem exists_phrases (hc : Collects crowded chart done span before steps)
    (hmem : ∀ p, p ∈ steps ↔ p ∈ phrases span left right) :
    ∃ n ∈ before.stock, ∃ m ∈ before.stock, ∃ x ∈ before.stock,
      n.Single (found (meaning ["a", "b"] "N" "c") span) ∧
      m.Single (joined "make" "NP" "c" span left right) ∧
      x.Single (joined "other" "X" "x" span left right) ∧
      ∀ c ∈ before.stock, c = n ∨ c = m ∨ c = x := by
  have hstocks := hc.holds.stocks
  have hroots : ((phrases span left right).map (·.step.root)).Nodup := by
    show ([⟨.atom "N", some (.const "c")⟩, ⟨.atom "NP", some (.const "c")⟩,
      ⟨.atom "X", some (.const "x")⟩] : List Category).Nodup
    decide
  have hsingle : ∀ p ∈ phrases span left right, ∃ c ∈ before.stock, c.Single p := fun p hp =>
    hstocks.exists_single ((hmem p).mpr hp) fun q hq hroot =>
      List.inj_on_of_nodup_map hroots ((hmem q).mp hq) hp hroot
  obtain ⟨n, hn, hns⟩ := hsingle _ (.head _)
  obtain ⟨m, hm, hms⟩ := hsingle _ (.tail _ (.head _))
  obtain ⟨x, hx, hxs⟩ := hsingle _ (.tail _ (.tail _ (.head _)))
  refine ⟨n, hn, m, hm, x, hx, hns, hms, hxs, fun c hstock => ?_⟩
  obtain ⟨p, hp, hroot⟩ := hstocks.exists_category.mp ⟨c, hstock, rfl⟩
  have hunique : ∀ d ∈ before.stock, d.Single p → c = d := fun d hd hds =>
    hstocks.eq_of_category hstock hd (hroot.symm.trans hds.category.symm)
  rcases List.mem_cons.mp ((hmem p).mp hp) with rfl | hp
  · exact .inl (hunique n hn hns)
  rcases List.mem_pair.mp hp with rfl | rfl
  · exact .inr (.inl (hunique m hm hms))
  · exact .inr (.inr (hunique x hx hxs))

/-- Of the two categories that compete, the worse one is set aside. -/
theorem exists_setAside (hl : left.2.viterbi = .ofReal 0) (hr : right.2.viterbi = .ofReal 0)
    (hc : Collects crowded chart done span before steps)
    (hmem : ∀ p, p ∈ steps ↔ p ∈ phrases span left right) :
    ∃ n m x, n ∈ before.cells.map (·.2) ∧ n.Single (found (meaning ["a", "b"] "N" "c") span) ∧
      m.Single (joined "make" "NP" "c" span left right) ∧
      x ∈ before.setAside ∧ x.Single (joined "other" "X" "x" span left right) ∧
      ∀ c ∈ before.cells.map (·.2), c = n ∨ c = m := by
  obtain ⟨n, hn, m, hm, x, hx, hns, hms, hxs, hall⟩ := exists_phrases hc hmem
  have hkept : n ∈ before.cells.map (·.2) := by
    apply hc.holds.mem_kept_of_sheltered hn
    rw [Cell.sheltered, hc.suits.separateLexical, hns.hasLexicalStep]
    rfl
  have hcontends : ∀ c ∈ before.stock, ∀ name type sense,
      c.Single (joined name type sense span left right) →
      c ∈ contenders before.separateLexical before.stock := by
    intro c hc name type sense hcs
    rw [mem_contenders_iff, Cell.sheltered, hcs.hasLexicalStep]
    exact ⟨hc, Bool.and_false _⟩
  have hlt : x.pruneKey < m.pruneKey := by
    refine PruneKey.lt_iff.mpr (.inl ?_)
    show x.viterbi < m.viterbi
    rw [hxs.viterbi_eq, hms.viterbi_eq, max_eq_right (LogReal.negInf_le _),
      max_eq_right (LogReal.negInf_le _)]
    exact viterbi_joined_lt hl hr
  have hnodup : [x, m].Nodup := by simpa using fun h : x = m => hlt.ne (congrArg _ h)
  have haside : x ∈ before.setAside := by
    apply hc.holds.mem_setAside_of_outranked (hcontends x hx _ _ _ hxs) hnodup
    · rw [hc.suits.capacity]
      exact Nat.lt_succ_self 1
    · rintro d hd
      rcases List.mem_pair.mp hd with rfl | rfl
      · exact ⟨hcontends _ hx _ _ _ hxs, le_rfl⟩
      · exact ⟨hcontends _ hm _ _ _ hms, hlt.le⟩
  refine ⟨n, m, x, hkept, hns, hms, haside, hxs, fun c hkept => ?_⟩
  rcases hall c (Beam.mem_stock_of_kept hkept) with rfl | rfl | rfl
  · exact .inl rfl
  · exact .inr rfl
  · exact absurd rfl (hc.holds.category_ne hkept haside)

end Phrase

/-- The phrase is not pruned, but the unary rules have not seen all of it. -/
theorem exists_missed (hsound : Sound crowded done chart)
    (hall : ∀ job, job.Within crowded.size → job ∈ done) {span : Span}
    (hspan : span = ⟨0, 1, 2, by decide, by decide⟩) :
    ∃ before b steps, chart.beam? span.first span.last = some b ∧ b.isPruned = false ∧
      Collects crowded chart done span before steps ∧
      ∃ c ∈ before.setAside, crowded.unaryOf span c ≠ .ok [] := by
  have hsize : span.size = crowded.size := hspan ▸ rfl
  obtain ⟨before, b, steps, candidates, cells, pruned, hb, hc, hf⟩ :=
    hsound.exists_finished hall hsize
  obtain ⟨left, right, hl, hr, hmem⟩ := exists_mem_steps_iff hsound hall hspan hc
  obtain ⟨n, m, x, hkept, hns, hms, haside, hxs, honly⟩ := exists_setAside hl hr hc hmem
  obtain ⟨rfl, hpruned⟩ := unbatched_crowded.finishes regular_crowded hsize hc hf
  refine ⟨before, b, steps, hb, hpruned.mpr ?_, hc, x, haside, unaryOf_other hspan hxs⟩
  -- the idiom is shifted, and no other rule applies
  have hmade : ∀ p, p ∈ stepsOf cells ↔ p = shifted span := by
    intro p
    rw [mem_stepsOf]
    constructor
    · rintro ⟨c, hcell, hp⟩
      obtain ⟨a, ha, cs, hcs, hcell⟩ := (mem_yieldAll hf.yields).mp hcell
      rcases honly a ha with rfl | rfl
      · obtain rfl := Except.ok.inj ((unaryOf_found hspan hns).symm.trans hcs)
        obtain rfl := List.mem_singleton.mp hcell
        exact List.mem_singleton.mp hp
      · obtain rfl := Except.ok.inj ((unaryOf_make hms).symm.trans hcs)
        exact absurd hcell List.not_mem_nil
    · rintro rfl
      exact ⟨_, (mem_yieldAll hf.yields).mpr ⟨n, hkept, _, unaryOf_found hspan hns, .head _⟩,
        .head _⟩
  have hoffered : ∀ p, p ∈ steps ++ stepsOf cells ↔ p ∈ phrases span left right ∨
      p = shifted span := by
    intro p
    rw [List.mem_append, hmem, hmade]
  have hroom : [(⟨.atom "X", some (.const "x")⟩ : Category)].length ≤ b.capacity :=
    hf.suits.capacity.ge
  refine hf.holds.setAside_eq_nil_of_categories hf.suits.separateLexical hroom
    fun p hp hother => ?_
  rcases (hoffered p).mp hp with hphrase | rfl
  · rcases List.mem_cons.mp hphrase with rfl | hjoined
    · exact ⟨_, hp, rfl, rfl⟩
    rcases List.mem_pair.mp hjoined with rfl | rfl
    · exact ⟨shifted span, (hoffered _).mpr (.inr rfl), rfl, rfl⟩
    · exact absurd (List.mem_singleton.mpr rfl) hother
  · exact ⟨_, hp, rfl, rfl⟩

/-- The chart of the two words is exact although the unary rules have missed something. -/
theorem exists_parse_crowded : ∃ chart, crowded.parseSequentially = .ok chart ∧
    chart.isExact = true ∧ ¬ crowded.MissesNothing chart := by
  obtain ⟨chart, hparse⟩ :=
    exists_parseSequentially regular_crowded (faultless_crowded.works regular_crowded)
  obtain ⟨whole, hwhole, rfl⟩ := sound_of_parseSequentially regular_crowded hparse
  have hall : ∀ job : Job, job.Within crowded.size → job ∈ {j | j ∈ Job.ofSentence crowded.size} :=
    fun job hjob => Job.mem_ofSentence_iff.mpr hjob
  obtain ⟨⟨b₀, left, hb₀, hpruned₀, _⟩, b₁, right, hb₁, hpruned₁, _⟩ := exists_words hwhole hall
  obtain ⟨before, b, steps, hb, hpruned, hc, x, haside, hmade⟩ := exists_missed hwhole hall rfl
  have hunpruned : ∀ first last b, whole.beam? first last = some b → b.isPruned = false := by
    intro first last b' hb'
    obtain ⟨hle, hlt⟩ := Chart.bounds_of_beam? hwhole.size hb'
    have hlt : last < 2 := hlt
    have hspan : first = 0 ∧ last = 0 ∨ first = 1 ∧ last = 1 ∨ first = 0 ∧ last = 1 := by omega
    rcases hspan with ⟨rfl, rfl⟩ | ⟨rfl, rfl⟩ | ⟨rfl, rfl⟩
    · rwa [Option.some.inj (hb'.symm.trans hb₀)]
    · rwa [Option.some.inj (hb'.symm.trans hb₁)]
    · rwa [Option.some.inj (hb'.symm.trans hb)]
  refine ⟨_, hparse, ?_, fun hmisses => ?_⟩
  · rw [Chart.isExact, Chart.prunedSpans_close, List.isEmpty_iff]
    exact hwhole.prunedSpans_eq_nil_iff.mpr hunpruned
  · have hcomplete := ((missesNothing_close ..).mp hmisses).complete regular_crowded hall hunpruned
    exact hmade (hcomplete.unmissed _ before steps rfl hc x haside)

end Context

end Categorial
