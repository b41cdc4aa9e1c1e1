import Categorial.Proofs.Chart.Keyed
import Categorial.Proofs.Parser.Failure
import Categorial.Proofs.Parser.Unpruned

/-! # Whose faults a parse meets

A parse takes cells from finished spans, joins them and offers what comes of it to beams. None of
this can fail: all handles lead to cells, the cells on both sides of a split are adjacent, unary
rules go onto steps without one, and beams have room. So the only faults that a parse meets are
those that a rule or a filter of the caller raises.
-/

namespace Categorial

variable {S : Type}

/-- A rule or a filter of the caller raises the fault. -/
inductive Context.Raises (ctx : Context S) (fault : Fault) : Prop where
  | filter {filter : PruningFilter} {c : Candidate} :
      ctx.filter = some filter → filter c = .error fault → Raises ctx fault
  | isComplete {category : Category} :
      ctx.grammar.isComplete category = .error fault → Raises ctx fault
  | binary {rule : BinaryRule} {left right : Category} {span : Span} :
      rule ∈ ctx.grammar.binaryRules → rule.apply left right span = .error fault →
      Raises ctx fault
  | accepts {rule : UnaryRule} {category : Category} {span : Span} :
      rule ∈ ctx.grammar.unaryRules → rule.accepts category span = .error fault →
      Raises ctx fault
  | unary {rule : UnaryRule} {category : Category} {span : Span} :
      rule ∈ ctx.grammar.unaryRules → rule.apply category span = .error fault →
      Raises ctx fault

def Batch.Receptive (span : Span) : Batch S → Prop
  | .all _ => True
  | .best b => b.Receptive span

theorem Batch.Receptive.push [Scalar S] {span : Span} {batch : Batch S} {cell : Cell S}
    (h : batch.Receptive span) (hspan : cell.span = span) :
    ∃ batch', batch.push cell = .ok batch' ∧ batch'.Receptive span := by
  cases batch with
  | all cells => exact ⟨_, rfl, trivial⟩
  | best b =>
    obtain ⟨b', admission, hoffer, hb'⟩ := Beam.Receptive.offer h hspan
    exact ⟨.best b', bind_eq_ok.mpr ⟨_, hoffer, rfl⟩, hb'⟩

namespace Context

variable {ctx : Context S} {span : Span}

section Pruning

theorem hardPrunes_ends (ctx : Context S) (c : Candidate) :
    Ends (fun _ => True) ctx.Raises (ctx.hardPrunes c) := by
  unfold hardPrunes
  split
  · trivial
  · trivial
  next filter _ hfilter =>
    exact (Ends.self fun _ he => .filter hfilter he).map fun _ _ => trivial

theorem isFullParse_ends (ctx : Context S) (span : Span) (category : Category) :
    Ends (fun _ => True) ctx.Raises (ctx.isFullParse span category) := by
  unfold isFullParse
  split_ifs
  · exact (Ends.self fun _ he => .isComplete he).mono fun _ _ => trivial
  · trivial

theorem anyAccepts_ends (ctx : Context S) (c : Candidate) :
    Ends (fun _ => True) ctx.Raises (anyAccepts c ctx.grammar.unaryRules) := by
  have hrules : ∀ rule ∈ ctx.grammar.unaryRules,
      Ends (fun _ => True) ctx.Raises (rule.accepts c.category c.span) := fun rule hrule =>
    (Ends.self fun _ he => .accepts hrule he).mono fun _ _ => trivial
  generalize ctx.grammar.unaryRules = rules at hrules
  induction rules with
  | nil => trivial
  | cons rule rules ih =>
    refine (hrules rule (.head _)).bind fun could _ => ?_
    split_ifs
    · trivial
    · exact ih fun r hr => hrules r (.tail _ hr)

theorem prunes_ends (ctx : Context S) (c : Candidate) (beforeUnary : Bool) :
    Ends (fun _ => True) ctx.Raises (ctx.prunes c beforeUnary) := by
  refine (ctx.hardPrunes_ends c).bind fun hard _ => ?_
  cases hard with
  | true => trivial
  | false =>
    cases c.span.isComplete with
    | false => trivial
    | true =>
      refine (ctx.isFullParse_ends _ _).bind fun full _ => ?_
      cases full with
      | true => trivial
      | false =>
        cases beforeUnary with
        | true => exact (ctx.anyAccepts_ends c).map fun _ _ => trivial
        | false => trivial

end Pruning

theorem receptive_batch (ctx : Context S) (span : Span) :
    ∃ batch, ctx.batch = .ok batch ∧ batch.Receptive span := by
  unfold batch
  split_ifs
  · have hroom : addCounts (mulCounts ctx.config.beam 2) 1 ≠ 0 := by
      simp [addCounts, countLimit]
    refine ⟨_, map_eq_ok.mpr ⟨_, if_neg hroom, rfl⟩, ?_⟩
    exact Beam.receptive_empty _ _ _ span
  · exact ⟨_, rfl, trivial⟩

theorem receptive_lexicalBatch (hbeam : 0 < ctx.config.beam) (span : Span) :
    ∃ batch, ctx.lexicalBatch = .ok batch ∧ batch.Receptive span := by
  unfold lexicalBatch
  split_ifs
  · refine ⟨_, map_eq_ok.mpr ⟨_, if_neg hbeam.ne', rfl⟩, ?_⟩
    exact Beam.receptive_empty _ _ _ span
  · exact ⟨_, rfl, trivial⟩

theorem applyBinary_ends {left right : Argument S} {rule : BinaryRule}
    (hmeets : left.cell.span.meets right.cell.span = true)
    (hjoin : left.cell.span.join right.cell.span = .ok span)
    (hrule : rule ∈ ctx.grammar.binaryRules) :
    Ends (fun _ => True) ctx.Raises (ctx.applyBinary rule left right) := by
  simp only [applyBinary, hmeets, hjoin]
  split
  · next h => simp at h
  · split
    · trivial
    · exact (Ends.self fun _ he => .binary hrule he).mono fun _ _ => trivial

theorem applyUnary_ends (hnames : ctx.grammar.OwnNames) {argument : Argument S} {rule : UnaryRule}
    (hrule : rule ∈ ctx.grammar.unaryRules) :
    Ends (fun result => ∀ r ∈ result, r.name.isOverloaded = false) ctx.Raises
      (ctx.applyUnary rule argument) := by
  unfold applyUnary
  split_ifs
  · exact fun r hr => nomatch hr
  · refine (Ends.self fun _ he => .unary hrule he).mono fun result hresult r hr => ?_
    obtain rfl := Option.mem_def.mp hr
    exact (hnames.unary_result hrule hresult).2

variable [Scalar S] {batch : Batch S}

theorem pushEntry_ends (h : batch.Receptive span) (entry : LexicalEntry) :
    Ends (Batch.Receptive span) ctx.Raises (ctx.pushEntry span batch entry) := by
  refine (ctx.hardPrunes_ends _).bind fun hard _ => ?_
  split_ifs
  · exact h
  · exact (ctx.isFullParse_ends _ _).bind fun full _ => .of_ok (h.push rfl)

theorem lexicalCells_ends (hbeam : 0 < ctx.config.beam) (span : Span) :
    Ends (fun _ => True) ctx.Raises (ctx.lexicalCells span) := by
  refine (Ends.of_ok (receptive_lexicalBatch hbeam span)).bind fun batch hbatch => ?_
  refine (Ends.foldlM (fun entry _ batch hb => ?_) hbatch).bind fun _ _ => trivial
  exact pushEntry_ends hb entry

theorem pushBinary_ends {left right : Argument S} {rule : BinaryRule}
    (hmeets : left.cell.span.meets right.cell.span = true)
    (hjoin : left.cell.span.join right.cell.span = .ok span)
    (hrule : rule ∈ ctx.grammar.binaryRules) (h : batch.Receptive span) :
    Ends (Batch.Receptive span) ctx.Raises (ctx.pushBinary span left right batch rule) := by
  refine (applyBinary_ends hmeets hjoin hrule).bind fun result _ => ?_
  cases result with
  | none => exact h
  | some result =>
    refine (ctx.prunes_ends _ true).bind fun prunes _ => ?_
    cases prunes with
    | true => exact h
    | false => exact (ctx.isFullParse_ends _ _).bind fun full _ => .of_ok (h.push rfl)

theorem pushUnary_ends (hnames : ctx.grammar.OwnNames) {argument : Argument S} {rule : UnaryRule}
    (hrule : rule ∈ ctx.grammar.unaryRules) (hspan : ∀ p ∈ argument.cell.steps, p.step.span = span)
    (h : batch.Receptive span) :
    Ends (Batch.Receptive span) ctx.Raises (ctx.pushUnary span argument batch rule) := by
  refine (applyUnary_ends hnames hrule).bind fun result hplain => ?_
  cases result with
  | none => exact h
  | some result =>
    refine (ctx.prunes_ends _ false).bind fun prunes _ => ?_
    cases prunes with
    | true => exact h
    | false =>
      refine (ctx.isFullParse_ends _ _).bind fun full _ => Ends.foldlM (fun p hp batch hb => ?_) h
      obtain ⟨hp, hbase⟩ := List.mem_filter.mp hp
      have hname : p.step.rule.overload result.name = .ok _ :=
        RuleName.overload_eq_ok.mpr ⟨by simpa using hbase, hplain result rfl, rfl⟩
      obtain ⟨step, hstep, hsame⟩ : ∃ step, p.step.overload ctx.model result full = .ok step ∧
          step.span = p.step.span := ⟨_, bind_eq_ok.mpr ⟨_, hname, rfl⟩, rfl⟩
      exact (Ends.of_ok ⟨step, hstep, rfl⟩ : Ends (· = step) _ _).bind fun _ heq =>
        .of_ok (heq ▸ hb.push (hsame.trans (hspan p hp)))

end Context

variable [Scalar S] {ctx : Context S} {P : Chart S → Job → Prop} {done : Set Job} {chart : Chart S}
  {span : Span} {job : Job} {cells : List (Cell S)} {pruned : Bool}

namespace Filled

theorem keyed (h : Filled ctx P done chart) (hsize : span.size = ctx.size) {b : Beam S}
    (hb : chart.beam? span.first span.last = some b) : b.Keyed := by
  induction h generalizing b with
  | new h =>
    obtain rfl := Chart.eq_empty_of_new h hb
    exact .empty _ _ _
  | @add done chart chart' job cells pruned hfilled hready _ _ _ hadds ih =>
    obtain ⟨other, b₁, b₂, hother, _, hat⟩ := hfilled.exists_addsAt hready hadds
    by_cases hspan : span = other
    · subst hspan
      obtain rfl := Option.some.inj (hat.self.symm.trans hb)
      exact ((ih hat.beam).takes hat.takes).markPruned_if pruned
    · rw [hat.others span (hsize.trans hother.symm) hspan] at hb
      exact ih hb

theorem receptive (h : Filled ctx P done chart) (hsize : span.size = ctx.size) {b : Beam S}
    (hb : chart.beam? span.first span.last = some b) : b.Receptive span :=
  ⟨h.keyed hsize hb, fun c hc => (h.grounded span hsize b hb c hc).span_eq⟩

theorem exists_arguments (h : Filled ctx P done chart) (hsize : span.size = ctx.size) :
    ∃ arguments, Context.arguments chart span.first span.last = .ok arguments ∧
      ∀ a ∈ arguments, a.cell.Grounded ctx done chart span := by
  obtain ⟨b, hb⟩ := h.exists_beam hsize
  have hok : Context.arguments chart span.first span.last = .ok _ :=
    bind_eq_ok.mpr ⟨b, Chart.beam_eq_ok_iff.mpr hb, rfl⟩
  refine ⟨_, hok, fun a ha => ?_⟩
  obtain ⟨key, c, hc, rfl⟩ := (mem_arguments_iff hok).mp ha
  exact h.grounded.cell span hsize hc

theorem splitCells_ends (h : Filled ctx P done chart) (hsize : span.size = ctx.size) {k : Nat}
    (hk : k < span.numSplits) :
    Ends (fun _ => True) ctx.Raises (ctx.splitCells chart span k) := by
  have hsplit : span.splitAt k = .ok (span.split k hk) := dif_pos hk
  have hsize₁ : (span.split k hk).1.size = ctx.size := hsize
  have hsize₂ : (span.split k hk).2.size = ctx.size := hsize
  obtain ⟨lefts, hlefts, hleft⟩ := h.exists_arguments hsize₁
  obtain ⟨rights, hrights, hright⟩ := h.exists_arguments hsize₂
  unfold Context.splitCells
  rw [hsplit]
  refine (Ends.of_ok ⟨lefts, hlefts, rfl⟩ : Ends (· = lefts) _ _).bind fun _ hl => ?_
  subst hl
  refine (Ends.of_ok ⟨rights, hrights, rfl⟩ : Ends (· = rights) _ _).bind fun _ hr => ?_
  subst hr
  refine (Ends.of_ok (Context.receptive_batch ctx span)).bind fun batch hbatch => ?_
  refine (Ends.foldlM (fun l hl batch hb => Ends.foldlM (fun r hr batch hb =>
    Ends.foldlM (fun rule hrule batch hb => ?_) hb) hb) hbatch).bind fun _ _ => trivial
  refine Context.pushBinary_ends ?_ ?_ hrule hb
  · rw [(hleft l hl).span_eq, (hright r hr).span_eq]
    exact span.meets_split hk
  · rw [(hleft l hl).span_eq, (hright r hr).span_eq]
    exact span.ofBounds_self

theorem unaryCells_ends (hnames : ctx.grammar.OwnNames) (h : Filled ctx P done chart)
    (hsize : span.size = ctx.size) :
    Ends (fun _ => True) ctx.Raises (ctx.unaryCells chart span) := by
  refine (Ends.of_ok (h.exists_arguments hsize)).bind fun arguments harguments => ?_
  refine (Ends.of_ok (Context.receptive_batch ctx span)).bind fun batch hbatch => ?_
  refine (Ends.foldlM (fun a ha batch hb => Ends.foldlM (fun rule hrule batch hb => ?_) hb)
    hbatch).bind fun _ _ => trivial
  refine Context.pushUnary_ends hnames hrule (fun p hp => ?_) hb
  exact ((harguments a ha).steps p hp).faithful.span_eq

/-- A job that is ready works out its cells, or a rule or filter of the caller raises a fault. -/
theorem cellsOf_ends (hbeam : 0 < ctx.config.beam) (hnames : ctx.grammar.OwnNames)
    (h : Filled ctx P done chart) (hready : Ready ctx.size done job) :
    Ends (fun _ => True) ctx.Raises (ctx.cellsOf chart job) := by
  obtain ⟨span, hsize, hjob⟩ := hready.within
  have hbounds : Span.ofBounds job.first job.last ctx.size = .ok span := by
    obtain ⟨hfirst, hlast⟩ := Prod.mk.inj hjob.bounds
    rw [hfirst, hlast, ← hsize]
    exact span.ofBounds_self
  unfold Context.cellsOf
  rw [hbounds]
  rcases hjob with hbase | rfl
  · cases hbase with
    | lexical => exact Context.lexicalCells_ends hbeam span
    | split hk => exact h.splitCells_ends hsize hk
  · exact h.unaryCells_ends hnames hsize

theorem exists_addAll (h : Filled ctx P done chart) (hready : Ready ctx.size done job)
    (hcells : ctx.cellsOf chart job = .ok (cells, pruned)) :
    ∃ chart', chart.addAll job.first job.last cells pruned = .ok chart' := by
  obtain ⟨span, hsize, hjob⟩ := hready.within
  obtain ⟨hfirst, hlast⟩ := Prod.mk.inj hjob.bounds
  obtain ⟨b, hb⟩ := h.exists_beam hsize
  have hspans : ∀ c ∈ cells, c.span = span := fun c hc =>
    (h.grounded.cellsOf hsize hjob hready hcells c hc).span_eq
  obtain ⟨b', hoffer⟩ := (h.receptive hsize hb).exists_offerAll hspans
  rw [hfirst, hlast]
  exact Chart.exists_addAll hb hspans hoffer pruned

theorem run_ends (hbeam : 0 < ctx.config.beam) (hnames : ctx.grammar.OwnNames)
    (h : Filled ctx P done chart) (hready : Ready ctx.size done job) :
    Ends (fun _ => True) ctx.Raises (ctx.run chart job) := by
  have hcells := Ends.self fun _ he => (h.cellsOf_ends hbeam hnames hready).of_error he
  refine hcells.bind fun (cells, pruned) hok => .of_ok ?_
  exact (h.exists_addAll hready hok).imp fun _ hadd => ⟨hadd, trivial⟩

end Filled

namespace Context

/-- The sequential parse meets no faults but those of the caller. -/
theorem parseSequentially_ends (hbeam : 0 < ctx.config.beam) (hnames : ctx.grammar.OwnNames) :
    Ends (fun _ => True) ctx.Raises ctx.parseSequentially := by
  have hnew : Chart.new ctx.tokens ctx.config = .ok (Chart.empty ctx.tokens ctx.config : Chart S) :=
    if_neg fun hnone => hbeam.ne' hnone.1
  have hstart : Filled ctx (fun _ _ => True) {j | j ∈ []} (.empty ctx.tokens ctx.config) :=
    filled_nil hnew
  unfold parseSequentially
  rw [hnew]
  show Ends _ _ ((Job.ofSentence ctx.size).foldlM ctx.run _ >>= fun chart => .ok chart.close)
  refine (Ends.self fun fault he => ?_).bind fun _ _ => trivial
  obtain ⟨before, job, after, part, hjobs, hpart, hrun⟩ := foldlM_eq_error.mp he
  obtain ⟨hready, _⟩ := Job.ready_in_turn hjobs
  have hall : Job.ofSentence ctx.size = [] ++ (before ++ job :: after) := hjobs
  have hfilled := filled_of_run hall hstart hpart fun _ _ _ _ _ _ => trivial
  exact (hfilled.run_ends hbeam hnames hready).of_error hrun

end Context

/-- Nor does the work of any job, whatever turns the tasks take. -/
theorem Trace.Panics.raises {fault : Fault} (hbeam : 0 < ctx.config.beam)
    (hnames : ctx.grammar.OwnNames) (h : Panics ctx job fault) : ctx.Raises fault := by
  obtain ⟨tr, i, task, hreach, htask, rfl, hworking, hfault⟩ := h
  have hfilling := hreach.anywhere.filling
  have hmem := List.mem_of_getElem? htask
  have hready := hreach.inOrder.ready hmem
  obtain ⟨job, phase⟩ := task
  cases phase with
  | issued => simp [Phase.isWorking] at hworking
  | begun =>
    rcases bind_eq_error.mp hfault with hcells | ⟨_, _, hnone⟩
    · exact (hfilling.filled.cellsOf_ends hbeam hnames hready).of_error hcells
    · simp at hnone
  | computed cells pruned =>
    obtain ⟨chart', hadd⟩ := hfilling.filled.exists_addAll hready (hfilling.current _ hmem)
    rcases bind_eq_error.mp hfault with hfault | ⟨_, _, hnone⟩
    · simp [hadd] at hfault
    · simp at hnone
  | added => simp [Phase.isWorking] at hworking
  | finished => simp [Phase.isWorking] at hworking
  | recorded found => simp [Phase.isWorking] at hworking
  | issuing jobs => simp [Phase.isWorking] at hworking

end Categorial
