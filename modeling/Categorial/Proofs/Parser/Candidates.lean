import Categorial.Parser.Work
import Categorial.Proofs.Computation

/-! # The candidates of a job

A job pushes cells of one step each onto a batch. Which cells it pushes does not depend on the
batch, so they can be listed beforehand.
-/

namespace Categorial

variable {S : Type} [Scalar S]

def Batch.pushAll (batch : Batch S) (cells : List (Cell S)) : Except Fault (Batch S) :=
  cells.foldlM push batch

theorem Batch.pushAll_all (candidates cells : List (Cell S)) :
    (Batch.all cells).pushAll candidates = .ok (.all (candidates.reverse ++ cells)) := by
  induction candidates generalizing cells with
  | nil => rfl
  | cons cell candidates ih =>
    rw [pushAll, List.foldlM_cons]
    show (Batch.all (cell :: cells)).pushAll candidates = _
    rw [ih, List.reverse_cons, List.append_assoc]
    rfl

theorem Batch.pushAll_best_eq_ok {b : Beam S} {batch : Batch S} {candidates : List (Cell S)} :
    (Batch.best b).pushAll candidates = .ok batch ↔
      ∃ b', b.offerAll candidates = .ok b' ∧ batch = .best b' := by
  induction candidates generalizing b with
  | nil =>
    constructor
    · exact fun h => ⟨b, rfl, (Except.ok.inj h).symm⟩
    · rintro ⟨b', h, rfl⟩
      exact congrArg (Except.ok ∘ Batch.best) (Except.ok.inj h)
  | cons cell candidates ih =>
    simp only [pushAll, Beam.offerAll, foldlM_cons_eq_ok] at ih ⊢
    constructor
    · rintro ⟨batch', hpush, hrest⟩
      obtain ⟨⟨b₁, admission⟩, hoffer, hbatch⟩ := bind_eq_ok.mp hpush
      obtain rfl := Except.ok.inj hbatch
      obtain ⟨b', hb', hbest⟩ := ih.mp hrest
      exact ⟨b', ⟨b₁, map_eq_ok.mpr ⟨_, hoffer, rfl⟩, hb'⟩, hbest⟩
    · rintro ⟨b', ⟨b₁, hb₁, hrest⟩, hbest⟩
      obtain ⟨⟨b₁, admission⟩, hoffer, rfl⟩ := map_eq_ok.mp hb₁
      exact ⟨.best b₁, bind_eq_ok.mpr ⟨_, hoffer, rfl⟩, ih.mpr ⟨b', hrest, hbest⟩⟩

def Pushes (f : Batch S → Except Fault (Batch S)) (cells : Except Fault (List (Cell S))) : Prop :=
  ∀ batch batch', f batch = .ok batch' ↔ ∃ cs, cells = .ok cs ∧ batch.pushAll cs = .ok batch'

namespace Pushes

theorem none : Pushes (fun batch => .ok batch) (.ok ([] : List (Cell S))) := by
  intro batch batch'
  constructor
  · exact fun h => ⟨[], rfl, h⟩
  · rintro ⟨cs, hcs, h⟩
    obtain rfl := Except.ok.inj hcs
    exact h

theorem one (cell : Cell S) : Pushes (fun batch => batch.push cell) (.ok [cell]) := by
  intro batch batch'
  constructor
  · intro h
    refine ⟨[cell], rfl, ?_⟩
    rw [Batch.pushAll, foldlM_cons_eq_ok]
    exact ⟨batch', h, rfl⟩
  · rintro ⟨cs, hcs, h⟩
    obtain rfl := Except.ok.inj hcs
    obtain ⟨b, hb, h⟩ := foldlM_cons_eq_ok.mp h
    exact Except.ok.inj h ▸ hb

theorem bind {α : Type} {x : Except Fault α} {f : α → Batch S → Except Fault (Batch S)}
    {g : α → Except Fault (List (Cell S))} (h : ∀ a, Pushes (f a) (g a)) :
    Pushes (fun batch => x >>= fun a => f a batch) (x >>= g) := by
  intro batch batch'
  rw [bind_eq_ok]
  constructor
  · rintro ⟨a, ha, hf⟩
    obtain ⟨cs, hcs, hpush⟩ := (h a batch batch').mp hf
    exact ⟨cs, bind_eq_ok.mpr ⟨a, ha, hcs⟩, hpush⟩
  · rintro ⟨cs, hcs, hpush⟩
    obtain ⟨a, ha, hcs⟩ := bind_eq_ok.mp hcs
    exact ⟨a, ha, (h a batch batch').mpr ⟨cs, hcs, hpush⟩⟩

theorem ite {c : Prop} [Decidable c] {f f' : Batch S → Except Fault (Batch S)}
    {g g' : Except Fault (List (Cell S))} (h : Pushes f g) (h' : Pushes f' g') :
    Pushes (fun batch => if c then f batch else f' batch) (if c then g else g') := by
  split_ifs
  · exact h
  · exact h'

theorem foldlM {α : Type} {f : Batch S → α → Except Fault (Batch S)}
    {g : α → Except Fault (List (Cell S))} (h : ∀ a, Pushes (fun batch => f batch a) (g a))
    (xs : List α) : Pushes (fun batch => xs.foldlM f batch) (yieldAll g xs) := by
  induction xs with
  | nil => exact none
  | cons x xs ih =>
    intro batch batch'
    rw [foldlM_cons_eq_ok]
    constructor
    · rintro ⟨b, hb, hrest⟩
      obtain ⟨first, hfirst, hpush⟩ := (h x batch b).mp hb
      obtain ⟨rest, hrest, hpush'⟩ := (ih b batch').mp hrest
      refine ⟨first ++ rest, yieldAll_cons_eq_ok.mpr ⟨first, rest, hfirst, hrest, rfl⟩, ?_⟩
      rw [Batch.pushAll, List.foldlM_append]
      exact bind_eq_ok.mpr ⟨b, hpush, hpush'⟩
    · rintro ⟨cs, hcs, hpush⟩
      obtain ⟨first, rest, hfirst, hrest, rfl⟩ := yieldAll_cons_eq_ok.mp hcs
      rw [Batch.pushAll, List.foldlM_append] at hpush
      obtain ⟨b, hpush, hpush'⟩ := bind_eq_ok.mp hpush
      exact ⟨b, (h x batch b).mpr ⟨first, hfirst, hpush⟩, (ih b batch').mpr ⟨rest, hrest, hpush'⟩⟩

end Pushes

/-- A computation that gives what is left of these cells once they have been pushed onto a fresh
batch. -/
def Keeps (result : Except Fault (List (Cell S) × Bool)) (cells : Except Fault (List (Cell S)))
    (start : Except Fault (Batch S)) : Prop :=
  ∀ kept pruned, result = .ok (kept, pruned) ↔ ∃ cs first batch, cells = .ok cs ∧
    start = .ok first ∧ first.pushAll cs = .ok batch ∧ batch.finish = (kept, pruned)

namespace Keeps

theorem of_pushes {f : Batch S → Except Fault (Batch S)} {cells : Except Fault (List (Cell S))}
    {start : Except Fault (Batch S)} (h : Pushes f cells) :
    Keeps (do let batch ← f (← start); .ok batch.finish) cells start := by
  intro kept pruned
  rw [bind_eq_ok]
  constructor
  · rintro ⟨first, hfirst, hf⟩
    obtain ⟨batch, hbatch, hfinish⟩ := bind_eq_ok.mp hf
    obtain ⟨cs, hcs, hpush⟩ := (h first batch).mp hbatch
    exact ⟨cs, first, batch, hcs, hfirst, hpush, Except.ok.inj hfinish⟩
  · rintro ⟨cs, first, batch, hcs, hfirst, hpush, hfinish⟩
    refine ⟨first, hfirst, bind_eq_ok.mpr ⟨batch, (h first batch).mpr ⟨cs, hcs, hpush⟩, ?_⟩⟩
    rw [hfinish]

theorem bind {α : Type} {x : Except Fault α} {f : α → Except Fault (List (Cell S) × Bool)}
    {g : α → Except Fault (List (Cell S))} {start : Except Fault (Batch S)}
    (h : ∀ a, Keeps (f a) (g a) start) : Keeps (x >>= f) (x >>= g) start := by
  intro kept pruned
  rw [bind_eq_ok]
  constructor
  · rintro ⟨a, ha, hf⟩
    obtain ⟨cs, first, batch, hcs, hrest⟩ := (h a kept pruned).mp hf
    exact ⟨cs, first, batch, bind_eq_ok.mpr ⟨a, ha, hcs⟩, hrest⟩
  · rintro ⟨cs, first, batch, hcs, hrest⟩
    obtain ⟨a, ha, hcs⟩ := bind_eq_ok.mp hcs
    exact ⟨a, ha, (h a kept pruned).mpr ⟨cs, first, batch, hcs, hrest⟩⟩

end Keeps

namespace Context

def entryCells (ctx : Context S) (span : Span) (entry : LexicalEntry) :
    Except Fault (List (Cell S)) := do
  if ← ctx.hardPrunes ⟨entry.category, span, .lexical⟩ then .ok []
  else
    let full ← ctx.isFullParse span entry.category
    .ok [.new (.lexical ctx.model entry span full) .leaf]

def binaryCells (ctx : Context S) (span : Span) (left right : Argument S) (rule : BinaryRule) :
    Except Fault (List (Cell S)) := do
  match ← ctx.applyBinary rule left right with
  | none => .ok []
  | some result =>
    if ← ctx.prunes ⟨result.category, span, rule.name⟩ true then .ok []
    else
      let full ← ctx.isFullParse span result.category
      .ok [.new (.binary ctx.model result span left.id right.id full)
        (.ofCells [left.cell, right.cell])]

def overloadCells (ctx : Context S) (result : RuleResult) (full : Bool) (p : PackedStep S) :
    Except Fault (List (Cell S)) := do
  let step ← p.step.overload ctx.model result full
  .ok [.new step p.children]

def unaryCellsOf (ctx : Context S) (span : Span) (argument : Argument S) (rule : UnaryRule) :
    Except Fault (List (Cell S)) := do
  match ← ctx.applyUnary rule argument with
  | none => .ok []
  | some result =>
    if ← ctx.prunes ⟨result.category, span, rule.name⟩ false then .ok []
    else
      let full ← ctx.isFullParse span result.category
      yieldAll (ctx.overloadCells result full) (plainSteps argument.cell)

/-- All cells that the unary rules make of a cell, whatever its handle. -/
def unaryOf (ctx : Context S) (span : Span) (cell : Cell S) : Except Fault (List (Cell S)) :=
  yieldAll (ctx.unaryCellsOf span ⟨⟨span.first, span.last, 0⟩, cell, cell.ruleNames⟩)
    ctx.grammar.unaryRules

def binaryYield (ctx : Context S) (span : Span) (lefts rights : List (Argument S)) :
    Except Fault (List (Cell S)) :=
  yieldAll (fun left => yieldAll (fun right =>
    yieldAll (ctx.binaryCells span left right) ctx.grammar.binaryRules) rights) lefts

/-- All cells that a job pushes. -/
def candidates (ctx : Context S) (chart : Chart S) (job : Job) : Except Fault (List (Cell S)) := do
  let span ← Span.ofBounds job.first job.last ctx.size
  match job with
  | .lexical .. => yieldAll (ctx.entryCells span) (ctx.lexicon.entriesFor (ctx.tokensOf span))
  | .split _ _ k =>
    let (leftSpan, rightSpan) ← span.splitAt k
    let lefts ← arguments chart leftSpan.first leftSpan.last
    let rights ← arguments chart rightSpan.first rightSpan.last
    ctx.binaryYield span lefts rights
  | .unary .. =>
    let beam ← chart.beam span.first span.last
    yieldAll (ctx.unaryOf span) (beam.cells.map (·.2))

section Members

variable {ctx : Context S} {span : Span} {cells : List (Cell S)} {cell a : Cell S}

theorem mem_entryCells_iff {entry : LexicalEntry} (h : ctx.entryCells span entry = .ok cells) :
    cell ∈ cells ↔ ctx.hardPrunes ⟨entry.category, span, .lexical⟩ = .ok false ∧
      ∃ full, ctx.isFullParse span entry.category = .ok full ∧
        cell = .new (.lexical ctx.model entry span full) .leaf := by
  obtain ⟨prunes, hprunes, h⟩ := bind_eq_ok.mp h
  rw [hprunes]
  cases prunes with
  | true =>
    obtain rfl := Except.ok.inj h
    simp
  | false =>
    obtain ⟨full, hfull, h⟩ := bind_eq_ok.mp h
    obtain rfl := Except.ok.inj h
    simp [hfull]

theorem mem_binaryCells_iff {left right : Argument S} {rule : BinaryRule}
    (h : ctx.binaryCells span left right rule = .ok cells) :
    cell ∈ cells ↔ ∃ result, ctx.applyBinary rule left right = .ok (some result) ∧
      ctx.prunes ⟨result.category, span, rule.name⟩ true = .ok false ∧
      ∃ full, ctx.isFullParse span result.category = .ok full ∧
        cell = .new (.binary ctx.model result span left.id right.id full)
          (.ofCells [left.cell, right.cell]) := by
  obtain ⟨result, hresult, h⟩ := bind_eq_ok.mp h
  rw [hresult]
  cases result with
  | none =>
    obtain rfl := Except.ok.inj h
    simp
  | some result =>
    obtain ⟨prunes, hprunes, h⟩ := bind_eq_ok.mp h
    cases prunes with
    | true =>
      obtain rfl := Except.ok.inj h
      simp [hprunes]
    | false =>
      obtain ⟨full, hfull, h⟩ := bind_eq_ok.mp h
      obtain rfl := Except.ok.inj h
      cases full <;> simp [hprunes, hfull]

theorem mem_overloadCells_iff {result : RuleResult} {full : Bool} {p : PackedStep S}
    (h : ctx.overloadCells result full p = .ok cells) :
    cell ∈ cells ↔ ∃ step, p.step.overload ctx.model result full = .ok step ∧
      cell = .new step p.children := by
  obtain ⟨step, hstep, h⟩ := bind_eq_ok.mp h
  obtain rfl := Except.ok.inj h
  simp [hstep]

theorem mem_unaryCellsOf_iff {argument : Argument S} {rule : UnaryRule}
    (h : ctx.unaryCellsOf span argument rule = .ok cells) :
    cell ∈ cells ↔ ∃ result, ctx.applyUnary rule argument = .ok (some result) ∧
      ctx.prunes ⟨result.category, span, rule.name⟩ false = .ok false ∧
      ∃ full, ctx.isFullParse span result.category = .ok full ∧
      ∃ p ∈ plainSteps argument.cell, ∃ step, p.step.overload ctx.model result full = .ok step ∧
        cell = .new step p.children := by
  obtain ⟨result, hresult, h⟩ := bind_eq_ok.mp h
  rw [hresult]
  cases result with
  | none =>
    obtain rfl := Except.ok.inj h
    simp
  | some result =>
    obtain ⟨prunes, hprunes, h⟩ := bind_eq_ok.mp h
    cases prunes with
    | true =>
      obtain rfl := Except.ok.inj h
      simp [hprunes]
    | false =>
      obtain ⟨full, hfull, h⟩ := bind_eq_ok.mp h
      have hsteps : cell ∈ cells ↔ ∃ p ∈ plainSteps argument.cell,
          ∃ step, p.step.overload ctx.model result full = .ok step ∧
            cell = .new step p.children :=
        mem_yieldAll_iff h fun _ _ _ => mem_overloadCells_iff
      cases full <;> simp [hprunes, hfull, hsteps]

theorem mem_unaryOf_iff (h : ctx.unaryOf span a = .ok cells) :
    cell ∈ cells ↔ ∃ rule ∈ ctx.grammar.unaryRules, ∃ result,
      ctx.applyUnary rule ⟨⟨span.first, span.last, 0⟩, a, a.ruleNames⟩ = .ok (some result) ∧
      ctx.prunes ⟨result.category, span, rule.name⟩ false = .ok false ∧
      ∃ full, ctx.isFullParse span result.category = .ok full ∧
      ∃ p ∈ plainSteps a, ∃ step, p.step.overload ctx.model result full = .ok step ∧
        cell = .new step p.children :=
  mem_yieldAll_iff h fun _ _ _ => mem_unaryCellsOf_iff

theorem mem_unaryOf (h : ctx.unaryOf span a = .ok cells) (hc : cell ∈ cells) :
    ∃ p ∈ a.steps, ∃ result full step, ctx.isFullParse span result.category = .ok full ∧
      p.step.overload ctx.model result full = .ok step ∧ cell = .new step p.children := by
  obtain ⟨rule, _, result, _, _, full, hfull, p, hp, step, hstep, rfl⟩ := (mem_unaryOf_iff h).mp hc
  exact ⟨p, (List.mem_filter.mp hp).1, result, full, step, hfull, hstep, rfl⟩

end Members

def batchFor (ctx : Context S) : Job → Except Fault (Batch S)
  | .lexical .. => ctx.lexicalBatch
  | _ => ctx.batch

omit [Scalar S] in
theorem batchFor_eq_ok {ctx : Context S} {job : Job} {first : Batch S}
    (h : ctx.batchFor job = .ok first) :
    first = .all [] ∨ ∃ capacity order, first = .best (.empty capacity order false) := by
  have hnew : ∀ {capacity order}, (.best <$> Beam.new capacity order false) = .ok first →
      ∃ capacity order, first = .best (.empty capacity order false) := by
    intro capacity order h
    obtain ⟨b, hb, rfl⟩ := map_eq_ok.mp h
    unfold Beam.new at hb
    split_ifs at hb
    obtain rfl := Except.ok.inj hb
    exact ⟨capacity, order, rfl⟩
  have hbatch : ctx.batch = .ok first → first = .all [] ∨ ∃ capacity order,
      first = .best (.empty capacity order false) := by
    intro h
    unfold batch at h
    split_ifs at h
    · exact .inr (hnew h)
    · exact .inl (Except.ok.inj h).symm
  cases job with
  | lexical _ _ =>
    simp only [batchFor, lexicalBatch] at h
    split_ifs at h
    · exact .inr (hnew h)
    · exact .inl (Except.ok.inj h).symm
  | split _ _ _ => exact hbatch h
  | unary _ _ => exact hbatch h

theorem pushes_entryCells (ctx : Context S) (span : Span) (entry : LexicalEntry) :
    Pushes (fun batch => ctx.pushEntry span batch entry) (ctx.entryCells span entry) :=
  .bind fun _ => .ite .none (.bind fun _ => .one _)

theorem pushes_binaryCells (ctx : Context S) (span : Span) (left right : Argument S)
    (rule : BinaryRule) :
    Pushes (fun batch => ctx.pushBinary span left right batch rule)
      (ctx.binaryCells span left right rule) := by
  refine .bind fun result => ?_
  cases result with
  | none => exact .none
  | some result => exact .bind fun _ => .ite .none (.bind fun _ => .one _)

theorem pushes_unaryCellsOf (ctx : Context S) (span : Span) (argument : Argument S)
    (rule : UnaryRule) :
    Pushes (fun batch => ctx.pushUnary span argument batch rule)
      (ctx.unaryCellsOf span argument rule) := by
  refine .bind fun result => ?_
  cases result with
  | none => exact .none
  | some result =>
    refine .bind fun _ => .ite .none (.bind fun full => ?_)
    exact .foldlM (fun _ => .bind fun _ => .one _) _

/-- A job gives the cells that its batch has kept of its candidates. -/
theorem keeps_cellsOf (ctx : Context S) (chart : Chart S) (job : Job) :
    Keeps (ctx.cellsOf chart job) (ctx.candidates chart job) (ctx.batchFor job) := by
  refine .bind fun span => ?_
  cases job with
  | lexical first last =>
    exact .of_pushes (.foldlM (fun entry => ctx.pushes_entryCells span entry) _)
  | split first last k =>
    refine .bind fun (left, right) => .bind fun lefts => .bind fun rights => .of_pushes ?_
    exact .foldlM (fun left => .foldlM (fun right =>
      .foldlM (fun rule => ctx.pushes_binaryCells span left right rule) _) _) _
  | unary first last =>
    simp only [unaryCells, arguments, bind_assoc]
    refine .bind fun beam => .of_pushes ?_
    simp only [List.foldlM_map, yieldAll_map]
    exact .foldlM (fun (x : Nat × Cell S) =>
      .foldlM (fun rule => ctx.pushes_unaryCellsOf span ⟨_, x.2, _⟩ rule) _) _

end Context

end Categorial
