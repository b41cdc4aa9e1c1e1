import Mathlib.Data.Set.Insert
import Categorial.Proofs.Parser.Faithful

/-! # What a job reads

A job reads spans that are finished, or the one that it finishes. No other job adds to those, so a
job gives the same cells at any time after it is ready.
-/

namespace Categorial

namespace Job

inductive Base (span : Span) : Job → Prop where
  | lexical : Base span (.lexical span.first span.last)
  | split {k : Nat} : k < span.numSplits → Base span (.split span.first span.last k)

def Of (span : Span) (job : Job) : Prop :=
  Base span job ∨ job = .unary span.first span.last

def Within (size : Nat) (job : Job) : Prop :=
  ∃ span : Span, span.size = size ∧ Of span job

/-- The jobs whose cells have to be there before. -/
def awaits : Job → List Job
  | lexical .. => []
  | split first last k => [unary first (first + k), unary (first + k + 1) last]
  | unary first last => lexical first last :: (List.range (last - first)).map (split first last)

/-- The spans whose cells a job reads. -/
def reads : Job → List (Nat × Nat)
  | lexical .. => []
  | split first last k => [(first, first + k), (first + k + 1, last)]
  | unary first last => [(first, last)]

variable {span : Span} {job : Job}

theorem Base.first_eq (h : Base span job) : job.first = span.first := by
  cases h <;> rfl

theorem Base.last_eq (h : Base span job) : job.last = span.last := by
  cases h <;> rfl

theorem Base.ne_unary (h : Base span job) (first last : Nat) : job ≠ .unary first last := by
  cases h <;> nofun

theorem Of.bounds (h : Of span job) : (job.first, job.last) = (span.first, span.last) := by
  rcases h with h | rfl
  · rw [h.first_eq, h.last_eq]
  · rfl

theorem Base.reads_ne (h : Base span job) {x : Nat × Nat} (hx : x ∈ job.reads) :
    x ≠ (span.first, span.last) := by
  cases h with
  | lexical => simp [reads] at hx
  | split hk =>
    unfold Span.numSplits at hk
    rcases List.mem_pair.mp hx with rfl | rfl
    · intro he
      have := (Prod.mk.inj he).2
      omega
    · intro he
      have := (Prod.mk.inj he).1
      omega

theorem base_iff_mem_awaits : Base span job ↔ job ∈ (unary span.first span.last).awaits := by
  constructor
  · rintro (_ | hk)
    · exact .head _
    · exact .tail _ (List.mem_map.mpr ⟨_, List.mem_range.mpr hk, rfl⟩)
  · intro h
    rcases List.mem_cons.mp h with rfl | h
    · exact .lexical
    · obtain ⟨k, hk, rfl⟩ := List.mem_map.mp h
      exact .split (List.mem_range.mp hk)

end Job

theorem Span.ext_bounds {s t : Span} (hsize : s.size = t.size) (hfirst : s.first = t.first)
    (hlast : s.last = t.last) : s = t := by
  cases s
  cases t
  simp_all

structure Ready (size : Nat) (done : Set Job) (job : Job) : Prop where
  within : job.Within size
  awaited : ∀ j ∈ job.awaits, j ∈ done

/-- Each job that is done was ready. -/
def Closed (size : Nat) (done : Set Job) : Prop :=
  ∀ job ∈ done, Ready size done job

section Ready

variable {size : Nat} {done : Set Job} {job j : Job}

theorem Ready.mono {more : Set Job} (h : Ready size done job) (hsub : done ⊆ more) :
    Ready size more job :=
  ⟨h.within, fun j hj => hsub (h.awaited j hj)⟩

theorem Closed.insert (h : Closed size done) (hjob : Ready size done job) :
    Closed size (insert job done) := by
  intro j hj
  rcases hj with rfl | hj
  · exact hjob.mono (Set.subset_insert _ _)
  · exact (h j hj).mono (Set.subset_insert _ _)

theorem Closed.mem_of_finished (h : Closed size done) (hu : .unary job.first job.last ∈ done)
    (hjob : job.Within size) : job ∈ done := by
  obtain ⟨span, _, hbase | rfl⟩ := hjob
  · refine (h _ hu).awaited job ?_
    rw [hbase.first_eq, hbase.last_eq]
    exact Job.base_iff_mem_awaits.mp hbase
  · exact hu

/-- A job that is yet to be done adds to no span that another one reads. -/
theorem Closed.reads_ne (h : Closed size done) (hjob : Ready size done job) (hnew : job ∉ done)
    (hj : Ready size done j) (hne : j ≠ job) {x : Nat × Nat} (hx : x ∈ j.reads) :
    x ≠ (job.first, job.last) := by
  rintro rfl
  cases j with
  | lexical first last => simp [Job.reads] at hx
  | split first last k =>
    -- both halves are finished
    refine hnew (h.mem_of_finished ?_ hjob.within)
    rcases List.mem_pair.mp hx with hx | hx
    · obtain ⟨hf, hl⟩ := Prod.mk.inj hx
      exact hj.awaited _ (by rw [hf, hl]; exact .head _)
    · obtain ⟨hf, hl⟩ := Prod.mk.inj hx
      exact hj.awaited _ (by rw [hf, hl]; exact .tail _ (.head _))
  | unary first last =>
    obtain ⟨hf, hl⟩ := Prod.mk.inj (List.mem_singleton.mp hx)
    obtain ⟨span, _, hbase | rfl⟩ := hjob.within
    · refine hnew (hj.awaited job ?_)
      rw [← hf, ← hl, hbase.first_eq, hbase.last_eq]
      exact Job.base_iff_mem_awaits.mp hbase
    · exact hne (congrArg₂ Job.unary hf hl).symm

end Ready

theorem Span.ofBounds_eq_ok {first last size : Nat} {span : Span}
    (h : Span.ofBounds first last size = .ok span) :
    span.first = first ∧ span.last = last ∧ span.size = size := by
  unfold Span.ofBounds Span.ofBounds? at h
  split_ifs at h
  obtain rfl := Except.ok.inj h
  exact ⟨rfl, rfl, rfl⟩

namespace Context

variable {S : Type} {chart chart' : Chart S}

theorem arguments_congr {first last : Nat} (h : chart'.beam? first last = chart.beam? first last) :
    arguments chart' first last = arguments chart first last := by
  simp only [arguments, Chart.beam, h]

variable [Scalar S] {ctx : Context S} {job : Job} {span : Span} {cells : List (Cell S)}
  {pruned : Bool}

theorem cellsOf_congr_arguments
    (h : ∀ x ∈ job.reads, arguments chart' x.1 x.2 = arguments chart x.1 x.2) :
    ctx.cellsOf chart' job = ctx.cellsOf chart job := by
  unfold cellsOf
  cases hspan : Span.ofBounds job.first job.last ctx.size with
  | error fault => rfl
  | ok span =>
    obtain ⟨hfirst, hlast, _⟩ := Span.ofBounds_eq_ok hspan
    show (match job with
      | .lexical .. => ctx.lexicalCells span
      | .split _ _ k => ctx.splitCells chart' span k
      | .unary .. => ctx.unaryCells chart' span) = _
    cases job with
    | lexical first last => rfl
    | split first last k =>
      obtain rfl : span.first = first := hfirst
      obtain rfl : span.last = last := hlast
      have hleft := h _ (.head _)
      have hright := h _ (.tail _ (.head _))
      show ctx.splitCells chart' span k = ctx.splitCells chart span k
      unfold splitCells Span.splitAt
      split_ifs with hk
      · simp only [bind, Except.bind, Span.split, hleft, hright]
      · rfl
    | unary first last =>
      obtain rfl : span.first = first := hfirst
      obtain rfl : span.last = last := hlast
      show ctx.unaryCells chart' span = ctx.unaryCells chart span
      rw [unaryCells, h _ (.head _), unaryCells]

theorem cellsOf_congr (h : ∀ x ∈ job.reads, chart'.beam? x.1 x.2 = chart.beam? x.1 x.2) :
    ctx.cellsOf chart' job = ctx.cellsOf chart job :=
  cellsOf_congr_arguments fun x hx => arguments_congr (h x hx)

end Context

theorem fresh_of_base {S : Type} [Scalar S] {ctx : Context S} {chart : Chart S} {job : Job}
    {span : Span} {candidates : List (Cell S)} (hsize : span.size = ctx.size) (hjob : job.Base span)
    (h : ctx.candidates chart job = .ok candidates) {cell : Cell S} (hc : cell ∈ candidates) :
    Fresh ctx chart span cell := by
  cases hjob with
  | lexical =>
    obtain ⟨entry, _, _, full, hfull, rfl⟩ := (Context.mem_candidates_lexical hsize h).mp hc
    exact ⟨⟨_, .leaf⟩, rfl, rfl, ⟨full, hfull, rfl⟩, trivial, rfl⟩
  | @split k hk =>
    obtain ⟨_, _, ⟨_, _, hleft, rfl⟩, ⟨_, _, hright, rfl⟩, rule, _, result, _, _, full, hfull,
      rfl⟩ := (Context.mem_candidates_split hsize hk h).mp hc
    refine ⟨⟨_, .ofCells [_, _]⟩, rfl, rfl, ⟨full, hfull, rfl⟩, ⟨k, hk, rfl, rfl, rfl, rfl⟩, ?_⟩
    exact bind_eq_ok.mpr ⟨_, hleft, bind_eq_ok.mpr ⟨_, hright, rfl⟩⟩

section Base

variable {S : Type} [ExactScalar S] {ctx : Context S} {chart : Chart S} {job : Job} {span : Span}
  {candidates cells : List (Cell S)} {pruned : Bool}

/-- What a job hands over is what its batch keeps of cells that can be offered together. -/
theorem sieved_of_base (hctx : ctx.Regular) (hsize : span.size = ctx.size) (hjob : job.Base span)
    (h : ctx.cellsOf chart job = .ok (cells, pruned)) :
    ∃ candidates, ctx.candidates chart job = .ok candidates ∧
      (∀ c ∈ candidates, Fresh ctx chart span c) ∧
      Sieved span candidates (ctx.batchCapacity job) cells pruned := by
  obtain ⟨candidates, hcands⟩ := Context.exists_candidates h
  have hfresh : ∀ c ∈ candidates, Fresh ctx chart span c := fun c hc =>
    fresh_of_base hsize hjob hcands hc
  exact ⟨candidates, hcands, hfresh,
    Context.sieved_of_cellsOf hctx hcands (offerable_of_fresh hfresh) h⟩

theorem Sieved.faithful {capacity : Option Nat} (h : Sieved span candidates capacity cells pruned)
    (hfresh : ∀ c ∈ candidates, Fresh ctx chart span c) {p : PackedStep S}
    (hp : p ∈ stepsOf cells) : Faithful ctx chart span p := by
  obtain ⟨c, hc, hp⟩ := Categorial.mem_stepsOf.mp (h.mem_stepsOf hp)
  exact (hfresh c hc).faithful hp

end Base

end Categorial
