import Mathlib.Algebra.GroupWithZero.Nat
import Mathlib.Order.MinMax
import Categorial.Proofs.Chart.Packing

/-! # Counting steps one by one

A tally runs through the steps once. It starts its counts of the best steps anew at each better one,
and what it has in the end are counts over the steps that reach the greatest score of all.
-/

namespace Categorial

theorem addCounts_min (a b : Nat) :
    addCounts (min a countLimit) (min b countLimit) = min (a + b) countLimit := by
  unfold addCounts
  omega

namespace Tally

theorem numParses_add {S : Type} [Scalar S] (t : Tally S) (p : PackedStep S) :
    (t.add p).numParses = addCounts t.numParses p.children.numParses := by
  unfold add
  dsimp only
  split_ifs <;> rfl

theorem numParses_foldl_add {S : Type} [Scalar S] {n : PackedStep S → Nat}
    {steps : List (PackedStep S)}
    (hn : ∀ p ∈ steps, p.children.numParses = min (n p) countLimit) {t : Tally S} {k : Nat}
    (ht : t.numParses = min k countLimit) :
    (steps.foldl add t).numParses = min (k + (steps.map n).sum) countLimit := by
  induction steps generalizing t k with
  | nil => simpa using ht
  | cons p steps ih =>
    have hp : (t.add p).numParses = min (k + n p) countLimit := by
      rw [numParses_add, ht, hn p (.head _), addCounts_min]
    rw [List.foldl_cons, ih (fun q hq => hn q (.tail _ hq)) hp, List.map_cons, List.sum_cons,
      Nat.add_assoc]

section Ordered

variable {S : Type} [OrderedScalar S] {t : Tally S} {p : PackedStep S}
  {steps : List (PackedStep S)} {n : PackedStep S → Nat}

theorem add_of_worse (h : p.viterbi < t.viterbi) :
    t.add p = { t with numParses := addCounts t.numParses p.children.numParses } := by
  rw [add_eq, if_neg h.ne, if_neg h.not_gt]

theorem add_of_tied (h : p.viterbi = t.viterbi) :
    t.add p = ⟨t.viterbi, addCounts t.numParses p.children.numParses,
      addCounts t.numViterbiParses p.children.numViterbiParses, t.numViterbiSteps + 1⟩ := by
  rw [add_eq, if_pos h]

theorem add_of_better (h : t.viterbi < p.viterbi) :
    t.add p = ⟨p.viterbi, addCounts t.numParses p.children.numParses,
      p.children.numViterbiParses, 1⟩ := by
  rw [add_eq, if_neg h.ne', if_pos h]

theorem reached_iff : t.reached p = true ↔ t.viterbi ≤ p.viterbi := by
  rw [reached, Bool.or_eq_true, OrderedScalar.beq_iff, OrderedScalar.blt_iff, le_iff_eq_or_lt,
    eq_comm]

theorem foldl_add_viterbi (t : Tally S) (steps : List (PackedStep S)) :
    (∀ p ∈ steps, p.viterbi ≤ (steps.foldl add t).viterbi) ∧
      ((steps.foldl add t).viterbi = t.viterbi ∨
        ∃ p ∈ steps, p.viterbi = (steps.foldl add t).viterbi) := by
  induction steps generalizing t with
  | nil => exact ⟨by simp, .inl rfl⟩
  | cons p steps ih =>
    obtain ⟨hle, hattained⟩ := ih (t.add p)
    have hmax := viterbi_le_foldl_add (t.add p) steps
    rw [viterbi_add] at hmax
    constructor
    · intro q hq
      rcases List.mem_cons.mp hq with rfl | hq
      · exact (le_max_right _ _).trans hmax
      · exact hle q hq
    · rcases hattained with heq | ⟨q, hq, heq⟩
      · rw [viterbi_add] at heq
        rcases max_choice t.viterbi p.viterbi with hchoice | hchoice
        · exact .inl (heq.trans hchoice)
        · exact .inr ⟨p, .head _, (heq.trans hchoice).symm⟩
      · exact .inr ⟨q, .tail _ hq, heq⟩

/-- A count over the best steps so far: it stays at a worse step, grows at an equal one and starts
anew at a better one. In the end it is a sum over the steps that reach the best score. -/
theorem count_foldl_add (count : Tally S → Nat → Prop) (n : PackedStep S → Nat)
    (worse : ∀ p ∈ steps, ∀ (t : Tally S) k, p.viterbi < t.viterbi → count t k →
      count (t.add p) k)
    (tied : ∀ p ∈ steps, ∀ (t : Tally S) k, p.viterbi = t.viterbi → count t k →
      count (t.add p) (k + n p))
    (better : ∀ p ∈ steps, ∀ t : Tally S, t.viterbi < p.viterbi → count (t.add p) (n p))
    {k : Nat} (ht : count t k) {best : S} (hbest : (steps.foldl add t).viterbi = best) :
    count (steps.foldl add t) ((if t.viterbi = best then k else 0) +
      (steps.map fun p => if p.viterbi = best then n p else 0).sum) := by
  induction steps generalizing t k with
  | nil =>
    have hbest : t.viterbi = best := hbest
    simpa [hbest] using ht
  | cons p steps ih =>
    have hle : max t.viterbi p.viterbi ≤ best := by
      rw [← viterbi_add, ← hbest]
      exact viterbi_le_foldl_add (t.add p) steps
    obtain ⟨hold, hnew⟩ := max_le_iff.mp hle
    have hrest {k : Nat} (hk : count (t.add p) k) :=
      ih (fun q hq => worse q (.tail _ hq)) (fun q hq => tied q (.tail _ hq))
        (fun q hq => better q (.tail _ hq)) hk hbest
    rw [List.foldl_cons, List.map_cons, List.sum_cons, ← Nat.add_assoc]
    rcases lt_trichotomy p.viterbi t.viterbi with hlt | heq | hgt
    · -- the step is not among the best
      have hcount := hrest (worse p (.head _) t k hlt ht)
      rw [viterbi_add, max_eq_left hlt.le] at hcount
      rwa [if_neg (hlt.trans_le hold).ne, Nat.add_zero]
    · have hcount := hrest (tied p (.head _) t k heq ht)
      rw [viterbi_add, heq, max_self] at hcount
      rw [heq]
      split_ifs at hcount ⊢ <;> exact hcount
    · -- the count starts anew
      have hcount := hrest (better p (.head _) t hgt)
      rw [viterbi_add, max_eq_right hgt.le] at hcount
      rwa [if_neg (hgt.trans_le hnew).ne, Nat.zero_add]

theorem numViterbiParses_foldl_add
    (hn : ∀ p ∈ steps, p.children.numViterbiParses = min (n p) countLimit) {k : Nat}
    (ht : t.numViterbiParses = min k countLimit) {best : S}
    (hbest : (steps.foldl add t).viterbi = best) :
    (steps.foldl add t).numViterbiParses =
      min ((if t.viterbi = best then k else 0) +
        (steps.map fun p => if p.viterbi = best then n p else 0).sum) countLimit := by
  refine count_foldl_add (fun t k => t.numViterbiParses = min k countLimit) n
    (fun p _ t k hlt ht => ?_) (fun p hp t k heq ht => ?_) (fun p hp t hgt => ?_) ht hbest
  · rw [add_of_worse hlt]
    exact ht
  · rw [add_of_tied heq]
    exact (congrArg₂ addCounts ht (hn p hp)).trans (addCounts_min k (n p))
  · rw [add_of_better hgt]
    exact hn p hp

theorem numViterbiSteps_foldl_add {best : S} (hbest : (steps.foldl add t).viterbi = best) :
    (steps.foldl add t).numViterbiSteps = (if t.viterbi = best then t.numViterbiSteps else 0) +
      (steps.map fun p => if p.viterbi = best then 1 else 0).sum := by
  refine count_foldl_add (fun t k => t.numViterbiSteps = k) (fun _ => 1)
    (fun p _ t k hlt ht => ?_) (fun p _ t k heq ht => ?_) (fun p _ t hgt => ?_) rfl hbest
  · rw [add_of_worse hlt]
    exact ht
  · rw [add_of_tied heq]
    exact congrArg (· + 1) ht
  · rw [add_of_better hgt]

end Ordered

end Tally

/-- The best score of a cell is the greatest of its steps. -/
theorem Cell.viterbi_greatest {S : Type} [OrderedScalar S] (hbot : ∀ a : S, Scalar.negInf ≤ a)
    {c : Cell S} (hc : c.Packed) :
    (∀ p ∈ c.steps, p.viterbi ≤ c.viterbi) ∧ ∃ p ∈ c.steps, p.viterbi = c.viterbi := by
  obtain ⟨hle, hattained⟩ := Tally.foldl_add_viterbi .empty c.steps
  have heq : c.viterbi = (c.steps.foldl Tally.add .empty).viterbi :=
    congrArg Tally.viterbi hc.tally_eq
  rw [← heq] at hle hattained
  refine ⟨hle, ?_⟩
  rcases hattained with hleast | hattained
  · obtain ⟨p, hp, _⟩ := hc.flag
    have hleast : c.viterbi = Scalar.negInf := hleast
    exact ⟨p, hp, le_antisymm (hle p hp) (hleast ▸ hbot p.viterbi)⟩
  · exact hattained

end Categorial
