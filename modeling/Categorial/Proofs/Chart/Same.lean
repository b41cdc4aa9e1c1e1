import Categorial.Proofs.Chart.Alike
import Categorial.Proofs.Chart.Layout

/-! # Charts up to the names of handles

Two charts are the same if a renaming of handles takes each cell of one to a cell of the other with
the same category, steps and scores, and both report the same spans as pruned. Closing a chart does
not change any of this.
-/

namespace Categorial

variable {S : Type}

theorem Beam.isPruned_close (b : Beam S) : b.close.isPruned = b.isPruned := by
  cases hr : b.rejected <;> cases he : b.externallyPruned <;>
    simp [Beam.isPruned, Beam.close, hr, he]

namespace Chart

/-- The renaming takes the cells of the first chart to those of the second, span by span. -/
@[mk_iff]
structure SameUnder (ρ : CellId → CellId) (chart chart' : Chart S) : Prop where
  tokens : chart'.tokens = chart.tokens
  forth : ∀ id c, chart.cell id = .ok c → (ρ id).first = id.first ∧ (ρ id).last = id.last ∧
    ∃ d, chart'.cell (ρ id) = .ok d ∧ c.Alike ρ d ∧ d.isFullParse = c.isFullParse
  back : ∀ id d, chart'.cell id = .ok d → ∃ id' c, chart.cell id' = .ok c ∧ ρ id' = id
  inj : ∀ id id' c c', chart.cell id = .ok c → chart.cell id' = .ok c' → ρ id = ρ id' → id = id'
  prunedSpans : chart'.prunedSpans = chart.prunedSpans

/-- The charts are the same but for the names of handles and the order of the steps in a cell. -/
def Same (chart chart' : Chart S) : Prop :=
  ∃ ρ, chart.SameUnder ρ chart'

variable {chart chart' : Chart S} {first last : Nat} {ρ : CellId → CellId}

theorem bounds_of_beam? {b : Beam S} {size : Nat} (hsize : chart.beams.size = numSpans size)
    (h : chart.beam? first last = some b) : first ≤ last ∧ last < size := by
  unfold beam? at h
  split_ifs at h with hle
  obtain ⟨hlt, _⟩ := Array.getElem?_eq_some_iff.mp h
  exact ⟨hle, (slot_lt_numSpans_iff hle).mp (hsize ▸ hlt)⟩

theorem beam?_close : chart.close.beam? first last = (chart.beam? first last).map Beam.close := by
  unfold beam?
  split_ifs
  · simp [close]
  · rfl

theorem cell_close (id : CellId) : chart.close.cell id = chart.cell id := by
  unfold Chart.cell Chart.beam
  rw [beam?_close]
  cases chart.beam? id.first id.last with
  | none => rfl
  | some b => rfl

theorem prunedSpans_close : chart.close.prunedSpans = chart.prunedSpans := by
  unfold prunedSpans
  refine List.filter_congr fun (first, last) _ => ?_
  show (chart.close.beam? first last).any Beam.isPruned = (chart.beam? first last).any Beam.isPruned
  rw [beam?_close, Option.any_map]
  exact congrArg (Option.any · _) (funext Beam.isPruned_close)

/-- What makes charts the same is there before they are closed. -/
theorem sameUnder_close : chart.close.SameUnder ρ chart'.close ↔ chart.SameUnder ρ chart' := by
  simp only [sameUnder_iff, cell_close, prunedSpans_close]
  rfl

end Chart

end Categorial
