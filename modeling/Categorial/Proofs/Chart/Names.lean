import Categorial.Chart.Cell
import Categorial.Proofs.Rule.Names
import Categorial.Proofs.Sorting

/-! # The names of the rules that built a cell

The names are in ascending order, so the list tells no more than which rules there are: it is the
same for any two cells that the same rules built.
-/

namespace Categorial.Cell

variable {S : Type}

theorem mem_ruleNames {cell : Cell S} {name : RuleName} :
    name ∈ cell.ruleNames ↔ ∃ p ∈ cell.steps, p.step.rule = name := by
  rw [ruleNames, mem_eraseReps, List.mem_mergeSort, List.mem_map]

theorem pairwise_ruleNames (cell : Cell S) :
    cell.ruleNames.Pairwise fun a b => a.cmp b = .lt :=
  pairwise_eraseReps (pairwise_mergeSort_cmp _)

theorem ruleNames_eq_of_mem {c d : Cell S}
    (h : ∀ name, (∃ p ∈ c.steps, p.step.rule = name) ↔ ∃ p ∈ d.steps, p.step.rule = name) :
    c.ruleNames = d.ruleNames := by
  apply eq_of_ascending c.pairwise_ruleNames d.pairwise_ruleNames
  intro name
  rw [mem_ruleNames, mem_ruleNames, h]

end Categorial.Cell
