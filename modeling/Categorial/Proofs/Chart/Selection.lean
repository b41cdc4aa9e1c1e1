import Mathlib.Data.List.Perm.Subperm
import Categorial.Proofs.Chart.Alike
import Categorial.Proofs.Chart.BeamInvariant

/-! # What an order-invariant beam keeps

A beam that is offered cells one by one ends up with the cells that one would choose once all of
them have been merged: those outside the bound, and of the others all above the key in the first
place that the capacity leaves out. The order and the grouping of the offers do not matter.
-/

namespace Categorial

variable {S : Type}

section Choice

variable [Scalar S]

def gatherCell (cells : List (Cell S)) (cell : Cell S) : Except Fault (List (Cell S)) :=
  match cells.find? (·.category == cell.category) with
  | some previous => do
    let (merged, _) ← previous.merge cell
    .ok (merged :: cells.filter (·.category != cell.category))
  | none => .ok (cell :: cells)

def gather (cells : List (Cell S)) : Except Fault (List (Cell S)) :=
  cells.foldlM gatherCell []

/-- Whether a cell has a place outside the bound. -/
def Cell.sheltered (separateLexical : Bool) (cell : Cell S) : Bool :=
  separateLexical && cell.hasLexicalStep

def contenders (separateLexical : Bool) (cells : List (Cell S)) : List (Cell S) :=
  cells.filter (!·.sheltered separateLexical)

omit [Scalar S] in
theorem mem_contenders_iff {separateLexical : Bool} {cells : List (Cell S)} {c : Cell S} :
    c ∈ contenders separateLexical cells ↔ c ∈ cells ∧ c.sheltered separateLexical = false := by
  rw [contenders, List.mem_filter, Bool.not_eq_true']

end Choice

variable [ExactScalar S]

def cutoffOf (capacity : Nat) (separateLexical : Bool) (cells : List (Cell S)) :
    Option (PruneKey S) :=
  cutoff capacity ((contenders separateLexical cells).map Cell.pruneKey)

/-- The cells outside the bound, and the contenders above the cutoff. -/
def chosen (capacity : Nat) (separateLexical : Bool) (cells : List (Cell S)) : List (Cell S) :=
  cells.filter (·.sheltered separateLexical) ++
    (contenders separateLexical cells).filter fun c =>
      (cutoffOf capacity separateLexical cells).all (· < c.pruneKey)

/-- The contenders at or below the cutoff. -/
def passedOver (capacity : Nat) (separateLexical : Bool) (cells : List (Cell S)) :
    List (Cell S) :=
  (contenders separateLexical cells).filter fun c =>
    (cutoffOf capacity separateLexical cells).any (c.pruneKey ≤ ·)

/-- Cells of one span that can be offered together: what they say about a step agrees. -/
structure Offerable (span : Span) (cells : List (Cell S)) : Prop where
  packed : ∀ c ∈ cells, c.Packed
  span_eq : ∀ c ∈ cells, c.span = span
  coherent : Coherent (cells.flatMap (·.steps))

variable {span : Span} {offered more : List (PackedStep S)} {cells : List (Cell S)}

theorem gatherCell_stocks {cell : Cell S} (h : Stocks span offered cells)
    (hcell : cell.Fits span offered) :
    ∃ merged, gatherCell cells cell = .ok merged ∧
      Stocks span (offered ++ cell.steps) merged := by
  have hmore : ∀ p, p ∈ offered ++ cell.steps ↔ p ∈ offered ∨ p ∈ cell.steps :=
    fun p => List.mem_append
  unfold gatherCell
  cases hfind : cells.find? (·.category == cell.category) with
  | some previous =>
    have hcat : previous.category = cell.category := by simpa using List.find?_some hfind
    have hmem := List.mem_of_find?_eq_some hfind
    obtain ⟨m, changed, hm, hj⟩ := hcell.merge (h.packs _ hmem) hcat.symm
    simp only [hm]
    refine ⟨_, rfl, (h.perm (perm_cons_filter h.apart hmem hcat)).join hj (fun p hp => ?_) hmore⟩
    exact (hcell.packed.root p hp).trans hcat.symm
  | none =>
    have hfresh : ∀ c ∈ cells, c.category ≠ cell.category := by
      simpa using List.find?_eq_none.mp hfind
    exact ⟨_, rfl, h.cons (h.packs_fresh hcell.packed hcell.span_eq hfresh) hfresh hmore⟩

theorem Offerable.fits {cell : Cell S} (h : Offerable span (cell :: cells))
    (hco : Coherent (offered ++ (cell :: cells).flatMap (·.steps))) : cell.Fits span offered :=
  ⟨h.packed cell (.head _), h.span_eq cell (.head _), hco.mono fun p hp => by
    rw [List.flatMap_cons, ← List.append_assoc]
    exact List.mem_append_left _ hp⟩

theorem Offerable.regroup {cells' : List (Cell S)} (h : Offerable span cells)
    (hcells : ∀ c ∈ cells', c.Packed ∧ c.span = span)
    (hsteps : ∀ p, (∃ c ∈ cells', p ∈ c.steps) → ∃ c ∈ cells, p ∈ c.steps) :
    Offerable span cells' where
  packed c hc := (hcells c hc).1
  span_eq c hc := (hcells c hc).2
  coherent := by
    apply h.coherent.mono
    simpa only [List.mem_flatMap] using hsteps

theorem Offerable.mono {cells' : List (Cell S)} (h : Offerable span cells)
    (hsub : ∀ c ∈ cells', c ∈ cells) : Offerable span cells' :=
  h.regroup (fun c hc => ⟨h.packed c (hsub c hc), h.span_eq c (hsub c hc)⟩)
    fun _ ⟨c, hc, hp⟩ => ⟨c, hsub c hc, hp⟩

theorem Offerable.tail {cell : Cell S} (h : Offerable span (cell :: cells)) :
    Offerable span cells :=
  h.mono fun _ => List.mem_cons_of_mem _

/-- Merging all offers gives a stock of their steps. -/
theorem gather_stocks (h : Offerable span cells) :
    ∃ merged, gather cells = .ok merged ∧
      Stocks span (cells.flatMap (·.steps)) merged := by
  suffices hgen : ∀ (before : List (Cell S)) (offered : List (PackedStep S)),
      Stocks span offered before → Coherent (offered ++ cells.flatMap (·.steps)) →
      ∃ merged, cells.foldlM gatherCell before = .ok merged ∧
        Stocks span (offered ++ cells.flatMap (·.steps)) merged by
    exact hgen [] [] ⟨by simp, by simp, by simp⟩ h.coherent
  induction cells with
  | nil => exact fun before offered hb _ => ⟨before, rfl, by simpa using hb⟩
  | cons cell cells ih =>
    intro before offered hb hco
    obtain ⟨next, hnext, hstocks⟩ := gatherCell_stocks hb (h.fits hco)
    rw [List.flatMap_cons, ← List.append_assoc] at hco ⊢
    obtain ⟨merged, hmerged, hall⟩ := ih h.tail next _ hstocks hco
    refine ⟨merged, ?_, hall⟩
    rw [List.foldlM_cons, hnext]
    exact hmerged

namespace Beam

variable {b : Beam S}

theorem Holds.offerAll (hb : b.Holds span offered) (h : Offerable span cells)
    (hco : Coherent (offered ++ cells.flatMap (·.steps))) :
    ∃ b', b.offerAll cells = .ok b' ∧ b'.Holds span (offered ++ cells.flatMap (·.steps)) ∧
      b.Settings b' := by
  induction cells generalizing b offered with
  | nil => exact ⟨b, rfl, by simpa using hb, .refl b⟩
  | cons cell cells ih =>
    obtain ⟨b₁, admission, hoffer, hb₁, hset⟩ := hb.offer (h.fits hco)
    rw [List.flatMap_cons, ← List.append_assoc] at hco ⊢
    obtain ⟨b', hall, hb', hset'⟩ := ih hb₁ h.tail hco
    refine ⟨b', ?_, hb', hset.trans hset'⟩
    rw [Beam.offerAll, List.foldlM_cons, hoffer]
    exact hall

def keeps (b : Beam S) (cell : Cell S) : Bool :=
  cell.sheltered b.separateLexical || b.threshold.all (· < cell.pruneKey)

theorem Holds.contenders_eq (hb : b.Holds span offered) :
    contenders b.separateLexical b.stock = b.candidates := by
  rw [contenders, stock, List.filter_append, candidates, competing, List.filter_map]
  congr 1
  · refine congrArg _ (List.filter_congr fun e he => ?_)
    rw [hb.unbounded_iff e he]
    rfl
  · rw [List.filter_eq_self]
    intro c hc
    rw [Bool.not_eq_true']
    exact hb.aside_bounded c hc

theorem Holds.above (hb : b.Holds span offered) {c : Cell S} (hc : c ∈ b.competing) :
    b.threshold.all (· < c.pruneKey) = true :=
  hb.divides.above (List.mem_map_of_mem hc)

theorem Holds.below (hb : b.Holds span offered) {c : Cell S} (hc : c ∈ b.setAside) :
    b.threshold.any (c.pruneKey ≤ ·) = true :=
  hb.divides.below (List.mem_map_of_mem hc)

theorem Holds.kept_eq_filter (hb : b.Holds span offered) :
    b.entries.map (·.1) = b.stock.filter b.keeps := by
  have hkept : (b.entries.map (·.1)).filter b.keeps = b.entries.map (·.1) := by
    rw [List.filter_eq_self]
    intro c hc
    obtain ⟨⟨c, u⟩, he, rfl⟩ := List.mem_map.mp hc
    have hu := hb.unbounded_iff _ he
    cases u with
    | true => exact Bool.or_eq_true_iff.mpr (.inl hu.symm)
    | false => exact Bool.or_eq_true_iff.mpr (.inr (hb.above (mem_competing_iff.mpr he)))
  have haside : b.setAside.filter b.keeps = [] := by
    rw [List.filter_eq_nil_iff]
    intro c hc
    have hbelow := hb.below hc
    rw [any_le_eq_not_all, Bool.not_eq_true'] at hbelow
    have hbounded : c.sheltered b.separateLexical = false := hb.aside_bounded c hc
    simp [keeps, hbelow, hbounded]
  rw [stock, List.filter_append, hkept, haside, List.append_nil]

theorem Holds.setAside_eq_filter (hb : b.Holds span offered) :
    b.setAside = (contenders b.separateLexical b.stock).filter fun c =>
      b.threshold.any (c.pruneKey ≤ ·) := by
  have hcomp : (b.competing.filter fun c => b.threshold.any (c.pruneKey ≤ ·)) = [] := by
    rw [List.filter_eq_nil_iff]
    intro c hc
    rw [any_le_eq_not_all, hb.above hc]
    simp
  have haside : (b.setAside.filter fun c => b.threshold.any (c.pruneKey ≤ ·)) = b.setAside := by
    rw [List.filter_eq_self]
    exact fun c hc => hb.below hc
  rw [hb.contenders_eq, candidates, List.filter_append, hcomp, haside, List.nil_append]

theorem Holds.threshold_eq (hb : b.Holds span offered) :
    b.threshold = cutoffOf b.capacity b.separateLexical b.stock := by
  rw [cutoffOf, hb.contenders_eq, candidates, List.map_append]
  exact hb.divides.eq_cutoff

/-- A contender is set aside if and only if it is reached by more of them than the beam has room
for. -/
theorem Holds.mem_setAside_iff (hb : b.Holds span offered) {c : Cell S} :
    c ∈ b.setAside ↔ c ∈ contenders b.separateLexical b.stock ∧ b.capacity <
      ((contenders b.separateLexical b.stock).map Cell.pruneKey).countP (c.pruneKey ≤ ·) := by
  rw [hb.setAside_eq_filter, List.mem_filter]
  refine and_congr_right fun hc => ?_
  rw [any_le_eq_not_all, hb.threshold_eq, cutoffOf, Bool.not_eq_true', ← Bool.not_eq_true,
    all_cutoff_iff (List.mem_map_of_mem hc), not_le]

theorem Holds.mem_setAside_of_outranked (hb : b.Holds span offered) {c : Cell S}
    {others : List (Cell S)} (hc : c ∈ contenders b.separateLexical b.stock)
    (hnodup : others.Nodup) (hmany : b.capacity < others.length)
    (hothers : ∀ d ∈ others, d ∈ contenders b.separateLexical b.stock ∧
      c.pruneKey ≤ d.pruneKey) : c ∈ b.setAside := by
  have hsub : others ⊆ (contenders b.separateLexical b.stock).filter
      (c.pruneKey ≤ ·.pruneKey) := by
    intro d hd
    simpa using hothers d hd
  refine hb.mem_setAside_iff.mpr ⟨hc, hmany.trans_le ?_⟩
  rw [List.countP_map, List.countP_eq_length_filter]
  exact (hnodup.subperm hsub).length_le

theorem Holds.mem_kept_of_sheltered (hb : b.Holds span offered) {c : Cell S} (hc : c ∈ b.stock)
    (hsheltered : c.sheltered b.separateLexical = true) : c ∈ b.cells.map (·.2) := by
  rw [stock, List.mem_append] at hc
  rcases hc with hc | haside
  · rwa [kept_eq]
  · have hbounded : c.sheltered b.separateLexical = false := hb.aside_bounded c haside
    exact absurd hsheltered (Bool.not_eq_true _ ▸ hbounded)

end Beam

theorem chosen_perm (capacity : Nat) (separateLexical : Bool) (cells : List (Cell S)) :
    (chosen capacity separateLexical cells).Perm (cells.filter fun c =>
      c.sheltered separateLexical ||
        (cutoffOf capacity separateLexical cells).all (· < c.pruneKey)) := by
  have hperm := List.filter_append_perm (·.sheltered separateLexical) (cells.filter fun c =>
    c.sheltered separateLexical || (cutoffOf capacity separateLexical cells).all (· < c.pruneKey))
  refine .trans (.of_eq ?_) hperm
  rw [chosen, contenders, List.filter_filter, List.filter_filter, List.filter_filter]
  congr 1
  · refine List.filter_congr fun c _ => ?_
    cases c.sheltered separateLexical <;> simp
  · refine List.filter_congr fun c _ => ?_
    cases c.sheltered separateLexical <;> simp

/-- What a beam keeps and sets aside is what one would choose from any stock of the steps that it
has taken in, up to the names of handles. -/
theorem Beam.Holds.selects {b : Beam S} {merged : List (Cell S)} {ρ : CellId → CellId}
    (hb : b.Holds span offered) (hm : Stocks span more merged)
    (hmore : ∀ q, q ∈ more ↔ ∃ p ∈ offered, p.rename ρ = q)
    (hinj : ∀ p ∈ offered, ∀ q ∈ offered, p.rename ρ = q.rename ρ → p = q) :
    AlikeCells ρ (b.cells.map (·.2)) (chosen b.capacity b.separateLexical merged) ∧
      AlikeCells ρ b.setAside (passedOver b.capacity b.separateLexical merged) ∧
      b.threshold = cutoffOf b.capacity b.separateLexical merged := by
  have hstock := hb.stocks.alike hm hmore hinj
  have hsh : ∀ c d : Cell S, c.Alike ρ d →
      c.sheltered b.separateLexical = d.sheltered b.separateLexical := by
    intro c d h
    rw [Cell.sheltered, Cell.sheltered, h.hasLexicalStep]
  have hcont : AlikeCells ρ (contenders b.separateLexical b.stock)
      (contenders b.separateLexical merged) :=
    hstock.filter fun c d h => congrArg _ (hsh c d h)
  have hthr : b.threshold = cutoffOf b.capacity b.separateLexical merged := by
    rw [hb.threshold_eq, cutoffOf, cutoffOf]
    exact cutoff_perm hcont.keys_perm
  refine ⟨?_, ?_, hthr⟩
  · have hkept : AlikeCells ρ (b.stock.filter b.keeps) (merged.filter b.keeps) := by
      refine hstock.filter fun c d h => ?_
      rw [Beam.keeps, Beam.keeps, hsh c d h, h.pruneKey]
    rw [Beam.kept_eq, hb.kept_eq_filter]
    refine hkept.perm_right (.trans (.of_eq ?_) (chosen_perm ..).symm)
    refine List.filter_congr fun c _ => ?_
    rw [Beam.keeps, hthr]
  · rw [hb.setAside_eq_filter, passedOver, ← hthr]
    refine hcont.filter fun c d h => ?_
    rw [h.pruneKey]

namespace Beam

theorem Holds.chosen_stock_perm {b : Beam S} (hb : b.Holds span offered) :
    (chosen b.capacity b.separateLexical b.stock).Perm (b.cells.map (·.2)) := by
  rw [kept_eq, hb.kept_eq_filter]
  refine (chosen_perm ..).trans (.of_eq (List.filter_congr fun c _ => ?_))
  rw [keeps, hb.threshold_eq]

/-- Beams that have taken in the same steps but for their handles keep and set aside the same
cells. -/
theorem Holds.alike {b b' : Beam S} {ρ : CellId → CellId} (hb : b.Holds span offered)
    (hb' : b'.Holds span more) (hcap : b'.capacity = b.capacity)
    (hsep : b'.separateLexical = b.separateLexical)
    (hmore : ∀ q, q ∈ more ↔ ∃ p ∈ offered, p.rename ρ = q)
    (hinj : ∀ p ∈ offered, ∀ q ∈ offered, p.rename ρ = q.rename ρ → p = q) :
    AlikeCells ρ (b.cells.map (·.2)) (b'.cells.map (·.2)) ∧
      AlikeCells ρ b.setAside b'.setAside := by
  obtain ⟨hkept, haside, hthr⟩ := hb.selects hb'.stocks hmore hinj
  rw [← hcap, ← hsep] at hkept haside
  refine ⟨hkept.perm_right hb'.chosen_stock_perm, ?_⟩
  rwa [hb'.setAside_eq_filter, hb'.threshold_eq]

theorem Holds.setAside_eq_nil_iff {b : Beam S} (hb : b.Holds span offered) :
    b.setAside = [] ↔ (contenders b.separateLexical b.stock).length ≤ b.capacity := by
  rw [hb.contenders_eq, ← List.map_eq_nil_iff (f := Cell.pruneKey), hb.divides.aside_eq_nil_iff,
    ← List.map_append, List.length_map]
  rfl

theorem Holds.setAside_eq_nil_of_categories {b : Beam S} (hb : b.Holds span offered)
    (hsep : b.separateLexical = true) {categories : List Category}
    (hroom : categories.length ≤ b.capacity)
    (h : ∀ p ∈ offered, p.step.root ∉ categories →
      ∃ q ∈ offered, q.step.root = p.step.root ∧ q.step.isLexical = true) : b.setAside = [] := by
  have hsub : (contenders b.separateLexical b.stock).map (·.category) ⊆ categories := by
    intro category hcategory
    obtain ⟨c, hcontends, rfl⟩ := List.mem_map.mp hcategory
    obtain ⟨hstock, hbounded⟩ := mem_contenders_iff.mp hcontends
    have hpacks := hb.stocks.packs c hstock
    obtain ⟨p, hp, hroot⟩ := hb.stocks.exists_category.mp ⟨c, hstock, rfl⟩
    by_contra hother
    obtain ⟨q, hq, hsame, hlexical⟩ := h p hp (hroot ▸ hother)
    have hstep : c.hasLexicalStep = true := c.hasLexicalStep_iff.mpr
      ⟨q, (hpacks.mem_steps q).mpr ⟨hq, hsame.trans hroot⟩, hlexical⟩
    rw [Cell.sheltered, hsep, hstep] at hbounded
    exact Bool.false_ne_true hbounded.symm
  have hapart : ((contenders b.separateLexical b.stock).map (·.category)).Nodup :=
    hb.stocks.apart.sublist (List.filter_sublist.map _)
  have hlength := (hapart.subperm hsub).length_le
  rw [List.length_map] at hlength
  exact hb.setAside_eq_nil_iff.mpr (hlength.trans hroom)

theorem Holds.contenders_alike {b b' : Beam S} {ρ : CellId → CellId} (hb : b.Holds span offered)
    (hb' : b'.Holds span more) (hsep : b'.separateLexical = b.separateLexical)
    (hmore : ∀ q, q ∈ more ↔ ∃ p ∈ offered, p.rename ρ = q)
    (hinj : ∀ p ∈ offered, ∀ q ∈ offered, p.rename ρ = q.rename ρ → p = q) :
    AlikeCells ρ (contenders b.separateLexical b.stock)
      (contenders b'.separateLexical b'.stock) := by
  rw [hsep]
  refine (hb.stocks.alike hb'.stocks hmore hinj).filter fun c d h => ?_
  rw [Cell.sheltered, Cell.sheltered, h.hasLexicalStep]

theorem Holds.alike_of_wider {b b' : Beam S} {ρ : CellId → CellId} (hb : b.Holds span offered)
    (hb' : b'.Holds span more) (hcap : b.capacity ≤ b'.capacity)
    (hsep : b'.separateLexical = b.separateLexical)
    (hmore : ∀ q, q ∈ more ↔ ∃ p ∈ offered, p.rename ρ = q)
    (hinj : ∀ p ∈ offered, ∀ q ∈ offered, p.rename ρ = q.rename ρ → p = q)
    (haside : b.setAside = []) :
    AlikeCells ρ (b.cells.map (·.2)) (b'.cells.map (·.2)) ∧ b'.setAside = [] := by
  have hroom : b'.setAside = [] := by
    rw [hb'.setAside_eq_nil_iff, ← (hb.contenders_alike hb' hsep hmore hinj).length_eq]
    exact (hb.setAside_eq_nil_iff.mp haside).trans hcap
  have hstock := hb.stocks.alike hb'.stocks hmore hinj
  rw [stock, stock, haside, hroom, List.append_nil, List.append_nil] at hstock
  rw [kept_eq, kept_eq]
  exact ⟨hstock, hroom⟩

/-- What a beam keeps a wider one keeps, too. -/
theorem Holds.mem_kept_of_wider {b b' : Beam S} {ρ : CellId → CellId} (hb : b.Holds span offered)
    (hb' : b'.Holds span more) (hcap : b.capacity ≤ b'.capacity)
    (hsep : b'.separateLexical = b.separateLexical)
    (hmore : ∀ q, q ∈ more ↔ ∃ p ∈ offered, p.rename ρ = q)
    (hinj : ∀ p ∈ offered, ∀ q ∈ offered, p.rename ρ = q.rename ρ → p = q) {c d : Cell S}
    (hc : c ∈ b.cells.map (·.2)) (hd : d ∈ b'.stock) (h : c.Alike ρ d) :
    d ∈ b'.cells.map (·.2) := by
  rw [kept_eq] at hc ⊢
  refine (List.mem_append.mp hd).resolve_right fun haside => ?_
  -- as many keys reach that of the cell in both beams
  have hkeys := (hb.contenders_alike hb' hsep hmore hinj).keys_perm
  rw [hb.contenders_eq, hb'.contenders_eq, candidates, candidates, List.map_append,
    List.map_append] at hkeys
  obtain ⟨⟨c, u⟩, he, rfl⟩ := List.mem_map.mp hc
  obtain rfl : u = false := by
    refine (hb.unbounded_iff _ he).trans ?_
    rw [← hsep, ← h.hasLexicalStep]
    exact hb'.aside_bounded d haside
  have hfew := hb.divides.countP_le (List.mem_map_of_mem (mem_competing_iff.mpr he))
  have hmany := hb'.divides.lt_countP (List.mem_map_of_mem haside)
  rw [hkeys.countP_eq] at hfew
  rw [h.pruneKey] at hmany
  exact absurd (hfew.trans hcap) (not_le.mpr hmany)

def ofOffers (capacity : Nat) (separateLexical : Bool) (cells : List (Cell S)) :
    Except Fault (Beam S) := do
  (← Beam.new capacity .orderInvariant separateLexical).offerAll cells

/-- What a beam looks like that was to choose from these cells. -/
structure Selects (b : Beam S) (capacity : Nat) (separateLexical : Bool)
    (merged : List (Cell S)) : Prop where
  kept : AlikeCells id (b.cells.map (·.2)) (chosen capacity separateLexical merged)
  setAside : AlikeCells id b.setAside (passedOver capacity separateLexical merged)
  threshold : b.threshold = cutoffOf capacity separateLexical merged
  hasThreshold : b.hasThreshold = true ↔ capacity < (contenders separateLexical merged).length
  isPruned : b.isPruned = true ↔ b.setAside ≠ []
  numBounded : b.numBounded = ((contenders separateLexical merged).filter fun c =>
    (cutoffOf capacity separateLexical merged).all (· < c.pruneKey)).length

variable {capacity : Nat} {separateLexical : Bool}

theorem ofOffers_holds (hcap : 1 ≤ capacity) (h : Offerable span cells) :
    ∃ b, ofOffers capacity separateLexical cells = .ok b ∧
      b.Holds span (cells.flatMap (·.steps)) ∧
      (empty capacity .orderInvariant separateLexical : Beam S).Settings b := by
  have hnew : (Beam.new capacity .orderInvariant separateLexical : Except Fault (Beam S)) =
      .ok (empty capacity .orderInvariant separateLexical) := by
    rw [Beam.new, if_neg (by omega)]
  obtain ⟨b, hall, hb, hset⟩ := (holds_empty capacity separateLexical span).offerAll h h.coherent
  exact ⟨b, by rw [ofOffers, hnew]; exact hall, hb, hset⟩

theorem Holds.numBounded_eq {b : Beam S} (hb : b.Holds span offered) :
    b.numBounded = ((contenders b.separateLexical b.stock).filter fun c =>
      b.threshold.all (· < c.pruneKey)).length := by
  have hcomp : (b.competing.filter fun c => b.threshold.all (· < c.pruneKey)) = b.competing :=
    List.filter_eq_self.mpr fun c hc => hb.above hc
  have haside : (b.setAside.filter fun c => b.threshold.all (· < c.pruneKey)) = [] := by
    rw [List.filter_eq_nil_iff]
    intro c hc
    have hbelow := hb.below hc
    rw [any_le_eq_not_all, Bool.not_eq_true'] at hbelow
    simp [hbelow]
  rw [hb.indexed.numBounded_eq, hb.contenders_eq, candidates, List.filter_append, hcomp, haside,
    List.append_nil]

theorem Holds.selects_id {b : Beam S} {merged : List (Cell S)} (hb : b.Holds span offered)
    (hset : (empty capacity .orderInvariant separateLexical : Beam S).Settings b)
    (hm : Stocks span more merged) (hmore : ∀ p, p ∈ more ↔ p ∈ offered) :
    b.Selects capacity separateLexical merged := by
  have hren : ∀ q, q ∈ more ↔ ∃ p ∈ offered, p.rename id = q := by
    intro q
    simp only [PackedStep.rename_id, exists_eq_right, hmore]
  have hinj : ∀ p ∈ offered, ∀ q ∈ offered, p.rename id = q.rename id → p = q := by
    intro p _ q _ h
    rwa [PackedStep.rename_id, PackedStep.rename_id] at h
  obtain ⟨hkept, haside, hthr⟩ := hb.selects hm hren hinj
  have hcont : AlikeCells id (contenders b.separateLexical b.stock)
      (contenders b.separateLexical merged) :=
    (hb.stocks.alike hm hren hinj).filter fun c d h => by
      rw [Cell.sheltered, Cell.sheltered, h.hasLexicalStep]
  have hcap : b.capacity = capacity := hset.capacity
  have hsep : b.separateLexical = separateLexical := hset.separateLexical
  refine ⟨hcap ▸ hsep ▸ hkept, hcap ▸ hsep ▸ haside, hcap ▸ hsep ▸ hthr, ?_, ?_, ?_⟩
  · rw [hasThreshold, hb.divides.isSome_iff, ← List.map_append, List.length_map, hcap, ← hsep,
      ← hcont.length_eq, hb.contenders_eq]
    rfl
  · have hext : b.externallyPruned = false := hset.externallyPruned
    simp [Beam.isPruned, hb.rejected, hext]
  · rw [hb.numBounded_eq, ← hcap, ← hsep, ← hthr]
    refine (hcont.filter fun c d h => ?_).length_eq
    rw [h.pruneKey]

end Beam

end Categorial
