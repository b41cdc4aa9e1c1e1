import Categorial.Proofs.Chart.Packing

/-! # Stocks of cells

Some cells stock a set of steps if there is one of them per category, and it packs all steps of that
category. A stock is the same set of cells however the steps were grouped when they were offered.
-/

namespace Categorial

variable {S : Type}

theorem perm_cons_filter {cells : List (Cell S)} {c : Cell S} {category : Category}
    (hn : (cells.map (·.category)).Nodup) (hc : c ∈ cells) (hcat : c.category = category) :
    cells.Perm (c :: cells.filter (·.category != category)) := by
  have hnodup : cells.Nodup := hn.of_map
  have hout : c ∉ cells.filter (·.category != category) := by simp [hcat]
  apply (List.perm_ext_iff_of_nodup hnodup ((hnodup.filter _).cons hout)).mpr
  intro d
  rw [List.mem_cons, List.mem_filter, bne_iff_ne]
  refine ⟨fun hd => or_iff_not_imp_right.mpr fun hnot => ?_, ?_⟩
  · have heq : d.category = category := not_not.mp fun hne => hnot ⟨hd, hne⟩
    exact List.inj_on_of_nodup_map hn hd hc (heq.trans hcat.symm)
  · rintro (rfl | ⟨hd, _⟩)
    · exact hc
    · exact hd

variable [ExactScalar S]

/-- The cell packs all of the steps on offer that have its category. -/
structure Cell.Packs (cell : Cell S) (span : Span) (offered : List (PackedStep S)) : Prop where
  packed : cell.Packed
  span_eq : cell.span = span
  mem_steps : ∀ p, p ∈ cell.steps ↔ p ∈ offered ∧ p.step.root = cell.category

/-- One cell per category packs all steps on offer. -/
structure Stocks (span : Span) (offered : List (PackedStep S)) (cells : List (Cell S)) :
    Prop where
  packs : ∀ c ∈ cells, c.Packs span offered
  apart : (cells.map (·.category)).Nodup
  covers : ∀ p ∈ offered, ∃ c ∈ cells, c.category = p.step.root

variable {span : Span} {offered more : List (PackedStep S)} {cells cells' : List (Cell S)}

theorem Stocks.perm (h : Stocks span offered cells) (hp : cells.Perm cells') :
    Stocks span offered cells' where
  packs c hc := h.packs c (hp.mem_iff.mpr hc)
  apart := (hp.map _).nodup_iff.mp h.apart
  covers p hm := by
    obtain ⟨c, hc, hcat⟩ := h.covers p hm
    exact ⟨c, hp.mem_iff.mp hc, hcat⟩

theorem Stocks.eq_of_category (h : Stocks span offered cells) {c d : Cell S} (hc : c ∈ cells)
    (hd : d ∈ cells) (hcat : c.category = d.category) : c = d :=
  List.inj_on_of_nodup_map h.apart hc hd hcat

theorem Stocks.exists_single (h : Stocks span offered cells) {p : PackedStep S} (hp : p ∈ offered)
    (honly : ∀ q ∈ offered, q.step.root = p.step.root → q = p) :
    ∃ c ∈ cells, c.Single p := by
  obtain ⟨c, hc, hcat⟩ := h.covers p hp
  have hpacks := h.packs c hc
  refine ⟨c, hc, hpacks.packed, List.perm_singleton.mp ?_⟩
  rw [List.perm_ext_iff_of_nodup hpacks.packed.steps_nodup (List.nodup_singleton p)]
  intro q
  rw [hpacks.mem_steps, hcat, List.mem_singleton]
  constructor
  · rintro ⟨hq, hroot⟩
    exact honly q hq hroot
  · rintro rfl
    exact ⟨hp, rfl⟩

theorem Stocks.eq_singleton (h : Stocks span offered cells) {p : PackedStep S}
    (honly : ∀ q, q ∈ offered ↔ q = p) : ∃ c, cells = [c] ∧ c.Single p := by
  obtain ⟨c, hc, hsingle⟩ := h.exists_single ((honly p).mpr rfl) fun q hq _ => (honly q).mp hq
  refine ⟨c, List.perm_singleton.mp ?_, hsingle⟩
  rw [List.perm_ext_iff_of_nodup h.apart.of_map (List.nodup_singleton c)]
  intro d
  rw [List.mem_singleton]
  constructor
  · intro hd
    obtain ⟨q, hq, _⟩ := (h.packs d hd).packed.flag
    obtain ⟨hq, hroot⟩ := ((h.packs d hd).mem_steps q).mp hq
    obtain rfl := (honly q).mp hq
    exact h.eq_of_category hd hc (hroot.symm.trans hsingle.category.symm)
  · rintro rfl
    exact hc

theorem Stocks.cons (h : Stocks span offered cells) {cell : Cell S} (hcell : cell.Packs span more)
    (hfresh : ∀ c ∈ cells, c.category ≠ cell.category)
    (hmore : ∀ p, p ∈ more ↔ p ∈ offered ∨ p ∈ cell.steps) :
    Stocks span more (cell :: cells) where
  packs c hc := by
    rcases List.mem_cons.mp hc with rfl | hc
    · exact hcell
    · have hpacks := h.packs c hc
      refine ⟨hpacks.packed, hpacks.span_eq, fun p => ?_⟩
      rw [hpacks.mem_steps, hmore]
      refine ⟨fun ⟨hm, hroot⟩ => ⟨.inl hm, hroot⟩, fun ⟨hm, hroot⟩ => ⟨hm.resolve_right ?_, hroot⟩⟩
      exact fun hs => hfresh c hc (hroot.symm.trans ((hcell.mem_steps p).mp hs).2)
  apart := by
    refine List.nodup_cons.mpr ⟨fun hm => ?_, h.apart⟩
    obtain ⟨c, hc, hcat⟩ := List.mem_map.mp hm
    exact hfresh c hc hcat
  covers p hm := by
    rcases (hmore p).mp hm with hm | hm
    · obtain ⟨c, hc, hcat⟩ := h.covers p hm
      exact ⟨c, .tail _ hc, hcat⟩
    · exact ⟨cell, .head _, ((hcell.mem_steps p).mp hm).2.symm⟩

/-- A cell that has taken in the new steps of its category packs all of them. -/
theorem Cell.Packs.join {c d m : Cell S} (hc : c.Packs span offered)
    (hj : c.Joins d m) (hd : ∀ p ∈ d.steps, p.step.root = c.category)
    (hmore : ∀ p, p ∈ more ↔ p ∈ offered ∨ p ∈ d.steps) : m.Packs span more where
  packed := hj.packed
  span_eq := hj.span.trans hc.span_eq
  mem_steps p := by
    rw [hj.mem_steps, hc.mem_steps, hmore, hj.category, or_and_right]
    exact or_congr_right ⟨fun hp => ⟨hp, hd p hp⟩, And.left⟩

/-- Without the cell of one category the others pack the steps of all other categories. -/
theorem Stocks.tail {cell : Cell S} (h : Stocks span offered (cell :: cells)) :
    Stocks span (offered.filter (·.step.root ≠ cell.category)) cells where
  packs c hc := by
    have hpacks := h.packs c (.tail _ hc)
    have hne : c.category ≠ cell.category := fun he =>
      (List.nodup_cons.mp h.apart).1 (List.mem_map.mpr ⟨c, hc, he⟩)
    refine ⟨hpacks.packed, hpacks.span_eq, fun p => ?_⟩
    rw [hpacks.mem_steps, List.mem_filter, decide_eq_true_eq]
    exact ⟨fun ⟨hm, hr⟩ => ⟨⟨hm, hr ▸ hne⟩, hr⟩, fun ⟨⟨hm, _⟩, hr⟩ => ⟨hm, hr⟩⟩
  apart := (List.nodup_cons.mp h.apart).2
  covers p hm := by
    rw [List.mem_filter, decide_eq_true_eq] at hm
    obtain ⟨c, hc, hcat⟩ := h.covers p hm.1
    rcases List.mem_cons.mp hc with rfl | hc
    · exact absurd hcat.symm hm.2
    · exact ⟨c, hc, hcat⟩

theorem Stocks.join {c d m : Cell S} (h : Stocks span offered (c :: cells)) (hj : c.Joins d m)
    (hd : ∀ p ∈ d.steps, p.step.root = c.category)
    (hmore : ∀ p, p ∈ more ↔ p ∈ offered ∨ p ∈ d.steps) : Stocks span more (m :: cells) := by
  have hc := h.packs c (.head _)
  refine h.tail.cons (hc.join hj hd hmore) (fun c' hc' he => ?_) fun p => ?_
  · exact (List.nodup_cons.mp h.apart).1 (List.mem_map.mpr ⟨c', hc', he.trans hj.category⟩)
  · rw [hmore, hj.mem_steps, hc.mem_steps, List.mem_filter, decide_eq_true_eq]
    tauto

theorem Stocks.packs_fresh (h : Stocks span offered cells) {cell : Cell S} (hcell : cell.Packed)
    (hspan : cell.span = span) (hfresh : ∀ c ∈ cells, c.category ≠ cell.category) :
    cell.Packs span (offered ++ cell.steps) := by
  refine ⟨hcell, hspan, fun p => ?_⟩
  rw [List.mem_append]
  refine ⟨fun hp => ⟨.inr hp, hcell.root p hp⟩, fun ⟨hp, hroot⟩ => ?_⟩
  refine hp.resolve_left fun hp => ?_
  obtain ⟨c, hc, hcat⟩ := h.covers p hp
  exact hfresh c hc (hcat.trans hroot)

structure Cell.Fits (cell : Cell S) (span : Span) (offered : List (PackedStep S)) : Prop where
  packed : cell.Packed
  span_eq : cell.span = span
  coherent : Coherent (offered ++ cell.steps)

theorem Cell.Fits.merge {c cell : Cell S} (hcell : cell.Fits span offered)
    (hc : c.Packs span offered) (hcat : cell.category = c.category) :
    ∃ m changed, c.merge cell = .ok (m, changed) ∧ c.Joins cell m := by
  refine Cell.merge_joins hc.packed hcell.packed (hcell.span_eq.trans hc.span_eq.symm) hcat
    (hcell.coherent.mono fun p hp => ?_)
  rcases List.mem_append.mp hp with hp | hp
  · exact List.mem_append_left _ ((hc.mem_steps p).mp hp).1
  · exact List.mem_append_right _ hp

end Categorial
