import Categorial.Proofs.Chart.Offers

/-! # Beams that turn no cell away

As long as an offer costs no cell its place, a beam has all that it was offered: one cell for each
category, with the steps of all cells of this category. This holds in both orders of pruning and
needs no law of arithmetic.
-/

namespace Categorial

variable {S : Type}

namespace Cell

structure Within (c d : Cell S) : Prop where
  category : d.category = c.category
  steps : ∀ m, c.containsStep m = true → d.containsStep m = true

variable {c d m : Cell S} {changed : Bool}

theorem Within.refl (c : Cell S) : c.Within c :=
  ⟨rfl, fun _ h => h⟩

theorem Within.trans (hcd : c.Within d) (hdm : d.Within m) : c.Within m :=
  ⟨hdm.category.trans hcd.category, fun s h => hdm.steps s (hcd.steps s h)⟩

variable [Scalar S]

theorem Extends.within (h : c.Extends d) : c.Within d := by
  refine ⟨h.category, fun m hm => ?_⟩
  obtain ⟨added, hsteps, _⟩ := h.steps
  rw [containsStep_iff] at hm ⊢
  rw [hsteps, List.map_append]
  exact List.mem_append_left _ hm

theorem containsStep_addStep (c : Cell S) (p : PackedStep S) :
    (c.addStep p).1.containsStep p.step.making = true := by
  unfold addStep
  split_ifs with h
  · exact h
  · simp [containsStep]

theorem containsStep_addSteps {ps : List (PackedStep S)} {s : Making}
    (hs : s ∈ ps.map (·.step.making)) : (c.addSteps ps).1.containsStep s = true := by
  induction ps generalizing c with
  | nil => simp at hs
  | cons p ps ih =>
    rcases List.mem_cons.mp hs with rfl | hs
    · exact ((c.addStep p).1.extends_addSteps ps).within.steps _ (c.containsStep_addStep p)
    · exact ih hs

theorem within_of_merge (h : c.merge d = .ok (m, changed)) : c.Within m ∧ d.Within m := by
  obtain ⟨_, hcategory, _, _, mass, rfl⟩ := merge_eq_ok h
  have hext := c.extends_addSteps d.steps
  have hright : ∀ s, d.containsStep s = true → (c.addSteps d.steps).1.containsStep s = true :=
    fun s hs => containsStep_addSteps (containsStep_iff d s |>.mp hs)
  exact ⟨⟨hext.category, hext.within.steps⟩, ⟨hext.category.trans hcategory.symm, hright⟩⟩

end Cell

namespace Beam

/-- The beam holds every category that it held before or was offered, so no cell was evicted and the
one on offer was not rejected. -/
def Spares (b : Beam S) (cell : Cell S) (b' : Beam S) : Prop :=
  ∀ c ∈ cell :: b.cells.map (·.2), ∃ d ∈ b'.cells.map (·.2), d.category = c.category

def SparesAll [Scalar S] : Beam S → List (Cell S) → Prop
  | _, [] => True
  | b, cell :: cells => ∀ b' admission, b.offer cell = .ok (b', admission) →
      b.Spares cell b' ∧ b'.SparesAll cells

/-- The index is in step with the slots, and no cell is set aside. -/
structure Calm (b : Beam S) : Prop where
  indexed : b.Indexed
  setAside : b.setAside = []

/-- All cells that were held or offered are held, with all of their steps. -/
def Absorbs (b : Beam S) (cells : List (Cell S)) (b' : Beam S) : Prop :=
  ∀ c ∈ cells ++ b.cells.map (·.2), ∃ d ∈ b'.cells.map (·.2), c.Within d

variable {b b₁ b' : Beam S} {cell c d : Cell S} {admission : Admission}

theorem mem_kept_insert {unbounded : Bool} :
    c ∈ (b.insert cell unbounded).1.cells.map (·.2) ↔ c = cell ∨ c ∈ b.cells.map (·.2) := by
  rw [kept_eq, kept_eq, ((b.entries_insert_perm cell unbounded).map Prod.fst).mem_iff,
    List.map_cons,
    List.mem_cons]

theorem Calm.stock_eq (hb : b.Calm) : b.stock = b.cells.map (·.2) := by
  rw [stock, hb.setAside, List.append_nil, kept_eq]

theorem Calm.nodup (hb : b.Calm) : (b.stock.map (·.category)).Nodup := by
  rw [hb.stock_eq, kept_eq, List.map_map]
  exact hb.indexed.nodup_categories

theorem Indexed.eq_of_category (hb : b.Indexed) {x y : Nat × Cell S} (hx : x ∈ b.cells)
    (hy : y ∈ b.cells) (hcat : x.2.category = y.2.category) : x = y := by
  have hnodup : ((b.cells.map (·.2)).map (·.category)).Nodup := by
    rw [kept_eq, List.map_map]
    exact hb.nodup_categories
  rw [List.map_map] at hnodup
  exact List.inj_on_of_nodup_map hnodup hx hy hcat

theorem Calm.eq_of_category (hb : b.Calm) (hc : c ∈ b.cells.map (·.2)) (hd : d ∈ b.cells.map (·.2))
    (hcat : c.category = d.category) : c = d := by
  obtain ⟨x, hx, rfl⟩ := List.mem_map.mp hc
  obtain ⟨y, hy, rfl⟩ := List.mem_map.mp hd
  rw [hb.indexed.eq_of_category hx hy hcat]

theorem calm_empty (capacity : Nat) (order : PruneOrder) (separateLexical : Bool) :
    (empty capacity order separateLexical : Beam S).Calm :=
  ⟨indexed_empty capacity order separateLexical, rfl⟩

theorem Calm.insert (hb : b.Calm) (hfresh : ∀ e ∈ b.entries, e.1.category ≠ cell.category)
    (unbounded : Bool) :
    (b.insert cell unbounded).1.Calm ∧ b.Absorbs [cell] (b.insert cell unbounded).1 := by
  refine ⟨⟨hb.indexed.insert hfresh, hb.setAside⟩, fun c hc => ⟨c, ?_, .refl c⟩⟩
  exact mem_kept_insert.mpr (by simpa using hc)

/-- A beam that knows the same cells and still holds all categories still holds all cells. -/
theorem Calm.of_retained (hb : b.Calm) (hindexed : b'.Indexed) (hstock : b.stock.Perm b'.stock)
    (h : ∀ c ∈ b.cells.map (·.2), ∃ d ∈ b'.cells.map (·.2), d.category = c.category) :
    b'.Calm ∧ ∀ c ∈ b.cells.map (·.2), c ∈ b'.cells.map (·.2) := by
  have hnodup : (b'.stock.map (·.category)).Nodup := (hstock.map _).nodup_iff.mp hb.nodup
  have hkept : ∀ c ∈ b.cells.map (·.2), c ∈ b'.cells.map (·.2) := by
    intro c hc
    obtain ⟨d, hd, hcat⟩ := h c hc
    have hold : d ∈ b.stock := hstock.mem_iff.mpr (mem_stock_of_kept hd)
    rw [hb.stock_eq] at hold
    rwa [hb.eq_of_category hc hold hcat.symm]
  refine ⟨⟨hindexed, List.eq_nil_iff_forall_not_mem.mpr fun c hc => ?_⟩, hkept⟩
  -- what is set aside would be held as well
  have hold : c ∈ b.stock := hstock.mem_iff.mpr (List.mem_append_right _ hc)
  rw [hb.stock_eq] at hold
  have hheld := hkept c hold
  rw [kept_eq] at hheld
  rw [stock, List.map_append] at hnodup
  exact (List.nodup_append.mp hnodup).2.2 _ (List.mem_map_of_mem hheld) _
    (List.mem_map_of_mem hc) rfl

theorem Calm.merged (hb : b.Calm) {key : Nat} {held : Held S} {m : Cell S} {changed : Bool}
    (hk : b.slots.get? key = some held) (hheld : held.cell.Within m) (hcell : cell.Within m) :
    (b.merged key held m changed).Calm ∧ b.Absorbs [cell] (b.merged key held m changed) ∧
      ∀ c ∈ (b.merged key held m changed).cells.map (·.2),
        ∃ d ∈ b.cells.map (·.2), d.category = c.category := by
  have hboth : held.unbounded = true →
      (b.separateLexical && !held.unbounded && m.hasLexicalStep) = false := fun hu => by simp [hu]
  have hindexed := hb.indexed.replace_lexical hk hheld.category hboth
    (if changed && b.order = .insertionOrder then b.nextSeq + 1 else held.seq)
  have hnew := (entries_replace_perm hk
    ⟨m, if changed && b.order = .insertionOrder then b.nextSeq + 1 else held.seq,
      held.unbounded || (b.separateLexical && !held.unbounded && m.hasLexicalStep)⟩
    (if b.separateLexical && !held.unbounded && m.hasLexicalStep then b.numBounded - 1
      else b.numBounded)).map (·.1)
  have hold := (entries_remove_perm hk).map (·.1)
  refine ⟨⟨⟨hindexed.index_iff, hindexed.numBounded_eq⟩, hb.setAside⟩, fun c hc => ?_,
    fun c hc => ?_⟩
  · rw [kept_eq] at hc ⊢
    rcases List.mem_cons.mp hc with rfl | hc
    · exact ⟨m, hnew.mem_iff.mpr (.head _), hcell⟩
    · rcases List.mem_cons.mp (hold.mem_iff.mp hc) with rfl | hc
      · exact ⟨m, hnew.mem_iff.mpr (.head _), hheld⟩
      · exact ⟨c, hnew.mem_iff.mpr (.tail _ hc), .refl c⟩
  · rw [kept_eq] at hc ⊢
    rcases List.mem_cons.mp (hnew.mem_iff.mp hc) with rfl | hc
    · exact ⟨held.cell, hold.mem_iff.mpr (.head _), hheld.category.symm⟩
    · exact ⟨c, hold.mem_iff.mpr (.tail _ hc), rfl⟩

variable [Scalar S]

theorem Calm.evictMinimumTies (hb : b.Calm) (ho : b.order = .orderInvariant)
    (h : ∀ c ∈ b.cells.map (·.2),
      ∃ d ∈ b.evictMinimumTies.1.cells.map (·.2), d.category = c.category) :
    b.evictMinimumTies.1.Calm ∧
      ∀ c ∈ b.cells.map (·.2), c ∈ b.evictMinimumTies.1.cells.map (·.2) := by
  unfold Beam.evictMinimumTies at h ⊢
  split at h
  · exact ⟨hb, fun c hc => hc⟩
  next low _ =>
    have hs := sifted_evict hb.indexed ho fun c => c.pruneKey.beq low
    exact hb.of_retained (hs.indexed.withThreshold _) hs.stock_perm h

theorem Calm.rebalance (hb : b.Calm) (ho : b.order = .orderInvariant)
    (h : ∀ c ∈ b.cells.map (·.2), ∃ d ∈ b.rebalance.cells.map (·.2), d.category = c.category) :
    b.rebalance.Calm ∧ ∀ c ∈ b.cells.map (·.2), c ∈ b.rebalance.cells.map (·.2) := by
  rcases rebalance_cases hb.indexed hb.nodup ho with ⟨_, hback⟩ | ⟨t, mid, _, hs, hback⟩
  · exact hb.of_retained hback.indexed (hback.stock_perm (by rw [List.append_nil]; rfl)) h
  · have hstock : b.stock.Perm mid.stock := hs.stock_perm
    exact hb.of_retained hback.indexed
      (hstock.trans (hback.stock_perm (List.filter_append_perm _ _).symm)) h

theorem Calm.accept_cases (hb : b.Calm) (hfresh : ∀ e ∈ b.entries, e.1.category ≠ cell.category)
    (h : b.Spares cell (b.accept cell).1) :
    (b.separateLexical && cell.hasLexicalStep) = true ∧
        (b.accept cell).1 = (b.insert cell true).1 ∨
      (b.separateLexical && cell.hasLexicalStep) = false ∧
        ((b.accept cell).1 = (b.insert cell false).1 ∨ b.order = .orderInvariant ∧
          (b.accept cell).1 = (b.insert cell false).1.evictMinimumTies.1) := by
  have hnew : ∀ d ∈ b.cells.map (·.2), d.category ≠ cell.category := by
    intro d hd
    rw [kept_eq] at hd
    obtain ⟨e, he, rfl⟩ := List.mem_map.mp hd
    exact hfresh e he
  have hrejected : ¬ ∃ d ∈ b.cells.map (·.2), d.category = cell.category :=
    fun ⟨d, hd, hcat⟩ => hnew d hd hcat
  have haccepts := b.accepts cell
  generalize b.accept cell = answer at h haccepts ⊢
  cases haccepts with
  | sheltered hlex => exact .inl ⟨hlex, rfl⟩
  | below _ _ =>
    have hsame : (b.turnAway cell).cells = b.cells := by rw [cells, slots_turnAway, cells]
    exact absurd (hsame ▸ h cell (.head _)) hrejected
  | roomy hcompetes _ => exact .inr ⟨hcompetes.bounded, .inl rfl⟩
  | crowded hcompetes _ ho => exact .inr ⟨hcompetes.bounded, .inr ⟨ho, rfl⟩⟩
  | @replacing low held _ _ _ hlow _ =>
    -- the cell that went has left no other of its category
    have hbounded := mem_bounded_of_latestMinimum? hlow
    have hk := (Slots.mem_toList_iff ..).mp (List.mem_filter.mp hbounded).1
    have hmem : held.cell ∈ b.cells.map (·.2) :=
      List.mem_map.mpr ⟨_, Chart.mem_cells_iff.mpr (by rw [cell?, hk]; rfl), rfl⟩
    obtain ⟨d, hd, hcat⟩ := h held.cell (.tail _ hmem)
    rcases mem_kept_insert.mp hd with rfl | hd
    · exact absurd hcat.symm (hnew _ hmem)
    · rw [kept_eq] at hd
      obtain ⟨e, he, rfl⟩ := List.mem_map.mp hd
      exact absurd hcat (hb.indexed.category_ne_of_remove hk e he)
  | full _ _ _ _ => exact absurd (h cell (.head _)) hrejected

omit [Scalar S] in
/-- The other cells stay when a cell is inserted and the beam has to make room. -/
theorem Spares.of_insert (h : b.Spares cell b') :
    ∀ c ∈ (b.insert cell false).1.cells.map (·.2), ∃ d ∈ b'.cells.map (·.2),
      d.category = c.category :=
  fun c hc => h c (by simpa using mem_kept_insert.mp hc)

theorem Calm.accept (hb : b.Calm) (hfresh : ∀ e ∈ b.entries, e.1.category ≠ cell.category)
    (h : b.Spares cell (b.accept cell).1) :
    (b.accept cell).1.Calm ∧ b.Absorbs [cell] (b.accept cell).1 := by
  rcases hb.accept_cases hfresh h with ⟨_, haccept⟩ | ⟨_, haccept | ⟨ho, haccept⟩⟩
  · rw [haccept]
    exact hb.insert hfresh true
  · rw [haccept]
    exact hb.insert hfresh false
  · rw [haccept] at h ⊢
    obtain ⟨hcalm, hkept⟩ := (hb.insert hfresh false).1.evictMinimumTies ho h.of_insert
    refine ⟨hcalm, fun c hc => ⟨c, hkept c ?_, .refl c⟩⟩
    exact mem_kept_insert.mpr (by simpa using hc)

/-- How a calm beam responds to an offer: the cell is merged into one that it holds, or is the first
of its category. -/
inductive Responds (b : Beam S) (cell : Cell S) (b' : Beam S) (admission : Admission) : Prop where
  | held {key : Nat} {held : Held S} {m : Cell S} {changed : Bool} :
      b.slots.get? key = some held → held.cell.category = cell.category →
      held.cell.merge cell = .ok (m, changed) →
      b' = (if b.separateLexical && !held.unbounded && m.hasLexicalStep &&
          b.order = .orderInvariant then (b.merged key held m changed).rebalance
        else b.merged key held m changed) → Responds b cell b' admission
  | fresh : (∀ e ∈ b.entries, e.1.category ≠ cell.category) → b.accept cell = (b', admission) →
      Responds b cell b' admission

theorem Calm.responds (hb : b.Calm) (h : b.offer cell = .ok (b', admission)) :
    b.Responds cell b' admission := by
  cases hb.indexed.meets cell with
  | held hk hcat hoffer =>
    obtain ⟨m, changed, hmerge, hb', _⟩ := mergeHeld_eq_ok (hoffer.symm.trans h)
    exact .held hk hcat hmerge hb'
  | aside hprevious _ _ => simp [hb.setAside] at hprevious
  | fresh hfresh hoffer =>
    refine .fresh (fun e he => hfresh e.1 ?_) (Except.ok.inj (hoffer.symm.trans h))
    exact List.mem_append_left _ (List.mem_map_of_mem he)

/-- An offer that spares all cells adds the steps of the one on offer. -/
theorem Calm.offer (hb : b.Calm) (hoffer : b.offer cell = .ok (b', admission))
    (h : b.Spares cell b') : b'.Calm ∧ b.Absorbs [cell] b' := by
  cases hb.responds hoffer with
  | @held key held m changed hk _ hmerge hb' =>
    subst hb'
    obtain ⟨hheld, hcell⟩ := Cell.within_of_merge hmerge
    obtain ⟨hcalm, habsorbs, hcategories⟩ := @Calm.merged _ _ _ hb _ _ _ changed hk hheld hcell
    split_ifs at h ⊢ with hlexical
    · have ho : b.order = .orderInvariant := by simpa using (Bool.and_eq_true_iff.mp hlexical).2
      obtain ⟨hcalm, hkept⟩ := hcalm.rebalance ho fun c hc => by
        obtain ⟨d, hd, hcat⟩ := hcategories c hc
        obtain ⟨e, he, hcat'⟩ := h d (.tail _ hd)
        exact ⟨e, he, hcat'.trans hcat⟩
      refine ⟨hcalm, fun c hc => ?_⟩
      obtain ⟨d, hd, hwithin⟩ := habsorbs c hc
      exact ⟨d, hkept d hd, hwithin⟩
    · exact ⟨hcalm, habsorbs⟩
  | fresh hfresh haccept =>
    obtain rfl : (b.accept cell).1 = b' := congrArg Prod.fst haccept
    exact hb.accept hfresh h

section Sequences

variable {cells : List (Cell S)} {first last : Nat}

omit [Scalar S] in
theorem Absorbs.cons (h : b.Absorbs [cell] b₁) (hrest : b₁.Absorbs cells b') :
    b.Absorbs (cell :: cells) b' := by
  have hfirst : ∀ c ∈ cell :: b.cells.map (·.2), ∃ d ∈ b'.cells.map (·.2), c.Within d := by
    intro c hc
    obtain ⟨d, hd, hcd⟩ := h c hc
    obtain ⟨e, he, hde⟩ := hrest d (List.mem_append_right _ hd)
    exact ⟨e, he, hcd.trans hde⟩
  intro c hc
  rcases List.mem_cons.mp hc with rfl | hc
  · exact hfirst c (.head _)
  · rcases List.mem_append.mp hc with hc | hc
    · exact hrest c (List.mem_append_left _ hc)
    · exact hfirst c (.tail _ hc)

theorem Calm.offerAll (hb : b.Calm) (hs : b.SparesAll cells) (h : b.offerAll cells = .ok b') :
    b'.Calm ∧ b.Absorbs cells b' := by
  induction cells generalizing b with
  | nil =>
    obtain rfl := Except.ok.inj h
    exact ⟨hb, fun c hc => ⟨c, hc, .refl c⟩⟩
  | cons cell cells ih =>
    obtain ⟨b₁, hb₁, hrest⟩ := foldlM_cons_eq_ok.mp h
    obtain ⟨⟨b₁, admission⟩, hoffer, rfl⟩ := map_eq_ok.mp hb₁
    obtain ⟨hspares, hs⟩ := hs b₁ admission hoffer
    obtain ⟨hcalm, habsorbs⟩ := hb.offer hoffer hspares
    obtain ⟨hcalm, hall⟩ := ih hcalm hs hrest
    exact ⟨hcalm, habsorbs.cons hall⟩

theorem Calm.offerAll_of_takes (hb : b.Calm) (hs : b.SparesAll cells)
    (h : b.Takes first last cells b') : b.offerAll cells = .ok b' := by
  induction h with
  | nil b => rfl
  | @cons b b₁ b' cell cells aside admission hperm _ hoffer _ ih =>
    rw [hb.setAside] at hperm
    have hsame : b.withAside aside = b := by
      rw [hperm.symm.eq_nil, ← hb.setAside]
      rfl
    rw [hsame] at hoffer
    obtain ⟨hspares, hs⟩ := hs b₁ admission hoffer
    have hrest := ih (hb.offer hoffer hspares).1 hs
    exact foldlM_cons_eq_ok.mpr ⟨b₁, map_eq_ok.mpr ⟨_, hoffer, rfl⟩, hrest⟩

theorem Calm.takes (hb : b.Calm) (hs : b.SparesAll cells) (h : b.Takes first last cells b') :
    b'.Calm ∧ b.Absorbs cells b' :=
  hb.offerAll hs (hb.offerAll_of_takes hs h)

end Sequences

end Beam

end Categorial
