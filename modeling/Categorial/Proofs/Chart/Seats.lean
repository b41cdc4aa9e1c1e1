import Categorial.Proofs.Chart.Outline
import Categorial.Proofs.Chart.Sparing

/-! # Beams without scores

Scores decide which cells a beam turns away. As long as it turns none away, it is told by the cells
that it was offered, without their scores, and by the order in which they came: which cells it
holds, under which keys, and which steps they have in which order.
-/

namespace Categorial

namespace Outline

def join (o other : Outline) : Outline :=
  { o with makings := other.makings.foldl insertLast o.makings }

def hasLexicalStep (o : Outline) : Bool :=
  o.makings.any (·.source.entry?.isSome)

end Outline

/-- A held cell without its scores and its time of arrival. -/
structure Seat where
  outline : Outline
  unbounded : Bool

def Seat.join (separateLexical : Bool) (o : Outline) (seat : Seat) : Seat :=
  ⟨seat.outline.join o,
    seat.unbounded || (separateLexical && (seat.outline.join o).hasLexicalStep)⟩

structure Seating where
  separateLexical : Bool
  seats : Slots Seat

namespace Seating

def insert (s : Seating) (seat : Seat) : Seating :=
  { s with seats := s.seats.insert seat }

def erase (s : Seating) (key : Nat) : Seating :=
  { s with seats := s.seats.erase key }

def add (s : Seating) (o : Outline) : Seating :=
  match s.seats.toList.find? (·.2.outline.category == o.category) with
  | some (key, _) => { s with seats := s.seats.modify key (.join s.separateLexical o) }
  | none => s.insert ⟨o, s.separateLexical && o.hasLexicalStep⟩

/-- Those who left last and come back at once get their seats back. -/
theorem foldl_insert_foldl_erase {leaving : List (Nat × Seat)} {s : Seating}
    (hseats : ∀ x ∈ leaving, s.seats.get? x.1 = some x.2) (hnodup : (leaving.map (·.1)).Nodup) :
    leaving.reverse.foldl (fun s x => s.insert x.2) (leaving.foldl (fun s x => s.erase x.1) s) =
      s := by
  induction leaving generalizing s with
  | nil => rfl
  | cons x leaving ih =>
    rw [List.map_cons, List.nodup_cons] at hnodup
    have hrest : ∀ y ∈ leaving, (s.erase x.1).seats.get? y.1 = some y.2 := by
      intro y hy
      have hne : y.1 ≠ x.1 := fun he => hnodup.1 (List.mem_map.mpr ⟨y, hy, he⟩)
      rw [erase, Slots.get?_erase, if_neg hne]
      exact hseats y (.tail _ hy)
    simp only [List.reverse_cons, List.foldl_append, List.foldl_cons, List.foldl_nil,
      ih hrest hnodup.2]
    rw [insert, erase, Slots.insert_erase (hseats x (.head _))]

end Seating

variable {S : Type}

namespace Cell

variable {c d m : Cell S} {changed : Bool}

theorem hasLexicalStep_eq (c : Cell S) : c.hasLexicalStep = c.outline.hasLexicalStep := by
  simp [hasLexicalStep, Outline.hasLexicalStep, outline, Step.isLexical, Step.entry?,
    Function.comp_def]

variable [Scalar S]

theorem makings_addStep (c : Cell S) (p : PackedStep S) :
    (c.addStep p).1.steps.map (·.step.making) =
      insertLast (c.steps.map (·.step.making)) p.step.making := by
  unfold addStep insertLast
  by_cases h : p.step.making ∈ c.steps.map (·.step.making)
  · rw [if_pos ((containsStep_iff c _).mpr h), if_pos h]
  · rw [if_neg (h ∘ (containsStep_iff c _).mp), if_neg h, List.map_append]
    rfl

theorem outline_addSteps (c : Cell S) (ps : List (PackedStep S)) :
    (c.addSteps ps).1.outline =
      { c.outline with
        makings := (ps.map (·.step.making)).foldl insertLast c.outline.makings } := by
  have hext := c.extends_addSteps ps
  have hmakings : (c.addSteps ps).1.steps.map (·.step.making) =
      (ps.map (·.step.making)).foldl insertLast (c.steps.map (·.step.making)) := by
    clear hext
    induction ps generalizing c with
    | nil => rfl
    | cons p ps ih =>
      rw [addSteps, List.map_cons, List.foldl_cons, ← makings_addStep]
      exact ih _
  simp only [outline, hext.category, hext.span, hext.isFullParse, hmakings]

theorem outline_merge (h : c.merge d = .ok (m, changed)) :
    m.outline = c.outline.join d.outline := by
  obtain ⟨_, _, _, _, mass, rfl⟩ := merge_eq_ok h
  exact outline_addSteps c d.steps

end Cell

def Held.seat (held : Held S) : Seat :=
  ⟨held.cell.outline, held.unbounded⟩

namespace Beam

variable {b b' : Beam S} {cell : Cell S} {key : Nat}

def seating (b : Beam S) : Seating :=
  ⟨b.separateLexical, b.slots.image Held.seat⟩

theorem seating_insert (b : Beam S) (cell : Cell S) (unbounded : Bool) :
    (b.insert cell unbounded).1.seating = b.seating.insert ⟨cell.outline, unbounded⟩ :=
  congrArg (Seating.mk _) (Slots.image_insert ..)

theorem seating_remove (b : Beam S) (key : Nat) : (b.remove key).seating = b.seating.erase key := by
  unfold remove
  split
  · exact congrArg (Seating.mk _) (Slots.image_erase ..)
  next h =>
    have hnone : b.seating.seats.get? key = none := by
      rw [seating, Slots.get?_image, h, Option.map_none]
    rw [Seating.erase, Slots.erase_of_none hnone]

theorem seating_turnAway (b : Beam S) (cell : Cell S) : (b.turnAway cell).seating = b.seating := by
  unfold turnAway
  split <;> rfl

theorem seating_evict (b : Beam S) (losers : List (Nat × Held S)) :
    (b.evict losers).seating = losers.foldl (fun s x => s.erase x.1) b.seating := by
  induction losers generalizing b with
  | nil => rfl
  | cons x losers ih =>
    rw [List.foldl_cons, ← seating_remove, ← seating_turnAway (b.remove x.1) x.2.cell]
    exact ih _

theorem seating_takeBack (b : Beam S) (cells : List (Cell S)) :
    (b.takeBack cells).seating =
      cells.foldl (fun s c => s.insert ⟨c.outline, false⟩) b.seating := by
  induction cells generalizing b with
  | nil => rfl
  | cons cell cells ih =>
    rw [List.foldl_cons, ← seating_insert]
    exact ih _

theorem setAside_evict (ho : b.order = .orderInvariant) (losers : List (Nat × Held S)) :
    (b.evict losers).setAside = (losers.map (·.2.cell)).reverse ++ b.setAside := by
  induction losers generalizing b with
  | nil => rfl
  | cons x losers ih =>
    have ho' : ((b.remove x.1).turnAway x.2.cell).order = .orderInvariant := by
      rw [turnAway_eq ((settings_remove b x.1).order.trans ho)]
      exact (settings_remove b x.1).order.trans ho
    have hstep : (b.evict (x :: losers)).setAside =
        (((b.remove x.1).turnAway x.2.cell).evict losers).setAside := rfl
    rw [hstep, ih ho', turnAway_eq ((settings_remove b x.1).order.trans ho)]
    simp [withAside, setAside_remove]

theorem seating_merged [Scalar S] {held : Held S} {m : Cell S} {changed : Bool}
    (hk : b.slots.get? key = some held) (hmerge : held.cell.merge cell = .ok (m, changed)) :
    (b.merged key held m changed).seating = { b.seating with
      seats := b.seating.seats.modify key (.join b.separateLexical cell.outline) } := by
  refine congrArg (Seating.mk _) (Slots.image_modify fun held' hk' => ?_)
  obtain rfl := Option.some.inj (hk.symm.trans hk')
  rw [Seat.join, Held.seat, Held.seat, ← Cell.outline_merge hmerge, ← Cell.hasLexicalStep_eq]
  cases hu : held.unbounded <;> simp

theorem Indexed.find?_seating (hb : b.Indexed) {category : Category} {held : Held S}
    (hk : b.slots.get? key = some held) (hcat : held.cell.category = category) :
    b.seating.seats.toList.find? (·.2.outline.category == category) = some (key, held.seat) := by
  have hseat : (key, held.seat) ∈ b.seating.seats.toList := by
    rw [Slots.mem_toList_iff, seating, Slots.get?_image, hk, Option.map_some]
  cases hfind : b.seating.seats.toList.find? (·.2.outline.category == category) with
  | none => exact absurd (beq_iff_eq.mpr hcat) (List.find?_eq_none.mp hfind _ hseat)
  | some x =>
    have hx := (Slots.mem_toList_iff ..).mp (List.mem_of_find?_eq_some hfind)
    rw [seating, Slots.get?_image] at hx
    obtain ⟨held', hk', hseat'⟩ := Option.map_eq_some_iff.mp hx
    have hcat' : x.2.outline.category = category := by simpa using List.find?_some hfind
    rw [← hseat'] at hcat'
    have hkey : x.1 = key := hb.key_unique hk' hk (hcat'.trans hcat.symm)
    rw [hkey, hk, Option.some.injEq] at hk'
    exact congrArg some (Prod.ext hkey (hk' ▸ hseat'.symm))

theorem find?_seating_eq_none {category : Category}
    (h : ∀ e ∈ b.entries, e.1.category ≠ category) :
    b.seating.seats.toList.find? (·.2.outline.category == category) = none := by
  rw [List.find?_eq_none]
  intro x hx
  rw [Slots.mem_toList_iff, seating, Slots.get?_image] at hx
  obtain ⟨held, hk, hseat⟩ := Option.map_eq_some_iff.mp hx
  have hne := h _ (mem_entries_iff.mpr ⟨x.1, held, hk, rfl⟩)
  rw [← hseat]
  exact fun he => hne (beq_iff_eq.mp he)

theorem setAside_takeBack (b : Beam S) (cells : List (Cell S)) :
    (b.takeBack cells).setAside = b.setAside := by
  induction cells generalizing b with
  | nil => rfl
  | cons cell cells ih => exact ih _

theorem seating_takeBack_evict (ho : b.order = .orderInvariant) (haside : b.setAside = [])
    (p : Nat × Held S → Bool) :
    ((b.evict (b.bounded.filter p)).takeBack (b.evict (b.bounded.filter p)).setAside).seating =
      b.seating := by
  have hsub : (b.bounded.filter p).Sublist b.slots.toList :=
    List.filter_sublist.trans List.filter_sublist
  have hseats : ∀ x ∈ b.bounded.filter p,
      b.seating.seats.get? x.1 = some ⟨x.2.cell.outline, false⟩ := by
    intro x hx
    have hk := (Slots.mem_toList_iff ..).mp (hsub.subset hx)
    have hbounded : x.2.unbounded = false := by
      simpa using (List.mem_filter.mp (List.mem_filter.mp hx).1).2
    rw [seating, Slots.get?_image, hk, Option.map_some, Held.seat, hbounded]
  let leaving := (b.bounded.filter p).map fun x => (x.1, (⟨x.2.cell.outline, false⟩ : Seat))
  have hleaving : ∀ x ∈ leaving, b.seating.seats.get? x.1 = some x.2 := by
    intro x hx
    obtain ⟨y, hy, rfl⟩ := List.mem_map.mp hx
    exact hseats y hy
  have hnodup : (leaving.map (·.1)).Nodup := by
    rw [List.map_map]
    exact b.slots.nodup_keys_toList.sublist (hsub.map _)
  have hback := Seating.foldl_insert_foldl_erase hleaving hnodup
  rw [seating_takeBack, seating_evict, setAside_evict ho, haside, List.append_nil]
  simpa only [leaving, ← List.map_reverse, List.foldl_map] using hback

section Calm

variable [Scalar S] {admission : Admission}

theorem Calm.seating_evictMinimumTies (hb : b.Calm) (ho : b.order = .orderInvariant)
    (h : ∀ c ∈ b.cells.map (·.2),
      ∃ d ∈ b.evictMinimumTies.1.cells.map (·.2), d.category = c.category) :
    b.evictMinimumTies.1.seating = b.seating := by
  have hcalm := (hb.evictMinimumTies ho h).1.setAside
  unfold Beam.evictMinimumTies at hcalm ⊢
  split
  · rfl
  next low hlow =>
    rw [hlow] at hcalm
    -- whoever was evicted would be set aside
    have hnone : (b.evict (b.bounded.filter (·.2.cell.pruneKey.beq low))).setAside = [] := hcalm
    rw [setAside_evict ho, List.append_eq_nil_iff, List.reverse_eq_nil_iff,
      List.map_eq_nil_iff] at hnone
    rw [hnone.1]
    rfl

theorem Calm.seating_rebalance (hb : b.Calm) (ho : b.order = .orderInvariant)
    (h : ∀ c ∈ b.cells.map (·.2), ∃ d ∈ b.rebalance.cells.map (·.2), d.category = c.category) :
    b.rebalance.seating = b.seating := by
  have hcalm := (hb.rebalance ho h).1.setAside
  generalize hre : b.rebalance = b' at hcalm ⊢
  unfold Beam.rebalance at hre
  dsimp only at hre
  split at hre
  · rw [hb.setAside] at hre
    subst hre
    rfl
  next t ht =>
    have hback := seating_takeBack_evict (b := b.withThreshold (some t)) ho hb.setAside
      (·.2.cell.pruneKey.ble t)
    rw [ht, List.partition_eq_filter_filter] at hre
    generalize hevicted : (b.withThreshold (some t)).evict _ = evicted at hback
    have hre : (evicted.withAside (evicted.setAside.filter (not ∘ (t.blt ·.pruneKey)))).takeBack
        (evicted.setAside.filter (t.blt ·.pruneKey)) = b' := by
      rw [← hevicted]
      exact hre
    -- nobody stays aside, so all come back
    have hall : evicted.setAside.filter (t.blt ·.pruneKey) = evicted.setAside := by
      rw [← hre, setAside_takeBack] at hcalm
      refine List.filter_eq_self.mpr fun c hc => ?_
      simpa using List.filter_eq_nil_iff.mp hcalm c hc
    rw [← hre, hall, seating_takeBack]
    rw [seating_takeBack] at hback
    exact hback

theorem Calm.seating_accept (hb : b.Calm) (hfresh : ∀ e ∈ b.entries, e.1.category ≠ cell.category)
    (h : b.Spares cell (b.accept cell).1) :
    (b.accept cell).1.seating =
      b.seating.insert ⟨cell.outline, b.separateLexical && cell.hasLexicalStep⟩ := by
  rcases hb.accept_cases hfresh h with ⟨hlexical, haccept⟩ | ⟨hlexical, haccept | ⟨ho, haccept⟩⟩
  · rw [haccept, hlexical, seating_insert]
  · rw [haccept, hlexical, seating_insert]
  · rw [haccept] at h ⊢
    rw [(hb.insert hfresh false).1.seating_evictMinimumTies ho h.of_insert, hlexical,
      seating_insert]

/-- An offer that spares all cells is told by the cells without their scores. -/
theorem Calm.seating_offer (hb : b.Calm) (hoffer : b.offer cell = .ok (b', admission))
    (h : b.Spares cell b') : b'.seating = b.seating.add cell.outline := by
  cases hb.responds hoffer with
  | @held key held m changed hk hcat hmerge hb' =>
    subst hb'
    obtain ⟨hheld, hcell⟩ := Cell.within_of_merge hmerge
    obtain ⟨hcalm, _, hcategories⟩ := @Calm.merged _ _ _ hb _ _ _ changed hk hheld hcell
    have hadd : (b.merged key held m changed).seating = b.seating.add cell.outline := by
      have hseat := hb.indexed.find?_seating hk hcat
      rw [seating_merged hk hmerge, Seating.add]
      simp only [show cell.outline.category = cell.category from rfl, hseat]
      rfl
    split_ifs at h ⊢ with hlexical
    · have ho : b.order = .orderInvariant := by simpa using (Bool.and_eq_true_iff.mp hlexical).2
      rw [hcalm.seating_rebalance ho fun c hc => ?_, hadd]
      obtain ⟨d, hd, hcat⟩ := hcategories c hc
      obtain ⟨e, he, hcat'⟩ := h d (.tail _ hd)
      exact ⟨e, he, hcat'.trans hcat⟩
    · exact hadd
  | fresh hfresh haccept =>
    obtain rfl : (b.accept cell).1 = b' := congrArg Prod.fst haccept
    have hnone := find?_seating_eq_none hfresh
    rw [hb.seating_accept hfresh h, Cell.hasLexicalStep_eq, Seating.add]
    simp only [show cell.outline.category = cell.category from rfl, hnone]
    rfl

variable {cells : List (Cell S)}

theorem Calm.seating_offerAll (hb : b.Calm) (hs : b.SparesAll cells)
    (h : b.offerAll cells = .ok b') :
    b'.seating = (cells.map Cell.outline).foldl .add b.seating := by
  induction cells generalizing b with
  | nil =>
    obtain rfl := Except.ok.inj h
    rfl
  | cons cell cells ih =>
    obtain ⟨b₁, hb₁, hrest⟩ := foldlM_cons_eq_ok.mp h
    obtain ⟨⟨b₁, admission⟩, hoffer, rfl⟩ := map_eq_ok.mp hb₁
    obtain ⟨hspares, hs⟩ := hs b₁ admission hoffer
    rw [ih (hb.offer hoffer hspares).1 hs hrest, hb.seating_offer hoffer hspares]
    rfl

end Calm

theorem cells_seating (b : Beam S) : (b.cells.map fun x => (x.1, x.2.outline)) =
    b.seating.seats.toList.map fun x => (x.1, x.2.outline) := by
  rw [seating, Slots.toList_image, cells, List.map_map, List.map_map]
  rfl

theorem cell?_seating (b : Beam S) (key : Nat) :
    (b.cell? key).map Cell.outline = (b.seating.seats.get? key).map Seat.outline := by
  rw [seating, Slots.get?_image, cell?, Option.map_map, Option.map_map]
  rfl

@[simp]
theorem seating_markPruned_if (b : Beam S) (pruned : Bool) :
    (if pruned then b.markPruned else b).seating = b.seating := by
  cases pruned <;> rfl

end Beam

end Categorial
