import Mathlib.Data.List.Perm.Basic
import Mathlib.Tactic.Common
import Categorial.Chart.Beam
import Categorial.Proofs.Chart.Slots

/-! # Moving cells in a beam

What insertion, removal and eviction do to the held cells and to those set aside, up to the order in
which they are listed. All of them keep the index of a beam in step with its slots.
-/

namespace Categorial.Beam

variable {S : Type}

def entries (b : Beam S) : List (Cell S × Bool) :=
  b.slots.toList.map fun x => (x.2.cell, x.2.unbounded)

def competing (b : Beam S) : List (Cell S) :=
  (b.entries.filter (!·.2)).map (·.1)

/-- All cells that the beam knows, held or set aside. -/
def stock (b : Beam S) : List (Cell S) :=
  b.entries.map (·.1) ++ b.setAside

def withAside (b : Beam S) (cells : List (Cell S)) : Beam S :=
  { b with setAside := cells }

def withThreshold (b : Beam S) (t : Option (PruneKey S)) : Beam S :=
  { b with threshold := t }

/-- Takes cells into the bounded part, one after the other. -/
def takeBack (b : Beam S) (cells : List (Cell S)) : Beam S :=
  cells.foldl (fun b cell => (b.insert cell false).1) b

/-- The index gives the slot of each held category, and the bounded cells are counted. -/
structure Indexed (b : Beam S) : Prop where
  index_iff : ∀ c k, b.index[c]? = some k ↔ ∃ h, b.slots.get? k = some h ∧ h.cell.category = c
  numBounded_eq : b.numBounded = b.competing.length

/-- What no operation of an order-invariant beam changes but marking it. -/
structure Settings (b b' : Beam S) : Prop where
  capacity : b'.capacity = b.capacity
  order : b'.order = b.order
  separateLexical : b'.separateLexical = b.separateLexical
  rejected : b'.rejected = b.rejected
  externallyPruned : b'.externallyPruned = b.externallyPruned

theorem Settings.refl (b : Beam S) : b.Settings b :=
  ⟨rfl, rfl, rfl, rfl, rfl⟩

theorem Settings.trans {a b c : Beam S} (hab : a.Settings b) (hbc : b.Settings c) :
    a.Settings c :=
  ⟨hbc.capacity.trans hab.capacity, hbc.order.trans hab.order,
    hbc.separateLexical.trans hab.separateLexical, hbc.rejected.trans hab.rejected,
    hbc.externallyPruned.trans hab.externallyPruned⟩

theorem settings_withAside (b : Beam S) (cells : List (Cell S)) : b.Settings (b.withAside cells) :=
  ⟨rfl, rfl, rfl, rfl, rfl⟩

theorem settings_withThreshold (b : Beam S) (t : Option (PruneKey S)) :
    b.Settings (b.withThreshold t) :=
  ⟨rfl, rfl, rfl, rfl, rfl⟩

theorem mem_entries_iff {b : Beam S} {e : Cell S × Bool} :
    e ∈ b.entries ↔ ∃ k h, b.slots.get? k = some h ∧ e = (h.cell, h.unbounded) := by
  simp only [entries, List.mem_map, Prod.exists, Slots.mem_toList_iff, eq_comm]

theorem kept_eq (b : Beam S) : b.cells.map (·.2) = b.entries.map (·.1) := by
  simp [cells, entries]

theorem mem_stock_of_kept {b : Beam S} {c : Cell S} (h : c ∈ b.cells.map (·.2)) : c ∈ b.stock := by
  rw [kept_eq] at h
  exact List.mem_append_left _ h

theorem Indexed.key_unique {b : Beam S} (hb : b.Indexed) {k k' : Nat} {h h' : Held S}
    (hk : b.slots.get? k = some h) (hk' : b.slots.get? k' = some h')
    (hc : h.cell.category = h'.cell.category) : k = k' := by
  have h₁ := (hb.index_iff h'.cell.category k).mpr ⟨h, hk, hc⟩
  have h₂ := (hb.index_iff h'.cell.category k').mpr ⟨h', hk', rfl⟩
  exact Option.some.inj (h₁.symm.trans h₂)

theorem Indexed.nodup_categories {b : Beam S} (hb : b.Indexed) :
    (b.entries.map (·.1.category)).Nodup := by
  have hkeys := List.pairwise_map.mp b.slots.nodup_keys_toList
  rw [entries, List.map_map]
  refine List.pairwise_map.mpr (hkeys.imp_of_mem fun {x y} hx hy hne hc => hne ?_)
  exact hb.key_unique ((Slots.mem_toList_iff ..).mp hx) ((Slots.mem_toList_iff ..).mp hy) hc

theorem Indexed.index_eq_none_iff {b : Beam S} (hb : b.Indexed) {c : Category} :
    b.index[c]? = none ↔ ∀ e ∈ b.entries, e.1.category ≠ c := by
  constructor
  · rintro hn e he rfl
    obtain ⟨k, h, hk, rfl⟩ := mem_entries_iff.mp he
    simp [(hb.index_iff h.cell.category k).mpr ⟨h, hk, rfl⟩] at hn
  · intro hne
    by_contra hs
    obtain ⟨k, hk⟩ := Option.ne_none_iff_exists'.mp hs
    obtain ⟨h, hget, hc⟩ := (hb.index_iff c k).mp hk
    exact hne _ (mem_entries_iff.mpr ⟨k, h, hget, rfl⟩) hc

theorem Indexed.find?_eq {b : Beam S} (hb : b.Indexed) {key : Nat} {c : Cell S}
    (hkey : b.cell? key = some c) : b.find? c.category = some (key, c) := by
  obtain ⟨held, hheld, rfl⟩ := Option.map_eq_some_iff.mp hkey
  have hindex := (hb.index_iff held.cell.category key).mpr ⟨held, hheld, rfl⟩
  simp [find?, hindex, hkey]

theorem Indexed.find?_eq_none {b : Beam S} (hb : b.Indexed) {category : Category}
    (h : ∀ e ∈ b.entries, e.1.category ≠ category) : b.find? category = none := by
  simp [find?, hb.index_eq_none_iff.mpr h]

theorem indexed_empty (capacity : Nat) (order : PruneOrder) (separateLexical : Bool) :
    (empty capacity order separateLexical : Beam S).Indexed where
  index_iff c k := by simp [empty]
  numBounded_eq := rfl

theorem Indexed.withAside {b : Beam S} (hb : b.Indexed) (cells : List (Cell S)) :
    (b.withAside cells).Indexed :=
  ⟨hb.index_iff, hb.numBounded_eq⟩

theorem Indexed.withThreshold {b : Beam S} (hb : b.Indexed) (t : Option (PruneKey S)) :
    (b.withThreshold t).Indexed :=
  ⟨hb.index_iff, hb.numBounded_eq⟩

theorem bounded_cells_eq (b : Beam S) :
    b.bounded.map (·.2.cell) = b.competing := by
  simp [bounded, competing, entries, List.filter_map, Function.comp_def]

theorem mem_competing_iff {b : Beam S} {c : Cell S} : c ∈ b.competing ↔ (c, false) ∈ b.entries := by
  simp [competing]

section Insert

variable (b : Beam S) (cell : Cell S) (unbounded : Bool)

theorem entries_insert_perm :
    (b.insert cell unbounded).1.entries.Perm ((cell, unbounded) :: b.entries) :=
  (b.slots.toList_insert_perm _).map _

theorem settings_insert : b.Settings (b.insert cell unbounded).1 :=
  ⟨rfl, rfl, rfl, rfl, rfl⟩

theorem stock_insert_perm : (b.insert cell unbounded).1.stock.Perm (cell :: b.stock) :=
  ((b.entries_insert_perm cell unbounded).map Prod.fst).append_right b.setAside

theorem competing_insert_perm : (b.insert cell unbounded).1.competing.Perm
    (if unbounded then b.competing else cell :: b.competing) := by
  have hperm := ((b.entries_insert_perm cell unbounded).filter (!·.2)).map (·.1)
  cases unbounded with
  | false => simpa [competing] using hperm
  | true => simpa [competing] using hperm

variable {b cell unbounded}

theorem Indexed.insert (hb : b.Indexed) (hfresh : ∀ e ∈ b.entries, e.1.category ≠ cell.category) :
    (b.insert cell unbounded).1.Indexed where
  index_iff c k := by
    show (b.index.insert cell.category b.slots.nextKey)[c]? = some k ↔
      ∃ h, (b.slots.insert ⟨cell, b.nextSeq + 1, unbounded⟩).get? k = some h ∧ h.cell.category = c
    rw [Std.HashMap.getElem?_insert, Slots.get?_insert]
    by_cases hc : cell.category = c
    · subst hc
      by_cases hk : k = b.slots.nextKey
      · simp [hk]
      · -- no other slot can hold the category
        have hother : ¬ ∃ h, b.slots.get? k = some h ∧ h.cell.category = cell.category := by
          rintro ⟨h, hget, hcat⟩
          exact hfresh _ (mem_entries_iff.mpr ⟨k, h, hget, rfl⟩) hcat
        simp only [beq_self_eq_true, if_true, hk, if_false, hother, iff_false,
          Option.some.injEq]
        exact Ne.symm hk
    · by_cases hk : k = b.slots.nextKey
      · have hnone := (hb.index_iff c k).not.mpr (by simp [hk])
        simpa [hc, hk] using hk ▸ hnone
      · simpa [hc, hk] using hb.index_iff c k
  numBounded_eq := by
    rw [(b.competing_insert_perm cell unbounded).length_eq]
    cases unbounded <;> simp [Beam.insert, hb.numBounded_eq]

end Insert

section Remove

variable {b : Beam S} {key : Nat} {h : Held S}

theorem remove_eq (hk : b.slots.get? key = some h) :
    b.remove key =
      { b with
        slots := b.slots.erase key
        index := b.index.erase h.cell.category
        numBounded := if h.unbounded then b.numBounded else b.numBounded - 1 } := by
  simp [remove, hk]

theorem slots_remove_perm (hk : b.slots.get? key = some h) :
    b.slots.toList.Perm ((key, h) :: (b.remove key).slots.toList) := by
  rw [remove_eq hk]
  exact Slots.toList_erase_perm hk

theorem settings_remove (b : Beam S) (key : Nat) : b.Settings (b.remove key) := by
  unfold remove
  split
  · exact ⟨rfl, rfl, rfl, rfl, rfl⟩
  · exact .refl b

theorem setAside_remove (b : Beam S) (key : Nat) : (b.remove key).setAside = b.setAside := by
  unfold remove
  split <;> rfl

theorem threshold_remove (b : Beam S) (key : Nat) : (b.remove key).threshold = b.threshold := by
  unfold remove
  split <;> rfl

theorem entries_remove_perm (hk : b.slots.get? key = some h) :
    b.entries.Perm ((h.cell, h.unbounded) :: (b.remove key).entries) :=
  (slots_remove_perm hk).map _

theorem competing_remove_perm (hk : b.slots.get? key = some h) : b.competing.Perm
    (if h.unbounded then (b.remove key).competing else h.cell :: (b.remove key).competing) := by
  have hperm := ((entries_remove_perm hk).filter (!·.2)).map (·.1)
  cases hu : h.unbounded with
  | false => simpa [competing, hu] using hperm
  | true => simpa [competing, hu] using hperm

theorem Indexed.category_ne_of_remove (hb : b.Indexed) (hk : b.slots.get? key = some h) :
    ∀ e ∈ (b.remove key).entries, e.1.category ≠ h.cell.category := by
  intro e he hc
  have hnodup := ((entries_remove_perm hk).map (·.1.category)).nodup_iff.mp hb.nodup_categories
  rw [List.map_cons, List.nodup_cons] at hnodup
  exact hnodup.1 (List.mem_map.mpr ⟨e, he, hc⟩)

theorem Indexed.remove (hb : b.Indexed) (hk : b.slots.get? key = some h) :
    (b.remove key).Indexed where
  index_iff c k := by
    have hindex : (b.remove key).index = b.index.erase h.cell.category := by rw [remove_eq hk]
    have hslots : (b.remove key).slots = b.slots.erase key := by rw [remove_eq hk]
    rw [hindex, hslots, Std.HashMap.getElem?_erase, Slots.get?_erase]
    by_cases hc : h.cell.category = c
    · -- the slot that was freed is the only one with the category
      simp only [hc, beq_self_eq_true, if_true, reduceCtorEq, false_iff]
      rintro ⟨h', hget, hcat⟩
      split_ifs at hget with hkey
      exact hkey (hb.key_unique hget hk (hcat.trans hc.symm))
    · by_cases hkey : k = key
      · have hnone := (hb.index_iff c k).not.mpr (by simp [hkey, hk, hc])
        simpa [hc, hkey] using hkey ▸ hnone
      · simpa [hc, hkey] using hb.index_iff c k
  numBounded_eq := by
    have hnum : (b.remove key).numBounded =
        if h.unbounded then b.numBounded else b.numBounded - 1 := by rw [remove_eq hk]
    rw [hnum, hb.numBounded_eq, (competing_remove_perm hk).length_eq]
    cases h.unbounded <;> simp

end Remove

section Replace

def replace (b : Beam S) (key : Nat) (h : Held S) (numBounded : Nat) : Beam S :=
  { b with slots := b.slots.modify key fun _ => h, numBounded }

variable {b : Beam S} {key : Nat} {h : Held S}

theorem settings_replace (b : Beam S) (key : Nat) (h : Held S) (numBounded : Nat) :
    b.Settings (b.replace key h numBounded) :=
  ⟨rfl, rfl, rfl, rfl, rfl⟩

theorem entries_replace_perm (hk : b.slots.get? key = some h) (h' : Held S) (numBounded : Nat) :
    (b.replace key h' numBounded).entries.Perm
      ((h'.cell, h'.unbounded) :: (b.remove key).entries) := by
  rw [remove_eq hk]
  exact (Slots.toList_modify_perm hk fun _ => h').map _

theorem competing_replace_perm (hk : b.slots.get? key = some h) (h' : Held S) (numBounded : Nat) :
    (b.replace key h' numBounded).competing.Perm
      (if h'.unbounded then (b.remove key).competing else h'.cell :: (b.remove key).competing) := by
  have hperm := ((entries_replace_perm hk h' numBounded).filter (!·.2)).map (·.1)
  cases hu : h'.unbounded with
  | false => simpa [competing, hu] using hperm
  | true => simpa [competing, hu] using hperm

theorem Indexed.replace (hb : b.Indexed) (hk : b.slots.get? key = some h) {h' : Held S}
    (hcat : h'.cell.category = h.cell.category) {numBounded : Nat}
    (hnum : numBounded = (b.replace key h' numBounded).competing.length) :
    (b.replace key h' numBounded).Indexed where
  index_iff c k := by
    show b.index[c]? = some k ↔ ∃ x, (b.slots.modify key fun _ => h').get? k = some x ∧ _
    rw [hb.index_iff, Slots.get?_modify]
    by_cases he : key = k
    · subst he
      simp [hk, hcat]
    · simp [he]
  numBounded_eq := hnum

/-- A cell that joins the lexical part no longer counts against the capacity. -/
theorem Indexed.replace_lexical (hb : b.Indexed) (hk : b.slots.get? key = some h) {m : Cell S}
    (hcat : m.category = h.cell.category) {lexical : Bool}
    (hboth : h.unbounded = true → lexical = false)
    (seq : Nat) :
    (b.replace key ⟨m, seq, h.unbounded || lexical⟩
      (if lexical then b.numBounded - 1 else b.numBounded)).Indexed := by
  refine hb.replace hk hcat ?_
  rw [(competing_replace_perm hk _ _).length_eq, hb.numBounded_eq,
    (competing_remove_perm hk).length_eq]
  revert hboth
  cases h.unbounded <;> cases lexical <;> simp

end Replace

section Evict

variable {b : Beam S}

theorem turnAway_eq (ho : b.order = .orderInvariant) (cell : Cell S) :
    b.turnAway cell = b.withAside (cell :: b.setAside) := by
  unfold turnAway
  split
  · rfl
  · next hi => simp [hi] at ho

theorem slots_turnAway (b : Beam S) (cell : Cell S) : (b.turnAway cell).slots = b.slots := by
  unfold turnAway
  split <;> rfl

/-- How a beam looks after some of its held cells have been set aside. -/
structure Evicted (b : Beam S) (losers : List (Nat × Held S)) (b' : Beam S) : Prop where
  indexed : b'.Indexed
  settings : b.Settings b'
  threshold : b'.threshold = b.threshold
  slots : b.slots.toList.Perm (losers ++ b'.slots.toList)
  setAside : b'.setAside.Perm (losers.map (·.2.cell) ++ b.setAside)

theorem Evicted.cons {b' : Beam S} {key : Nat} {h : Held S} {losers : List (Nat × Held S)}
    (hk : b.slots.get? key = some h)
    (hev : ((b.remove key).withAside (h.cell :: b.setAside)).Evicted losers b') :
    b.Evicted ((key, h) :: losers) b' where
  indexed := hev.indexed
  settings := (settings_remove b key).trans ((settings_withAside _ _).trans hev.settings)
  threshold := hev.threshold.trans (threshold_remove b key)
  slots := (slots_remove_perm hk).trans (hev.slots.cons _)
  setAside := hev.setAside.trans List.perm_middle

theorem evicted_evict (hb : b.Indexed) (ho : b.order = .orderInvariant)
    {losers : List (Nat × Held S)} (hl : ∀ x ∈ losers, b.slots.get? x.1 = some x.2)
    (hn : (losers.map (·.1)).Nodup) : b.Evicted losers (b.evict losers) := by
  induction losers generalizing b with
  | nil => exact ⟨hb, .refl b, rfl, .refl _, .refl _⟩
  | cons x losers ih =>
    obtain ⟨key, h⟩ := x
    have hk : b.slots.get? key = some h := hl _ (.head _)
    have ho' : (b.remove key).order = .orderInvariant := (settings_remove b key).order.trans ho
    have hstep : b.evict ((key, h) :: losers) =
        ((b.remove key).withAside (h.cell :: b.setAside)).evict losers := by
      show ((b.remove key).turnAway h.cell).evict losers = _
      rw [turnAway_eq ho', setAside_remove]
    rw [hstep]
    have hrest : ∀ x ∈ losers, (b.remove key).slots.get? x.1 = some x.2 := by
      intro x hx
      have hne : x.1 ≠ key := fun he => (List.nodup_cons.mp hn).1 (List.mem_map.mpr ⟨x, hx, he⟩)
      rw [remove_eq hk, Slots.get?_erase, if_neg hne]
      exact hl x (.tail _ hx)
    exact .cons hk (ih ((hb.remove hk).withAside (h.cell :: b.setAside)) ho' hrest
      (List.nodup_cons.mp hn).2)

/-- The competing cells that a test picks are set aside, and the others stay. -/
structure Sifted (b : Beam S) (p : Cell S → Bool) (b' : Beam S) : Prop where
  indexed : b'.Indexed
  settings : b.Settings b'
  threshold : b'.threshold = b.threshold
  entries : b'.entries.Perm (b.entries.filter fun e => e.2 || !p e.1)
  setAside : b'.setAside.Perm (b.competing.filter p ++ b.setAside)

theorem sifted_evict (hb : b.Indexed) (ho : b.order = .orderInvariant) (p : Cell S → Bool) :
    b.Sifted p (b.evict (b.bounded.filter fun x => p x.2.cell)) := by
  have hsub : (b.bounded.filter fun x => p x.2.cell).Sublist b.slots.toList :=
    List.filter_sublist.trans List.filter_sublist
  have hev := evicted_evict hb ho (fun x hx => (Slots.mem_toList_iff ..).mp (hsub.subset hx))
    (b.slots.nodup_keys_toList.sublist (hsub.map _))
  -- what is not evicted is what the test leaves
  have hrest : (b.evict (b.bounded.filter fun x => p x.2.cell)).slots.toList.Perm
      (b.slots.toList.filter fun x => x.2.unbounded || !p x.2.cell) := by
    have hall := (List.filter_append_perm (fun x => !x.2.unbounded && p x.2.cell)
      b.slots.toList).symm
    have hbounded : (b.bounded.filter fun x => p x.2.cell) =
        b.slots.toList.filter fun x => !x.2.unbounded && p x.2.cell := by
      simp [bounded, List.filter_filter, Bool.and_comm]
    have hcancel := (hev.slots.symm.trans (hbounded ▸ hall))
    rw [List.perm_append_left_iff] at hcancel
    simpa using hcancel
  refine ⟨hev.indexed, hev.settings, hev.threshold, ?_, ?_⟩
  · have := hrest.map fun x => (x.2.cell, x.2.unbounded)
    rwa [Beam.entries, Beam.entries, List.filter_map]
  · refine hev.setAside.trans (.of_eq ?_)
    simp [competing, Beam.entries, bounded, List.filter_map, Function.comp_def]

theorem Sifted.stock_perm {p : Cell S → Bool} {b' : Beam S} (hs : b.Sifted p b') :
    b.stock.Perm b'.stock := by
  have hgone : b.competing.filter p = (b.entries.filter fun e => !(e.2 || !p e.1)).map (·.1) := by
    simp [competing, List.filter_map, List.filter_filter, Function.comp_def, Bool.and_comm]
  have hall := ((List.filter_append_perm (fun e => e.2 || !p e.1) b.entries).map (·.1)).symm
  rw [List.map_append, ← hgone] at hall
  calc
    List.Perm b.stock ((b.entries.filter fun e => e.2 || !p e.1).map (·.1) ++
        b.competing.filter p ++ b.setAside) := hall.append_right _
    List.Perm _ b'.stock := by
      rw [List.append_assoc]
      exact ((hs.entries.map _).append hs.setAside).symm

end Evict

section InsertAll

structure TakenBack (b : Beam S) (cells : List (Cell S)) (b' : Beam S) : Prop where
  indexed : b'.Indexed
  settings : b.Settings b'
  threshold : b'.threshold = b.threshold
  entries : b'.entries.Perm (cells.map (·, false) ++ b.entries)
  setAside : b'.setAside = b.setAside

theorem takenBack_takeBack {b : Beam S} (hb : b.Indexed) {cells : List (Cell S)}
    (hn : ((cells ++ b.entries.map (·.1)).map (·.category)).Nodup) :
    b.TakenBack cells (b.takeBack cells) := by
  induction cells generalizing b with
  | nil => exact ⟨hb, .refl b, rfl, .refl _, rfl⟩
  | cons cell cells ih =>
    have hperm := b.entries_insert_perm cell false
    have hfresh : ∀ e ∈ b.entries, e.1.category ≠ cell.category := by
      intro e he hc
      refine (List.nodup_cons.mp hn).1 (List.mem_map.mpr ⟨e.1, ?_, hc⟩)
      exact List.mem_append_right _ (List.mem_map_of_mem he)
    have hn' : ((cells ++ (b.insert cell false).1.entries.map (·.1)).map (·.category)).Nodup := by
      have hcells : ((b.insert cell false).1.entries.map (·.1)).Perm
          (cell :: b.entries.map (·.1)) := hperm.map _
      have hmoved := (hcells.append_left cells).trans List.perm_middle
      exact (hmoved.map (·.category)).nodup_iff.mpr hn
    have hre := ih (hb.insert hfresh) hn'
    exact ⟨hre.indexed, (b.settings_insert cell false).trans hre.settings, hre.threshold,
      hre.entries.trans ((hperm.append_left _).trans List.perm_middle), hre.setAside⟩

theorem Indexed.takenBack {b : Beam S} (hb : b.Indexed) (hapart : (b.stock.map (·.category)).Nodup)
    {winners losers : List (Cell S)} (haside : b.setAside.Perm (winners ++ losers)) :
    (b.withAside losers).TakenBack winners ((b.withAside losers).takeBack winners) := by
  refine takenBack_takeBack (hb.withAside losers) ?_
  have hstock : b.stock.Perm (winners ++ b.entries.map (·.1) ++ losers) := by
    rw [List.append_assoc]
    refine (haside.append_left _).trans ?_
    rw [← List.append_assoc, ← List.append_assoc]
    exact List.perm_append_comm.append_right _
  exact ((hstock.map _).nodup_iff.mp hapart).sublist ((List.sublist_append_left _ _).map _)

theorem TakenBack.stock_perm {b b' : Beam S} {winners losers : List (Cell S)}
    (hre : (b.withAside losers).TakenBack winners b')
    (haside : b.setAside.Perm (winners ++ losers)) : b.stock.Perm b'.stock := by
  have hentries : b'.entries.Perm (winners.map (·, false) ++ b.entries) := hre.entries
  have hcells : (b'.entries.map (·.1)).Perm (winners ++ b.entries.map (·.1)) := by
    simpa [Function.comp_def] using hentries.map (·.1)
  calc
    List.Perm b.stock (b.entries.map (·.1) ++ (winners ++ losers)) := haside.append_left _
    List.Perm _ (winners ++ b.entries.map (·.1) ++ losers) := by
      rw [← List.append_assoc]
      exact List.perm_append_comm.append_right _
    List.Perm _ b'.stock := by
      rw [stock, hre.setAside]
      exact hcells.symm.append_right _

end InsertAll

section Meetings

variable [Scalar S] {b : Beam S}

/-- How a cell on offer meets a beam: another cell of its category is held or was set aside, or it
is the first of its category. -/
inductive Meets (b : Beam S) (cell : Cell S) : Prop where
  | held {key : Nat} {held : Held S} : b.slots.get? key = some held →
      held.cell.category = cell.category → b.offer cell = b.mergeHeld key held cell → Meets b cell
  | aside {previous : Cell S} : previous ∈ b.setAside → previous.category = cell.category →
      b.offer cell = b.reconsider previous cell → Meets b cell
  | fresh : (∀ c ∈ b.stock, c.category ≠ cell.category) → b.offer cell = .ok (b.accept cell) →
      Meets b cell

theorem Indexed.meets (hb : b.Indexed) (cell : Cell S) : b.Meets cell := by
  cases hindex : b.index[cell.category]? with
  | some key =>
    obtain ⟨held, hk, hcat⟩ := (hb.index_iff _ _).mp hindex
    exact .held hk hcat (by simp only [offer, hindex, hk])
  | none =>
    cases hfind : b.setAside.find? (·.category == cell.category) with
    | some previous =>
      have hcat : previous.category = cell.category := by simpa using List.find?_some hfind
      exact .aside (List.mem_of_find?_eq_some hfind) hcat (by simp only [offer, hindex, hfind])
    | none =>
      refine .fresh (fun c hc => ?_) (by simp only [offer, hindex, hfind])
      rcases List.mem_append.mp hc with hc | hc
      · obtain ⟨e, he, rfl⟩ := List.mem_map.mp hc
        exact hb.index_eq_none_iff.mp hindex e he
      · simpa using List.find?_eq_none.mp hfind c hc

end Meetings

end Categorial.Beam
