import Mathlib.Data.List.Sort
import Mathlib.Tactic.Common
import Categorial.Proofs.Scalar.Ordered

/-! # Cutting keys off at a threshold

A full beam divides its keys at a threshold: those above it are kept, the others are set aside. The
threshold is the key in the first place that the capacity leaves out, and a key is kept exactly if
no more keys than the capacity reach it. The lemmas follow what a beam does with a key: it turns it
away, takes it in, or takes it in and drops the lowest keys.
-/

namespace Categorial

variable {K : Type} [LinearOrder K]

/-- The key in the first place that the capacity leaves out, from the greatest key down. -/
def cutoff (capacity : Nat) (keys : List K) : Option K :=
  (keys.mergeSort fun a b => decide (b ≤ a))[capacity]?

/-- Keys that are divided at a threshold, into at most `capacity` above it and the others. Where
there is a threshold, more keys than the capacity reach it. -/
def Divides (capacity : Nat) : Option K → List K → List K → Prop
  | none, kept, aside => aside = [] ∧ kept.length ≤ capacity
  | some t, kept, aside =>
    (∀ k ∈ kept, t < k) ∧ (∀ k ∈ aside, k ≤ t) ∧ kept.length ≤ capacity ∧
      capacity < kept.length + aside.countP (t ≤ ·)

def Awaits (capacity : Nat) (key : K) : Option K → List K → List K → Prop
  | none, kept, aside => aside = [] ∧ kept.length ≤ capacity
  | some t, kept, aside =>
    (∀ k ∈ kept, t < k) ∧ (∀ k ∈ aside, k ≤ t) ∧ kept.length ≤ capacity ∧
      capacity < kept.length + (key :: aside).countP (t ≤ ·)

variable {capacity : Nat} {cut : Option K} {kept kept' aside aside' : List K} {key t : K}

theorem Divides.perm (h : Divides capacity cut kept aside) (hk : kept.Perm kept')
    (ha : aside.Perm aside') : Divides capacity cut kept' aside' := by
  cases cut with
  | none =>
    obtain ⟨rfl, hlen⟩ := h
    exact ⟨ha.nil_eq.symm, hk.length_eq ▸ hlen⟩
  | some t =>
    obtain ⟨habove, hbelow, hlen, hcount⟩ := h
    refine ⟨fun k hm => habove k (hk.mem_iff.mpr hm), fun k hm => hbelow k (ha.mem_iff.mpr hm),
      hk.length_eq ▸ hlen, ?_⟩
    rwa [← hk.length_eq, ← ha.countP_eq]

theorem Divides.above (h : Divides capacity cut kept aside) (hk : key ∈ kept) :
    cut.all (· < key) = true := by
  cases cut with
  | none => rfl
  | some t => simpa using h.1 key hk

theorem Divides.below (h : Divides capacity cut kept aside) (hk : key ∈ aside) :
    cut.any (key ≤ ·) = true := by
  cases cut with
  | none => simp [h.1] at hk
  | some t => simpa using h.2.1 key hk

theorem Divides.awaits (h : Divides capacity cut kept aside) (key : K) :
    Awaits capacity key cut kept aside := by
  cases cut with
  | none => exact h
  | some t =>
    obtain ⟨habove, hbelow, hlen, hcount⟩ := h
    refine ⟨habove, hbelow, hlen, hcount.trans_le ?_⟩
    simp [List.countP_cons]

theorem Divides.awaits_of_le {old : K} (h : Divides capacity cut kept (old :: aside))
    (hle : old ≤ key) : Awaits capacity key cut kept aside := by
  cases cut with
  | none => exact absurd h.1 (List.cons_ne_nil _ _)
  | some t =>
    obtain ⟨habove, hbelow, hlen, hcount⟩ := h
    refine ⟨habove, fun k hm => hbelow k (.tail _ hm), hlen, hcount.trans_le ?_⟩
    simp only [List.countP_cons, decide_eq_true_eq]
    split_ifs with h₁ h₂
    · exact le_rfl
    · exact absurd (h₁.trans hle) h₂
    · omega
    · exact le_rfl

theorem Awaits.turned_away (h : Awaits capacity key (some t) kept aside) (hle : key ≤ t) :
    Divides capacity (some t) kept (key :: aside) := by
  obtain ⟨habove, hbelow, hlen, hcount⟩ := h
  refine ⟨habove, fun k hm => ?_, hlen, hcount⟩
  rcases List.mem_cons.mp hm with rfl | hm
  · exact hle
  · exact hbelow k hm

theorem Awaits.taken_in (h : Awaits capacity key cut kept aside) (habove : ∀ t ∈ cut, t < key)
    (hroom : kept.length < capacity) : Divides capacity cut (key :: kept) aside := by
  cases cut with
  | none => exact ⟨h.1, hroom⟩
  | some t =>
    have hkey := habove t rfl
    obtain ⟨hkept, hbelow, _, hcount⟩ := h
    refine ⟨fun k hm => ?_, hbelow, hroom, ?_⟩
    · rcases List.mem_cons.mp hm with rfl | hm
      · exact hkey
      · exact hkept k hm
    · simp only [List.countP_cons, hkey.le, decide_true, if_true] at hcount
      rw [List.length_cons]
      omega

/-- When there is no room, the lowest keys go and the lowest becomes the threshold. -/
theorem Awaits.overflow (h : Awaits capacity key cut kept aside) (habove : ∀ t ∈ cut, t < key)
    (hfull : capacity ≤ kept.length) {low : K} (hlow : low ∈ key :: kept)
    (hmin : ∀ k ∈ key :: kept, low ≤ k) :
    Divides capacity (some low) ((key :: kept).filter fun k => !decide (k = low))
      (((key :: kept).filter fun k => decide (k = low)) ++ aside) := by
  have hlen : kept.length ≤ capacity := by
    cases cut with
    | none => exact h.2
    | some t => exact h.2.2.1
  have haside : ∀ k ∈ aside, k ≤ low := by
    intro k hk
    cases cut with
    | none => simp [h.1] at hk
    | some t =>
      have ht : t < low := by
        rcases List.mem_cons.mp hlow with rfl | hm
        · exact habove t rfl
        · exact h.1 low hm
      exact (h.2.1 k hk).trans ht.le
  have hsplit := @List.length_eq_length_filter_add K (key :: kept) fun k => decide (k = low)
  have hpos : 0 < ((key :: kept).filter fun k => decide (k = low)).length :=
    List.length_pos_of_mem (List.mem_filter.mpr ⟨hlow, by simp⟩)
  have hcount : ((key :: kept).filter fun k => decide (k = low)).countP (low ≤ ·) =
      ((key :: kept).filter fun k => decide (k = low)).length := by
    rw [List.countP_eq_length]
    intro k hk
    have : k = low := by simpa using (List.mem_filter.mp hk).2
    simp [this]
  rw [List.length_cons] at hsplit
  refine ⟨fun k hk => ?_, fun k hk => ?_, by omega, ?_⟩
  · obtain ⟨hm, hne⟩ := List.mem_filter.mp hk
    exact lt_of_le_of_ne (hmin k hm) (Ne.symm (by simpa using hne))
  · rcases List.mem_append.mp hk with hk | hk
    · exact le_of_eq (by simpa using (List.mem_filter.mp hk).2)
    · exact haside k hk
  · rw [List.countP_append, hcount]
    omega

theorem Divides.raise {old : K} (h : Divides capacity cut (old :: kept) aside) (hle : old ≤ key) :
    Divides capacity cut (key :: kept) aside := by
  cases cut with
  | none => exact h
  | some t =>
    obtain ⟨habove, hrest⟩ := h
    refine ⟨fun k hm => ?_, hrest⟩
    rcases List.mem_cons.mp hm with rfl | hm
    · exact (habove old (.head _)).trans_le hle
    · exact habove k (.tail _ hm)

theorem countP_of_getElem?_eq {keys : List K} (hs : keys.Pairwise (· ≥ ·))
    (h : keys[capacity]? = some t) :
    keys.countP (t < ·) ≤ capacity ∧ capacity < keys.countP (t ≤ ·) := by
  obtain ⟨hlt, rfl⟩ := List.getElem?_eq_some_iff.mp h
  have hkeys : keys = keys.take capacity ++ keys[capacity] :: keys.drop (capacity + 1) := by
    rw [← List.drop_eq_getElem_cons hlt, List.take_append_drop]
  have hlen : (keys.take capacity).length = capacity := List.length_take_of_le hlt.le
  generalize keys.take capacity = before at hkeys hlen
  generalize keys.drop (capacity + 1) = after at hkeys
  generalize keys[capacity] = t at hkeys
  subst hkeys hlen
  rw [List.pairwise_append, List.pairwise_cons] at hs
  obtain ⟨_, ⟨hafter, _⟩, hbefore⟩ := hs
  have hnone : after.countP (t < ·) = 0 := by
    rw [List.countP_eq_zero]
    intro k hk
    simpa using hafter k hk
  have hall : before.countP (t ≤ ·) = before.length := by
    rw [List.countP_eq_length]
    intro k hk
    simpa using hbefore k hk t (.head _)
  have hfew : before.countP (t < ·) ≤ before.length := List.countP_le_length
  rw [List.countP_append, List.countP_cons, List.countP_append, List.countP_cons, hnone, hall]
  simp only [lt_irrefl, le_refl, decide_true, decide_false, if_true]
  constructor
  · simpa using hfew
  · omega

theorem pairwise_ge_mergeSort (keys : List K) :
    (keys.mergeSort fun a b => decide (b ≤ a)).Pairwise (· ≥ ·) := by
  have hr : ∀ a b : Kᵒᵈ, decide (OrderDual.ofDual b ≤ OrderDual.ofDual a) = true ↔ a ≤ b := by
    intro a b
    simp [OrderDual.ofDual_le_ofDual]
  exact @pairwise_le_mergeSort Kᵒᵈ _ _ hr keys

theorem cutoff_perm {keys keys' : List K} (h : keys.Perm keys') :
    cutoff capacity keys = cutoff capacity keys' := by
  have hr : ∀ a b : Kᵒᵈ, decide (OrderDual.ofDual b ≤ OrderDual.ofDual a) = true ↔ a ≤ b := by
    intro a b
    simp [OrderDual.ofDual_le_ofDual]
  have hsort : keys.mergeSort (fun a b => decide (b ≤ a)) =
      keys'.mergeSort fun a b => decide (b ≤ a) := @mergeSort_eq_of_perm Kᵒᵈ _ _ hr _ _ h
  rw [cutoff, cutoff, hsort]

/-- Keys cut off at their own cutoff are divided. -/
theorem divides_cutoff (keys : List K) :
    Divides capacity (cutoff capacity keys)
      (keys.filter fun k => (cutoff capacity keys).all (· < k))
      (keys.filter fun k => (cutoff capacity keys).any (k ≤ ·)) := by
  have hperm := List.mergeSort_perm keys fun a b => decide (b ≤ a)
  cases hc : cutoff capacity keys with
  | none =>
    have hlen : keys.length ≤ capacity := by
      rw [← hperm.length_eq]
      exact List.getElem?_eq_none_iff.mp hc
    simpa [Divides] using hlen
  | some t =>
    obtain ⟨hfew, hmany⟩ := countP_of_getElem?_eq (pairwise_ge_mergeSort keys) hc
    rw [hperm.countP_eq] at hfew hmany
    refine ⟨fun k hk => by simpa using (List.mem_filter.mp hk).2,
      fun k hk => by simpa using (List.mem_filter.mp hk).2, ?_, ?_⟩
    · simpa [List.countP_eq_length_filter] using hfew
    · have hperm := (List.filter_append_perm (fun k => decide (t < k)) keys).symm
      have hrest : (keys.filter fun k => !decide (t < k)) = keys.filter fun k => decide (k ≤ t) :=
        List.filter_congr fun k _ => by
          rw [Bool.eq_iff_iff]
          simp
      have hall : (keys.filter fun k => decide (t < k)).countP (t ≤ ·) =
          (keys.filter fun k => decide (t < k)).length := by
        rw [List.countP_eq_length]
        intro k hk
        simpa using (show t < k by simpa using (List.mem_filter.mp hk).2).le
      rw [hperm.countP_eq, List.countP_append, hall, hrest] at hmany
      simpa using hmany

theorem Divides.countP_le (h : Divides capacity cut kept aside) (hk : key ∈ kept) :
    (kept ++ aside).countP (key ≤ ·) ≤ capacity := by
  cases cut with
  | none =>
    obtain ⟨rfl, hlen⟩ := h
    rw [List.append_nil]
    exact List.countP_le_length.trans hlen
  | some t =>
    obtain ⟨habove, hbelow, hlen, _⟩ := h
    have hnone : aside.countP (key ≤ ·) = 0 := by
      rw [List.countP_eq_zero]
      intro k hm
      simpa using (hbelow k hm).trans_lt (habove key hk)
    rw [List.countP_append, hnone]
    exact List.countP_le_length.trans hlen

theorem Divides.lt_countP (h : Divides capacity cut kept aside) (hk : key ∈ aside) :
    capacity < (kept ++ aside).countP (key ≤ ·) := by
  cases cut with
  | none => simp [h.1] at hk
  | some t =>
    obtain ⟨habove, hbelow, _, hcount⟩ := h
    have hle := hbelow key hk
    have hall : kept.countP (key ≤ ·) = kept.length := by
      rw [List.countP_eq_length]
      intro k hm
      simpa using hle.trans (habove k hm).le
    have hmono : aside.countP (t ≤ ·) ≤ aside.countP (key ≤ ·) := by
      apply List.countP_mono_left
      intro k _ ht
      simp only [decide_eq_true_eq] at ht ⊢
      exact hle.trans ht
    rw [List.countP_append, hall]
    omega

theorem any_le_eq_not_all (cut : Option K) (key : K) : cut.any (key ≤ ·) = !cut.all (· < key) := by
  cases cut with
  | none => rfl
  | some t => simp [← decide_not]

theorem all_cutoff_iff {keys : List K} (hk : key ∈ keys) :
    (cutoff capacity keys).all (· < key) = true ↔ keys.countP (key ≤ ·) ≤ capacity := by
  have hdivides : Divides capacity (cutoff capacity keys) _ _ := divides_cutoff keys
  simp only [any_le_eq_not_all] at hdivides
  rw [← (List.filter_append_perm (fun k => (cutoff capacity keys).all (· < k)) keys).countP_eq]
  constructor
  · intro habove
    exact hdivides.countP_le (List.mem_filter.mpr ⟨hk, habove⟩)
  · intro hfew
    by_contra hbelow
    refine hfew.not_gt (hdivides.lt_countP (List.mem_filter.mpr ⟨hk, ?_⟩))
    simpa using hbelow

theorem Divides.isSome_iff (h : Divides capacity cut kept aside) :
    cut.isSome = true ↔ capacity < (kept ++ aside).length := by
  cases cut with
  | none =>
    obtain ⟨rfl, hlen⟩ := h
    simpa using hlen
  | some t =>
    have hle : aside.countP (t ≤ ·) ≤ aside.length := List.countP_le_length
    have := h.2.2.2
    simp only [Option.isSome_some, List.length_append, true_iff]
    omega

theorem Divides.aside_eq_nil_iff (h : Divides capacity cut kept aside) :
    aside = [] ↔ (kept ++ aside).length ≤ capacity := by
  cases cut with
  | none =>
    obtain ⟨rfl, hlen⟩ := h
    simpa using hlen
  | some t =>
    have hsome := h.isSome_iff.mp rfl
    refine ⟨fun ha => ?_, fun hle => absurd hsome (not_lt.mpr hle)⟩
    have := h.2.2
    simp only [ha, List.countP_nil] at this
    omega

/-- The threshold is the cutoff of all keys. -/
theorem Divides.eq_cutoff (h : Divides capacity cut kept aside) :
    cut = cutoff capacity (kept ++ aside) := by
  have hperm := List.mergeSort_perm (kept ++ aside) fun a b => decide (b ≤ a)
  cases hc : cutoff capacity (kept ++ aside) with
  | none =>
    have hlen : (kept ++ aside).length ≤ capacity := by
      rw [← hperm.length_eq]
      exact List.getElem?_eq_none_iff.mp hc
    exact Option.not_isSome_iff_eq_none.mp fun hs => absurd (h.isSome_iff.mp hs) (not_lt.mpr hlen)
  | some x =>
    obtain ⟨hfew, hmany⟩ := countP_of_getElem?_eq (pairwise_ge_mergeSort (kept ++ aside)) hc
    rw [hperm.countP_eq] at hfew hmany
    cases cut with
    | none => exact absurd (hmany.trans_le List.countP_le_length) (by simpa [h.1] using h.2)
    | some t =>
      obtain ⟨habove, hbelow, hlen, hcount⟩ := h
      have hall : kept.countP (t ≤ ·) = kept.length := by
        rw [List.countP_eq_length]
        intro k hk
        simpa using (habove k hk).le
      have hnone : aside.countP (t < ·) = 0 := by
        rw [List.countP_eq_zero]
        intro k hk
        simpa using hbelow k hk
      have hreach : capacity < (kept ++ aside).countP (t ≤ ·) := by
        rwa [List.countP_append, hall]
      have hover : (kept ++ aside).countP (t < ·) ≤ capacity := by
        rw [List.countP_append, hnone]
        exact List.countP_le_length.trans hlen
      rcases lt_trichotomy t x with hlt | rfl | hlt
      · refine absurd (hmany.trans_le (List.countP_mono_left fun k _ hk => ?_)) (not_lt.mpr hover)
        simpa using hlt.trans_le (by simpa using hk)
      · rfl
      · refine absurd (hreach.trans_le (List.countP_mono_left fun k _ hk => ?_)) (not_lt.mpr hfew)
        simpa using hlt.trans_le (by simpa using hk)

end Categorial
