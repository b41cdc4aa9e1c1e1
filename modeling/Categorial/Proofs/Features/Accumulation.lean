import Categorial.Proofs.Features.Values

/-! # Weighed vectors added up

A vector in log space that weighed vectors are added to has at each key the sum of their weighed
values, with its sign, and lists the keys where one of them is not zero. What is above and below
zero is summed apart, and a sum of masses does not depend on their order, so neither does the
vector.
-/

namespace Categorial

open LogReal

namespace LogFeatureVector

section Order

theorem get?_accumulate (side : FeatureVector LogReal) (k : String) (m : LogReal) (key : String) :
    (accumulate side k m).get? key =
      if key = k then some (LogSpace.add (side.getD k ⊥) m) else side.get? key :=
  FeatureVector.get?_alter side k _ key

theorem accumulate_comm (side : FeatureVector LogReal) (k l : String) (m n : LogReal) :
    accumulate (accumulate side k m) l n = accumulate (accumulate side l n) k m := by
  refine FeatureVector.ext_get? fun key => ?_
  simp only [get?_accumulate, FeatureVector.getD]
  by_cases hk : key = k
  · by_cases hl : key = l
    · subst hk hl
      simp only [if_true, Option.getD_some]
      refine congrArg some (mass_injective ?_)
      simp only [mass_add]
      ring
    · subst hk
      simp [hl]
  · by_cases hl : key = l
    · subst hl
      simp [hk]
    · simp [hk, hl]

theorem addOne_comm (v : LogFeatureVector LogReal) (w z : LogReal) (k l : String)
    (a b : LogReal) : (v.addOne w k a).addOne z l b = (v.addOne z l b).addOne w k a := by
  unfold addOne
  dsimp only
  split_ifs <;> simp only [accumulate_comm]

end Order

section Keys

variable {v : LogFeatureVector LogReal} {weight : LogReal} {key k : String} {x : ℝ}

theorem mem_keys_iff : key ∈ v.keys ↔ key ∈ v.positive.keys ∨ key ∈ v.negative.keys :=
  mem_mergeKeys_iff

theorem mem_keys_accumulate {side : FeatureVector LogReal} {m : LogReal} :
    key ∈ (accumulate side k m).keys ↔ key = k ∨ key ∈ side.keys := by
  rw [FeatureVector.mem_keys_iff, FeatureVector.mem_keys_iff, get?_accumulate]
  split_ifs with h <;> simp [h]

theorem mem_keys_addOne :
    key ∈ (v.addOne weight k (ofReal x)).keys ↔ key = k ∧ x ≠ 0 ∨ key ∈ v.keys := by
  unfold addOne
  simp only [zero_blt_ofReal, ofReal_blt_zero]
  rcases lt_trichotomy x 0 with h | rfl | h
  · rw [if_neg h.not_gt, if_pos h]
    simp only [mem_keys_iff, mem_keys_accumulate, h.ne, ne_eq, not_false_eq_true, and_true]
    exact or_left_comm
  · simp
  · rw [if_pos h]
    simp only [mem_keys_iff, mem_keys_accumulate, h.ne', ne_eq, not_false_eq_true, and_true]
    exact or_assoc

theorem mem_keys_addScaled {features : FeatureVector LogReal} (h : features.Finite) :
    key ∈ (v.addScaled weight features).keys ↔ features.value key ≠ 0 ∨ key ∈ v.keys := by
  rw [addScaled_eq_foldl h, FeatureVector.value_ne_zero_iff]
  generalize features.entries = entries
  induction entries generalizing v with
  | nil => simp
  | cons e entries ih =>
    rw [List.foldl_cons, ih, mem_keys_addOne, List.exists_mem_cons_iff, or_assoc]
    exact or_left_comm

end Keys

/-- What weighed vectors come to. The weights are given by their logarithms. -/
noncomputable def ofWeighed (additions : List (ℝ × FeatureVector LogReal)) :
    LogFeatureVector LogReal :=
  additions.foldl (fun v a => v.addScaled (ofReal a.1) a.2) .empty

noncomputable def weighedSum (additions : List (ℝ × FeatureVector LogReal)) (key : String) : ℝ :=
  (additions.map fun a => Real.exp a.1 * a.2.value key).sum

section Sums

variable {additions : List (ℝ × FeatureVector LogReal)} {key : String}

theorem ofWeighed_concat (a : ℝ × FeatureVector LogReal) :
    ofWeighed (additions ++ [a]) = (ofWeighed additions).addScaled (ofReal a.1) a.2 :=
  List.foldl_append

theorem ofWeighed_perm {additions' : List (ℝ × FeatureVector LogReal)}
    (h : additions.Perm additions') : ofWeighed additions = ofWeighed additions' := by
  -- all entries of all vectors, one after the other
  have hflat : ∀ additions : List (ℝ × FeatureVector LogReal), ofWeighed additions =
      (additions.flatMap fun a => a.2.entries.map fun e => (a.1, e)).foldl
        (fun v c => v.addOne (ofReal c.1) c.2.1 c.2.2) .empty := by
    intro additions
    simp only [List.foldl_flatMap, List.foldl_map]
    rfl
  rw [hflat, hflat]
  exact (h.flatMap_right _).foldl_eq' (fun c _ d _ v => addOne_comm v _ _ _ _ _ _) _

theorem value_ofWeighed (h : ∀ a ∈ additions, a.2.Finite) :
    (ofWeighed additions).value key = weighedSum additions key := by
  induction additions using List.reverseRecOn with
  | nil => exact value_empty key
  | append_singleton additions a ih =>
    rw [ofWeighed_concat, value_addScaled (h a (by simp)), mass_ofReal,
      ih fun b hb => h b (List.mem_append_left _ hb)]
    simp [weighedSum]

theorem mem_keys_ofWeighed (h : ∀ a ∈ additions, a.2.Finite) :
    key ∈ (ofWeighed additions).keys ↔ ∃ a ∈ additions, a.2.value key ≠ 0 := by
  induction additions using List.reverseRecOn with
  | nil => exact iff_of_false List.not_mem_nil nofun
  | append_singleton additions a ih =>
    rw [ofWeighed_concat, mem_keys_addScaled (h a (by simp)),
      ih fun b hb => h b (List.mem_append_left _ hb)]
    simp only [List.mem_append, List.mem_singleton, or_and_right, exists_or, exists_eq_left]
    exact or_comm

end Sums

/-- What weighed vectors come to is read at each key as their sum: its sign with the logarithm of
its magnitude, which zero does not have, its logarithm if it is not negative, and the sum divided by
any mass. The keys are those where one of the vectors is not zero, in increasing order. The order of
the additions makes no difference. -/
theorem ofWeighed_reads_sum (additions : List (ℝ × FeatureVector LogReal))
    (h : ∀ a ∈ additions, a.2.Finite) :
    (∀ key, 0 < weighedSum additions key →
      (ofWeighed additions).signed key =
        .ok (.positive, ofReal (Real.log (weighedSum additions key))) ∧
      (ofWeighed additions).logValue? key =
        .ok (some (ofReal (Real.log (weighedSum additions key))))) ∧
    (∀ key, weighedSum additions key < 0 →
      (ofWeighed additions).signed key =
        .ok (.negative, ofReal (Real.log (-weighedSum additions key))) ∧
      (ofWeighed additions).logValue? key = .ok none) ∧
    (∀ key, weighedSum additions key = 0 →
      (ofWeighed additions).signed key = .ok (.positive, Scalar.negInf) ∧
      (ofWeighed additions).logValue? key = .ok (some Scalar.negInf)) ∧
    (∀ key norm, ((ofWeighed additions).expNormalized (ofReal norm)).get key =
      ofReal (weighedSum additions key / Real.exp norm)) ∧
    (ofWeighed additions).keys.Pairwise (· < ·) ∧
    (∀ key, key ∈ (ofWeighed additions).keys ↔ ∃ a ∈ additions, a.2.value key ≠ 0) ∧
    ∀ additions', additions.Perm additions' → ofWeighed additions' = ofWeighed additions := by
  have hsigned : ∀ key, (ofWeighed additions).signed key =
      .ok (if weighedSum additions key < 0 then (.negative, ofMass (-weighedSum additions key))
        else (.positive, ofMass (weighedSum additions key))) := by
    intro key
    rw [signed_eq, value_ofWeighed h]
  refine ⟨fun key hpos => ?_, fun key hneg => ?_, fun key hzero => ?_, fun key norm => ?_,
    mergeKeys_sorted (ofWeighed additions).negative.keys_sorted, fun key => mem_keys_ofWeighed h,
    fun _ hperm => (ofWeighed_perm hperm).symm⟩
  · rw [logValue?, hsigned, if_neg hpos.not_gt, ofMass, if_pos hpos]
    exact ⟨rfl, rfl⟩
  · rw [logValue?, hsigned, if_pos hneg, ofMass, if_pos (neg_pos.mpr hneg)]
    exact ⟨rfl, rfl⟩
  · rw [logValue?, hsigned, hzero, if_neg (lt_irrefl 0), ofMass, if_neg (lt_irrefl 0)]
    exact ⟨rfl, rfl⟩
  · rw [get_expNormalized, value_ofWeighed h]

section Opposed

open FeatureVector (finite_empty)

noncomputable def gains : FeatureVector LogReal :=
  ((FeatureVector.empty.add "x" (ofReal 1)).add "y" (ofReal 5)).add "z" (ofReal 2)

noncomputable def losses : FeatureVector LogReal :=
  ((FeatureVector.empty.add "x" (ofReal (-2))).add "y" (ofReal (-1))).add "z" (ofReal (-1))

noncomputable def opposed : List (ℝ × FeatureVector LogReal) :=
  [(0, gains), (Real.log 2, losses)]

theorem value_gains (key : String) : gains.value key =
    (if key = "x" then 1 else 0) + (if key = "y" then 5 else 0) + if key = "z" then 2 else 0 := by
  rw [gains, FeatureVector.value_add finite_empty.add.add,
    FeatureVector.value_add finite_empty.add, FeatureVector.value_add finite_empty,
    FeatureVector.value_empty, zero_add]

theorem value_losses (key : String) : losses.value key =
    (if key = "x" then -2 else 0) + (if key = "y" then -1 else 0) +
      if key = "z" then -1 else 0 := by
  rw [losses, FeatureVector.value_add finite_empty.add.add,
    FeatureVector.value_add finite_empty.add, FeatureVector.value_add finite_empty,
    FeatureVector.value_empty, zero_add]

theorem weighedSum_opposed (key : String) : weighedSum opposed key =
    (if key = "x" then -3 else 0) + if key = "y" then 3 else 0 := by
  have hsum : weighedSum opposed key = gains.value key + 2 * losses.value key := by
    simp [weighedSum, opposed, Real.exp_log]
  rw [hsum, value_gains, value_losses]
  split_ifs <;> norm_num

theorem ofWeighed_reads_sum_opposed : (∀ a ∈ opposed, a.2.Finite) ∧
    (ofWeighed opposed).signed "x" = .ok (.negative, ofReal (Real.log 3)) ∧
    (ofWeighed opposed).logValue? "x" = .ok none ∧
    (ofWeighed opposed).signed "y" = .ok (.positive, ofReal (Real.log 3)) ∧
    (ofWeighed opposed).signed "z" = .ok (.positive, Scalar.negInf) ∧
    "z" ∈ (ofWeighed opposed).keys ∧
    ofWeighed [(Real.log 2, losses), (0, gains)] = ofWeighed opposed := by
  have hfinite : ∀ a ∈ opposed, a.2.Finite := by
    intro a ha
    rcases List.mem_pair.mp ha with rfl | rfl <;> exact finite_empty.add.add.add
  have hx : weighedSum opposed "x" = -3 := by simp [weighedSum_opposed]
  have hy : weighedSum opposed "y" = 3 := by simp [weighedSum_opposed]
  have hz : weighedSum opposed "z" = 0 := by simp [weighedSum_opposed]
  obtain ⟨hpos, hneg, hzero, _, _, hkeys, hperm⟩ := ofWeighed_reads_sum opposed hfinite
  obtain ⟨hsignedx, hlogx⟩ := hneg "x" (by rw [hx]; norm_num)
  obtain ⟨hsignedy, _⟩ := hpos "y" (by rw [hy]; norm_num)
  rw [hx, neg_neg] at hsignedx
  rw [hy] at hsignedy
  refine ⟨hfinite, hsignedx, hlogx, hsignedy, (hzero "z" hz).1, ?_, hperm _ (.swap ..)⟩
  exact (hkeys "z").mpr ⟨_, .head _, by simp [value_gains]⟩

end Opposed

end LogFeatureVector

end Categorial
