import Categorial.Features.LogVector
import Categorial.Proofs.Scalar.LogReal
import Categorial.Proofs.Sums

/-! # Values of feature vectors

In exact arithmetic a vector stands for a function from keys to real numbers, and a vector in log
space for the difference of two masses at each key. Adding vectors adds these functions, and what is
read from a vector in log space is the difference.
-/

namespace Categorial

namespace LogReal

/-- The number that a value is, zero for the least value. -/
def toReal (a : LogReal) : ℝ :=
  WithBot.recBotCoe 0 id a

@[simp]
theorem toReal_ofReal (x : ℝ) : (ofReal x).toReal = x := rfl

theorem zero_blt_ofReal {x : ℝ} : Scalar.blt Scalar.zero (ofReal x) = true ↔ 0 < x :=
  decide_eq_true_iff.trans ofReal_lt_ofReal

theorem ofReal_blt_zero {x : ℝ} : Scalar.blt (ofReal x) Scalar.zero = true ↔ x < 0 :=
  decide_eq_true_iff.trans ofReal_lt_ofReal

/-- A difference in log space is one of masses. -/
theorem exists_sub {a b : LogReal} (h : b ≤ a) :
    ∃ d, LogSpace.sub a b = .ok d ∧ d.mass = a.mass - b.mass := by
  have hble : Scalar.ble b a = true := decide_eq_true h
  unfold LogSpace.sub
  simp only [hble, Bool.not_true, Bool.false_eq_true, if_false]
  obtain rfl | ⟨y, rfl⟩ := bot_or_ofReal b
  · refine ⟨a, if_pos (decide_eq_true rfl), ?_⟩
    rw [mass_bot, sub_zero]
  · obtain rfl | ⟨x, rfl⟩ := bot_or_ofReal a
    · exact absurd h (WithBot.not_coe_le_bot y)
    · have hne : Scalar.beq (ofReal y) Scalar.negInf ≠ true := fun h =>
        WithBot.coe_ne_bot (of_decide_eq_true h)
      refine ⟨_, if_neg hne, ?_⟩
      have hle : y ≤ x := ofReal_le_ofReal.mp h
      have hnonneg : 0 ≤ -(Real.exp (y - x) - 1) := by
        have := Real.exp_le_one_iff.mpr (sub_nonpos.mpr hle)
        linarith
      rw [mass_plus]
      show Real.exp x * (ofMass (-(Real.exp (y - x) - 1))).mass = _
      rw [mass_ofMass hnonneg, Real.exp_sub, mass_ofReal, mass_ofReal]
      field_simp
      ring

end LogReal

open LogReal

namespace FeatureVector

variable {v w : FeatureVector LogReal} {key k : String} {x : ℝ}

def Finite (v : FeatureVector LogReal) : Prop :=
  ∀ key a, v.get? key = some a → ∃ x, a = ofReal x

noncomputable def value (v : FeatureVector LogReal) (key : String) : ℝ :=
  (v.get key).toReal

theorem value_empty (key : String) : (empty : FeatureVector LogReal).value key = 0 := rfl

theorem get?_eq_none {S : Type} {v : FeatureVector S} (h : key ∉ v.keys) : v.get? key = none := by
  unfold get?
  rw [Option.map_eq_none_iff, List.find?_eq_none]
  intro e he heq
  exact h (List.mem_map.mpr ⟨e, he, beq_iff_eq.mp heq⟩)

theorem mem_keys_iff {S : Type} {v : FeatureVector S} : key ∈ v.keys ↔ (v.get? key).isSome := by
  unfold keys get?
  simp [Option.isSome_map, List.find?_isSome]

theorem finite_empty : (empty : FeatureVector LogReal).Finite := nofun

theorem Finite.get_eq (hv : v.Finite) (key : String) : v.get key = ofReal (v.value key) := by
  unfold value get getD
  cases h : v.get? key with
  | none => rfl
  | some a =>
    obtain ⟨x, rfl⟩ := hv key a h
    rfl

theorem get_alter (v : FeatureVector LogReal) (k : String) (f : Option LogReal → LogReal)
    (key : String) :
    (v.alter k f).get key = if key = k then f (v.get? k) else v.get key := by
  unfold get getD
  rw [get?_alter]
  split_ifs
  · rfl
  · rfl

theorem value_add (hv : v.Finite) :
    (v.add k (ofReal x)).value key = v.value key + if key = k then x else 0 := by
  unfold value add
  rw [get_alter]
  split_ifs with hk
  · subst hk
    have hget := hv.get_eq key
    unfold get getD at hget
    rw [hget]
    rfl
  · rw [add_zero]

theorem Finite.add (hv : v.Finite) : (v.add k (ofReal x)).Finite := by
  intro key a ha
  unfold FeatureVector.add at ha
  rw [get?_alter] at ha
  split_ifs at ha with hk
  · have hget := hv.get_eq k
    unfold get getD at hget
    rw [hget] at ha
    exact ⟨_, (Option.some.inj ha).symm⟩
  · exact hv key a ha

theorem mem_entries_iff {S : Type} {v : FeatureVector S} {e : String × S} :
    e ∈ v.entries ↔ v.get? e.1 = some e.2 := by
  obtain ⟨entries, hsorted⟩ := v
  unfold get?
  simp only
  induction entries with
  | nil => simp
  | cons d entries ih =>
    rw [List.map_cons, List.pairwise_cons] at hsorted
    rw [List.mem_cons, ih hsorted.2, List.find?_cons]
    by_cases hkey : d.1 = e.1
    · have hnone : entries.find? (·.1 == e.1) = none := by
        refine List.find?_eq_none.mpr fun f hf heq => ?_
        have hlt := hsorted.1 f.1 (List.mem_map_of_mem hf)
        rw [hkey, beq_iff_eq.mp heq] at hlt
        exact String.lt_irrefl _ hlt
      simp [hkey, hnone, Prod.ext_iff, eq_comm]
    · have hne : e ≠ d := fun he => hkey (congrArg Prod.fst he).symm
      simp [beq_eq_false_iff_ne.mpr hkey, hne]

theorem ext_get? {S : Type} {v w : FeatureVector S} (h : ∀ key, v.get? key = w.get? key) :
    v = w := by
  have hsorted : ∀ v : FeatureVector S, v.entries.Pairwise fun d e => d.1 < e.1 := fun v =>
    List.pairwise_map.mp v.keys_sorted
  have hnodup : ∀ v : FeatureVector S, v.entries.Nodup := by
    refine fun v => (hsorted v).imp ?_
    rintro d _ hlt rfl
    exact String.lt_irrefl _ hlt
  have hperm : v.entries.Perm w.entries := by
    rw [List.perm_ext_iff_of_nodup (hnodup v) (hnodup w)]
    intro e
    rw [mem_entries_iff, mem_entries_iff, h]
  have hentries : v.entries = w.entries := by
    refine hperm.eq_of_pairwise (fun d e _ _ hlt hgt => ?_) (hsorted v) (hsorted w)
    exact absurd (String.lt_trans hlt hgt) (String.lt_irrefl _)
  cases v
  cases w
  congr

/-- Each key has one entry, so summing over the entries finds it. -/
theorem value_eq_sum (v : FeatureVector LogReal) (key : String) :
    v.value key = (v.entries.map fun e => if key = e.1 then e.2.toReal else 0).sum := by
  obtain ⟨entries, hsorted⟩ := v
  unfold value get getD get?
  simp only
  induction entries with
  | nil => rfl
  | cons d entries ih =>
    rw [List.map_cons, List.pairwise_cons] at hsorted
    rw [List.find?_cons, List.map_cons, List.sum_cons]
    by_cases hkey : d.1 = key
    · have hzero : ∀ e ∈ entries, (if key = e.1 then e.2.toReal else 0) = 0 := by
        intro e he
        have hlt := hsorted.1 e.1 (List.mem_map_of_mem he)
        rw [if_neg]
        rintro rfl
        exact String.lt_irrefl _ (hkey ▸ hlt)
      rw [List.map_congr_left hzero]
      simp [hkey]
    · have hne : key ≠ d.1 := fun he => hkey he.symm
      simpa [beq_eq_false_iff_ne.mpr hkey, hne] using ih hsorted.2

theorem value_ne_zero_iff :
    v.value key ≠ 0 ↔ ∃ e ∈ v.entries, key = e.1 ∧ e.2.toReal ≠ 0 := by
  constructor
  · intro h
    unfold value get getD at h
    cases hget : v.get? key with
    | none => simp [hget, Scalar.zero] at h
    | some a => exact ⟨(key, a), mem_entries_iff.mpr hget, rfl, by simpa [hget] using h⟩
  · rintro ⟨⟨_, a⟩, he, rfl, ha⟩
    have hget : v.get? key = some a := mem_entries_iff.mp he
    unfold value get getD
    rwa [hget]

theorem foldl_value {α : Type} {f : FeatureVector LogReal → α → FeatureVector LogReal}
    {w : α → String → ℝ} {xs : List α}
    (h : ∀ x ∈ xs, ∀ v : FeatureVector LogReal, v.Finite →
      (f v x).Finite ∧ ∀ key, (f v x).value key = v.value key + w x key) (hv : v.Finite) :
    (xs.foldl f v).Finite ∧
      ∀ key, (xs.foldl f v).value key = v.value key + (xs.map (w · key)).sum := by
  induction xs generalizing v with
  | nil => exact ⟨hv, fun key => by simp⟩
  | cons x xs ih =>
    obtain ⟨hone, hvalue⟩ := h x (.head _) v hv
    obtain ⟨hfinite, hrest⟩ := ih (fun y hy => h y (.tail _ hy)) hone
    refine ⟨hfinite, fun key => ?_⟩
    rw [List.foldl_cons, hrest, hvalue, List.map_cons, List.sum_cons, add_assoc]

theorem foldl_add {entries : List (String × LogReal)}
    (hentries : ∀ e ∈ entries, ∃ x, e.2 = ofReal x) (hv : v.Finite) :
    let sum := entries.foldl (fun v (k, a) => v.add k a) v
    sum.Finite ∧ ∀ key, sum.value key =
      v.value key + (entries.map fun e => if key = e.1 then e.2.toReal else 0).sum := by
  refine foldl_value (fun (k, a) he v hv => ?_) hv
  obtain ⟨x, rfl⟩ : ∃ x, a = ofReal x := hentries _ he
  exact ⟨hv.add, fun key => value_add hv⟩

theorem addTimes_one (hv : v.Finite) (hw : w.Finite) :
    (v.addTimes Scalar.one w).Finite ∧
      ∀ key, (v.addTimes Scalar.one w).value key = v.value key + w.value key := by
  have hone : ∀ e ∈ w.entries, Scalar.one * e.2 = e.2 := by
    intro e he
    obtain ⟨x, hx⟩ := hw e.1 e.2 (mem_entries_iff.mp he)
    rw [hx]
    exact congrArg ofReal (one_mul x)
  have hfold : v.addTimes Scalar.one w = w.entries.foldl (fun v (k, a) => v.add k a) v := by
    unfold addTimes
    refine List.foldl_ext _ _ _ fun v e he => ?_
    show v.add e.1 (Scalar.one * e.2) = v.add e.1 e.2
    rw [hone e he]
  rw [hfold]
  obtain ⟨hfinite, hvalue⟩ := foldl_add (fun e he => hw e.1 e.2 (mem_entries_iff.mp he)) hv
  exact ⟨hfinite, fun key => by rw [hvalue, ← value_eq_sum]⟩

theorem foldl_addTimes {α : Type} {f : α → FeatureVector LogReal} {xs : List α}
    (hf : ∀ x ∈ xs, (f x).Finite) (hv : v.Finite) :
    let sum := xs.foldl (fun v x => v.addTimes Scalar.one (f x)) v
    sum.Finite ∧ ∀ key, sum.value key = v.value key + (xs.map fun x => (f x).value key).sum :=
  foldl_value (fun x hx _ hv => addTimes_one hv (hf x hx)) hv

theorem get?_divideBy {S : Type} [Scalar S] (v : FeatureVector S) (divisor : S) (key : String) :
    (v.divideBy divisor).get? key = (v.get? key).map (· / divisor) := by
  simp only [get?, divideBy, List.find?_map, Option.map_map]
  rfl

theorem divideBy_ofReal (hv : v.Finite) (x : ℝ) : (v.divideBy (ofReal x)).Finite ∧
    ∀ key, (v.divideBy (ofReal x)).value key = v.value key / x := by
  constructor
  · intro key a ha
    rw [get?_divideBy] at ha
    obtain ⟨b, hb, rfl⟩ := Option.map_eq_some_iff.mp ha
    obtain ⟨y, rfl⟩ := hv key b hb
    exact ⟨y / x, rfl⟩
  · intro key
    unfold value get getD
    rw [get?_divideBy]
    cases h : v.get? key with
    | none => exact (zero_div x).symm
    | some a =>
      obtain ⟨y, rfl⟩ := hv key a h
      rfl

section Weighing

variable {f g : String → ℝ}

noncomputable def weighted (w : FeatureVector LogReal) (f : String → ℝ) : ℝ :=
  (w.entries.map fun e => e.2.toReal * f e.1).sum

theorem weighted_add : w.weighted (fun key => f key + g key) = w.weighted f + w.weighted g := by
  simp only [weighted, mul_add, List.sum_map_add]

theorem weighted_mul (a : ℝ) : w.weighted (fun key => a * f key) = a * w.weighted f := by
  simp only [weighted, mul_left_comm _ a, List.sum_map_mul_left]

theorem weighted_sum {α : Type} (f : α → String → ℝ) (xs : List α) :
    w.weighted (fun key => (xs.map (f · key)).sum) = (xs.map fun x => w.weighted (f x)).sum := by
  induction xs with
  | nil => simp [weighted]
  | cons x xs ih => simp only [List.map_cons, List.sum_cons, weighted_add, ih]

theorem weighted_single (k : String) (x : ℝ) :
    w.weighted (fun key => if key = k then x else 0) = x * w.value k := by
  rw [value_eq_sum, weighted, ← List.sum_map_mul_left]
  refine congrArg List.sum (List.map_congr_left fun e _ => ?_)
  by_cases hk : e.1 = k
  · simp [hk, mul_comm]
  · simp [hk, Ne.symm hk]

/-- A product of vectors of numbers is linear in the values of the one on the left. -/
theorem dot_eq (hv : v.Finite) (hw : w.Finite) : v.dot w = ofReal (w.weighted v.value) := by
  have hentries : ∀ e ∈ v.entries, e.2 * w.get e.1 = ofReal (e.2.toReal * w.value e.1) := by
    intro e he
    obtain ⟨x, hx⟩ := hv e.1 e.2 (mem_entries_iff.mp he)
    rw [hx, hw.get_eq]
    rfl
  have hvalue : v.value = fun key =>
      (v.entries.map fun e => if key = e.1 then e.2.toReal else 0).sum :=
    funext v.value_eq_sum
  have hdot : v.dot w =
      Scalar.sum ((v.entries.map fun e => e.2.toReal * w.value e.1).map ofReal) := by
    rw [List.map_map]
    exact congrArg Scalar.sum (List.map_congr_left hentries)
  rw [hdot, sum_ofReal, hvalue, weighted_sum]
  simp only [weighted_single]

end Weighing

end FeatureVector

def Sign.factor : Sign → ℝ
  | positive => 1
  | negative => -1

namespace LogFeatureVector

variable {v : LogFeatureVector LogReal} {key k : String} {weight : LogReal}

/-- The mass above zero at a key less the mass below. -/
noncomputable def value (v : LogFeatureVector LogReal) (key : String) : ℝ :=
  (v.positive.getD key ⊥).mass - (v.negative.getD key ⊥).mass

theorem value_empty (key : String) : (empty : LogFeatureVector LogReal).value key = 0 :=
  sub_self _

theorem mass_accumulate (side : FeatureVector LogReal) (k : String) (m : LogReal) (key : String) :
    ((accumulate side k m).getD key ⊥).mass =
      (side.getD key ⊥).mass + if key = k then m.mass else 0 := by
  unfold accumulate FeatureVector.set FeatureVector.getD
  rw [FeatureVector.get?_alter]
  split_ifs with hk
  · subst hk
    exact mass_add _ _
  · rw [add_zero]

theorem value_addOne (x : ℝ) :
    (v.addOne weight k (ofReal x)).value key =
      v.value key + if key = k then weight.mass * x else 0 := by
  have hmass : (weight + Scalar.log (Scalar.abs (ofReal x))).mass = weight.mass * |x| := by
    rw [mass_plus]
    exact congrArg _ (mass_ofMass (abs_nonneg x))
  unfold addOne value
  simp only [zero_blt_ofReal, ofReal_blt_zero]
  rcases lt_trichotomy x 0 with h | rfl | h
  · rw [if_neg h.not_gt, if_pos h]
    simp only [mass_accumulate, hmass, abs_of_neg h]
    split_ifs <;> ring
  · simp
  · rw [if_pos h]
    simp only [mass_accumulate, hmass, abs_of_pos h]
    split_ifs <;> ring

theorem addScaled_eq_foldl {features : FeatureVector LogReal} (h : features.Finite) :
    v.addScaled weight features =
      features.entries.foldl (fun v e => v.addOne weight e.1 (ofReal e.2.toReal)) v := by
  refine List.foldl_ext _ _ v fun v e he => ?_
  obtain ⟨x, hx⟩ := h e.1 e.2 (FeatureVector.mem_entries_iff.mp he)
  rw [hx, toReal_ofReal, ← hx]

theorem value_addScaled {features : FeatureVector LogReal} (h : features.Finite) :
    (v.addScaled weight features).value key = v.value key + weight.mass * features.value key := by
  rw [addScaled_eq_foldl h, FeatureVector.value_eq_sum]
  generalize features.entries = entries
  induction entries generalizing v with
  | nil => simp
  | cons e entries ih =>
    rw [List.foldl_cons, ih, value_addOne, List.map_cons, List.sum_cons]
    split_ifs <;> ring

theorem signed_eq (v : LogFeatureVector LogReal) (key : String) :
    v.signed key = .ok (if v.value key < 0 then (.negative, ofMass (-v.value key))
      else (.positive, ofMass (v.value key))) := by
  by_cases h : v.negative.getD key ⊥ ≤ v.positive.getD key ⊥
  · obtain ⟨d, hd, hmass⟩ := exists_sub h
    have hnonneg : ¬v.value key < 0 := not_lt.mpr (sub_nonneg.mpr (mass_le_mass.mpr h))
    rw [if_neg hnonneg, value, ← eq_ofMass hmass]
    exact (if_pos (decide_eq_true h)).trans (congrArg (Except.map _) hd)
  · obtain ⟨d, hd, hmass⟩ := exists_sub (not_le.mp h).le
    have hnegative : v.value key < 0 :=
      sub_neg.mpr (not_le.mp fun hle => h (mass_le_mass.mp hle))
    rw [if_pos hnegative, value, neg_sub, ← eq_ofMass hmass]
    refine (if_neg fun hle => h ?_).trans (congrArg (Except.map _) hd)
    exact of_decide_eq_true hle

theorem exists_signed (v : LogFeatureVector LogReal) (key : String) :
    ∃ sign magnitude, v.signed key = .ok (sign, magnitude) ∧
      sign.factor * magnitude.mass = v.value key := by
  rw [signed_eq]
  split_ifs with h
  · refine ⟨_, _, rfl, ?_⟩
    rw [mass_ofMass (neg_nonneg.mpr h.le), Sign.factor, neg_one_mul, neg_neg]
  · refine ⟨_, _, rfl, ?_⟩
    rw [mass_ofMass (not_lt.mp h), Sign.factor, one_mul]

theorem mem_insertKey_iff {a b : String} {bs : List String} :
    b ∈ mergeKeys.insertKey a bs ↔ b = a ∨ b ∈ bs := by
  fun_induction mergeKeys.insertKey a bs <;> grind

theorem insertKey_sorted {a : String} {bs : List String} (h : bs.Pairwise (· < ·)) :
    (mergeKeys.insertKey a bs).Pairwise (· < ·) := by
  fun_induction mergeKeys.insertKey a bs with
  | case1 => simp
  | case2 => exact h
  | case3 b bs _ hlt =>
    refine .cons (fun c hc => ?_) h
    rcases List.mem_cons.mp hc with rfl | hc
    · exact hlt
    · exact String.lt_trans hlt (List.rel_of_pairwise_cons h hc)
  | case4 b bs hne hlt ih =>
    refine .cons (fun c hc => ?_) (ih h.of_cons)
    rcases mem_insertKey_iff.mp hc with rfl | hc
    · exact Decidable.byContradiction fun hge =>
        hne (String.le_antisymm (String.not_lt.mp hge) (String.not_lt.mp hlt))
    · exact List.rel_of_pairwise_cons h hc

theorem mem_mergeKeys_iff {as bs : List String} {key : String} :
    key ∈ mergeKeys as bs ↔ key ∈ as ∨ key ∈ bs := by
  induction as with
  | nil => simp [mergeKeys]
  | cons a as ih => simp [mergeKeys, mem_insertKey_iff, ih, or_assoc]

theorem mergeKeys_sorted {as bs : List String} (h : bs.Pairwise (· < ·)) :
    (mergeKeys as bs).Pairwise (· < ·) := by
  induction as with
  | nil => exact h
  | cons a as ih => exact insertKey_sorted ih

theorem nodup_keys (v : LogFeatureVector LogReal) : v.keys.Nodup := by
  refine List.Pairwise.imp ?_ (mergeKeys_sorted v.negative.keys_sorted)
  rintro a _ hlt rfl
  exact String.lt_irrefl a hlt

theorem value_eq_zero_of_notMem (h : key ∉ v.keys) : v.value key = 0 := by
  rw [keys, mem_mergeKeys_iff, not_or] at h
  rw [value, FeatureVector.getD, FeatureVector.getD, FeatureVector.get?_eq_none h.1,
    FeatureVector.get?_eq_none h.2]
  exact sub_self _

theorem get_expNormalized (v : LogFeatureVector LogReal) (norm : ℝ) (key : String) :
    (v.expNormalized (ofReal norm)).get key = ofReal (v.value key / Real.exp norm) := by
  have hentry : ∀ k, Scalar.exp (v.positive.getD k ⊥ - ofReal norm) -
      Scalar.exp (v.negative.getD k ⊥ - ofReal norm) = ofReal (v.value k / Real.exp norm) := by
    intro k
    rw [exp_minus, exp_minus, value, sub_div]
    rfl
  have hlist : v.expNormalized (ofReal norm) =
      .ofList (v.keys.map fun k => (k, ofReal (v.value k / Real.exp norm))) := by
    refine congrArg FeatureVector.ofList (List.map_congr_left fun k _ => ?_)
    exact congrArg (k, ·) (hentry k)
  have hnumbers : ∀ e ∈ v.keys.map fun k => (k, ofReal (v.value k / Real.exp norm)),
      ∃ x, e.2 = ofReal x := by
    intro e he
    obtain ⟨k, _, rfl⟩ := List.mem_map.mp he
    exact ⟨_, rfl⟩
  obtain ⟨hfinite, hvalue⟩ := FeatureVector.foldl_add hnumbers FeatureVector.finite_empty
  rw [hlist, FeatureVector.ofList, hfinite.get_eq, hvalue, FeatureVector.value_empty, zero_add,
    List.map_map]
  refine congrArg ofReal ?_
  refine (sum_map_single v.nodup_keys (fun k _ hk => if_neg hk.symm) fun hmem => ?_).trans
    (if_pos rfl)
  have hzero : v.value key / Real.exp norm = 0 := by rw [value_eq_zero_of_notMem hmem, zero_div]
  exact (if_pos rfl).trans hzero

/-- What is read from a vector at a key is this number, by its value and by its sign and
magnitude. -/
def Reads (v : LogFeatureVector LogReal) (key : String) (x : ℝ) : Prop :=
  (v.expNormalized Scalar.zero).get key = ofReal x ∧
    ∃ sign magnitude, v.signed key = .ok (sign, magnitude) ∧ sign.factor * magnitude.mass = x

theorem reads_value (v : LogFeatureVector LogReal) (key : String) : v.Reads key (v.value key) := by
  refine ⟨?_, v.exists_signed key⟩
  have hget := v.get_expNormalized 0 key
  rwa [Real.exp_zero, div_one] at hget

end LogFeatureVector

end Categorial
