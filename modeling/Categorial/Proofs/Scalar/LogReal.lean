import Mathlib.Analysis.SpecialFunctions.Log.Basic
import Categorial.Proofs.Scalar.Ordered

/-! # Exact arithmetic

The real numbers with a least value. A value stands for the mass whose logarithm it is, so adding in
log space adds masses, and no sum drops when a mass is added.
-/

namespace Categorial

/-- A real number, or the logarithm of no mass. -/
def LogReal : Type :=
  WithBot ℝ

namespace LogReal

noncomputable section

instance : LinearOrder LogReal :=
  inferInstanceAs (LinearOrder (WithBot ℝ))

instance : OrderBot LogReal :=
  inferInstanceAs (OrderBot (WithBot ℝ))

def ofReal (x : ℝ) : LogReal :=
  WithBot.some x

theorem bot_or_ofReal (a : LogReal) : a = ⊥ ∨ ∃ x, a = ofReal x :=
  @WithBot.recBotCoe ℝ (fun a => a = ⊥ ∨ ∃ x, a = WithBot.some x) (.inl rfl)
    (fun x => .inr ⟨x, rfl⟩) a

/-- The mass that a value is the logarithm of. -/
def mass (a : LogReal) : ℝ :=
  WithBot.recBotCoe 0 Real.exp a

def ofMass (x : ℝ) : LogReal :=
  if 0 < x then ofReal (Real.log x) else ⊥

instance : Scalar LogReal where
  add := WithBot.map₂ (· + ·)
  sub := WithBot.map₂ (· - ·)
  mul := WithBot.map₂ (· * ·)
  div := WithBot.map₂ (· / ·)
  neg := WithBot.map (- ·)
  zero := ofReal 0
  one := ofReal 1
  negZero := ofReal 0
  negInf := ⊥
  ofNat n := ofReal n
  abs := WithBot.map abs
  exp a := ofReal a.mass
  log := WithBot.recBotCoe ⊥ ofMass
  expm1 a := ofReal (a.mass - 1)
  log1p := WithBot.recBotCoe ⊥ fun x => ofMass (1 + x)
  isInfinite a := decide (a = ⊥)
  beq a b := decide (a = b)
  blt a b := decide (a < b)
  ble a b := decide (a ≤ b)
  cmp a b := compare a b

instance : OrderedScalar LogReal where
  beq_iff _ _ := decide_eq_true_iff
  blt_iff _ _ := decide_eq_true_iff
  cmp_eq _ _ := rfl

theorem negInf_le (a : LogReal) : Scalar.negInf ≤ a :=
  bot_le

@[simp]
theorem mass_bot : mass ⊥ = 0 := rfl

@[simp]
theorem mass_ofReal (x : ℝ) : (ofReal x).mass = Real.exp x := rfl

theorem mass_nonneg (a : LogReal) : 0 ≤ a.mass := by
  obtain rfl | ⟨x, rfl⟩ := bot_or_ofReal a
  · exact le_rfl
  · exact (Real.exp_pos x).le

theorem ofReal_le_ofReal {x y : ℝ} : ofReal x ≤ ofReal y ↔ x ≤ y :=
  WithBot.coe_le_coe

theorem ofReal_lt_ofReal {x y : ℝ} : ofReal x < ofReal y ↔ x < y :=
  WithBot.coe_lt_coe

theorem mass_le_mass {a b : LogReal} : a.mass ≤ b.mass ↔ a ≤ b := by
  obtain rfl | ⟨x, rfl⟩ := bot_or_ofReal a
  · exact iff_of_true (mass_nonneg b) bot_le
  · obtain rfl | ⟨y, rfl⟩ := bot_or_ofReal b
    · refine iff_of_false (not_le.mpr (Real.exp_pos x)) fun h => ?_
      exact WithBot.not_coe_le_bot x h
    · rw [mass_ofReal, mass_ofReal, Real.exp_le_exp, ofReal_le_ofReal]

theorem mass_injective : Function.Injective mass := fun _ _ h =>
  le_antisymm (mass_le_mass.mp h.le) (mass_le_mass.mp h.ge)

theorem mass_pos_iff {a : LogReal} : 0 < a.mass ↔ a ≠ ⊥ := by
  obtain rfl | ⟨x, rfl⟩ := bot_or_ofReal a
  · simp
  · exact iff_of_true (Real.exp_pos x) WithBot.coe_ne_bot

@[simp]
theorem mass_zero : (Scalar.zero : LogReal).mass = 1 :=
  Real.exp_zero

@[simp]
theorem mass_plus (a b : LogReal) : (a + b).mass = a.mass * b.mass := by
  obtain rfl | ⟨x, rfl⟩ := bot_or_ofReal a
  · exact (zero_mul _).symm
  · obtain rfl | ⟨y, rfl⟩ := bot_or_ofReal b
    · exact (mul_zero _).symm
    · exact Real.exp_add x y

theorem plus_zero (a : LogReal) : a + Scalar.zero = a :=
  mass_injective (by rw [mass_plus, mass_zero, mul_one])

theorem mass_ofMass {x : ℝ} (h : 0 ≤ x) : (ofMass x).mass = x := by
  unfold ofMass
  split_ifs with hpos
  · exact Real.exp_log hpos
  · exact (le_antisymm (not_lt.mp hpos) h).symm

theorem eq_ofMass {a : LogReal} {x : ℝ} (h : a.mass = x) : a = ofMass x :=
  mass_injective (by rw [h, mass_ofMass (h ▸ mass_nonneg a)])

theorem plus_le_plus {a b c d : LogReal} (hab : a ≤ b) (hcd : c ≤ d) : a + c ≤ b + d := by
  rw [← mass_le_mass, mass_plus, mass_plus]
  exact mul_le_mul (mass_le_mass.mpr hab) (mass_le_mass.mpr hcd) (mass_nonneg c) (mass_nonneg b)

/-- Adding the smaller mass to the greater through their ratio. -/
theorem mass_shift (x y : ℝ) :
    (ofReal x + Scalar.log1p (Scalar.exp (ofReal y - ofReal x))).mass =
      Real.exp x + Real.exp y := by
  have hpos : 0 < 1 + Real.exp (y - x) := by positivity
  have hlog : Scalar.log1p (Scalar.exp (ofReal y - ofReal x)) =
      ofReal (Real.log (1 + Real.exp (y - x))) := if_pos hpos
  rw [hlog]
  show Real.exp (x + Real.log (1 + Real.exp (y - x))) = _
  rw [Real.exp_add, Real.exp_log hpos, Real.exp_sub, mul_add, mul_one,
    mul_div_cancel₀ _ (Real.exp_pos x).ne']

/-- Adding in log space adds masses. -/
theorem mass_add (a b : LogReal) : (LogSpace.add a b).mass = a.mass + b.mass := by
  unfold LogSpace.add
  simp only [Scalar.beq, Scalar.ble, Scalar.negInf, decide_eq_true_eq]
  obtain rfl | ⟨x, rfl⟩ := bot_or_ofReal a
  · simp
  · obtain rfl | ⟨y, rfl⟩ := bot_or_ofReal b
    · have hne : ofReal x ≠ ⊥ := WithBot.coe_ne_bot
      simp [hne]
    · have hx : ofReal x ≠ ⊥ := WithBot.coe_ne_bot
      have hy : ofReal y ≠ ⊥ := WithBot.coe_ne_bot
      rw [if_neg hx, if_neg hy]
      split_ifs
      · rw [mass_shift, mass_ofReal, mass_ofReal]
      · rw [mass_shift, mass_ofReal, mass_ofReal, add_comm]

theorem mass_foldl_add (a : LogReal) (xs : List LogReal) :
    (xs.foldl LogSpace.add a).mass = a.mass + (xs.map mass).sum := by
  induction xs generalizing a with
  | nil => simp
  | cons x xs ih => rw [List.foldl_cons, ih, mass_add, List.map_cons, List.sum_cons, add_assoc]

theorem mass_sumSorted (xs : List LogReal) :
    (LogSpace.sumSorted xs).mass = (xs.map mass).sum := by
  rw [LogSpace.sumSorted, mass_foldl_add]
  show 0 + _ = _
  rw [zero_add]
  exact ((List.mergeSort_perm xs _).map mass).sum_eq

theorem max_eq (a b : LogReal) : Scalar.max a b = max a b := by
  unfold Scalar.max
  simp only [Scalar.blt, Scalar.beq, decide_true, Bool.not_true, Bool.or_false, decide_eq_true_eq]
  split_ifs with h
  · exact (max_eq_right h.le).symm
  · exact (max_eq_left (not_lt.mp h)).symm

theorem foldl_plus (a : LogReal) (xs : List ℝ) :
    (xs.map ofReal).foldl (· + ·) a = a + ofReal xs.sum := by
  induction xs generalizing a with
  | nil =>
    refine mass_injective ?_
    simp
  | cons x xs ih =>
    refine mass_injective ?_
    simp only [List.map_cons, List.foldl_cons, ih, mass_plus, mass_ofReal, List.sum_cons,
      Real.exp_add]
    ring

theorem mass_sumPlain (xs : List LogReal) : (Scalar.sum xs).mass = (xs.map mass).prod := by
  have hfold : ∀ a : LogReal, (xs.foldl (· + ·) a).mass = a.mass * (xs.map mass).prod := by
    induction xs with
    | nil => simp
    | cons x xs ih => simp [ih, mul_assoc]
  rw [Scalar.sum, hfold]
  exact (congrArg (· * _) Real.exp_zero).trans (one_mul _)

theorem sum_ofReal (xs : List ℝ) : Scalar.sum (xs.map ofReal) = ofReal xs.sum := by
  refine mass_injective ?_
  rw [Scalar.sum, foldl_plus, mass_plus]
  exact (congrArg (· * _) Real.exp_zero).trans (one_mul _)

theorem exp_minus (a : LogReal) (x : ℝ) :
    Scalar.exp (a - ofReal x) = ofReal (a.mass / Real.exp x) := by
  obtain rfl | ⟨y, rfl⟩ := bot_or_ofReal a
  · exact congrArg ofReal (zero_div _).symm
  · exact congrArg ofReal (Real.exp_sub y x)

theorem le_foldl_max (a : LogReal) (xs : List LogReal) :
    a ≤ xs.foldl Scalar.max a ∧ ∀ x ∈ xs, x ≤ xs.foldl Scalar.max a := by
  induction xs generalizing a with
  | nil => simp
  | cons x xs ih =>
    obtain ⟨hle, hall⟩ := ih (Scalar.max a x)
    have hle : max a x ≤ (x :: xs).foldl Scalar.max a := (max_eq a x).symm.trans_le hle
    refine ⟨(le_max_left a x).trans hle, fun y hy => ?_⟩
    rcases List.mem_cons.mp hy with rfl | hy
    · exact (le_max_right a y).trans hle
    · exact hall y hy

theorem mass_sum (xs : List LogReal) : (LogSpace.sum xs).mass = (xs.map mass).sum := by
  unfold LogSpace.sum
  obtain ⟨_, htop⟩ := le_foldl_max Scalar.negInf xs
  generalize xs.foldl Scalar.max Scalar.negInf = top at htop ⊢
  obtain rfl | ⟨t, rfl⟩ := bot_or_ofReal top
  · -- there is no mass at all
    have hnone : ∀ x ∈ xs, x.mass = 0 := fun x hx => by
      rw [le_bot_iff.mp (htop x hx), mass_bot]
    rw [List.map_congr_left hnone]
    simp [Scalar.isInfinite]
  · have hne : ofReal t ≠ ⊥ := WithBot.coe_ne_bot
    have hmap : (xs.map fun x => Scalar.exp (x - ofReal t)) =
        (xs.map fun x => x.mass / Real.exp t).map ofReal := by
      rw [List.map_map]
      exact List.map_congr_left fun x _ => exp_minus x t
    have hsum : (xs.map fun x => x.mass / Real.exp t).sum = (xs.map mass).sum / Real.exp t := by
      simp only [div_eq_mul_inv]
      exact List.sum_map_mul_right ..
    have hnonneg : 0 ≤ (xs.map mass).sum / Real.exp t := by
      refine div_nonneg (List.sum_nonneg fun m hm => ?_) (Real.exp_pos t).le
      obtain ⟨x, _, rfl⟩ := List.mem_map.mp hm
      exact mass_nonneg x
    simp only [Scalar.isInfinite, hne, decide_false, Bool.false_eq_true, if_false]
    rw [hmap, sum_ofReal, hsum, mass_plus]
    show Real.exp t * (ofMass _).mass = _
    rw [mass_ofMass hnonneg, mul_div_cancel₀ _ (Real.exp_pos t).ne']

instance : ExactScalar LogReal where
  sumSorted_le_cons x xs := by
    rw [← mass_le_mass, mass_sumSorted, mass_sumSorted, List.map_cons, List.sum_cons]
    exact le_add_of_nonneg_left (mass_nonneg x)

end

end LogReal

end Categorial
