import WebSpider.Floats.Rounding

/-!
# Arithmetic of floating-point numbers

Comparison, `min` and `max`, and the four operations, each with its exact result rounded
once. A division by zero has no result. No comparison with NaN holds, so `min` and `max`
depend on the order of their arguments. Of the operations only the signs of the results are
used: with a positive finite factor or divisor no sign is lost and no NaN appears.
-/

namespace WebSpider.Floats

namespace Double

/-! ## Comparison -/

def ble : Double → Double → Bool
  | nan, _ => false
  | _, nan => false
  | finite x, finite y => decide (x ≤ y)
  | negInf, _ => true
  | _, inf => true
  | _, _ => false

instance : LE Double := ⟨fun x y => x.ble y = true⟩

instance (x y : Double) : Decidable (x ≤ y) := inferInstanceAs (Decidable (x.ble y = true))

instance : Zero Double := ⟨finite 0⟩

/-- `x < y` -/
def Less (x y : Double) : Prop := x ≤ y ∧ ¬ y ≤ x

instance (x y : Double) : Decidable (x.Less y) := inferInstanceAs (Decidable (_ ∧ _))

/-- `min(x, y)`: the first, unless the second is less. -/
def least (x y : Double) : Double := if y.Less x then y else x

/-- `max(x, y)` -/
def greatest (x y : Double) : Double := if x.Less y then y else x

@[simp] theorem finite_le {x y : ℚ} : finite x ≤ finite y ↔ x ≤ y := decide_eq_true_iff

theorem zero_le_finite {x : ℚ} : 0 ≤ finite x ↔ 0 ≤ x := finite_le

theorem zero_le_inf : 0 ≤ inf := rfl

theorem nonneg_cases {x : Double} (h : 0 ≤ x) : x = inf ∨ ∃ q, x = finite q ∧ 0 ≤ q := by
  cases x with
  | finite q => exact Or.inr ⟨q, rfl, zero_le_finite.mp h⟩
  | inf => exact Or.inl rfl
  | negInf => cases h
  | nan => cases h

theorem nonpos_cases {x : Double} (h : x ≤ 0) : x = negInf ∨ ∃ q, x = finite q ∧ q ≤ 0 := by
  cases x with
  | finite q => exact Or.inr ⟨q, rfl, finite_le.mp h⟩
  | inf => cases h
  | negInf => exact Or.inl rfl
  | nan => cases h

/-- Numbers other than NaN can be compared. -/
theorem comparable {x y : Double} (hx : x ≠ nan) (hy : y ≠ nan) : x ≤ y ∨ y ≤ x := by
  cases x with
  | nan => exact absurd rfl hx
  | negInf =>
    cases y with
    | nan => exact absurd rfl hy
    | _ => exact Or.inl rfl
  | inf =>
    cases y with
    | nan => exact absurd rfl hy
    | _ => exact Or.inr rfl
  | finite x =>
    cases y with
    | nan => exact absurd rfl hy
    | negInf => exact Or.inr rfl
    | inf => exact Or.inl rfl
    | finite y => exact (le_total x y).imp finite_le.mpr finite_le.mpr

theorem nonneg_of_not_nonpos {x : Double} (hx : x ≠ nan) (h : ¬ x ≤ 0) : 0 ≤ x :=
  (comparable hx (by rintro ⟨⟩)).resolve_left h

theorem le_greatest (q : ℚ) (x : Double) : finite q ≤ (finite q).greatest x := by
  unfold greatest
  split_ifs with h
  · exact h.1
  · exact finite_le.mpr le_rfl

theorem zero_le_least {x y : Double} (hx : 0 ≤ x) (hy : 0 ≤ y) : 0 ≤ x.least y := by
  unfold least
  split_ifs
  · exact hy
  · exact hx

/-! ## Operations -/

/-- An infinity with a sign, and NaN where there is none. -/
def infinite : SignType → Double
  | .pos => inf
  | .neg => negInf
  | .zero => nan

def sign : Double → SignType
  | finite x => SignType.sign x
  | inf => .pos
  | negInf => .neg
  | nan => .zero

def neg : Double → Double
  | finite x => finite (-x)
  | inf => negInf
  | negInf => inf
  | nan => nan

theorem zero_le_neg {x : Double} (h : x ≤ 0) : 0 ≤ x.neg := by
  rcases nonpos_cases h with rfl | ⟨q, rfl, hq⟩
  · rfl
  · exact zero_le_finite.mpr (by linarith)

end Double

namespace Format

open Double

variable (f : Format)

def add : Double → Double → Double
  | finite x, finite y => f.round (x + y)
  | nan, _ => nan
  | _, nan => nan
  | inf, negInf => nan
  | negInf, inf => nan
  | inf, _ => inf
  | _, inf => inf
  | negInf, _ => negInf
  | _, negInf => negInf

def sub (x y : Double) : Double := f.add x y.neg

def mul : Double → Double → Double
  | finite x, finite y => f.round (x * y)
  | nan, _ => nan
  | _, nan => nan
  | x, y => infinite (x.sign * y.sign)

/-- A quotient whose divisor is not zero. -/
def quotient : Double → Double → Double
  | finite x, finite y => f.round (x / y)
  | nan, _ => nan
  | _, nan => nan
  | finite _, _ => 0
  | x, finite y => infinite (x.sign * SignType.sign y)
  | _, _ => nan

/-- No value is a `ZeroDivisionError`. -/
def div (x y : Double) : Option Double := if y = 0 then none else some (f.quotient x y)

variable {f}

/-! ## Signs -/

theorem round_nonneg {x : ℚ} (h : 0 ≤ x) : 0 ≤ f.round x := by
  have hrounded := rounded_nonneg (f := f) h
  have htop := two_zpow_pos f.top
  unfold round
  split_ifs with habove hbelow
  · exact zero_le_inf
  · linarith
  · exact zero_le_finite.mpr hrounded

theorem zero_le_add {x y : Double} (hx : 0 ≤ x) (hy : 0 ≤ y) : 0 ≤ f.add x y := by
  rcases nonneg_cases hx with rfl | ⟨p, rfl, hp⟩
  · rcases nonneg_cases hy with rfl | ⟨q, rfl, -⟩
    · rfl
    · rfl
  · rcases nonneg_cases hy with rfl | ⟨q, rfl, hq⟩
    · rfl
    · exact round_nonneg (add_nonneg hp hq)

theorem zero_le_mul {x : Double} {r : ℚ} (hx : 0 ≤ x) (hr : 0 < r) : 0 ≤ f.mul x (finite r) := by
  rcases nonneg_cases hx with rfl | ⟨q, rfl, hq⟩
  · have hsign : SignType.sign r = 1 := sign_pos hr
    change 0 ≤ infinite (SignType.pos * SignType.sign r)
    rw [hsign]
    rfl
  · exact round_nonneg (mul_nonneg hq hr.le)

theorem zero_le_div {x : Double} {r : ℚ} (hx : 0 ≤ x) (hr : 0 < r) :
    ∃ w, f.div x (finite r) = some w ∧ 0 ≤ w := by
  have hne : finite r ≠ 0 := fun h => hr.ne' (finite.inj h)
  rw [div, if_neg hne]
  refine ⟨_, rfl, ?_⟩
  rcases nonneg_cases hx with rfl | ⟨q, rfl, hq⟩
  · have hsign : SignType.sign r = 1 := sign_pos hr
    change 0 ≤ infinite (SignType.pos * SignType.sign r)
    rw [hsign]
    rfl
  · exact round_nonneg (div_nonneg hq hr.le)

theorem zero_le_sub {x : Double} {q : ℚ} (h : finite q ≤ x) : 0 ≤ f.sub x (finite q) := by
  cases x with
  | finite p => exact round_nonneg (by linarith [finite_le.mp h])
  | inf => rfl
  | negInf => cases h
  | nan => cases h

/-- Zero times infinity is NaN. -/
theorem mul_inf {x : Double} (hx : 0 ≤ x) : f.mul x inf = nan ∨ f.mul x inf = inf := by
  rcases nonneg_cases hx with rfl | ⟨q, rfl, hq⟩
  · exact Or.inr rfl
  · rcases hq.eq_or_lt with rfl | hpos
    · apply Or.inl
      change infinite (SignType.sign 0 * SignType.pos) = nan
      rw [sign_zero]
      rfl
    · apply Or.inr
      change infinite (SignType.sign q * SignType.pos) = inf
      rw [sign_pos hpos]
      rfl

theorem round_ne_nan (x : ℚ) : f.round x ≠ nan := by
  unfold round
  split_ifs
  · simp
  · simp
  · simp

theorem add_ne_nan {x : Double} (q : ℚ) (hx : x ≠ nan) : f.add x (finite q) ≠ nan := by
  cases x with
  | finite p => exact round_ne_nan (p + q)
  | inf => simp [add]
  | negInf => simp [add]
  | nan => exact absurd rfl hx

/-- No finite number is as large as the top of the format. -/
theorem abs_lt_of_round {x y : ℚ} (h : f.round x = finite y) : |y| < 2 ^ f.top := by
  unfold round at h
  split_ifs at h with habove hbelow
  obtain rfl := finite.inj h
  exact abs_lt.mpr ⟨not_le.mp hbelow, not_le.mp habove⟩

/-- A negative number that is not too small stays negative. -/
theorem round_neg {x : ℚ} (h : x < -2 ^ (f.least - 1)) : ¬ 0 ≤ f.round x := by
  have hrounded := (rounded_neg_iff (f := f) x).mpr h
  have htop := two_zpow_pos f.top
  unfold round
  split_ifs with habove hbelow
  · linarith
  · rintro ⟨⟩
  · rw [zero_le_finite]
    exact not_le.mpr hrounded

/-- A whole number that the format has. -/
theorem round_intCast {m : ℤ} (he : f.exponent m ≤ 0) (hlt : |(m : ℚ)| < 2 ^ f.top) :
    f.round m = finite m := by
  have hself : f.rounded m = m := rounded_eq_self he m (by rw [zpow_zero, mul_one])
  obtain ⟨hlow, hhigh⟩ := abs_lt.mp hlt
  rw [round, hself, if_neg (not_le.mpr hhigh), if_neg (not_le.mpr hlow)]

end Format

/-! ## Double precision -/

theorem binary64_least_le : (-1074 : ℤ) ≤ 1024 - (53 : Nat) := by decide

def binary64 : Format := ⟨53, -1074, 1024, Nat.succ_pos 52, binary64_least_le⟩

theorem binary64_round_zero : binary64.round 0 = 0 := by
  have h := Format.round_intCast (f := binary64) (m := 0) (by simp [Format.exponent, binary64])
    (by simpa using Format.two_zpow_pos _)
  exact_mod_cast h

theorem binary64_sub_self (q : ℚ) : binary64.sub (.finite q) (.finite q) = 0 := by
  change binary64.round (q + -q) = 0
  rw [add_neg_cancel, binary64_round_zero]

theorem binary64_zero_mul (q : ℚ) : binary64.mul 0 (.finite q) = 0 := by
  change binary64.round (0 * q) = 0
  rw [zero_mul, binary64_round_zero]

/-- One and minus one are numbers of the format. -/
theorem binary64_round_unit {m : ℤ} (hm : |m| = 1) : binary64.round m = .finite m := by
  have habs : |(m : ℚ)| = 1 := by exact_mod_cast hm
  refine Format.round_intCast ?_ ?_
  · rw [Format.exponent, habs]
    simp [binary64]
  · rw [habs]
    exact one_lt_zpow₀ one_lt_two (by decide)

theorem binary64_round_one : binary64.round 1 = .finite 1 := by
  exact_mod_cast binary64_round_unit (m := 1) rfl

theorem binary64_round_neg_one : binary64.round (-1) = .finite (-1) := by
  exact_mod_cast binary64_round_unit (m := -1) rfl

end WebSpider.Floats
