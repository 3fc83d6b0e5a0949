import WebSpider.Floats.Arithmetic

/-!
# Rounding keeps the order

Rounding is monotone across the exponents (`rounded_mono`), and its relative error is at most
half a unit in the last place (`abs_rounded_sub_le`). So quotients of whole numbers that are
not too large compare in floating point as they are (`rounded_div_lt_iff`).
-/

namespace WebSpider.Floats

theorem nearestEven_mono {p q : ℚ} (h : p ≤ q) : nearestEven p ≤ nearestEven q := by
  by_contra hlt
  have hlow := (nearestEven_spec q).1
  have hhigh := (nearestEven_spec p).2.1
  have hstep : (nearestEven q : ℚ) + 1 ≤ nearestEven p := by exact_mod_cast not_le.mp hlt
  -- Both are half way between the same two integers.
  have heq : p = q := by linarith
  rw [heq] at hlt
  exact hlt le_rfl

namespace Format

variable {f : Format}

theorem exponent_mono {x y : ℚ} (hx : 0 < x) (h : x ≤ y) : f.exponent x ≤ f.exponent y := by
  have hlog : Int.log 2 |x| ≤ Int.log 2 |y| :=
    Int.log_mono_right (abs_pos.mpr hx.ne') (abs_le_abs_of_nonneg hx.le h)
  unfold exponent
  omega

theorem rounded_mono_of_pos {x y : ℚ} (hx : 0 < x) (h : x ≤ y) : f.rounded x ≤ f.rounded y := by
  have hy : 0 < y := hx.trans_le h
  rcases (exponent_mono (f := f) hx h).eq_or_lt with heq | hlt
  · have hpos := two_zpow_pos (f.exponent y)
    unfold rounded
    rw [heq]
    apply mul_le_mul_of_nonneg_right _ hpos.le
    exact_mod_cast nearestEven_mono (div_le_div_of_nonneg_right h hpos.le)
  -- A power of two lies between them.
  · have hleast : f.least ≤ f.exponent x := le_max_left _ _
    have hexp : f.exponent y ≤ Int.log 2 |y| := exponent_le_log y (hleast.trans_lt hlt)
    have hbelow : x ≤ 2 ^ Int.log 2 |y| := by
      have hnext := Int.lt_zpow_succ_log_self one_lt_two |x|
      refine (le_abs_self x).trans (hnext.le.trans (zpow_le_zpow_right₀ one_le_two ?_))
      unfold exponent at hlt
      omega
    have hfirst := rounded_le (f := f) (hlt.le.trans hexp) 1 (by simpa using hbelow)
    have hsecond := le_rounded (f := f) hexp 1 (by simpa using two_zpow_log_le hy)
    exact hfirst.trans hsecond

theorem rounded_mono {x y : ℚ} (h : x ≤ y) : f.rounded x ≤ f.rounded y := by
  rcases lt_or_ge 0 x with hx | hx
  · exact rounded_mono_of_pos hx h
  · rcases le_or_gt 0 y with hy | hy
    · exact (rounded_nonpos hx).trans (rounded_nonneg hy)
    · have hneg := rounded_mono_of_pos (f := f) (neg_pos.mpr hy) (neg_le_neg h)
      rwa [rounded_neg, rounded_neg, neg_le_neg_iff] at hneg

/-- The numbers with a short enough significand are numbers of the format. -/
theorem rounded_dyadic {m e : ℤ} (hm : |m| < 2 ^ f.precision) (he : f.least ≤ e) :
    f.rounded (m * 2 ^ e) = m * 2 ^ e := by
  rcases eq_or_ne m 0 with rfl | hne
  · rw [Int.cast_zero, zero_mul]
    exact le_antisymm (rounded_nonpos le_rfl) (rounded_nonneg le_rfl)
  · refine rounded_eq_self (e := e) ?_ m rfl
    have hpos := two_zpow_pos e
    have habs : |(m * 2 ^ e : ℚ)| = |(m : ℚ)| * 2 ^ e := by rw [abs_mul, abs_of_pos hpos]
    have hmpos : 0 < |(m : ℚ)| := abs_pos.mpr (by exact_mod_cast hne)
    have hlt : |(m : ℚ)| < (2 : ℚ) ^ (f.precision : ℤ) := by
      rw [zpow_natCast]
      exact_mod_cast hm
    have hlog : Int.log 2 |(m * 2 ^ e : ℚ)| < f.precision + e := by
      rw [habs, ← Int.lt_zpow_iff_log_lt one_lt_two (mul_pos hmpos hpos), Nat.cast_ofNat,
        zpow_add₀ two_ne_zero]
      exact mul_lt_mul_of_pos_right hlt hpos
    unfold exponent
    omega

/-- What lies between two numbers of the format is not too large for it. -/
theorem round_eq_finite {x b : ℚ} (hb : f.rounded b = b) (htop : b < 2 ^ f.top) (h : |x| ≤ b) :
    f.round x = .finite (f.rounded x) := by
  obtain ⟨hlow, hhigh⟩ := abs_le.mp h
  have hbelow := rounded_mono (f := f) hhigh
  have habove := rounded_mono (f := f) hlow
  rw [rounded_neg] at habove
  rw [round, if_neg (by linarith), if_neg (by linarith)]

/-- The relative error, from the least number with all digits on. -/
theorem abs_rounded_sub_le {x : ℚ} (h : 2 ^ (f.least + f.precision - 1) ≤ |x|) :
    |f.rounded x - x| ≤ |x| / 2 ^ f.precision := by
  have habs : 0 < |x| := (two_zpow_pos _).trans_le h
  have hlog : f.least + f.precision - 1 ≤ Int.log 2 |x| := by
    rw [← Int.zpow_le_iff_le_log one_lt_two habs]
    exact h
  have hexp : f.exponent x = Int.log 2 |x| + 1 - f.precision := by
    unfold exponent
    omega
  have hpos := two_zpow_pos (f.exponent x)
  obtain ⟨hlow, hhigh, -⟩ := nearestEven_spec (x / 2 ^ f.exponent x)
  have hx : x = x / 2 ^ f.exponent x * 2 ^ f.exponent x := (div_mul_cancel₀ x hpos.ne').symm
  have hhalf : |nearestEven (x / 2 ^ f.exponent x) - x / 2 ^ f.exponent x| ≤ 1 / 2 := by
    rw [abs_le]
    constructor
    · linarith
    · linarith
  calc |f.rounded x - x|
      = |nearestEven (x / 2 ^ f.exponent x) - x / 2 ^ f.exponent x| * 2 ^ f.exponent x := by
        rw [← abs_of_pos hpos, ← abs_mul, sub_mul, abs_of_pos hpos, ← hx, rounded]
    _ ≤ 1 / 2 * 2 ^ f.exponent x := mul_le_mul_of_nonneg_right hhalf hpos.le
    _ = 2 ^ Int.log 2 |x| / 2 ^ f.precision := by
        rw [← two_zpow_sub_one, hexp, ← zpow_natCast, ← zpow_sub₀ two_ne_zero]
        congr 1
        omega
    _ ≤ |x| / 2 ^ f.precision := by
        apply div_le_div_of_nonneg_right _ (pow_pos two_pos _).le
        exact Int.zpow_log_le_self one_lt_two habs

end Format

/-! ## Double precision -/

theorem binary64_dyadic {m e : ℤ} (hm : |m| < 2 ^ 53) (he : -1074 ≤ e) :
    binary64.rounded (m * 2 ^ e) = m * 2 ^ e := Format.rounded_dyadic hm he

theorem binary64_intCast {m : ℤ} (hm : |m| < 2 ^ 53) : binary64.rounded m = m := by
  have h := binary64_dyadic (e := 0) hm (by decide)
  rwa [zpow_zero, mul_one] at h

theorem binary64_between {n : ℤ} {k : Nat} (hn : |n * 2 ^ k + 1| < 2 ^ 53) (hk : k ≤ 1074) :
    binary64.rounded (n + 1 / 2 ^ k) = n + 1 / 2 ^ k := by
  have h := binary64_dyadic (e := -k) hn (by omega)
  have heq : ((n * 2 ^ k + 1 : ℤ) : ℚ) * 2 ^ (-k : ℤ) = n + 1 / 2 ^ k := by
    rw [zpow_neg, zpow_natCast]
    push_cast
    field_simp
  rwa [heq] at h

/-- Numbers up to `2 ^ 53` are not too large. -/
theorem binary64_round {x : ℚ} (h : |x| ≤ 2 ^ 53) : binary64.round x = .finite (binary64.rounded x) := by
  have hself : binary64.rounded (2 ^ (53 : ℤ)) = 2 ^ (53 : ℤ) := by
    have hone := binary64_dyadic (m := 1) (e := 53) (by decide) (by decide)
    rwa [Int.cast_one, one_mul] at hone
  apply Format.round_eq_finite hself (zpow_lt_zpow_right₀ one_lt_two (by decide))
  exact_mod_cast h

/-! ## Decimal digits -/

/-- `round(x, digits)` -/
def Double.roundDigits (digits : Nat) : Double → Double
  | finite x => binary64.round (nearestEven (x * 10 ^ digits) / 10 ^ digits)
  | x => x

theorem binary64_rounded_one : binary64.rounded 1 = 1 := by
  have h := binary64_intCast (m := 1) (by decide)
  rwa [Int.cast_one] at h

/-- A number from zero to one stays there. -/
theorem roundDigits_unit (digits : Nat) {x : ℚ} (h0 : 0 ≤ x) (h1 : x ≤ 1) :
    ∃ y, (Double.finite x).roundDigits digits = .finite y ∧ 0 ≤ y ∧ y ≤ 1 := by
  have hpos : (0 : ℚ) < 10 ^ digits := by positivity
  have hlow : (0 : ℤ) ≤ nearestEven (x * 10 ^ digits) := le_nearestEven (by
    rw [Int.cast_zero]
    exact mul_nonneg h0 hpos.le)
  have hhigh : nearestEven (x * 10 ^ digits) ≤ 10 ^ digits := nearestEven_le (by
    push_cast
    exact mul_le_of_le_one_left hpos.le h1)
  have hdecimal0 : (0 : ℚ) ≤ nearestEven (x * 10 ^ digits) / 10 ^ digits :=
    div_nonneg (by exact_mod_cast hlow) hpos.le
  have hdecimal1 : (nearestEven (x * 10 ^ digits) / 10 ^ digits : ℚ) ≤ 1 :=
    (div_le_one hpos).mpr (by exact_mod_cast hhigh)
  refine ⟨_, binary64_round ?_, Format.rounded_nonneg hdecimal0, ?_⟩
  · rw [abs_of_nonneg hdecimal0]
    exact hdecimal1.trans (by norm_num)
  · exact (Format.rounded_mono hdecimal1).trans_eq binary64_rounded_one

/-! ## Quotients -/

theorem binary64_normal {x : ℚ} (h : 1 / 2 ^ 53 ≤ x) :
    x * (1 - 1 / 2 ^ 53) ≤ binary64.rounded x ∧ binary64.rounded x ≤ x * (1 + 1 / 2 ^ 53) := by
  have hx : 0 < x := lt_of_lt_of_le (by positivity) h
  have hnormal : (2 : ℚ) ^ (binary64.least + binary64.precision - 1) ≤ |x| := by
    rw [abs_of_pos hx]
    refine le_trans ?_ h
    rw [one_div, ← zpow_natCast, ← zpow_neg]
    exact zpow_le_zpow_right₀ one_le_two (by decide)
  have herror := Format.abs_rounded_sub_le hnormal
  rw [abs_of_pos hx] at herror
  obtain ⟨hlow, hhigh⟩ := abs_le.mp herror
  have hprecision : (2 : ℚ) ^ binary64.precision = 2 ^ 53 := rfl
  rw [hprecision] at hlow hhigh
  constructor
  · linarith
  · linarith

/-- Different quotients of numbers that are not too large stay different. -/
theorem rounded_div_lt_iff {a d l w : Nat} (hd : 0 < d) (hw : 0 < w) (hw' : w < 2 ^ 53)
    (hd' : d < 2 ^ 53) (h : l * d + a * w < 2 ^ 53) :
    binary64.rounded (a / d) < binary64.rounded (l / w) ↔ a * w < l * d := by
  have hdpos : (0 : ℚ) < d := by exact_mod_cast hd
  have hwpos : (0 : ℚ) < w := by exact_mod_cast hw
  constructor
  · intro hlt
    by_contra hle
    have hle' : (l : ℚ) * d ≤ a * w := by exact_mod_cast not_lt.mp hle
    have hquotient : (l / w : ℚ) ≤ a / d := (div_le_div_iff₀ hwpos hdpos).mpr hle'
    exact hlt.not_ge (Format.rounded_mono hquotient)
  · intro hlt
    have hlpos : 0 < l := by
      rcases Nat.eq_zero_or_pos l with rfl | hpos
      · rw [Nat.zero_mul] at hlt
        exact absurd hlt (Nat.not_lt_zero _)
      · exact hpos
    -- A quotient of small positive numbers is a normal number.
    have hnormal {m k : Nat} (hm : 0 < m) (hk : 0 < k) (hk' : k < 2 ^ 53) :
        (1 / 2 ^ 53 : ℚ) ≤ m / k := by
      have hm' : (1 : ℚ) ≤ m := by exact_mod_cast hm
      have hk'' : (k : ℚ) ≤ 2 ^ 53 := by exact_mod_cast hk'.le
      exact div_le_div₀ (by linarith) hm' (by exact_mod_cast hk) hk''
    have hl := (binary64_normal (hnormal hlpos hw hw')).1
    have hsmall : (l : ℚ) * d + a * w < 2 ^ 53 := by exact_mod_cast h
    have hstep : (a : ℚ) * w + 1 ≤ l * d := by exact_mod_cast hlt
    have hapart : (a / d : ℚ) * (1 + 1 / 2 ^ 53) < l / w * (1 - 1 / 2 ^ 53) := by
      rw [div_mul_eq_mul_div, div_mul_eq_mul_div, div_lt_div_iff₀ hdpos hwpos]
      linarith
    rcases Nat.eq_zero_or_pos a with rfl | ha
    · have hzero : binary64.rounded ((0 : Nat) / d : ℚ) ≤ 0 :=
        Format.rounded_nonpos (by rw [Nat.cast_zero, zero_div])
      rw [Nat.cast_zero, zero_div, zero_mul] at hapart
      linarith
    · have ha' := (binary64_normal (hnormal ha hd hd')).2
      linarith

end WebSpider.Floats
