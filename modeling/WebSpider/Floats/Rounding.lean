import Mathlib.Algebra.Order.Round
import Mathlib.Data.Int.Log
import Mathlib.Data.Rat.Floor
import Mathlib.Data.Sign.Basic
import Mathlib.Tactic.FieldSimp
import Mathlib.Tactic.Linarith
import Mathlib.Tactic.Ring

/-!
# Rounding to a binary format

A binary format has the numbers `m * 2 ^ e` with a significand `m` of at most `precision`
digits. A number is rounded to the nearest of them, and of two that are equally near to the
one whose significand is even. What is too large becomes infinite, and what is too small
becomes zero: both limits are exact here (`round_pos_iff`).
-/

namespace WebSpider.Floats

/-! ## The nearest integer -/

/-- The nearest integer, and of two the even one. -/
def nearestEven (q : ℚ) : ℤ :=
  if 2 * (q - ⌊q⌋) < 1 then ⌊q⌋
  else if 1 < 2 * (q - ⌊q⌋) then ⌊q⌋ + 1
  else if Even ⌊q⌋ then ⌊q⌋ else ⌊q⌋ + 1

/-- The result is at most one half away, and where it is one half away it is even. -/
theorem nearestEven_spec (q : ℚ) : q - 1 / 2 ≤ nearestEven q ∧ nearestEven q ≤ q + 1 / 2 ∧
    (nearestEven q = q - 1 / 2 ∨ nearestEven q = q + 1 / 2 → Even (nearestEven q)) := by
  have hfloor := Int.floor_le q
  have hlt := Int.lt_floor_add_one q
  unfold nearestEven
  split_ifs with hbelow habove heven
  · refine ⟨by linarith, by linarith, ?_⟩
    rintro (h | h) <;> linarith
  · push_cast
    refine ⟨by linarith, by linarith, ?_⟩
    rintro (h | h) <;> linarith
  · exact ⟨by linarith, by linarith, fun _ => heven⟩
  · push_cast
    refine ⟨by linarith, by linarith, fun _ => ?_⟩
    exact (Int.not_even_iff_odd.mp heven).add_one

theorem lt_nearestEven_iff {n : ℤ} (hn : Even n) (q : ℚ) : n < nearestEven q ↔ n + 1 / 2 < q := by
  obtain ⟨hle, hge, htie⟩ := nearestEven_spec q
  constructor
  · intro h
    have hsucc : (n : ℚ) + 1 ≤ nearestEven q := by exact_mod_cast h
    apply lt_of_le_of_ne (by linarith)
    intro heq
    have hhalf : (nearestEven q : ℚ) = q + 1 / 2 := by linarith
    have hnext : nearestEven q = n + 1 := by
      have : (nearestEven q : ℚ) = n + 1 := by linarith
      exact_mod_cast this
    have heven := htie (Or.inr hhalf)
    rw [hnext, Int.even_add_one] at heven
    exact heven hn
  · intro h
    have : (n : ℚ) < nearestEven q := by linarith
    exact_mod_cast this

theorem le_nearestEven_iff {n : ℤ} (hn : Even n) (q : ℚ) : n ≤ nearestEven q ↔ n - 1 / 2 ≤ q := by
  obtain ⟨hle, hge, htie⟩ := nearestEven_spec q
  constructor
  · intro h
    have : (n : ℚ) ≤ nearestEven q := by exact_mod_cast h
    linarith
  · intro h
    by_contra hlt
    have hpred : (nearestEven q : ℚ) ≤ n - 1 := by
      have : nearestEven q ≤ n - 1 := by omega
      exact_mod_cast this
    have hhalf : (nearestEven q : ℚ) = q - 1 / 2 := by linarith
    have hnext : n = nearestEven q + 1 := by
      have : (n : ℚ) = nearestEven q + 1 := by linarith
      exact_mod_cast this
    rw [hnext, Int.even_add_one] at hn
    exact hn (htie (Or.inl hhalf))

theorem le_nearestEven {n : ℤ} {q : ℚ} (h : n ≤ q) : n ≤ nearestEven q := by
  have hle := (nearestEven_spec q).1
  by_contra hlt
  have : (nearestEven q : ℚ) ≤ n - 1 := by
    have : nearestEven q ≤ n - 1 := by omega
    exact_mod_cast this
  linarith

theorem nearestEven_le {n : ℤ} {q : ℚ} (h : q ≤ n) : nearestEven q ≤ n := by
  have hge := (nearestEven_spec q).2.1
  by_contra hlt
  have : (n : ℚ) + 1 ≤ nearestEven q := by
    have : n + 1 ≤ nearestEven q := by omega
    exact_mod_cast this
  linarith

theorem nearestEven_neg (q : ℚ) : nearestEven (-q) = -nearestEven q := by
  obtain ⟨hle, hge, htie⟩ := nearestEven_spec q
  obtain ⟨hle', hge', htie'⟩ := nearestEven_spec (-q)
  have hlow : -1 ≤ nearestEven q + nearestEven (-q) := by
    have : (-1 : ℚ) ≤ nearestEven q + nearestEven (-q) := by linarith
    exact_mod_cast this
  have hhigh : nearestEven q + nearestEven (-q) ≤ 1 := by
    have : (nearestEven q + nearestEven (-q) : ℚ) ≤ 1 := by linarith
    exact_mod_cast this
  -- At a distance of one both are ties, and two even numbers are not one apart.
  have hodd : ∀ s : ℤ, s = 1 ∨ s = -1 → nearestEven q + nearestEven (-q) ≠ s := by
    intro s hs heq
    have hsum : (nearestEven q + nearestEven (-q) : ℚ) = s := by exact_mod_cast heq
    have hboth : Even (nearestEven q) ∧ Even (nearestEven (-q)) := by
      rcases hs with rfl | rfl
      · push_cast at hsum
        exact ⟨htie (Or.inr (by linarith)), htie' (Or.inr (by linarith))⟩
      · push_cast at hsum
        exact ⟨htie (Or.inl (by linarith)), htie' (Or.inl (by linarith))⟩
    have heven := hboth.1.add hboth.2
    rw [heq] at heven
    rcases hs with rfl | rfl
    · exact absurd heven (by decide)
    · exact absurd heven (by decide)
  have h1 := hodd 1 (Or.inl rfl)
  have h2 := hodd (-1) (Or.inr rfl)
  omega

/-! ## Formats -/

/-- The number of digits of a significand, the exponent of the least positive number, and
the least exponent whose power of two is not below all finite numbers. -/
structure Format where
  precision : Nat
  least : ℤ
  top : ℤ
  precision_pos : 0 < precision
  least_le : least ≤ top - precision

/-- Floating-point numbers. The two zeros are one number. -/
inductive Double where
  | finite (x : ℚ)
  | inf
  | negInf
  | nan
  deriving DecidableEq

namespace Format

variable (f : Format)

/-- The exponent of the numbers near `x`. -/
def exponent (x : ℚ) : ℤ := max f.least (Int.log 2 |x| + 1 - f.precision)

/-- The nearest number, if there were no limit above. -/
def rounded (x : ℚ) : ℚ := nearestEven (x / 2 ^ f.exponent x) * 2 ^ f.exponent x

/-- The number of the format for `x`. -/
def round (x : ℚ) : Double :=
  if 2 ^ f.top ≤ f.rounded x then .inf
  else if f.rounded x ≤ -2 ^ f.top then .negInf
  else .finite (f.rounded x)

variable {f}

theorem two_zpow_pos (e : ℤ) : (0 : ℚ) < 2 ^ e := zpow_pos two_pos e

theorem two_zpow_sub_one (e : ℤ) : (2 : ℚ) ^ (e - 1) = 1 / 2 * 2 ^ e := by
  rw [zpow_sub_one₀ two_ne_zero]
  ring

theorem two_zpow_log_le {x : ℚ} (hx : 0 < x) : (2 : ℚ) ^ Int.log 2 |x| ≤ x := by
  have h := Int.zpow_log_le_self (b := 2) one_lt_two (abs_pos.mpr hx.ne')
  rwa [abs_of_pos hx] at h ⊢

theorem exponent_le_log (x : ℚ) (h : f.least < f.exponent x) : f.exponent x ≤ Int.log 2 |x| := by
  have hpos := f.precision_pos
  unfold exponent at h ⊢
  omega

/-- A number with a larger exponent is a whole number of quanta. -/
theorem exists_quanta {e e' : ℤ} (h : e ≤ e') (m : ℤ) : ∃ n : ℤ, (m * 2 ^ e' : ℚ) = n * 2 ^ e := by
  obtain ⟨k, rfl⟩ := Int.le.dest h
  refine ⟨m * 2 ^ k, ?_⟩
  rw [zpow_add₀ two_ne_zero, zpow_natCast]
  push_cast
  ring

/-- Rounding does not lead below a number with at least the same exponent. -/
theorem le_rounded {x : ℚ} {e : ℤ} (he : f.exponent x ≤ e) (m : ℤ) (h : m * 2 ^ e ≤ x) :
    m * 2 ^ e ≤ f.rounded x := by
  obtain ⟨n, hn⟩ := exists_quanta he m
  have hpos := two_zpow_pos (f.exponent x)
  rw [hn] at h ⊢
  have hle : n ≤ nearestEven (x / 2 ^ f.exponent x) := le_nearestEven ((le_div_iff₀ hpos).mpr h)
  exact mul_le_mul_of_nonneg_right (by exact_mod_cast hle) hpos.le

theorem rounded_le {x : ℚ} {e : ℤ} (he : f.exponent x ≤ e) (m : ℤ) (h : x ≤ m * 2 ^ e) :
    f.rounded x ≤ m * 2 ^ e := by
  obtain ⟨n, hn⟩ := exists_quanta he m
  have hpos := two_zpow_pos (f.exponent x)
  rw [hn] at h ⊢
  have hle : nearestEven (x / 2 ^ f.exponent x) ≤ n := nearestEven_le ((div_le_iff₀ hpos).mpr h)
  exact mul_le_mul_of_nonneg_right (by exact_mod_cast hle) hpos.le

/-- A number of the format is not changed. -/
theorem rounded_eq_self {x : ℚ} {e : ℤ} (he : f.exponent x ≤ e) (m : ℤ) (h : x = m * 2 ^ e) :
    f.rounded x = x :=
  le_antisymm ((rounded_le he m h.le).trans_eq h.symm) (h.le.trans (le_rounded he m h.ge))

theorem rounded_nonneg {x : ℚ} (h : 0 ≤ x) : 0 ≤ f.rounded x := by
  have := le_rounded (f := f) (x := x) le_rfl 0 (by simpa using h)
  simpa using this

theorem rounded_nonpos {x : ℚ} (h : x ≤ 0) : f.rounded x ≤ 0 := by
  have := rounded_le (f := f) (x := x) le_rfl 0 (by simpa using h)
  simpa using this

theorem rounded_neg (x : ℚ) : f.rounded (-x) = -f.rounded x := by
  have hexp : f.exponent (-x) = f.exponent x := by rw [exponent, exponent, abs_neg]
  rw [rounded, rounded, hexp, neg_div, nearestEven_neg]
  push_cast
  ring

/-! ## The limits -/

/-- Half the least positive number and everything below it become zero. -/
theorem rounded_pos_iff (x : ℚ) : 0 < f.rounded x ↔ 2 ^ (f.least - 1) < x := by
  have hpos := two_zpow_pos (f.exponent x)
  have hiff : 0 < f.rounded x ↔ 2 ^ (f.exponent x - 1) < x := by
    have heven := lt_nearestEven_iff (n := 0) Even.zero (x / 2 ^ f.exponent x)
    rw [Int.cast_zero, zero_add, lt_div_iff₀ hpos, ← two_zpow_sub_one] at heven
    rw [← heven, rounded, mul_pos_iff_of_pos_right hpos]
    exact Int.cast_pos
  rw [hiff]
  have hleast : f.least ≤ f.exponent x := le_max_left _ _
  constructor
  · intro h
    exact (zpow_le_zpow_right₀ one_le_two (by omega)).trans_lt h
  · intro h
    rcases hleast.eq_or_lt with heq | hlt
    · rwa [← heq]
    -- The quantum is far smaller than `x`.
    · have hx : 0 < x := (two_zpow_pos _).trans h
      have hexp := exponent_le_log x hlt
      exact (zpow_lt_zpow_right₀ one_lt_two (by omega)).trans_le (two_zpow_log_le hx)

theorem rounded_neg_iff (x : ℚ) : f.rounded x < 0 ↔ x < -2 ^ (f.least - 1) := by
  have h := rounded_pos_iff (f := f) (-x)
  rw [rounded_neg, neg_pos] at h
  exact h.trans lt_neg

/-- From half a quantum below `2 ^ top` on, a number is too large. -/
theorem top_le_rounded_iff (x : ℚ) :
    2 ^ f.top ≤ f.rounded x ↔ (2 : ℚ) ^ f.top - 2 ^ (f.top - f.precision - 1) ≤ x := by
  have hprecision := f.precision_pos
  have hleast := f.least_le
  have hmargin : (2 : ℚ) ^ (f.top - f.precision - 1) ≤ 2 ^ (f.top - 1) :=
    zpow_le_zpow_right₀ one_le_two (by omega)
  have htop := two_zpow_sub_one f.top
  have hpos := two_zpow_pos (f.top - 1)
  rcases lt_trichotomy (Int.log 2 |x|) (f.top - 1) with hlt | heq | hgt
  -- The number is below `2 ^ (top - 1)`, and so is what it is rounded to.
  · have hx : x < 2 ^ (f.top - 1) := by
      have hnext := Int.lt_zpow_succ_log_self one_lt_two |x|
      refine (le_abs_self x).trans_lt (hnext.trans_le ?_)
      exact zpow_le_zpow_right₀ one_le_two (by omega)
    have hexp : f.exponent x ≤ f.top - 1 := by
      unfold exponent
      omega
    have hrounded : f.rounded x ≤ 2 ^ (f.top - 1) := by
      have := rounded_le hexp 1 (by simpa using hx.le)
      simpa using this
    refine iff_of_false (fun h => ?_) (fun h => ?_)
    · linarith
    · linarith
  -- The quantum is that of the largest finite numbers.
  · have hexp : f.exponent x = f.top - f.precision := by
      unfold exponent
      omega
    have hunit := two_zpow_pos (f.top - f.precision)
    have hscale : (2 : ℚ) ^ f.top = 2 ^ f.precision * 2 ^ (f.top - f.precision) := by
      rw [← zpow_natCast, ← zpow_add₀ two_ne_zero]
      congr 1
      omega
    have hhalf := two_zpow_sub_one (f.top - f.precision)
    have heven : Even ((2 : ℤ) ^ f.precision) := (Int.even_pow.mpr ⟨even_two, hprecision.ne'⟩)
    have hiff := le_nearestEven_iff heven (x / 2 ^ f.exponent x)
    rw [hexp, le_div_iff₀ hunit, sub_mul] at hiff
    push_cast at hiff
    rw [hscale, hhalf, ← hiff, rounded, hexp, mul_le_mul_iff_left₀ hunit]
    exact_mod_cast Iff.rfl
  -- The number is not below `2 ^ top`, and neither is what it is rounded to.
  · rcases lt_or_ge 0 x with hx | hx
    · have hlog := two_zpow_log_le hx
      have hexp : f.exponent x ≤ Int.log 2 |x| := by
        unfold exponent
        omega
      have hrounded : (2 : ℚ) ^ Int.log 2 |x| ≤ f.rounded x := by
        have := le_rounded hexp 1 (by simpa using hlog)
        simpa using this
      have hle : (2 : ℚ) ^ f.top ≤ 2 ^ Int.log 2 |x| := zpow_le_zpow_right₀ one_le_two (by omega)
      have hmargin' := two_zpow_pos (f.top - f.precision - 1)
      exact iff_of_true (hle.trans hrounded) (by linarith)
    · have hrounded := rounded_nonpos (f := f) hx
      refine iff_of_false (fun h => ?_) (fun h => ?_)
      · linarith
      · linarith

/-- The numbers that are rounded to a positive finite number. -/
theorem round_pos_iff (x : ℚ) : (∃ y, f.round x = .finite y ∧ 0 < y) ↔
    2 ^ (f.least - 1) < x ∧ x < (2 : ℚ) ^ f.top - 2 ^ (f.top - f.precision - 1) := by
  have htop := two_zpow_pos f.top
  have hlimit := not_congr (top_le_rounded_iff (f := f) x)
  rw [not_le, not_le] at hlimit
  rw [← rounded_pos_iff, ← hlimit]
  unfold round
  split_ifs with habove hbelow
  · exact iff_of_false (by simp) fun h => h.2.not_ge habove
  · apply iff_of_false (by simp)
    intro h
    linarith [h.1]
  · refine ⟨fun ⟨y, hy, hpos⟩ => ?_, fun h => ⟨_, rfl, h.1⟩⟩
    obtain rfl := Double.finite.inj hy
    exact ⟨hpos, not_le.mp habove⟩

end Format

end WebSpider.Floats
