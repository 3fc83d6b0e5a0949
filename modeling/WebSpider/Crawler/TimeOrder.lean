import WebSpider.Crawler.Time
import WebSpider.Text.PaddedOrder

/-!
# The order of the texts of times

The texts of times compare like the times down to the second. Within a second
the fraction is printed without its trailing zeros and closed by `Z`, which is
greater than a digit and a dot: of two times one of which is the other cut off
after some decimal places, the earlier one has the greater text.
-/

namespace WebSpider.Crawler

open Text

/-! ## The calendar in order -/

theorem daysBeforeMonth_succ (year : Nat) {month : Nat} (hmonth : 1 ≤ month) :
    daysBeforeMonth year (month + 1) = daysBeforeMonth year month + daysIn year month := by
  obtain ⟨m, rfl⟩ := Nat.exists_eq_add_of_le' hmonth
  simp [daysBeforeMonth, List.range_succ]

theorem daysBeforeMonth_mono (year : Nat) {month month' : Nat} (hmonth : 1 ≤ month)
    (h : month < month') :
    daysBeforeMonth year month + daysIn year month ≤ daysBeforeMonth year month' := by
  induction month' with
  | zero => omega
  | succ month' ih =>
    rw [daysBeforeMonth_succ year (by omega)]
    by_cases hsame : month = month'
    · rw [hsame]
    · have := ih (by omega)
      omega

def daysInYear (year : Nat) : Nat := daysBeforeMonth year 13

theorem daysInYear_eq (year : Nat) : daysInYear year = if leap year then 366 else 365 := by
  unfold daysInYear daysBeforeMonth
  simp only [List.range_succ, List.range_zero, daysIn]
  split <;> rfl

theorem daysBeforeYear_succ (year : Nat) :
    daysBeforeYear (year + 1) = daysBeforeYear year + daysInYear year := by
  rw [daysInYear_eq]
  simp only [daysBeforeYear, leap, Bool.and_eq_true, Bool.or_eq_true, decide_eq_true_eq, bne_iff_ne]
  split <;> omega

theorem daysBeforeYear_mono {year year' : Nat} (h : year < year') :
    daysBeforeYear year + daysInYear year ≤ daysBeforeYear year' := by
  induction year' with
  | zero => omega
  | succ year' ih =>
    rw [daysBeforeYear_succ]
    by_cases hsame : year = year'
    · obtain rfl := hsame
      exact Int.le_refl _
    · have := ih (by omega)
      omega

/-- Numbers of two digits in a base compare digit by digit. -/
theorem radix_lt_iff {b q q' r r' : Int} (hr : 0 ≤ r ∧ r < b) (hr' : 0 ≤ r' ∧ r' < b) :
    q * b + r < q' * b + r' ↔ q < q' ∨ q = q' ∧ r < r' := by
  have hsucc {p p' : Int} (h : p < p') : p * b + b ≤ p' * b := by
    have := Int.mul_le_mul_of_nonneg_right (show p + 1 ≤ p' by omega) (show 0 ≤ b by omega)
    rwa [Int.add_mul, Int.one_mul] at this
  rcases Int.lt_trichotomy q q' with hlt | rfl | hgt
  · have := hsucc hlt
    exact ⟨fun _ => Or.inl hlt, fun _ => by omega⟩
  · omega
  · have := hsucc hgt
    exact ⟨fun h => by omega, fun h => by omega⟩

namespace Time

/-- The days since the zero time. -/
def days (t : Time) : Int :=
  daysBeforeYear t.year + daysBeforeMonth t.year t.month + (t.day - 1)

/-- The whole seconds since the zero time. -/
def seconds (t : Time) : Int := ((t.days * 24 + t.hour) * 60 + t.minute) * 60 + t.second

theorem instant_eq (t : Time) : t.instant = t.seconds * 10 ^ 9 + t.nanosecond := rfl

theorem days_lt_iff (t u : Time) : t.days < u.days ↔
    t.year < u.year ∨ t.year = u.year ∧ (t.month < u.month ∨
      t.month = u.month ∧ t.day < u.day) := by
  -- a day is within its month, and a month within its year
  have hearlier {t u : Time} (hlt : t.year < u.year) : t.days < u.days := by
    obtain ⟨-, hmonth, hday, -⟩ := t.civil
    obtain ⟨-, -, hday', -⟩ := u.civil
    have hyears := daysBeforeYear_mono hlt
    have hmonths := daysBeforeMonth_mono t.year hmonth.1 (show t.month < 13 by omega)
    unfold days
    simp only [daysInYear] at hyears
    omega
  have hmonthly {t u : Time} (hyear : t.year = u.year) (hlt : t.month < u.month) :
      t.days < u.days := by
    obtain ⟨-, hmonth, hday, -⟩ := t.civil
    obtain ⟨-, -, hday', -⟩ := u.civil
    have hmonths := daysBeforeMonth_mono t.year hmonth.1 hlt
    unfold days
    rw [← hyear]
    omega
  rcases lt_trichotomy t.year u.year with hlt | hyear | hgt
  · exact ⟨fun _ => Or.inl hlt, fun _ => hearlier hlt⟩
  · rcases lt_trichotomy t.month u.month with hlt | hmonth | hgt
    · exact ⟨fun _ => Or.inr ⟨hyear, Or.inl hlt⟩, fun _ => hmonthly hyear hlt⟩
    · unfold days
      rw [hyear, hmonth]
      omega
    · have := hmonthly hyear.symm hgt
      omega
  · have := hearlier hgt
    omega

theorem days_inj {t u : Time} (h : t.days = u.days) :
    t.year = u.year ∧ t.month = u.month ∧ t.day = u.day := by
  have hlt := days_lt_iff t u
  have hgt := days_lt_iff u t
  omega

/-- Seconds compare field by field. -/
theorem seconds_lt_iff (t u : Time) : t.seconds < u.seconds ↔
    t.days < u.days ∨ t.days = u.days ∧ (t.hour < u.hour ∨ t.hour = u.hour ∧
      (t.minute < u.minute ∨ t.minute = u.minute ∧ t.second < u.second)) := by
  obtain ⟨-, -, -, hhour, hminute, hsecond, -⟩ := t.civil
  obtain ⟨-, -, -, hhour', hminute', hsecond', -⟩ := u.civil
  unfold seconds
  rw [radix_lt_iff (by omega) (by omega), radix_lt_iff (by omega) (by omega)]
  omega

theorem seconds_inj {t u : Time} (h : t.seconds = u.seconds) :
    t.days = u.days ∧ t.hour = u.hour ∧ t.minute = u.minute ∧ t.second = u.second := by
  have hlt := seconds_lt_iff t u
  have hgt := seconds_lt_iff u t
  omega

theorem instant_lt_iff (t u : Time) : t.instant < u.instant ↔
    t.seconds < u.seconds ∨ t.seconds = u.seconds ∧ t.nanosecond < u.nanosecond := by
  obtain ⟨-, -, -, -, -, -, hnano⟩ := t.civil
  obtain ⟨-, -, -, -, -, -, hnano'⟩ := u.civil
  rw [instant_eq, instant_eq, radix_lt_iff (by omega) (by omega)]
  omega

/-- Different times are different instants. -/
theorem instant_injective {t u : Time} (h : t.instant = u.instant) : t = u := by
  have hlt := instant_lt_iff t u
  have hgt := instant_lt_iff u t
  have hseconds : t.seconds = u.seconds := by omega
  obtain ⟨hdays, hclock⟩ := seconds_inj hseconds
  obtain ⟨hyear, hmonth, hday⟩ := days_inj hdays
  have hnano : t.nanosecond = u.nanosecond := by omega
  obtain ⟨year, month, day, hour, minute, second, nanosecond, hcivil⟩ := t
  obtain ⟨year', month', day', hour', minute', second', nanosecond', hcivil'⟩ := u
  obtain ⟨rfl, rfl, rfl⟩ := hclock
  obtain rfl := hyear
  obtain rfl := hmonth
  obtain rfl := hday
  obtain rfl := hnano
  rfl

end Time

/-! ## The texts in order -/

/-- `t` is `u` cut off after some decimal places of the second. -/
def CutOff (t u : Time) : Prop := ∃ k ≤ 9, t.instant = u.instant / 10 ^ k * 10 ^ k

/-- The texts of the times do not compare like the times. -/
def Clash (t u : Time) : Prop := t ≠ u ∧ (CutOff t u ∨ CutOff u t)

theorem cutOff_iff (t u : Time) :
    CutOff t u ↔ t.seconds = u.seconds ∧ Truncates t.nanosecond u.nanosecond := by
  obtain ⟨-, -, -, -, -, -, hnano⟩ := t.civil
  obtain ⟨-, -, -, -, -, -, hnano'⟩ := u.civil
  -- cutting within the second leaves the second
  have hcut {k : Nat} (hk : k ≤ 9) : u.instant / 10 ^ k * 10 ^ k =
      u.seconds * 10 ^ 9 + (u.nanosecond / 10 ^ k * 10 ^ k : Nat) := by
    obtain ⟨j, hj⟩ := Nat.exists_eq_add_of_le' hk
    have hpow : (10 : Int) ^ 9 = 10 ^ j * 10 ^ k := by rw [hj, Int.pow_add]
    have hne : (10 : Int) ^ k ≠ 0 := Int.pow_ne_zero (by decide)
    rw [Time.instant_eq, hpow, ← Int.mul_assoc, Int.add_comm, Int.add_mul_ediv_right _ _ hne,
      Int.add_mul, Int.add_comm]
    norm_cast
  have hle (k : Nat) : u.nanosecond / 10 ^ k * 10 ^ k ≤ u.nanosecond := Nat.div_mul_le_self _ _
  constructor
  · rintro ⟨k, hk, h⟩
    have := hle k
    rw [hcut hk, Time.instant_eq] at h
    exact ⟨by omega, k, by omega⟩
  · rintro ⟨hseconds, k, h⟩
    by_cases hk : k ≤ 9
    · refine ⟨k, hk, ?_⟩
      rw [hcut hk, Time.instant_eq, hseconds, h]
    · -- the whole fraction is cut off
      have hpow := Nat.pow_lt_pow_right (show 1 < 10 by decide) (Nat.lt_of_not_le hk)
      have hzero : t.nanosecond = 0 := by
        rw [h, Nat.div_eq_of_lt (by omega), Nat.zero_mul]
      refine ⟨9, Nat.le_refl 9, ?_⟩
      rw [hcut (Nat.le_refl 9), Time.instant_eq, hseconds, hzero, Nat.div_eq_of_lt hnano',
        Nat.zero_mul]

theorem formatFraction_below (n : Nat) : ∀ c ∈ formatFraction n, c < 90 := by
  intro c hc
  unfold formatFraction at hc
  split at hc
  · cases hc
  · rcases List.mem_cons.mp hc with rfl | hc
    · decide
    · have hmem := (trimZeros_initial (pad 9 n)).subset hc
      have hdigit := List.all_eq_true.mp (all_isDigit_pad 9 n) c hmem
      simp only [isDigit, decide_eq_true_eq] at hdigit
      omega

theorem formatFraction_prefix_iff {n m : Nat} (hn : n < 10 ^ 9) (hm : m < 10 ^ 9) :
    formatFraction n <+: formatFraction m ↔ Truncates n m := by
  unfold formatFraction
  by_cases hzero : n = 0
  · subst hzero
    exact ⟨fun _ => truncates_zero hm, fun _ => by simp⟩
  · by_cases hzero' : m = 0
    · subst hzero'
      rw [if_neg hzero, if_pos rfl]
      refine ⟨fun h => ?_, fun h => ?_⟩
      · exact absurd (List.prefix_nil.mp h) (by simp)
      · exact absurd h.le (by omega)
    · rw [if_neg hzero, if_neg hzero', List.cons_prefix_cons, trimZeros_prefix_iff hn hm]
      exact and_iff_right rfl

/-- The closed fractions compare like the numbers unless one is the other cut
off. -/
theorem formatFraction_lt_iff {n m : Nat} (hn : n < 10 ^ 9) (hm : m < 10 ^ 9) :
    (formatFraction n ++ [90] < formatFraction m ++ [90] ↔ n < m) ↔
      ¬ (n ≠ m ∧ (Truncates n m ∨ Truncates m n)) := by
  have hclosed {n m : Nat} (hn : n < 10 ^ 9) (hm : m < 10 ^ 9) (hne : n ≠ m)
      (h : Truncates n m) : formatFraction m ++ [90] < formatFraction n ++ [90] := by
    refine closed_lt_of_prefix ((formatFraction_prefix_iff hn hm).mpr h) (fun hsame => hne ?_)
      (formatFraction_below m)
    have hback := (formatFraction_prefix_iff hm hn).mp (hsame ▸ List.prefix_rfl)
    exact Nat.le_antisymm h.le hback.le
  by_cases hsame : n = m
  · subst hsame
    simp
  · by_cases hcut : Truncates n m
    · have hlt := hclosed hn hm hsame hcut
      have hle := hcut.le
      refine iff_of_false (fun h => ?_) (fun h => h ⟨hsame, Or.inl hcut⟩)
      exact lt_asymm hlt (h.mpr (by omega))
    · by_cases hcut' : Truncates m n
      · have hlt := hclosed hm hn (Ne.symm hsame) hcut'
        have hle := hcut'.le
        refine iff_of_false (fun h => ?_) (fun h => h ⟨hsame, Or.inr hcut'⟩)
        have := h.mp hlt
        omega
      · refine iff_of_true ?_ (fun h => h.2.elim hcut hcut')
        have hzero : n ≠ 0 := by
          rintro rfl
          exact hcut (truncates_zero hm)
        have hzero' : m ≠ 0 := by
          rintro rfl
          exact hcut' (truncates_zero hn)
        have hapart := append_lt_of_apart (mt (formatFraction_prefix_iff hn hm).mp hcut)
          (mt (formatFraction_prefix_iff hm hn).mp hcut') [90] [90]
        rw [hapart, formatFraction, formatFraction, if_neg hzero, if_neg hzero', cons_lt_cons_self,
          trimZeros_lt_iff hn hm hcut hcut']

/-- Texts compare field by field, and within a second by the closed fractions. -/
theorem format_lt_fields (t u : Time) : format t < format u ↔
    t.seconds < u.seconds ∨ t.seconds = u.seconds ∧
      formatFraction t.nanosecond ++ [90] < formatFraction u.nanosecond ++ [90] := by
  have hdays := t.days_lt_iff u
  have hseconds := t.seconds_lt_iff u
  have hdays' := u.days_lt_iff t
  have hseconds' := u.seconds_lt_iff t
  obtain ⟨hyear, hmonth, hday, hhour, hminute, hsecond, -⟩ := t.civil
  obtain ⟨hyear', hmonth', hday', hhour', hminute', hsecond', -⟩ := u.civil
  have hle := daysIn_le t.year t.month
  have hle' := daysIn_le u.year u.month
  unfold format
  rw [pad_append_lt (by omega) (by omega), cons_lt_cons_self,
    pad_append_lt (by omega) (by omega), cons_lt_cons_self,
    pad_append_lt (by omega) (by omega), cons_lt_cons_self,
    pad_append_lt (by omega) (by omega), cons_lt_cons_self,
    pad_append_lt (by omega) (by omega), cons_lt_cons_self,
    pad_append_lt (by omega) (by omega)]
  by_cases hfraction :
      formatFraction t.nanosecond ++ [90] < formatFraction u.nanosecond ++ [90]
  · simp only [hfraction, and_true]
    omega
  · simp only [hfraction, and_false, or_false]
    omega

/-- The texts of two times compare like the times exactly when neither is the
other cut off after some decimal places. -/
theorem format_lt_iff (t u : Time) :
    (format t < format u ↔ t.instant < u.instant) ↔ ¬ Clash t u := by
  obtain ⟨-, -, -, -, -, -, hnano⟩ := t.civil
  obtain ⟨-, -, -, -, -, -, hnano'⟩ := u.civil
  have hfraction := formatFraction_lt_iff hnano hnano'
  have hne : t ≠ u ↔ ¬ (t.seconds = u.seconds ∧ t.nanosecond = u.nanosecond) := by
    refine not_congr ⟨fun h => by rw [h]; exact ⟨rfl, rfl⟩, fun h => ?_⟩
    apply Time.instant_injective
    rw [Time.instant_eq, Time.instant_eq, h.1, h.2]
  rw [format_lt_fields, Time.instant_lt_iff, Clash, cutOff_iff, cutOff_iff, hne]
  by_cases hseconds : t.seconds = u.seconds
  · rw [hseconds]
    simpa using hfraction
  · have hseconds' : ¬ u.seconds = t.seconds := fun h => hseconds h.symm
    simp [hseconds, hseconds']

end WebSpider.Crawler
