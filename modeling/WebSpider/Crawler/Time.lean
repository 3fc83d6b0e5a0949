import WebSpider.Text.Padded

/-!
# Times of the crawler

A published time is a UTC time by its calendar fields, as `Format` prints it;
windows and cursors are computed on the instants behind it, in nanoseconds
since the zero time. `parse` reads back what `format` prints. The texts compare
like the instants up to the second, not below: the fraction is printed without
its trailing zeros, and the closing `Z` is greater than a digit and a dot.
-/

namespace WebSpider.Crawler

open Text

/-! ## Calendar -/

def leap (year : Nat) : Bool := year % 4 = 0 && (year % 100 != 0 || year % 400 = 0)

def daysIn (year month : Nat) : Nat :=
  match month with
  | 2 => if leap year then 29 else 28
  | 4 | 6 | 9 | 11 => 30
  | _ => 31

theorem daysIn_le (year month : Nat) : daysIn year month ≤ 31 := by
  unfold daysIn
  split
  · split <;> omega
  · omega
  · omega
  · omega
  · omega
  · omega

/-- The fields are a date and a time of day. -/
def IsCivil (year month day hour minute second nanosecond : Nat) : Prop :=
  year < 10000 ∧ (1 ≤ month ∧ month ≤ 12) ∧ (1 ≤ day ∧ day ≤ daysIn year month) ∧ hour < 24 ∧
    minute < 60 ∧ second < 60 ∧ nanosecond < 10 ^ 9

instance (y mo d h mi s n : Nat) : Decidable (IsCivil y mo d h mi s n) :=
  inferInstanceAs (Decidable (_ ∧ _))

/-- A `time.Time` in UTC. -/
structure Time where
  year : Nat
  month : Nat
  day : Nat
  hour : Nat
  minute : Nat
  second : Nat
  nanosecond : Nat
  civil : IsCivil year month day hour minute second nanosecond
  deriving DecidableEq

/-- The days from the zero time to a year. -/
def daysBeforeYear (year : Nat) : Int :=
  let y : Int := year - 1
  365 * y + y / 4 - y / 100 + y / 400

/-- The days from the start of a year to a month. -/
def daysBeforeMonth (year month : Nat) : Nat :=
  ((List.range (month - 1)).map fun m => daysIn year (m + 1)).sum

namespace Time

/-- Nanoseconds since the zero time, the start of year 1. -/
def instant (t : Time) : Int :=
  let days := daysBeforeYear t.year + daysBeforeMonth t.year t.month + (t.day - 1)
  (((days * 24 + t.hour) * 60 + t.minute) * 60 + t.second) * 10 ^ 9 + t.nanosecond

def isZero (t : Time) : Bool := decide (t.instant = 0)

end Time

/-! ## Texts -/

/-- The fraction of a second as `RFC3339Nano` prints it. -/
def formatFraction (nanosecond : Nat) : Str :=
  if nanosecond = 0 then [] else 46 :: trimZeros (pad 9 nanosecond)

/-- `t.UTC().Format(time.RFC3339Nano)` -/
def format (t : Time) : Str :=
  pad 4 t.year ++ 45 :: (pad 2 t.month ++ 45 :: (pad 2 t.day ++ 84 :: (pad 2 t.hour ++
    58 :: (pad 2 t.minute ++ 58 :: (pad 2 t.second ++ (formatFraction t.nanosecond ++ [90]))))))

/-- The fraction of a second, of which nine digits count. -/
def parseFraction : Str → Option (Nat × Str)
  | 46 :: s =>
    let digits := s.takeWhile isDigit
    if digits = [] then none
    else some (readDigits (digits.take 9) * 10 ^ (9 - (digits.take 9).length), s.dropWhile isDigit)
  | s => some (0, s)

/-- `time.Parse(time.RFC3339Nano, s)` of a text in UTC. -/
def parseTime (s : Str) : Option Time := do
  let (year, s) ← readPadded 4 s
  let s ← expect 45 s
  let (month, s) ← readPadded 2 s
  let s ← expect 45 s
  let (day, s) ← readPadded 2 s
  let s ← expect 84 s
  let (hour, s) ← readPadded 2 s
  let s ← expect 58 s
  let (minute, s) ← readPadded 2 s
  let s ← expect 58 s
  let (second, s) ← readPadded 2 s
  let (nanosecond, s) ← parseFraction s
  let s ← expect 90 s
  if h : IsCivil year month day hour minute second nanosecond ∧ s = [] then
    some ⟨year, month, day, hour, minute, second, nanosecond, h.1⟩
  else none

theorem parseFraction_append {n : Nat} (hn : n < 10 ^ 9) :
    parseFraction (formatFraction n ++ [90]) = some (n, [90]) := by
  unfold formatFraction
  split
  · rename_i hzero
    rw [hzero]
    rfl
  · rename_i hpos
    have hsub := trimZeros_initial (pad 9 n)
    have hdigits : (trimZeros (pad 9 n)).all isDigit = true :=
      List.all_eq_true.mpr fun c hc =>
        List.all_eq_true.mp (all_isDigit_pad 9 n) c (hsub.subset hc)
    have hstop (c : Nat) (t : Str) (h : [90] = c :: t) : isDigit c = false := by
      obtain rfl := (List.cons.inj h).1
      rfl
    obtain ⟨htake, hdrop⟩ := span_run hdigits hstop
    have hlength : (trimZeros (pad 9 n)).length ≤ 9 := by
      simpa using hsub.length_le
    have hvalue := readDigits_trimZeros (pad 9 n)
    rw [length_pad, readDigits_pad hn] at hvalue
    have hne : trimZeros (pad 9 n) ≠ [] := by
      intro hnil
      rw [hnil] at hvalue
      simp only [readDigits, List.foldl_nil, Nat.zero_mul] at hvalue
      exact hpos hvalue.symm
    rw [List.cons_append, parseFraction]
    simp only [htake, hdrop, if_neg hne, List.take_of_length_le hlength, hvalue]

/-- What `format` prints is read back. -/
@[simp] theorem parseTime_format (t : Time) : parseTime (format t) = some t := by
  obtain ⟨year, month, day, hour, minute, second, nanosecond, hcivil⟩ := t
  obtain ⟨hy, hmo, hd, hh, hmi, hs, hn⟩ := hcivil
  have hdays := daysIn_le year month
  have hyear (s : Str) := readPadded_append (w := 4) (n := year) (by omega) s
  have hmonth (s : Str) := readPadded_append (w := 2) (n := month) (by omega) s
  have hday (s : Str) := readPadded_append (w := 2) (n := day) (by omega) s
  have hhour (s : Str) := readPadded_append (w := 2) (n := hour) (by omega) s
  have hminute (s : Str) := readPadded_append (w := 2) (n := minute) (by omega) s
  have hsecond (s : Str) := readPadded_append (w := 2) (n := second) (by omega) s
  simp only [parseTime, format, hyear, hmonth, hday, hhour, hminute, hsecond, expect_cons,
    parseFraction_append hn, bind, Option.bind]
  rw [dif_pos ⟨⟨hy, hmo, hd, hh, hmi, hs, hn⟩, trivial⟩]

theorem format_ne_nil (t : Time) : format t ≠ [] := by
  intro h
  have hlength := congrArg List.length h
  simp [format] at hlength

end WebSpider.Crawler
