import WebSpider.Text.Decimal
import Mathlib.Data.List.DropRight

/-!
# Numerals of fixed width

A numeral padded with zeros to a width, the reader that takes it off the front
of a text, and decimal fractions without their trailing zeros.
-/

namespace WebSpider.Text

/-- The last `w` decimal digits of `n`. -/
def pad : Nat → Nat → Str
  | 0, _ => []
  | w + 1, n => pad w (n / 10) ++ [48 + n % 10]

/-- Take a numeral of `w` digits off the front of a text. -/
def readPadded (w : Nat) (s : Str) : Option (Nat × Str) :=
  if (s.take w).length = w ∧ (s.take w).all isDigit = true then
    some (readDigits (s.take w), s.drop w)
  else none

/-- Take one character off the front of a text. -/
def expect (c : Nat) : Str → Option Str
  | [] => none
  | c' :: s => if c' = c then some s else none

@[simp] theorem expect_cons (c : Nat) (s : Str) : expect c (c :: s) = some s := if_pos rfl

@[simp] theorem length_pad (w n : Nat) : (pad w n).length = w := by
  induction w generalizing n with
  | zero => rfl
  | succ w ih => simp [pad, ih]

theorem all_isDigit_pad (w n : Nat) : (pad w n).all isDigit = true := by
  induction w generalizing n with
  | zero => rfl
  | succ w ih =>
    rw [pad, List.all_append, ih, Bool.true_and, List.all_cons, List.all_nil, Bool.and_true]
    have hlt := Nat.mod_lt n (show 0 < 10 by decide)
    simp only [isDigit, decide_eq_true_eq]
    omega

theorem readDigits_append_digit (s : Str) (c : Nat) :
    readDigits (s ++ [c]) = 10 * readDigits s + (c - 48) := by
  simp [readDigits]

theorem readDigits_pad {w n : Nat} (hn : n < 10 ^ w) : readDigits (pad w n) = n := by
  induction w generalizing n with
  | zero =>
    rw [Nat.pow_zero] at hn
    obtain rfl : n = 0 := by omega
    rfl
  | succ w ih =>
    rw [pad, readDigits_append_digit, ih (by rw [Nat.pow_succ] at hn; omega)]
    omega

theorem readPadded_append {w n : Nat} (hn : n < 10 ^ w) (s : Str) :
    readPadded w (pad w n ++ s) = some (n, s) := by
  have htake : (pad w n ++ s).take w = pad w n := by
    rw [List.take_append_of_le_length (by simp), List.take_of_length_le (by simp)]
  have hdrop : (pad w n ++ s).drop w = s := by
    rw [List.drop_append_of_le_length (by simp), List.drop_of_length_le (by simp)]
    rfl
  rw [readPadded, htake, hdrop, if_pos ⟨length_pad w n, all_isDigit_pad w n⟩, readDigits_pad hn]

/-! ## Fractions -/

/-- The digits without the zeros at their end. -/
def trimZeros (s : Str) : Str := s.rdropWhile fun c => decide (c = 48)

theorem trimZeros_initial (s : Str) : trimZeros s <+: s := List.rdropWhile_prefix _ _

/-- The digits that were trimmed are zeros. -/
theorem trimZeros_append_self (xs : Str) :
    xs = trimZeros xs ++ List.replicate (xs.length - (trimZeros xs).length) 48 := by
  induction xs using List.reverseRecOn with
  | nil => rfl
  | append_singleton xs c ih =>
    by_cases hc : c = 48
    · subst hc
      have htrim : trimZeros (xs ++ [48]) = trimZeros xs := List.rdropWhile_concat_pos _ _ _ rfl
      have hle := (trimZeros_initial xs).length_le
      have hlength : (xs ++ [48]).length - (trimZeros xs).length =
          xs.length - (trimZeros xs).length + 1 := by
        rw [List.length_append, List.length_singleton]
        omega
      rw [htrim, hlength, List.replicate_succ', ← List.append_assoc, ← ih]
    · have htrim : trimZeros (xs ++ [c]) = xs ++ [c] :=
        List.rdropWhile_concat_neg _ _ _ (by simpa using hc)
      rw [htrim, Nat.sub_self, List.replicate_zero, List.append_nil]

theorem readDigits_append_zeros (s : Str) (k : Nat) :
    readDigits (s ++ List.replicate k 48) = readDigits s * 10 ^ k := by
  induction k with
  | zero => rw [List.replicate_zero, List.append_nil, Nat.pow_zero, Nat.mul_one]
  | succ k ih =>
    rw [List.replicate_succ', ← List.append_assoc, readDigits_append_digit, ih, Nat.pow_succ,
      Nat.sub_self, Nat.add_zero, Nat.mul_comm 10, Nat.mul_assoc]

/-- Putting the zeros back gives the value of all the digits. -/
theorem readDigits_trimZeros (s : Str) :
    readDigits (trimZeros s) * 10 ^ (s.length - (trimZeros s).length) = readDigits s := by
  rw [← readDigits_append_zeros, ← trimZeros_append_self]

end WebSpider.Text
