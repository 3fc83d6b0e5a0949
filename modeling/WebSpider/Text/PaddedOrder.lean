import WebSpider.Text.Padded
import Mathlib.Data.List.Lex

/-!
# The order of numerals

Numerals of one width compare like the numbers. Fractions without their trailing
zeros, closed by a character above the digits, do so except when one is the other
cut off after some of its digits: then the shorter one is the greater text.
-/

namespace WebSpider.Text

/-! ## Texts with a common start -/

theorem append_lt_append_iff (common : Str) {xs ys : Str} :
    common ++ xs < common ++ ys ↔ xs < ys := by
  induction common with
  | nil => exact Iff.rfl
  | cons c common ih =>
    rw [List.cons_append, List.cons_append, List.cons_lt_cons_iff, ih]
    constructor
    · rintro (hlt | ⟨-, h⟩)
      · exact (lt_irrefl c hlt).elim
      · exact h
    · exact fun h => Or.inr ⟨rfl, h⟩

theorem cons_lt_cons_self {c : Nat} {xs ys : Str} : c :: xs < c :: ys ↔ xs < ys :=
  append_lt_append_iff [c]

/-- Texts neither of which starts the other compare at the first difference,
whatever follows. -/
theorem append_lt_of_apart {xs ys : Str} (h : ¬ xs <+: ys) (h' : ¬ ys <+: xs) (zs ws : Str) :
    xs ++ zs < ys ++ ws ↔ xs < ys := by
  induction xs generalizing ys with
  | nil => exact (h List.nil_prefix).elim
  | cons x xs ih =>
    cases ys with
    | nil => exact (h' List.nil_prefix).elim
    | cons y ys =>
      rw [List.cons_append, List.cons_append, List.cons_lt_cons_iff, List.cons_lt_cons_iff]
      by_cases hxy : x = y
      · subst hxy
        rw [List.cons_prefix_cons] at h h'
        rw [ih (fun hp => h ⟨rfl, hp⟩) fun hp => h' ⟨rfl, hp⟩]
      · simp only [hxy, false_and, or_false]

/-- The shorter of two texts is the greater one when it is closed by a character
above all of the longer. -/
theorem closed_lt_of_prefix {xs ys : Str} {c : Nat} (hstart : xs <+: ys) (hne : xs ≠ ys)
    (habove : ∀ y ∈ ys, y < c) : ys ++ [c] < xs ++ [c] := by
  obtain ⟨rest, rfl⟩ := hstart
  cases rest with
  | nil => exact (hne (List.append_nil xs).symm).elim
  | cons y rest =>
    rw [List.append_assoc, append_lt_append_iff, List.cons_append, List.cons_lt_cons_iff]
    exact Or.inl (habove y (by simp))

/-! ## Numerals of one width -/

/-- Numerals of one width compare like the numbers, and the texts after equal
numerals decide. -/
theorem pad_append_lt {w m n : Nat} (hm : m < 10 ^ w) (hn : n < 10 ^ w) (xs ys : Str) :
    pad w m ++ xs < pad w n ++ ys ↔ m < n ∨ m = n ∧ xs < ys := by
  induction w generalizing m n xs ys with
  | zero =>
    rw [Nat.pow_zero] at hm hn
    obtain rfl : m = 0 := by omega
    obtain rfl : n = 0 := by omega
    simp [pad]
  | succ w ih =>
    rw [Nat.pow_succ] at hm hn
    have hmod := Nat.mod_lt m (show 0 < 10 by decide)
    have hmod' := Nat.mod_lt n (show 0 < 10 by decide)
    have hdivMod := Nat.div_add_mod m 10
    have hdivMod' := Nat.div_add_mod n 10
    rw [pad, pad, List.append_assoc, List.append_assoc, List.singleton_append,
      List.singleton_append, ih (by omega) (by omega), List.cons_lt_cons_iff]
    by_cases htail : xs < ys
    · simp only [htail, and_true]
      omega
    · simp only [htail, and_false, or_false]
      omega

theorem pad_lt_iff {w m n : Nat} (hm : m < 10 ^ w) (hn : n < 10 ^ w) :
    pad w m < pad w n ↔ m < n := by
  have h := pad_append_lt hm hn [] []
  simpa using h

/-- The first digits of a numeral are the numeral of the number without the
others. -/
theorem pad_add (w k n : Nat) : pad (w + k) n = pad w (n / 10 ^ k) ++ pad k n := by
  induction k generalizing n with
  | zero => simp [pad]
  | succ k ih =>
    have hdiv : n / 10 / 10 ^ k = n / 10 ^ (k + 1) := by
      rw [Nat.div_div_eq_div_mul, Nat.pow_succ, Nat.mul_comm]
    rw [← Nat.add_assoc, pad, ih, hdiv, pad, List.append_assoc]

/-! ## Fractions -/

/-- `n` is `m` with its last digits replaced by zeros. -/
def Truncates (n m : Nat) : Prop := ∃ k, n = m / 10 ^ k * 10 ^ k

theorem Truncates.le {n m : Nat} (h : Truncates n m) : n ≤ m := by
  obtain ⟨k, rfl⟩ := h
  exact Nat.div_mul_le_self m (10 ^ k)

theorem truncates_zero {w m : Nat} (hm : m < 10 ^ w) : Truncates 0 m :=
  ⟨w, by rw [Nat.div_eq_of_lt hm, Nat.zero_mul]⟩

theorem trimZeros_append_zeros (xs : Str) (k : Nat) :
    trimZeros (xs ++ List.replicate k 48) = trimZeros xs := by
  induction k with
  | zero => rw [List.replicate_zero, List.append_nil]
  | succ k ih =>
    rw [List.replicate_succ', ← List.append_assoc, ← ih]
    exact List.rdropWhile_concat_pos _ _ _ rfl

theorem pad_zeros {k n : Nat} (hn : n % 10 ^ k = 0) : pad k n = List.replicate k 48 := by
  induction k generalizing n with
  | zero => rfl
  | succ k ih =>
    obtain ⟨q, rfl⟩ := Nat.dvd_of_mod_eq_zero hn
    have hsplit : 10 ^ (k + 1) * q = 10 * (10 ^ k * q) := by
      rw [Nat.pow_succ, Nat.mul_comm (10 ^ k), Nat.mul_assoc]
    rw [hsplit, pad, List.replicate_succ', Nat.mul_div_cancel_left _ (by decide : 0 < 10),
      ih (by simp), Nat.mul_mod_right]

/-- The trimmed digits of one fraction start those of another exactly when it is
the other cut off. -/
theorem trimZeros_prefix_iff {w n m : Nat} (hn : n < 10 ^ w) (hm : m < 10 ^ w) :
    trimZeros (pad w n) <+: trimZeros (pad w m) ↔ Truncates n m := by
  have hforward {n m : Nat} (hn : n < 10 ^ w) (hm : m < 10 ^ w)
      (h : trimZeros (pad w n) <+: trimZeros (pad w m)) : Truncates n m := by
    have hlength : (trimZeros (pad w n)).length ≤ w := by
      simpa using (trimZeros_initial (pad w n)).length_le
    obtain ⟨k, hk⟩ := Nat.exists_eq_add_of_le hlength
    have hvalue := readDigits_trimZeros (pad w n)
    rw [length_pad, readDigits_pad hn] at hvalue
    refine ⟨k, ?_⟩
    have hwhole : trimZeros (pad w n) <+: pad w m := h.trans (trimZeros_initial (pad w m))
    have hdigits : trimZeros (pad w n) = pad (trimZeros (pad w n)).length (m / 10 ^ k) := by
      have hparts := pad_add (trimZeros (pad w n)).length k m
      rw [← hk] at hparts
      rw [hparts] at hwhole
      obtain ⟨rest, hrest⟩ := hwhole
      exact (List.append_inj hrest (by simp)).1
    have hquotient : m / 10 ^ k < 10 ^ (trimZeros (pad w n)).length := by
      rw [Nat.div_lt_iff_lt_mul (Nat.pow_pos (by decide)), ← Nat.pow_add, ← hk]
      exact hm
    have hk' : w - (trimZeros (pad w n)).length = k := by omega
    rw [hk', hdigits, readDigits_pad hquotient] at hvalue
    exact hvalue.symm
  constructor
  · exact hforward hn hm
  · rintro ⟨k, hk⟩
    by_cases hwide : w ≤ k
    · -- everything is cut off
      have hzero : n = 0 := by
        have hle := Nat.pow_le_pow_right (show 0 < 10 by decide) hwide
        rw [hk, Nat.div_eq_of_lt (by omega), Nat.zero_mul]
      have htrim := trimZeros_append_zeros [] w
      rw [hzero, pad_zeros (Nat.zero_mod _), ← List.nil_append (List.replicate w 48), htrim]
      exact List.nil_prefix
    · obtain ⟨v, rfl⟩ := Nat.exists_eq_add_of_le' (Nat.le_of_not_le hwide)
      have hmod : n % 10 ^ k = 0 := by rw [hk, Nat.mul_mod_left]
      have hdiv : n / 10 ^ k = m / 10 ^ k := by
        rw [hk, Nat.mul_div_cancel _ (Nat.pow_pos (by decide))]
      have htrim : trimZeros (pad (v + k) n) = trimZeros (pad v (m / 10 ^ k)) := by
        rw [pad_add, pad_zeros hmod, trimZeros_append_zeros, hdiv]
      have hstart : trimZeros (pad (v + k) n) <+: pad (v + k) m := by
        rw [htrim, pad_add]
        exact (trimZeros_initial _).trans (List.prefix_append _ _)
      rcases List.prefix_or_prefix_of_prefix hstart (trimZeros_initial _) with h | h
      · exact h
      · -- then each is the other cut off
        have hle := (hforward hm hn h).le
        have hge := Truncates.le ⟨k, hk⟩
        obtain rfl : n = m := by omega
        exact List.prefix_rfl

/-- Trimming the zeros keeps the order of fractions neither of which is the other
cut off. -/
theorem trimZeros_lt_iff {w n m : Nat} (hn : n < 10 ^ w) (hm : m < 10 ^ w)
    (h : ¬ Truncates n m) (h' : ¬ Truncates m n) :
    trimZeros (pad w n) < trimZeros (pad w m) ↔ n < m := by
  rw [← trimZeros_prefix_iff hn hm] at h
  rw [← trimZeros_prefix_iff hm hn] at h'
  rw [← pad_lt_iff hn hm, ← append_lt_of_apart h h' (List.replicate (w -
    (trimZeros (pad w n)).length) 48) (List.replicate (w - (trimZeros (pad w m)).length) 48)]
  have hpad := trimZeros_append_self (pad w n)
  have hpad' := trimZeros_append_self (pad w m)
  rw [length_pad] at hpad hpad'
  rw [← hpad, ← hpad']

end WebSpider.Text
