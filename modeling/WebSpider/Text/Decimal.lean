import Mathlib.Algebra.Group.Int.Defs
import Mathlib.Algebra.GroupWithZero.Nat
import Mathlib.Data.List.TakeWhile

/-!
# Strings as code points, and decimal text

A string is the list of its code points. Lone surrogates are allowed, since a
decoder of escapes can produce them; `encodable` singles out the strings that
have a UTF-8 encoding. Decimal text is `Nat.toDigits 10` read as code points,
so the digit lemmas of the core library apply to it.
-/

namespace WebSpider.Text

/-- A string as the list of its code points. -/
abbrev Str := List Nat

/-- Equality of strings, by which membership in a list of them is decided. -/
instance instLawfulBEqStr : LawfulBEq Str := inferInstance

/-- The code points of a literal. -/
def lit (s : String) : Str := s.toList.map Char.toNat

def isSurrogate (c : Nat) : Bool := decide (0xD800 ≤ c ∧ c ≤ 0xDFFF)

/-- A string has a UTF-8 encoding when it contains no surrogate. -/
def encodable (s : Str) : Bool := s.all fun c => !isSurrogate c

def isDigit (c : Nat) : Bool := decide (48 ≤ c ∧ c ≤ 57)

/-- The decimal numeral of a natural number. -/
def decimal (n : Nat) : Str := (Nat.toDigits 10 n).map Char.toNat

/-- The value of a run of digits. -/
def readDigits (s : Str) : Nat := s.foldl (fun acc c => 10 * acc + (c - 48)) 0

/-- Reading a decimal numeral: some value when the text is a nonempty run of digits. -/
def readDecimal (s : Str) : Option Nat :=
  if s ≠ [] ∧ s.all isDigit = true then some (readDigits s) else none

theorem decimal_ne_nil (n : Nat) : decimal n ≠ [] := by
  simp [decimal, Nat.toDigits_ne_nil]

theorem isDigit_of_mem_decimal {n c : Nat} (hc : c ∈ decimal n) : isDigit c = true := by
  obtain ⟨d, hd, rfl⟩ := List.mem_map.mp hc
  have hDigit := Nat.isDigit_of_mem_toDigits (by decide) (by decide) hd
  simpa [Char.isDigit, isDigit, UInt32.le_iff_toNat_le] using hDigit

theorem all_isDigit_decimal (n : Nat) : (decimal n).all isDigit = true :=
  List.all_eq_true.mpr fun _ hc => isDigit_of_mem_decimal hc

@[simp] theorem readDigits_decimal (n : Nat) : readDigits (decimal n) = n := by
  have h : readDigits (decimal n) = Nat.ofDigitChars 10 (Nat.toDigits 10 n) 0 := by
    rw [readDigits, decimal, List.foldl_map, Nat.ofDigitChars_eq_foldl]
    rfl
  rw [h, Nat.ofDigitChars_ten_toDigits]

@[simp] theorem readDecimal_decimal (n : Nat) : readDecimal (decimal n) = some n := by
  simp only [readDecimal, ne_eq, decimal_ne_nil, not_false_eq_true, all_isDigit_decimal,
    and_self, if_true, readDigits_decimal]

theorem decimal_injective : Function.Injective decimal := by
  intro m n h
  have := congrArg readDigits h
  simpa using this

/-- A numeral of more than one digit does not start with `0`. -/
theorem decimal_head_ne_zero {n : Nat} (hn : 0 < n) :
    ∃ c rest, decimal n = c :: rest ∧ 49 ≤ c ∧ c ≤ 57 := by
  induction n using Nat.strongRecOn with
  | ind n ih =>
    by_cases hlt : n < 10
    · refine ⟨48 + n, [], ?_, by omega, by omega⟩
      simp [decimal, Nat.toDigits_of_lt_base hlt, Nat.toNat_digitChar_of_lt_ten hlt]
    · obtain ⟨c, rest, hc, hlo, hhi⟩ := ih (n / 10) (by omega) (by omega)
      refine ⟨c, rest ++ [(n % 10).digitChar.toNat], ?_, hlo, hhi⟩
      have hstep : decimal n = decimal (n / 10) ++ [(n % 10).digitChar.toNat] := by
        simp [decimal, Nat.toDigits_of_base_le (by decide : 1 < 10) (by omega : 10 ≤ n)]
      rw [hstep, hc, List.cons_append]

@[simp] theorem decimal_zero : decimal 0 = [48] := by
  simp [decimal]

/-! ## Runs at the front of a string -/

/-- The longest prefix of characters satisfying `p`, and the rest. -/
theorem span_run {p : Nat → Bool} {run rest : Str} (hrun : run.all p = true)
    (hrest : ∀ c t, rest = c :: t → p c = false) :
    (run ++ rest).takeWhile p = run ∧ (run ++ rest).dropWhile p = rest := by
  have hall : ∀ a ∈ run, p a = true := List.all_eq_true.mp hrun
  cases rest with
  | nil =>
    rw [List.append_nil]
    exact ⟨List.takeWhile_eq_self_iff.mpr hall, List.dropWhile_eq_nil_iff.mpr hall⟩
  | cons c t =>
    have hc : p c = false := hrest c t rfl
    refine ⟨?_, ?_⟩
    · rw [List.takeWhile_append_of_pos hall]
      simp [hc]
    · rw [List.dropWhile_append_of_pos hall]
      simp [hc]

/-- Text before the first separator is determined by the whole text. -/
theorem append_sep_inj {sep : Nat} {xs xs' ys ys' : Str} (hxs : sep ∉ xs) (hxs' : sep ∉ xs')
    (h : xs ++ sep :: ys = xs' ++ sep :: ys') : xs = xs' ∧ ys = ys' := by
  induction xs generalizing xs' with
  | nil =>
    cases xs' with
    | nil => exact ⟨rfl, by simpa using h⟩
    | cons c rest =>
      have hc : sep = c := (List.cons.inj h).1
      exact (hxs' (by simp [hc])).elim
  | cons a as ih =>
    cases xs' with
    | nil =>
      have ha : a = sep := (List.cons.inj h).1
      exact (hxs (by simp [ha])).elim
    | cons c rest =>
      obtain ⟨rfl, htail⟩ := List.cons.inj h
      obtain ⟨rfl, hys⟩ := ih (fun hm => hxs (by simp [hm])) (fun hm => hxs' (by simp [hm])) htail
      exact ⟨rfl, hys⟩

theorem notMem_decimal {sep : Nat} (hsep : isDigit sep = false) (n : Nat) : sep ∉ decimal n := by
  intro hmem
  rw [isDigit_of_mem_decimal hmem] at hsep
  cases hsep

end WebSpider.Text
