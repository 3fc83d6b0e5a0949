import Mathlib.Algebra.BigOperators.Intervals
import Mathlib.Algebra.Order.BigOperators.Group.Finset
import Mathlib.Data.Nat.Bitwise

/-!
# Bit counts, Hamming distance and digits of a fixed width

A number below `2 ^ (m * width)` is cut into `m` digits of `width` bits. The
bit count of the number is the sum of the bit counts of its digits, so the
Hamming distance of two numbers is the sum of the distances of corresponding
digits. Two numbers closer than `m` therefore agree on a whole digit.
-/

namespace WebSpider.Bits

/-- The number of ones among the lowest `w` bits. -/
def bitCountBelow (w n : Nat) : Nat := (List.range w).countP n.testBit

/-- The number of ones in the binary representation. -/
def bitCount (n : Nat) : Nat := bitCountBelow (n.log2 + 1) n

/-- The number of positions at which two numbers differ. -/
def hamming (a b : Nat) : Nat := bitCount (a ^^^ b)

/-- Digit `i` of `n` in base `2 ^ width`, the lowest digit first. -/
def digit (width n i : Nat) : Nat := (n >>> (i * width)) % 2 ^ width

theorem bitCountBelow_add (v w n : Nat) :
    bitCountBelow (v + w) n = bitCountBelow v n + bitCountBelow w (n >>> v) := by
  unfold bitCountBelow
  rw [List.range_add, List.countP_append, List.countP_map]
  congr 2
  funext i
  simp [Nat.testBit_shiftRight]

@[simp] theorem bitCountBelow_zero (w : Nat) : bitCountBelow w 0 = 0 := by
  simp [bitCountBelow, List.countP_eq_zero]

/-- Bits past the length of the number contribute nothing. -/
theorem bitCountBelow_of_lt {n v w : Nat} (hn : n < 2 ^ v) (hvw : v ≤ w) :
    bitCountBelow w n = bitCountBelow v n := by
  obtain ⟨d, rfl⟩ := Nat.exists_eq_add_of_le hvw
  have hzero : n >>> v = 0 := by
    rw [Nat.shiftRight_eq_div_pow]
    exact Nat.div_eq_of_lt hn
  rw [bitCountBelow_add, hzero, bitCountBelow_zero, Nat.add_zero]

theorem bitCount_eq_below {n w : Nat} (hn : n < 2 ^ w) : bitCount n = bitCountBelow w n := by
  have hlog : n < 2 ^ (n.log2 + 1) := Nat.lt_log2_self
  rcases Nat.le_total (n.log2 + 1) w with hle | hle
  · exact (bitCountBelow_of_lt hlog hle).symm
  · exact bitCountBelow_of_lt hn hle

@[simp] theorem bitCount_zero : bitCount 0 = 0 := bitCountBelow_zero _

/-- Only zero has no ones. -/
theorem bitCount_eq_zero {n : Nat} : bitCount n = 0 ↔ n = 0 := by
  constructor
  · intro h
    apply Nat.eq_of_testBit_eq
    intro i
    rw [Nat.zero_testBit]
    rcases Nat.lt_or_ge i (n.log2 + 1) with hi | hi
    · have := List.countP_eq_zero.mp h i (List.mem_range.mpr hi)
      simpa using this
    · have hlt : n < 2 ^ i := Nat.lt_of_lt_of_le Nat.lt_log2_self (Nat.pow_le_pow_right (by omega) hi)
      exact Nat.testBit_lt_two_pow hlt
  · rintro rfl
    exact bitCount_zero

theorem hamming_comm (a b : Nat) : hamming a b = hamming b a := by
  rw [hamming, Nat.xor_comm, hamming]

theorem hamming_self (a : Nat) : hamming a a = 0 := by
  simp [hamming]

theorem hamming_eq_zero {a b : Nat} : hamming a b = 0 ↔ a = b := by
  rw [hamming, bitCount_eq_zero, Nat.xor_eq_zero_iff]

/-- The positions at which two numbers of `w` bits differ. -/
theorem hamming_eq_card {a b w : Nat} (ha : a < 2 ^ w) (hb : b < 2 ^ w) :
    hamming a b = ((Finset.range w).filter fun i => a.testBit i ≠ b.testBit i).card := by
  rw [hamming, bitCount_eq_below (Nat.xor_lt_two_pow ha hb), bitCountBelow,
    List.countP_eq_length_filter]
  have hnodup : ((List.range w).filter (a ^^^ b).testBit).Nodup := List.nodup_range.filter _
  rw [← List.toFinset_card_of_nodup hnodup]
  congr 1
  ext i
  simp [Nat.testBit_xor]

theorem hamming_le_card {a b w : Nat} (ha : a < 2 ^ w) (hb : b < 2 ^ w) {S : Finset Nat}
    (hS : ∀ i < w, a.testBit i ≠ b.testBit i → i ∈ S) : hamming a b ≤ S.card := by
  rw [hamming_eq_card ha hb]
  apply Finset.card_le_card
  intro i hi
  obtain ⟨hlt, hne⟩ := Finset.mem_filter.mp hi
  exact hS i (Finset.mem_range.mp hlt) hne

/-! ## Digits -/

theorem digit_lt (width n i : Nat) : digit width n i < 2 ^ width :=
  Nat.mod_lt _ (Nat.two_pow_pos width)

theorem testBit_digit {width n i j : Nat} (hj : j < width) :
    (digit width n i).testBit j = n.testBit (i * width + j) := by
  rw [digit, Nat.testBit_mod_two_pow, Nat.testBit_shiftRight]
  simp [hj]

theorem digit_xor (width a b i : Nat) :
    digit width (a ^^^ b) i = digit width a i ^^^ digit width b i := by
  simp only [digit, Nat.shiftRight_xor_distrib, Nat.xor_mod_two_pow]

theorem bitCount_digit (width n i : Nat) :
    bitCount (digit width n i) = bitCountBelow width (n >>> (i * width)) := by
  rw [bitCount_eq_below (digit_lt width n i)]
  unfold bitCountBelow
  apply List.countP_congr
  intro j hj
  rw [digit, Nat.testBit_mod_two_pow]
  simp [List.mem_range.mp hj]

/-- The ones of a number are the ones of its digits. -/
theorem bitCountBelow_mul (m width n : Nat) :
    bitCountBelow (m * width) n = ∑ i ∈ Finset.range m, bitCount (digit width n i) := by
  induction m with
  | zero => simp [bitCountBelow]
  | succ m ih =>
    rw [Nat.succ_mul, bitCountBelow_add, ih, Finset.sum_range_succ, bitCount_digit]

theorem bitCount_eq_sum_digits {m width n : Nat} (hn : n < 2 ^ (m * width)) :
    bitCount n = ∑ i ∈ Finset.range m, bitCount (digit width n i) := by
  rw [bitCount_eq_below hn, bitCountBelow_mul]

theorem hamming_eq_sum_digits {m width a b : Nat} (ha : a < 2 ^ (m * width))
    (hb : b < 2 ^ (m * width)) :
    hamming a b = ∑ i ∈ Finset.range m, hamming (digit width a i) (digit width b i) := by
  rw [hamming, bitCount_eq_sum_digits (Nat.xor_lt_two_pow ha hb)]
  exact Finset.sum_congr rfl fun i _ => by rw [digit_xor, hamming]

/-- Put digits of `width` bits together, the highest one first. -/
def ofDigits (width : Nat) (ds : List Nat) : Nat := ds.foldl (fun n d => n <<< width ||| d) 0

/-- The number without its lowest `i + 1` digits, and the next digit. -/
theorem shiftLeft_or_digit (width n i : Nat) :
    (n >>> ((i + 1) * width)) <<< width ||| digit width n i = n >>> (i * width) := by
  apply Nat.eq_of_testBit_eq
  intro j
  rw [Nat.testBit_or, Nat.testBit_shiftLeft, Nat.testBit_shiftRight, Nat.testBit_shiftRight]
  by_cases hj : j < width
  · have hlow : ¬ width ≤ j := by omega
    rw [testBit_digit hj, decide_eq_false hlow, Bool.false_and, Bool.false_or]
  · have hpow : 2 ^ width ≤ 2 ^ j := Nat.pow_le_pow_right (by omega) (by omega)
    have hindex : (i + 1) * width + (j - width) = i * width + j := by
      rw [Nat.succ_mul]
      omega
    rw [Nat.testBit_lt_two_pow (Nat.lt_of_lt_of_le (digit_lt width n i) hpow), hindex,
      decide_eq_true (Nat.not_lt.mp hj), Bool.true_and, Bool.or_false]

/-- The top `k` of `m` digits are the number without the others. -/
theorem ofDigits_top {m width n : Nat} (hn : n < 2 ^ (m * width)) {k : Nat} (hk : k ≤ m) :
    ofDigits width ((List.range k).map fun i => digit width n (m - 1 - i)) =
      n >>> ((m - k) * width) := by
  induction k with
  | zero =>
    rw [Nat.sub_zero, Nat.shiftRight_eq_div_pow, Nat.div_eq_of_lt hn]
    rfl
  | succ k ih =>
    have hpos : m - k = m - 1 - k + 1 := by omega
    have hnext : m - (k + 1) = m - 1 - k := by omega
    rw [ofDigits, List.range_succ, List.map_append, List.foldl_append, ← ofDigits, ih (by omega),
      hpos, hnext]
    exact shiftLeft_or_digit width n (m - 1 - k)

/-- The digits of a number make the number. -/
theorem ofDigits_digits {m width n : Nat} (hn : n < 2 ^ (m * width)) :
    ofDigits width ((List.range m).map fun i => digit width n (m - 1 - i)) = n := by
  rw [ofDigits_top hn le_rfl, Nat.sub_self, Nat.zero_mul, Nat.shiftRight_zero]

/-- The distance of two numbers is the sum over their digits, the highest one first. -/
theorem hamming_eq_sum_zipWith {m width a b : Nat} (ha : a < 2 ^ (m * width))
    (hb : b < 2 ^ (m * width)) :
    hamming a b = (List.zipWith hamming
      ((List.range m).map fun i => digit width a (m - 1 - i))
      ((List.range m).map fun i => digit width b (m - 1 - i))).sum := by
  rw [hamming_eq_sum_digits ha hb, List.zipWith_map, List.zipWith_self,
    ← Finset.sum_range_reflect]
  rfl

/-- Pigeonhole: fewer differing positions than digits leave a digit untouched. -/
theorem exists_digit_eq {m width a b : Nat} (ha : a < 2 ^ (m * width))
    (hb : b < 2 ^ (m * width)) (h : hamming a b < m) :
    ∃ i < m, digit width a i = digit width b i := by
  by_contra hne
  have hall : ∀ i ∈ Finset.range m, 1 ≤ hamming (digit width a i) (digit width b i) := by
    intro i hi
    refine Nat.one_le_iff_ne_zero.mpr fun hzero => hne ⟨i, Finset.mem_range.mp hi, ?_⟩
    exact hamming_eq_zero.mp hzero
  have hsum : ∑ _i ∈ Finset.range m, 1 ≤ hamming a b := by
    rw [hamming_eq_sum_digits ha hb]
    exact Finset.sum_le_sum hall
  rw [← Finset.card_eq_sum_ones, Finset.card_range] at hsum
  omega

/-! ## One bit in each digit -/

/-- The lowest bit of each of `m` digits. -/
def comb (width : Nat) : Nat → Nat
  | 0 => 0
  | m + 1 => comb width m ||| 2 ^ (m * width)

theorem testBit_comb {width m i : Nat} :
    (comb width m).testBit i = true ↔ ∃ j < m, i = j * width := by
  induction m with
  | zero => simp [comb]
  | succ m ih =>
    rw [comb, Nat.testBit_or, Bool.or_eq_true, ih, Nat.testBit_two_pow, decide_eq_true_iff]
    constructor
    · rintro (⟨j, hj, hi⟩ | hi)
      · exact ⟨j, by omega, hi⟩
      · exact ⟨m, by omega, hi.symm⟩
    · rintro ⟨j, hj, hi⟩
      rcases Nat.lt_succ_iff_lt_or_eq.mp hj with hlt | rfl
      · exact Or.inl ⟨j, hlt, hi⟩
      · exact Or.inr hi.symm

theorem comb_lt {width : Nat} (hwidth : 0 < width) (m : Nat) : comb width m < 2 ^ (m * width) := by
  refine Nat.lt_pow_two_of_testBit _ fun i hi => Bool.eq_false_iff.mpr fun hbit => ?_
  obtain ⟨j, hj, rfl⟩ := testBit_comb.mp hbit
  have hlt := Nat.mul_lt_mul_of_pos_right hj hwidth
  omega

/-- A number with one bit in each digit is as far from zero as there are digits. -/
theorem hamming_zero_comb {width : Nat} (hwidth : 0 < width) (m : Nat) :
    hamming 0 (comb width m) ≤ m := by
  have himage : ((Finset.range m).image (· * width)).card ≤ m :=
    Finset.card_image_le.trans_eq (Finset.card_range m)
  refine le_trans (hamming_le_card (Nat.two_pow_pos _) (comb_lt hwidth m) fun i _ hne => ?_) himage
  rw [Nat.zero_testBit, ne_comm, Bool.ne_false_iff] at hne
  obtain ⟨j, hj, rfl⟩ := testBit_comb.mp hne
  exact Finset.mem_image_of_mem _ (Finset.mem_range.mpr hj)

@[simp] theorem digit_zero (width i : Nat) : digit width 0 i = 0 := by
  rw [digit, Nat.zero_shiftRight, Nat.zero_mod]

theorem digit_comb_ne_zero {width m i : Nat} (hwidth : 0 < width) (hi : i < m) :
    digit width (comb width m) i ≠ 0 := by
  intro hzero
  have hbit := testBit_digit (n := comb width m) (i := i) hwidth
  rw [hzero, Nat.zero_testBit] at hbit
  exact absurd (testBit_comb.mpr ⟨i, hi, Nat.add_zero _⟩) (Bool.eq_false_iff.mp hbit.symm)

/-- A narrower digit that starts inside a digit has none of the bits. -/
theorem digit_comb_eq_zero {width k : Nat} (hk : 2 ≤ k) (m : Nat) :
    digit width (comb (k * width) m) 1 = 0 := by
  apply Nat.eq_of_testBit_eq
  intro i
  rw [Nat.zero_testBit]
  by_cases hi : i < width
  · rw [testBit_digit hi, Nat.one_mul, Bool.eq_false_iff]
    intro hbit
    obtain ⟨j, -, hj⟩ := testBit_comb.mp hbit
    have hwide : 2 * width ≤ k * width := Nat.mul_le_mul_right _ hk
    cases j with
    | zero => omega
    | succ j =>
      have hle : k * width ≤ (j + 1) * (k * width) := Nat.le_mul_of_pos_left _ (by omega)
      omega
  · have hpow : 2 ^ width ≤ 2 ^ i := Nat.pow_le_pow_right (by omega) (by omega)
    exact Nat.testBit_lt_two_pow (Nat.lt_of_lt_of_le (digit_lt width _ _) hpow)

end WebSpider.Bits
