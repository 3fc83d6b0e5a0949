import WebSpider.Bits.Hamming
import WebSpider.Processor.World

/-!
# Fingerprints and their bands

`simhash` and `bucket_keys` of `dedupe.py`. The shift-and-mask loop of
`bucket_keys` yields the digits of the fingerprint from the most significant
band down (`bucketKeys_eq`), which turns the banding argument into the
pigeonhole lemma on digits.
-/

namespace WebSpider.Processor

open Text Bits

/-- The characters of `[a-z0-9_]`. -/
def isTokenChar (c : Nat) : Bool :=
  decide (97 ≤ c ∧ c ≤ 122) || decide (48 ≤ c ∧ c ≤ 57) || decide (c = 95)

section Simhash

variable {F : Type} (tk : Toolkit F)

/-- The maximal runs of token characters of the lower-case text. -/
def tokens (text : Str) : List Str :=
  ((tk.lower text).splitOnP fun c => !isTokenChar c).filter fun t => !t.isEmpty

def tokenHash (token : Str) (bits : Nat) : Nat := tk.blake2b token &&& ((1 <<< bits) - 1)

/-- One token's vote on every bit. -/
def vote (h : Nat) (v : List Int) : List Int :=
  v.zipIdx.map fun x => if h.testBit x.2 then x.1 + 1 else x.1 - 1

/-- The bits with a positive count. -/
def collect (bits : Nat) (v : List Int) : Nat :=
  (List.range bits).foldl (fun out i => if 0 < v.getD i 0 then out ||| 1 <<< i else out) 0

def simhash (text : Str) (bits : Nat) : Nat :=
  if text = [] then 0
  else collect bits ((tokens tk text).foldl (fun v token => vote (tokenHash tk token bits) v)
    (List.replicate bits 0))

theorem collect_lt (bits : Nat) (v : List Int) : collect bits v < 2 ^ bits := by
  unfold collect
  suffices haux : ∀ (is : List Nat) (out : Nat), (∀ i ∈ is, i < bits) → out < 2 ^ bits →
      is.foldl (fun out i => if 0 < v.getD i 0 then out ||| 1 <<< i else out) out < 2 ^ bits from
    haux _ 0 (fun i hi => List.mem_range.mp hi) (Nat.two_pow_pos bits)
  intro is
  induction is with
  | nil => exact fun out _ hout => hout
  | cons i is ih =>
    intro out his hout
    rw [List.foldl_cons]
    refine ih _ (fun j hj => his j (List.mem_cons_of_mem _ hj)) ?_
    split
    · have hi : i < bits := his i List.mem_cons_self
      apply Nat.or_lt_two_pow hout
      rw [Nat.one_shiftLeft]
      exact Nat.pow_lt_pow_right (by omega) hi
    · exact hout

theorem simhash_lt (text : Str) (bits : Nat) : simhash tk text bits < 2 ^ bits := by
  unfold simhash
  split
  · exact Nat.two_pow_pos bits
  · exact collect_lt bits _

end Simhash

/-! ## Bands -/

/-- The loop of `bucket_keys`: the top band, then the rest shifted up. -/
def bucketKeysLoop (bits width shift : Nat) : (rounds h : Nat) → List Nat
  | 0, _ => []
  | n + 1, h => (h >>> shift) :: bucketKeysLoop bits width shift n ((h <<< width) &&& ((1 <<< bits) - 1))

def bucketKeys (h bits bands : Nat) : Except PyExn (List Nat) :=
  if bands = 0 then .error .zeroDivisionError
  else if bits % bands ≠ 0 then .error .valueError
  else .ok (bucketKeysLoop bits (bits / bands) (bits - bits / bands) bands h)

/-- Shifting up by one band and masking moves every digit but the top one up. -/
theorem digit_shiftUp {bits width h j : Nat} (hj : (j + 1) * width + width ≤ bits) :
    digit width ((h <<< width) &&& ((1 <<< bits) - 1)) (j + 1) = digit width h j := by
  apply Nat.eq_of_testBit_eq
  intro t
  by_cases ht : t < width
  · have hidx : (j + 1) * width + t - width = j * width + t := by
      rw [Nat.succ_mul]
      omega
    have hlo : width ≤ (j + 1) * width + t := by
      rw [Nat.succ_mul]
      omega
    have hhi : (j + 1) * width + t < bits := by omega
    rw [testBit_digit ht, testBit_digit ht, Nat.one_shiftLeft, Nat.testBit_and,
      Nat.testBit_shiftLeft, Nat.testBit_two_pow_sub_one, hidx]
    simp [hlo, hhi]
  · have hpow : 2 ^ width ≤ 2 ^ t := Nat.pow_le_pow_right (by omega) (by omega)
    rw [Nat.testBit_lt_two_pow (Nat.lt_of_lt_of_le (digit_lt width _ _) hpow),
      Nat.testBit_lt_two_pow (Nat.lt_of_lt_of_le (digit_lt width _ _) hpow)]

theorem shiftUp_lt (bits width h : Nat) : (h <<< width) &&& ((1 <<< bits) - 1) < 2 ^ bits := by
  rw [Nat.one_shiftLeft, Nat.and_two_pow_sub_one_eq_mod]
  exact Nat.mod_lt _ (Nat.two_pow_pos bits)

/-- The loop reads the digits from the top down. -/
theorem bucketKeysLoop_eq {bands width n h : Nat} (hn : n ≤ bands) (hh : h < 2 ^ (bands * width)) :
    bucketKeysLoop (bands * width) width (bands * width - width) n h =
      (List.range n).map fun i => digit width h (bands - 1 - i) := by
  induction n generalizing h with
  | zero => rfl
  | succ n ih =>
    have hshift : bands * width - width = (bands - 1) * width := by rw [Nat.sub_mul, Nat.one_mul]
    have htop : h >>> (bands * width - width) = digit width h (bands - 1) := by
      have hmul : bands * width = (bands - 1) * width + width := by
        rw [← Nat.succ_mul]
        exact congrArg (· * width) (by omega)
      have hlt : h >>> ((bands - 1) * width) < 2 ^ width := by
        rw [Nat.shiftRight_eq_div_pow]
        apply Nat.div_lt_of_lt_mul
        rwa [← Nat.pow_add, ← hmul]
      rw [hshift, digit, Nat.mod_eq_of_lt hlt]
    rw [bucketKeysLoop, ih (by omega) (shiftUp_lt _ _ _), List.range_succ_eq_map, List.map_cons,
      List.map_map, htop]
    congr 1
    apply List.map_congr_left
    intro i hi
    have hin : i < n := List.mem_range.mp hi
    have hle : (bands - 1 - (i + 1) + 1) * width + width ≤ bands * width := by
      rw [← Nat.succ_mul]
      exact Nat.mul_le_mul_right _ (by omega)
    have hdigit := digit_shiftUp (h := h) hle
    rwa [show bands - 1 - (i + 1) + 1 = bands - 1 - i by omega] at hdigit

/-- `bucket_keys` returns the digits of the fingerprint, the top one first. -/
theorem bucketKeys_eq {bits bands h : Nat} (hpos : 0 < bands) (hdvd : bands ∣ bits)
    (hh : h < 2 ^ bits) :
    bucketKeys h bits bands =
      .ok ((List.range bands).map fun i => digit (bits / bands) h (bands - 1 - i)) := by
  obtain ⟨width, rfl⟩ := hdvd
  rw [bucketKeys, if_neg (by omega), if_neg (by rw [Nat.mul_mod_right]; simp),
    Nat.mul_div_cancel_left _ hpos, bucketKeysLoop_eq (Nat.le_refl _) hh]

/-- `bucket_keys` takes a fingerprint apart: its entries are digits of one width that make the
fingerprint, and the distance of two fingerprints is the sum over their entries. -/
theorem bucketKeys_decompose {bits bands a b : Nat} (hbands : 1 ≤ bands) (hdvd : bands ∣ bits)
    (ha : a < 2 ^ bits) (hb : b < 2 ^ bits) :
    ∃ ks ls, bucketKeys a bits bands = .ok ks ∧ bucketKeys b bits bands = .ok ls ∧
      ks.length = bands ∧ (∀ k ∈ ks, k < 2 ^ (bits / bands)) ∧
      ofDigits (bits / bands) ks = a ∧ hamming a b = (List.zipWith hamming ks ls).sum := by
  have hbits : bands * (bits / bands) = bits := Nat.mul_div_cancel' hdvd
  have hwidth {n : Nat} (hn : n < 2 ^ bits) : n < 2 ^ (bands * (bits / bands)) := by rwa [hbits]
  refine ⟨_, _, bucketKeys_eq hbands hdvd ha, bucketKeys_eq hbands hdvd hb, ?_, ?_, ?_, ?_⟩
  · rw [List.length_map, List.length_range]
  · intro k hk
    obtain ⟨i, -, rfl⟩ := List.mem_map.mp hk
    exact digit_lt _ a _
  · exact ofDigits_digits (hwidth ha)
  · exact hamming_eq_sum_zipWith (hwidth ha) (hwidth hb)

/-- Two fingerprints of 64 bits in four bands, three bits apart. -/
theorem bucketKeys_decompose_standard : 1 ≤ 4 ∧ 4 ∣ 64 ∧ ∃ ks ls,
    bucketKeys 0x0123456789ABCDEF 64 4 = .ok ks ∧
      bucketKeys 0x0123456689ABCDEC 64 4 = .ok ls ∧ ks.length = 4 ∧ (∀ k ∈ ks, k < 2 ^ (64 / 4)) ∧
      ofDigits (64 / 4) ks = 0x0123456789ABCDEF ∧
      hamming 0x0123456789ABCDEF 0x0123456689ABCDEC = (List.zipWith hamming ks ls).sum :=
  ⟨by decide, by decide,
    bucketKeys_decompose (by decide) (by decide) (by decide) (by decide)⟩

/-- Whether `bucket_keys` raises does not depend on the fingerprint. -/
theorem bucketKeys_ok {bits bands h : Nat} :
    (∃ keys, bucketKeys h bits bands = .ok keys) ↔ bands ≠ 0 ∧ bits % bands = 0 := by
  unfold bucketKeys
  constructor
  · rintro ⟨keys, hkeys⟩
    split at hkeys
    · cases hkeys
    · rename_i hbands
      split at hkeys
      · cases hkeys
      · rename_i hmod
        exact ⟨hbands, by omega⟩
  · rintro ⟨hbands, hmod⟩
    rw [if_neg hbands, if_neg (by omega)]
    exact ⟨_, rfl⟩

end WebSpider.Processor
