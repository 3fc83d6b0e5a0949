import WebSpider.Bits.Majority
import WebSpider.Processor.Dedupe

/-!
# How far an edit moves a fingerprint

Each bit of `simhash` is a majority of the tokens, a tie counting as zero. A bit changes
only when the edit changes at least as many tokens as its vote is strong
(`simhash_margin`).
-/

namespace WebSpider.Processor

open Text Bits

variable {F : Type} (tk : Toolkit F)

/-- The list `v` at the end of the loops of `simhash`. -/
def votes (text : Str) (bits : Nat) : List Int :=
  (tokens tk text).foldl (fun v token => vote (tokenHash tk token bits) v)
    (List.replicate bits 0)

/-! ## Votes -/

theorem length_vote (h : Nat) (v : List Int) : (vote h v).length = v.length := by
  rw [vote, List.length_map, List.length_zipIdx]

theorem getD_vote {h i : Nat} {v : List Int} (hi : i < v.length) :
    (vote h v).getD i 0 = ballot (h.testBit i) + v.getD i 0 := by
  have hlength : i < (vote h v).length := by rwa [length_vote]
  rw [List.getD_eq_getElem _ _ hlength, List.getD_eq_getElem _ _ hi]
  simp only [vote, List.getElem_map, List.getElem_zipIdx, Nat.zero_add]
  cases h.testBit i with
  | false => exact Int.add_comm _ _
  | true => exact Int.add_comm _ _

theorem getD_foldl_vote (bits : Nat) (ts : List Str) {i : Nat} {v : List Int} (hi : i < v.length) :
    (ts.foldl (fun v token => vote (tokenHash tk token bits) v) v).getD i 0 =
      margin (fun token => (tokenHash tk token bits).testBit i) ts + v.getD i 0 := by
  induction ts generalizing v with
  | nil => exact (Int.zero_add _).symm
  | cons t ts ih =>
    have hi' : i < (vote (tokenHash tk t bits) v).length := by rwa [length_vote]
    rw [List.foldl_cons, ih hi', getD_vote hi, margin_cons]
    omega

/-- The vote on a bit is the margin of the tokens whose hash has it. -/
theorem getD_votes (text : Str) {bits i : Nat} (hi : i < bits) :
    (votes tk text bits).getD i 0 =
      margin (fun token => (tokenHash tk token bits).testBit i) (tokens tk text) := by
  have hlength : i < (List.replicate bits (0 : Int)).length := by rwa [List.length_replicate]
  rw [votes, getD_foldl_vote tk bits _ hlength, List.getD_eq_getElem _ _ hlength,
    List.getElem_replicate]
  exact Int.add_zero _

/-! ## Bits -/

variable {tk}

theorem tokens_nil (hlower : tk.lower [] = []) : tokens tk [] = [] := by
  rw [tokens, hlower]
  rfl

theorem testBit_collect (bits : Nat) (v : List Int) (i : Nat) :
    (collect bits v).testBit i = true ↔ i < bits ∧ 0 < v.getD i 0 := by
  induction bits with
  | zero => simp [collect]
  | succ bits ih =>
    have hsucc : collect (bits + 1) v =
        if 0 < v.getD bits 0 then collect bits v ||| 1 <<< bits else collect bits v := by
      rw [collect, List.range_succ, List.foldl_append]
      rfl
    rw [hsucc]
    by_cases hi : i = bits
    · subst hi
      have hold : (collect i v).testBit i = false := by
        rw [Bool.eq_false_iff]
        exact fun h => Nat.lt_irrefl i (ih.mp h).1
      split
      · rename_i hpos
        rw [Nat.testBit_or, Nat.one_shiftLeft, Nat.testBit_two_pow_self, Bool.or_true]
        exact iff_of_true rfl ⟨Nat.lt_succ_self i, hpos⟩
      · rename_i hpos
        rw [hold]
        exact iff_of_false Bool.false_ne_true fun h => hpos h.2
    · have hlt : i < bits + 1 ↔ i < bits := by omega
      rw [hlt]
      split
      · rwa [Nat.testBit_or, Nat.one_shiftLeft, Nat.testBit_two_pow_of_ne (Ne.symm hi),
          Bool.or_false]
      · exact ih

/-- Bit `i` of a fingerprint is one when the vote on it is positive. -/
theorem testBit_simhash (hlower : tk.lower [] = []) (text : Str) {bits i : Nat} (hi : i < bits) :
    (simhash tk text bits).testBit i = true ↔ 0 < (votes tk text bits).getD i 0 := by
  rw [simhash]
  split
  · rename_i hnil
    rw [Nat.zero_testBit, getD_votes tk text hi, hnil, tokens_nil hlower]
    exact iff_of_false Bool.false_ne_true (Int.lt_irrefl 0)
  · change (collect bits (votes tk text bits)).testBit i = true ↔ _
    rw [testBit_collect, and_iff_right hi]

/-- An edit that removes and adds tokens changes a bit only when the vote on it is at
most the number of these tokens. -/
theorem simhash_margin (tk : Toolkit F) (hlower : tk.lower [] = []) (bits : Nat) (x y : Str)
    (kept removed added : Multiset Str)
    (hx : (tokens tk x : Multiset Str) = kept + removed)
    (hy : (tokens tk y : Multiset Str) = kept + added) :
    (∀ i < bits, (simhash tk x bits).testBit i ≠ (simhash tk y bits).testBit i →
      |(votes tk x bits).getD i 0| ≤ removed.card + added.card) ∧
    hamming (simhash tk x bits) (simhash tk y bits) ≤ ((Finset.range bits).filter fun i =>
      |(votes tk x bits).getD i 0| ≤ removed.card + added.card).card ∧
    (removed = 0 → added = 0 → simhash tk x bits = simhash tk y bits) ∧
    simhash tk x bits < 2 ^ bits ∧ simhash tk y bits < 2 ^ bits := by
  have hflip : ∀ i < bits, (simhash tk x bits).testBit i ≠ (simhash tk y bits).testBit i →
      |(votes tk x bits).getD i 0| ≤ removed.card + added.card := by
    intro i hi hne
    rw [getD_votes tk x hi, hx]
    refine abs_margin_le_of_flip fun hsame => hne (Bool.eq_iff_iff.mpr ?_)
    rwa [testBit_simhash hlower x hi, testBit_simhash hlower y hi, getD_votes tk x hi,
      getD_votes tk y hi, hx, hy]
  have hxlt := simhash_lt tk x bits
  have hylt := simhash_lt tk y bits
  refine ⟨hflip, hamming_le_card hxlt hylt fun i hi hne => ?_, ?_, hxlt, hylt⟩
  · exact Finset.mem_filter.mpr ⟨Finset.mem_range.mpr hi, hflip i hi hne⟩
  · rintro rfl rfl
    apply Nat.eq_of_testBit_eq
    intro i
    by_cases hi : i < bits
    · rw [Bool.eq_iff_iff, testBit_simhash hlower x hi, testBit_simhash hlower y hi,
        getD_votes tk x hi, getD_votes tk y hi, hx, hy]
    · have hpow : 2 ^ bits ≤ 2 ^ i := Nat.pow_le_pow_right (by omega) (by omega)
      rw [Nat.testBit_lt_two_pow (Nat.lt_of_lt_of_le hxlt hpow),
        Nat.testBit_lt_two_pow (Nat.lt_of_lt_of_le hylt hpow)]

/-- "a b c" becomes "C, a!": one token is removed. -/
theorem simhash_margin_sample :
    hamming (simhash (.ofTables [(lit "a", 7), (lit "b", 5), (lit "c", 13)] [] []) (lit "a b c") 4)
      (simhash (.ofTables [(lit "a", 7), (lit "b", 5), (lit "c", 13)] [] []) (lit "C, a!") 4) ≤
    ((Finset.range 4).filter fun i =>
      |(votes (.ofTables [(lit "a", 7), (lit "b", 5), (lit "c", 13)] [] [])
        (lit "a b c") 4).getD i 0| ≤ (1 + 0 : ℤ)).card :=
  (simhash_margin (.ofTables [(lit "a", 7), (lit "b", 5), (lit "c", 13)] [] []) rfl 4
    (lit "a b c") (lit "C, a!") ↑[lit "a", lit "c"] ↑[lit "b"] 0 (by decide) (by decide)).2.1

end WebSpider.Processor
