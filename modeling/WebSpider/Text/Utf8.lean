import WebSpider.Text.Decimal

/-!
# UTF-8

Bytes are natural numbers. `decodeRune` reads one character from the front of some bytes
as Go does: a byte that starts no character is an error of its own and is skipped alone.
What `encode` writes is read back (`runes_encode_append`), and an encoded text that is cut
off after some bytes is read as its characters that are complete, and an error for each
byte after them (`runes_take_encode`).
-/

namespace WebSpider.Text

/-! ## Characters as bytes -/

/-- The code points that UTF-8 encodes. -/
def isScalar (c : Nat) : Bool := decide (c < 0x110000) && !isSurrogate c

def encodeRune (c : Nat) : List Nat :=
  if c < 0x80 then [c]
  else if c < 0x800 then [0xC0 + c / 64, 0x80 + c % 64]
  else if c < 0x10000 then [0xE0 + c / 4096, 0x80 + c / 64 % 64, 0x80 + c % 64]
  else [0xF0 + c / 262144, 0x80 + c / 4096 % 64, 0x80 + c / 64 % 64, 0x80 + c % 64]

/-- The bytes of a text. -/
def encode (s : Str) : List Nat := s.flatMap encodeRune

/-- What a first byte announces: how many bytes follow, and the range of the next one. -/
def announced (b : Nat) : Option (Nat × Nat × Nat) :=
  if b < 0x80 then some (0, 0x80, 0xBF)
  else if b < 0xC2 then none
  else if b < 0xE0 then some (1, 0x80, 0xBF)
  else if b = 0xE0 then some (2, 0xA0, 0xBF)
  else if b = 0xED then some (2, 0x80, 0x9F)
  else if b < 0xF0 then some (2, 0x80, 0xBF)
  else if b = 0xF0 then some (3, 0x90, 0xBF)
  else if b < 0xF4 then some (3, 0x80, 0xBF)
  else if b = 0xF4 then some (3, 0x80, 0x8F)
  else none

/-- The bytes may follow a first byte that announced this. -/
def follows (n lo hi : Nat) (tail : List Nat) : Bool :=
  decide (tail.length = n) && tail.all (fun t => decide (0x80 ≤ t ∧ t ≤ 0xBF)) &&
    (tail.take 1).all fun t => decide (lo ≤ t ∧ t ≤ hi)

/-- The bits of a first byte that belong to the character, when `n` bytes follow. -/
def leadBits (n b : Nat) : Nat := if n = 0 then b else b % 2 ^ (6 - n)

/-- The character at the front of some bytes, if they start with one, and the number of
bytes read. -/
def decodeRune : List Nat → Option Nat × Nat
  | [] => (none, 0)
  | b :: s =>
    match announced b with
    | none => (none, 1)
    | some (n, lo, hi) =>
      if follows n lo hi (s.take n) then
        (some ((s.take n).foldl (fun acc t => acc * 64 + t % 64) (leadBits n b)), n + 1)
      else (none, 1)

/-- The characters of some bytes, of which there are at most `k`. -/
def scanRunes : Nat → List Nat → List (Option Nat)
  | 0, _ => []
  | _ + 1, [] => []
  | k + 1, b :: s => (decodeRune (b :: s)).1 :: scanRunes k ((b :: s).drop (decodeRune (b :: s)).2)

/-- The characters and errors of some bytes. -/
def decoded (s : List Nat) : List (Option Nat) := scanRunes s.length s

/-- The replacement character. -/
def replacement : Nat := 0xFFFD

/-- The text of some bytes, errors being replaced. -/
def runes (s : List Nat) : Str := (decoded s).map fun c => c.getD replacement

/-! ## One character -/

theorem length_encodeRune_le (c : Nat) : (encodeRune c).length ≤ 4 := by
  unfold encodeRune
  split_ifs <;> simp

theorem decodeRune_size_pos (b : Nat) (s : List Nat) : 0 < (decodeRune (b :: s)).2 := by
  rw [decodeRune]
  split
  · exact Nat.one_pos
  · split
    · exact Nat.succ_pos _
    · exact Nat.one_pos

/-- The bytes after a first byte, and the character that they make up with it. -/
def Completes (c b : Nat) (tail : List Nat) : Prop :=
  ∃ lo hi, announced b = some (tail.length, lo, hi) ∧ follows tail.length lo hi tail = true ∧
    tail.foldl (fun acc t => acc * 64 + t % 64) (leadBits tail.length b) = c

theorem completes_two {c : Nat} (h : 0x80 ≤ c) (h' : c < 0x800) :
    Completes c (0xC0 + c / 64) [0x80 + c % 64] := by
  refine ⟨0x80, 0xBF, by grind [announced], ?_, ?_⟩
  · simp [follows]
    omega
  · simp [leadBits]
    omega

/-- The range of the second byte keeps out what is shorter, and the surrogates. -/
theorem completes_three {c : Nat} (h : 0x800 ≤ c) (h' : c < 0x10000)
    (hsurrogate : ¬ (0xD800 ≤ c ∧ c ≤ 0xDFFF)) :
    Completes c (0xE0 + c / 4096) [0x80 + c / 64 % 64, 0x80 + c % 64] := by
  have hvalue : [0x80 + c / 64 % 64, 0x80 + c % 64].foldl (fun acc t => acc * 64 + t % 64)
      (leadBits 2 (0xE0 + c / 4096)) = c := by
    simp [leadBits]
    omega
  by_cases he0 : c < 0x1000
  · refine ⟨0xA0, 0xBF, by grind [announced], ?_, hvalue⟩
    simp [follows]
    omega
  · by_cases hed : 0xD000 ≤ c ∧ c < 0xE000
    · refine ⟨0x80, 0x9F, by grind [announced], ?_, hvalue⟩
      simp [follows]
      omega
    · refine ⟨0x80, 0xBF, by grind [announced], ?_, hvalue⟩
      simp [follows]
      omega

/-- The range of the second byte keeps out what is shorter, and what is too large. -/
theorem completes_four {c : Nat} (h : 0x10000 ≤ c) (h' : c < 0x110000) :
    Completes c (0xF0 + c / 262144)
      [0x80 + c / 4096 % 64, 0x80 + c / 64 % 64, 0x80 + c % 64] := by
  have hvalue : [0x80 + c / 4096 % 64, 0x80 + c / 64 % 64, 0x80 + c % 64].foldl
      (fun acc t => acc * 64 + t % 64) (leadBits 3 (0xF0 + c / 262144)) = c := by
    simp [leadBits]
    omega
  by_cases hf0 : c < 0x40000
  · refine ⟨0x90, 0xBF, by grind [announced], ?_, hvalue⟩
    simp [follows]
    omega
  · by_cases hf4 : c < 0x100000
    · refine ⟨0x80, 0xBF, by grind [announced], ?_, hvalue⟩
      simp [follows]
      omega
    · refine ⟨0x80, 0x8F, by grind [announced], ?_, hvalue⟩
      simp [follows]
      omega

/-- The first byte of an encoded character announces the others. -/
theorem encodeRune_completes {c : Nat} (hc : isScalar c = true) :
    ∃ b tail, encodeRune c = b :: tail ∧ Completes c b tail := by
  have hscalar : c < 0x110000 ∧ ¬ (0xD800 ≤ c ∧ c ≤ 0xDFFF) := by
    simpa only [isScalar, isSurrogate, Bool.and_eq_true, Bool.not_eq_true', decide_eq_true_eq,
      decide_eq_false_iff_not] using hc
  unfold encodeRune
  by_cases h1 : c < 0x80
  · rw [if_pos h1]
    exact ⟨c, [], rfl, 0x80, 0xBF, by simp [announced, h1], by decide, rfl⟩
  · rw [if_neg h1]
    by_cases h2 : c < 0x800
    · rw [if_pos h2]
      exact ⟨_, _, rfl, completes_two (by omega) h2⟩
    · rw [if_neg h2]
      by_cases h3 : c < 0x10000
      · rw [if_pos h3]
        exact ⟨_, _, rfl, completes_three (by omega) h3 hscalar.2⟩
      · rw [if_neg h3]
        exact ⟨_, _, rfl, completes_four (by omega) hscalar.1⟩

/-- An encoded character is read back, whatever follows it. -/
theorem decodeRune_encodeRune {c : Nat} (hc : isScalar c = true) (rest : List Nat) :
    decodeRune (encodeRune c ++ rest) = (some c, (encodeRune c).length) := by
  obtain ⟨b, tail, heq, lo, hi, hlead, hfollows, hvalue⟩ := encodeRune_completes hc
  rw [heq, List.cons_append, decodeRune]
  simp only [hlead, List.take_left, hfollows, if_true, hvalue, List.length_cons]

/-! ## Texts -/

/-- More room than bytes makes no difference. -/
theorem scanRunes_eq {k : Nat} {s : List Nat} (h : s.length ≤ k) : scanRunes k s = decoded s := by
  induction k using Nat.strongRecOn generalizing s with
  | ind k ih =>
    cases s with
    | nil => cases k <;> rfl
    | cons b s =>
      obtain ⟨k, rfl⟩ := Nat.exists_eq_add_of_le' (Nat.lt_of_lt_of_le (Nat.succ_pos s.length) h)
      have hsize := decodeRune_size_pos b s
      have hdrop : ((b :: s).drop (decodeRune (b :: s)).2).length ≤ s.length := by
        rw [List.length_drop, List.length_cons]
        omega
      rw [List.length_cons] at h
      change _ :: scanRunes k _ = _ :: scanRunes s.length _
      by_cases hk : k = s.length
      · rw [hk]
      · rw [ih k (by omega) (by omega), ih s.length (by omega) hdrop]

theorem decoded_cons (b : Nat) (s : List Nat) : decoded (b :: s) =
    (decodeRune (b :: s)).1 :: decoded ((b :: s).drop (decodeRune (b :: s)).2) := by
  have hsize := decodeRune_size_pos b s
  have hdrop : ((b :: s).drop (decodeRune (b :: s)).2).length ≤ s.length := by
    rw [List.length_drop, List.length_cons]
    omega
  rw [← scanRunes_eq hdrop]
  rfl

theorem decoded_encodeRune_append {c : Nat} (hc : isScalar c = true) (rest : List Nat) :
    decoded (encodeRune c ++ rest) = some c :: decoded rest := by
  have hread := decodeRune_encodeRune hc rest
  obtain ⟨b, tail, heq, -⟩ := encodeRune_completes hc
  rw [heq, List.cons_append] at hread ⊢
  rw [decoded_cons, hread, ← List.cons_append, List.drop_left]

/-- What is encoded is read back, whatever follows it. -/
theorem decoded_encode_append {s : Str} (hs : s.all isScalar = true) (rest : List Nat) :
    decoded (encode s ++ rest) = s.map some ++ decoded rest := by
  induction s with
  | nil => rfl
  | cons c s ih =>
    rw [List.all_cons, Bool.and_eq_true] at hs
    rw [encode, List.flatMap_cons, List.append_assoc, decoded_encodeRune_append hs.1]
    exact congrArg (some c :: ·) (ih hs.2)

theorem runes_encode_append {s : Str} (hs : s.all isScalar = true) (rest : List Nat) :
    runes (encode s ++ rest) = s ++ runes rest := by
  rw [runes, decoded_encode_append hs, List.map_append, List.map_map]
  exact congrArg (· ++ _) (List.map_id s)

@[simp] theorem runes_encode {s : Str} (hs : s.all isScalar = true) : runes (encode s) = s := by
  have h := runes_encode_append hs []
  rwa [List.append_nil, show runes [] = [] from rfl, List.append_nil] at h

theorem encode_ascii {s : Str} (hs : ∀ c ∈ s, c < 0x80) : encode s = s := by
  induction s with
  | nil => rfl
  | cons c s ih =>
    rw [encode, List.flatMap_cons, encodeRune, if_pos (hs c List.mem_cons_self)]
    exact congrArg (c :: ·) (ih fun d hd => hs d (List.mem_cons_of_mem _ hd))

theorem runes_ascii {s : Str} (hs : ∀ c ∈ s, c < 0x80) : runes s = s := by
  have hscalar : s.all isScalar = true := by
    apply List.all_eq_true.mpr
    intro c hc
    have := hs c hc
    simp [isScalar, isSurrogate]
    omega
  have h := runes_encode hscalar
  rwa [encode_ascii hs] at h

/-- Bytes have a text unless there are none. -/
theorem runes_eq_nil {s : List Nat} : runes s = [] ↔ s = [] := by
  cases s with
  | nil => exact iff_of_true rfl rfl
  | cons b s =>
    rw [runes, decoded_cons]
    exact iff_of_false (by simp) (by simp)

/-! ## Bytes as texts -/

theorem isScalar_of_lt {c : Nat} (h : c < 0xD800) : isScalar c = true := by
  simp [isScalar, isSurrogate]
  omega

/-- The first bytes of four, with the ranges that keep out what is shorter or too large. -/
theorem announced_four {b lo hi : Nat} (h : announced b = some (3, lo, hi)) :
    b = 0xF0 ∧ lo = 0x90 ∨ 0xF0 < b ∧ b < 0xF4 ∨ b = 0xF4 ∧ hi = 0x8F := by
  grind [announced]

/-- What a first byte and the bytes it announces make up is no surrogate. -/
theorem isScalar_completes {b n lo hi : Nat} {tail : List Nat}
    (hlead : announced b = some (n, lo, hi)) (hfollows : follows n lo hi tail = true) :
    isScalar (tail.foldl (fun acc t => acc * 64 + t % 64) (leadBits n b)) = true := by
  simp only [follows, Bool.and_eq_true, decide_eq_true_eq, List.all_eq_true] at hfollows
  obtain ⟨⟨hlength, htail⟩, hfirst⟩ := hfollows
  have hn : n ≤ 3 := by grind [announced]
  match tail, n with
  | [], 0 =>
    have : b < 0x80 := by grind [announced]
    apply isScalar_of_lt
    simp [leadBits]
    omega
  | [t], 1 =>
    apply isScalar_of_lt
    simp [leadBits]
    omega
  | [t, u], 2 =>
    -- only one first byte comes near the surrogates, and its second byte keeps off them
    have hsurrogate : b % 16 = 13 → t ≤ 0x9F := by
      have := hfirst t (by simp)
      grind [announced]
    have := htail t (by simp)
    simp [leadBits, isScalar, isSurrogate]
    omega
  | [t, u, v], 3 =>
    have hb := announced_four hlead
    have ht := hfirst t (by simp)
    have := htail t (by simp)
    simp [leadBits, isScalar, isSurrogate]
    omega

theorem isScalar_decodeRune {s : List Nat} {c : Nat} (h : (decodeRune s).1 = some c) :
    isScalar c = true := by
  unfold decodeRune at h
  split at h
  · cases h
  · split at h
    · cases h
    · rename_i hlead
      split at h
      · rename_i hfollows
        cases h
        exact isScalar_completes hlead hfollows
      · cases h

/-- The text of any bytes can be encoded. -/
theorem isScalar_runes (s : List Nat) : (runes s).all isScalar = true := by
  suffices haux : ∀ k s, ∀ o ∈ scanRunes k s, isScalar (o.getD replacement) = true by
    rw [List.all_eq_true]
    intro c hc
    obtain ⟨o, ho, rfl⟩ := List.mem_map.mp hc
    exact haux _ _ o ho
  intro k
  induction k with
  | zero =>
    intro s o ho
    cases ho
  | succ k ih =>
    intro s o ho
    cases s with
    | nil => cases ho
    | cons b s =>
      rcases List.mem_cons.mp ho with rfl | ho
      · cases hread : (decodeRune (b :: s)).1 with
        | none => decide
        | some c => exact isScalar_decodeRune hread
      · exact ih _ o ho

theorem encodable_of_isScalar {s : Str} (h : s.all isScalar = true) : encodable s = true := by
  rw [encodable, List.all_eq_true]
  rw [List.all_eq_true] at h
  intro c hc
  have := h c hc
  rw [isScalar, Bool.and_eq_true] at this
  exact this.2

/-! ## Texts that are cut off -/

/-- Bytes that start no character are errors of their own. -/
theorem decoded_strays {s : List Nat} (hs : ∀ t ∈ s, 0x80 ≤ t ∧ t ≤ 0xBF) :
    decoded s = List.replicate s.length none := by
  induction s with
  | nil => rfl
  | cons b s ih =>
    have hb := hs b List.mem_cons_self
    have hnone : announced b = none := by grind [announced]
    have hread : decodeRune (b :: s) = (none, 1) := by
      rw [decodeRune]
      simp only [hnone]
    rw [decoded_cons, hread, List.drop_one, List.tail_cons, ih fun t ht =>
      hs t (List.mem_cons_of_mem _ ht)]
    rfl

/-- An encoded character that is not complete is as many errors as bytes. -/
theorem decoded_cut {c : Nat} (hc : isScalar c = true) {p : List Nat} (hp : p <+: encodeRune c)
    (hne : p ≠ encodeRune c) : decoded p = List.replicate p.length none := by
  obtain ⟨b, tail, heq, lo, hi, hlead, hfollows, -⟩ := encodeRune_completes hc
  rw [heq] at hp hne
  cases p with
  | nil => rfl
  | cons b' p =>
    obtain ⟨rfl, hpart⟩ := List.cons_prefix_cons.mp hp
    have hlength : p.length < tail.length := by
      apply Nat.lt_of_le_of_ne hpart.length_le
      intro hsame
      exact hne (by rw [hpart.eq_of_length hsame])
    have hread : decodeRune (b' :: p) = (none, 1) := by
      rw [decodeRune]
      have hshort : follows tail.length lo hi (p.take tail.length) = false := by
        have : min tail.length p.length ≠ tail.length := by omega
        simp [follows, this]
      simp only [hlead, hshort, Bool.false_eq_true, if_false]
    have htail : ∀ t ∈ tail, 0x80 ≤ t ∧ t ≤ 0xBF := by
      simp only [follows, Bool.and_eq_true, List.all_eq_true, decide_eq_true_eq] at hfollows
      exact hfollows.1.2
    rw [decoded_cons, hread, List.drop_one, List.tail_cons, decoded_strays fun t ht =>
      htail t (hpart.subset ht)]
    rfl

/-- The first bytes of an encoded text: complete characters, then part of the next one. -/
theorem take_encode (s : Str) (n : Nat) : ∃ k ≤ s.length, ∃ p,
    (encode s).take n = encode (s.take k) ++ p ∧
      (k = s.length ∧ p = [] ∨
        ∃ c, s[k]? = some c ∧ p <+: encodeRune c ∧ p ≠ encodeRune c ∧
          n < (encode (s.take (k + 1))).length) := by
  induction s generalizing n with
  | nil => exact ⟨0, Nat.le_refl 0, [], by simp [encode], Or.inl ⟨rfl, rfl⟩⟩
  | cons c s ih =>
    have hcons (u : Str) : encode (c :: u) = encodeRune c ++ encode u := List.flatMap_cons
    by_cases hn : n < (encodeRune c).length
    · refine ⟨0, Nat.zero_le _, (encodeRune c).take n, ?_, Or.inr ⟨c, rfl, List.take_prefix _ _, ?_, ?_⟩⟩
      · rw [hcons, List.take_append_of_le_length hn.le]
        rfl
      · intro hsame
        have := congrArg List.length hsame
        rw [List.length_take] at this
        omega
      · rw [List.take_succ_cons, hcons, List.length_append]
        omega
    · obtain ⟨k, hk, p, htake, hcases⟩ := ih (n - (encodeRune c).length)
      refine ⟨k + 1, Nat.succ_le_succ hk, p, ?_, ?_⟩
      · rw [hcons, List.take_append, List.take_of_length_le (by omega), htake, List.take_succ_cons,
          hcons, List.append_assoc]
      · rcases hcases with ⟨rfl, rfl⟩ | ⟨c', hget, hp, hne, hlt⟩
        · exact Or.inl ⟨rfl, rfl⟩
        · refine Or.inr ⟨c', by simpa using hget, hp, hne, ?_⟩
          rw [List.take_succ_cons, hcons, List.length_append]
          omega

/-- A text that is cut off after `n` bytes is read as the characters that fit into them,
and a replacement character for each byte that is left, of which there are at most three. -/
theorem runes_take_encode {s : Str} (hs : s.all isScalar = true) (n : Nat) :
    ∃ k ≤ s.length, ∃ j ≤ 3,
      runes ((encode s).take n) = s.take k ++ List.replicate j replacement ∧
      (encode (s.take k)).length + j = min n (encode s).length ∧
      (k < s.length → n < (encode (s.take (k + 1))).length) := by
  obtain ⟨k, hk, p, htake, hcases⟩ := take_encode s n
  have hscalar : (s.take k).all isScalar = true := by
    rw [List.all_eq_true] at hs ⊢
    exact fun c hc => hs c (List.mem_of_mem_take hc)
  have hlength := congrArg List.length htake
  rw [List.length_take, List.length_append] at hlength
  rw [htake, runes_encode_append hscalar]
  rcases hcases with ⟨rfl, rfl⟩ | ⟨c, hget, hp, hne, hlt⟩
  · exact ⟨_, Nat.le_refl _, 0, Nat.zero_le 3, rfl, hlength.symm,
      fun h => absurd h (Nat.lt_irrefl _)⟩
  · have hc : isScalar c = true := List.all_eq_true.mp hs c (List.mem_of_getElem? hget)
    have hshort : p.length < (encodeRune c).length := by
      apply Nat.lt_of_le_of_ne hp.length_le
      exact fun hsame => hne (hp.eq_of_length hsame)
    have hle := length_encodeRune_le c
    refine ⟨k, hk, p.length, by omega, ?_, hlength.symm, fun _ => hlt⟩
    rw [runes, decoded_cut hc hp hne, List.map_replicate]
    rfl

end WebSpider.Text
