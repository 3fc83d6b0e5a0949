import WebSpider.Text.Decimal
import Mathlib.Data.List.Infix

/-!
# Patterns of LIKE

A percent sign stands for any text, an underscore for any character, and a backslash
makes the character after it stand for itself. A text between two percent signs matches
the texts that contain it, and only those, exactly when it has none of these characters
(`contains_iff_plain`).
-/

namespace WebSpider.Text.Like

inductive Token where
  | any
  | one
  | char (c : Nat)
  deriving DecidableEq

/-- The tokens of a pattern; one that ends in the escape character has none. -/
def tokens : Str → Option (List Token)
  | [] => some []
  | [92] => none
  | 92 :: c :: p => (tokens p).map (Token.char c :: ·)
  | 37 :: p => (tokens p).map (Token.any :: ·)
  | 95 :: p => (tokens p).map (Token.one :: ·)
  | c :: p => (tokens p).map (Token.char c :: ·)

/-- The text matches the tokens. -/
def likes : List Token → Str → Bool
  | [], t => t.isEmpty
  | .any :: ts, t => t.tails.any (likes ts)
  | .one :: ts, t => match t with
    | [] => false
    | _ :: t => likes ts t
  | .char c :: ts, t => match t with
    | [] => false
    | x :: t => decide (x = c) && likes ts t

def isWild (c : Nat) : Bool := decide (c = 37 ∨ c = 95 ∨ c = 92)

/-- The text has no character with a meaning in patterns. -/
def plain (s : Str) : Bool := s.all fun c => !isWild c

theorem likes_any {ts : List Token} {t : Str} :
    likes (.any :: ts) t = true ↔ ∃ pre post, t = pre ++ post ∧ likes ts post = true := by
  rw [likes, List.any_eq_true]
  constructor
  · rintro ⟨post, hpost, hlikes⟩
    obtain ⟨pre, rfl⟩ := (List.mem_tails _ _).mp hpost
    exact ⟨pre, post, rfl, hlikes⟩
  · rintro ⟨pre, post, rfl, hlikes⟩
    exact ⟨post, (List.mem_tails _ _).mpr (List.suffix_append pre post), hlikes⟩

theorem likes_chars {s t : Str} {ts : List Token} :
    likes (s.map .char ++ ts) t = true ↔ ∃ post, t = s ++ post ∧ likes ts post = true := by
  induction s generalizing t with
  | nil => simp
  | cons c s ih =>
    rw [List.map_cons, List.cons_append]
    cases t with
    | nil => simp [likes]
    | cons x t =>
      rw [likes, Bool.and_eq_true, decide_eq_true_eq, ih]
      constructor
      · rintro ⟨rfl, post, rfl, hlikes⟩
        exact ⟨post, rfl, hlikes⟩
      · rintro ⟨post, heq, hlikes⟩
        obtain ⟨rfl, rfl⟩ := List.cons.inj heq
        exact ⟨rfl, post, rfl, hlikes⟩

/-- Characters between two percent signs match the texts that contain them. -/
theorem likes_contains {s t : Str} :
    likes (.any :: (s.map .char ++ [.any])) t = true ↔ s <:+: t := by
  have hall (post : Str) : likes [.any] post = true :=
    likes_any.mpr ⟨post, [], (List.append_nil post).symm, rfl⟩
  rw [likes_any]
  constructor
  · rintro ⟨pre, rest, rfl, hlikes⟩
    obtain ⟨post, rfl, -⟩ := likes_chars.mp hlikes
    exact ⟨pre, post, List.append_assoc pre s post⟩
  · rintro ⟨pre, post, rfl⟩
    refine ⟨pre, s ++ post, List.append_assoc pre s post, ?_⟩
    exact likes_chars.mpr ⟨post, rfl, hall post⟩

theorem tokens_plain {s : Str} (hs : plain s = true) (p : Str) :
    tokens (s ++ p) = (tokens p).map (s.map Token.char ++ ·) := by
  induction s with
  | nil => simp
  | cons c s ih =>
    simp only [plain, List.all_cons, Bool.and_eq_true, Bool.not_eq_true', isWild,
      decide_eq_false_iff_not, not_or] at hs
    obtain ⟨⟨hpercent, hunderscore, hbackslash⟩, hs⟩ := hs
    rw [List.cons_append, tokens, ih (by simpa [plain, isWild] using hs)]
    · simp [Option.map_map, Function.comp_def]
    all_goals simp [hpercent, hunderscore, hbackslash]

/-! ## Texts with wildcards -/

/-- A short text that matches the tokens. -/
def simplest : List Token → Str
  | [] => []
  | .any :: ts => simplest ts
  | .one :: ts => 37 :: simplest ts
  | .char c :: ts => c :: simplest ts

theorem likes_simplest (ts : List Token) : likes ts (simplest ts) = true := by
  induction ts with
  | nil => rfl
  | cons token ts ih =>
    cases token with
    | any => exact likes_any.mpr ⟨[], simplest ts, rfl, ih⟩
    | one => exact ih
    | char c =>
      rw [simplest, likes, ih]
      simp

/-- The simplest text that a pattern matches is no longer than what stands before its last
percent sign, and the same only if that is plain. -/
theorem simplest_tokens (s : Str) : ∃ ts, tokens (s ++ [37]) = some ts ∧
    (simplest ts).length ≤ s.length ∧ (simplest ts = s → plain s = true) ∧
    ∀ c ∈ simplest ts, c ∈ s ∨ c = 37 := by
  induction s using tokens.induct with
  | case1 => exact ⟨[.any], rfl, Nat.le_refl 0, fun _ => rfl, by simp [simplest]⟩
  | case2 => exact ⟨[.char 37], rfl, Nat.le_refl 1, by simp [simplest], by simp [simplest]⟩
  | case3 c p ih =>
    obtain ⟨ts, htokens, hlength, -, hmem⟩ := ih
    refine ⟨.char c :: ts, ?_, ?_, fun heq => ?_, fun c' hc' => ?_⟩
    · simp [tokens, htokens]
    · simp only [simplest, List.length_cons]
      omega
    · have := congrArg List.length heq
      simp only [simplest, List.length_cons] at this
      omega
    · rcases List.mem_cons.mp hc' with rfl | hc'
      · simp
      · rcases hmem c' hc' with h | h
        · simp [h]
        · exact Or.inr h
  | case4 p ih =>
    obtain ⟨ts, htokens, hlength, -, hmem⟩ := ih
    refine ⟨.any :: ts, ?_, ?_, fun heq => ?_, fun c' hc' => ?_⟩
    · simp [tokens, htokens]
    · simp only [simplest, List.length_cons]
      omega
    · have := congrArg List.length heq
      simp only [simplest, List.length_cons] at this
      omega
    · exact (hmem c' hc').imp_left (List.mem_cons_of_mem 37)
  | case5 p ih =>
    obtain ⟨ts, htokens, hlength, -, hmem⟩ := ih
    refine ⟨.one :: ts, ?_, ?_, ?_, fun c' hc' => ?_⟩
    · simp [tokens, htokens]
    · simp only [simplest, List.length_cons]
      omega
    · simp [simplest]
    · rcases List.mem_cons.mp hc' with rfl | hc'
      · exact Or.inr rfl
      · exact (hmem c' hc').imp_left (List.mem_cons_of_mem 95)
  | case6 c p hlast hescape hpercent hunderscore ih =>
    obtain ⟨ts, htokens, hlength, hplain, hmem⟩ := ih
    have hbackslash : c ≠ 92 := by
      rintro rfl
      cases p with
      | nil => exact hlast rfl rfl
      | cons c' p => exact hescape c' p rfl rfl
    refine ⟨.char c :: ts, ?_, ?_, fun heq => ?_, fun c' hc' => ?_⟩
    · rw [List.cons_append, tokens, htokens]
      · rfl
      all_goals simp_all
    · simp only [simplest, List.length_cons]
      omega
    · have hrest := hplain (List.cons.inj heq).2
      simp only [plain, List.all_cons, Bool.and_eq_true]
      refine ⟨?_, hrest⟩
      simp only [isWild, Bool.not_eq_true', decide_eq_false_iff_not, not_or]
      exact ⟨hpercent, hunderscore, hbackslash⟩
    · rcases List.mem_cons.mp hc' with rfl | hc'
      · simp
      · exact (hmem c' hc').imp_left (List.mem_cons_of_mem c)

/-! ## Without regard to case -/

/-- The lower case of a database. -/
structure Fold where
  lower : Nat → Nat
  lower_lower : ∀ c, lower (lower c) = lower c
  lower_wild : ∀ c, isWild c = true → lower c = c
  wild_lower : ∀ c, isWild (lower c) = true → isWild c = true

/-- The text with all its letters in lower case. -/
def Fold.fold (f : Fold) (s : Str) : Str := s.map f.lower

/-- ILIKE. A pattern without tokens is an error, which one with a percent sign at its end
never is. -/
def ilike (f : Fold) (t pattern : Str) : Bool :=
  match tokens (f.fold pattern) with
  | some ts => likes ts (f.fold t)
  | none => false

/-- The pattern that puts a text between two percent signs. -/
def around (s : Str) : Str := 37 :: (s ++ [37])

/-- The text is part of another one, without regard to case. -/
def PartOf (f : Fold) (s t : Str) : Prop := f.fold s <:+: f.fold t

theorem fold_around (f : Fold) (s : Str) : f.fold (around s) = 37 :: (f.fold s ++ [37]) := by
  have hpercent : f.lower 37 = 37 := f.lower_wild 37 (by decide)
  simp [Fold.fold, around, hpercent]

theorem plain_fold (f : Fold) (s : Str) : plain (f.fold s) = plain s := by
  have hwild (c : Nat) : isWild (f.lower c) = isWild c := by
    rw [Bool.eq_iff_iff]
    refine ⟨f.wild_lower c, fun h => ?_⟩
    rw [f.lower_wild c h]
    exact h
  simp [plain, Fold.fold, List.all_map, Function.comp_def, hwild]

theorem ilike_of_plain (f : Fold) {s : Str} (hs : plain s = true) (t : Str) :
    ilike f t (around s) = true ↔ PartOf f s t := by
  have htokens : tokens (f.fold (around s)) =
      some (.any :: ((f.fold s).map .char ++ [.any])) := by
    rw [fold_around, tokens, tokens_plain (by rwa [plain_fold])]
    rfl
  rw [ilike, htokens, PartOf]
  exact likes_contains

/-- A text with one of the characters is not part of every text that the pattern matches. -/
theorem exists_ilike (f : Fold) {s : Str} (hs : plain s = false) :
    ∃ t, ilike f t (around s) = true ∧ ¬ PartOf f s t := by
  obtain ⟨ts, htokens, hlength, hplain, hmem⟩ := simplest_tokens (f.fold s)
  have hfold : f.fold (simplest ts) = simplest ts := by
    rw [Fold.fold]
    refine (List.map_congr_left fun c hc => ?_).trans (List.map_id _)
    rcases hmem c hc with hc | rfl
    · obtain ⟨c', -, rfl⟩ := List.mem_map.mp hc
      exact f.lower_lower c'
    · exact f.lower_wild 37 (by decide)
  refine ⟨simplest ts, ?_, fun hpart => ?_⟩
  · have hpattern : tokens (f.fold (around s)) = some (.any :: ts) := by
      rw [fold_around, tokens, htokens]
      rfl
    rw [ilike, hpattern, hfold]
    exact likes_any.mpr ⟨[], simplest ts, rfl, likes_simplest ts⟩
  · rw [PartOf, hfold] at hpart
    have hsame := hpart.eq_of_length (Nat.le_antisymm hpart.length_le hlength)
    have hcontra := hplain hsame.symm
    rw [plain_fold, hs] at hcontra
    cases hcontra

/-- The pattern finds the texts of which a text is part, and only those, exactly when the
text is plain. -/
theorem contains_iff_plain (f : Fold) (s : Str) :
    (∀ t, ilike f t (around s) = true ↔ PartOf f s t) ↔ plain s = true := by
  constructor
  · intro h
    by_contra hs
    obtain ⟨t, hlike, hnot⟩ := exists_ilike f (Bool.eq_false_iff.mpr hs)
    exact hnot ((h t).mp hlike)
  · exact fun hs t => ilike_of_plain f hs t

end WebSpider.Text.Like
