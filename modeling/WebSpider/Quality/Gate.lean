import WebSpider.Quality.CodeSpans
import WebSpider.Floats.Monotone
import Mathlib.Data.List.DropRight

/-!
# The gate in floating point

All of `quality.py`: its patterns, the ratios and the score in double precision, and `assess`
with the settings as floats. On every text that is not too long it decides as the gate with
exact ratios does, for the decimal numbers that the settings say (`assess_refines`).
-/

namespace WebSpider.Quality.Gate

open Text Floats

/-! ## Words and links -/

def isLetter (c : Nat) : Bool := decide (65 ≤ c ∧ c ≤ 90 ∨ 97 ≤ c ∧ c ≤ 122)

/-- `_WORD_RE` -/
def word : Pattern Nat
  | [] => 0
  | c :: s =>
    let n := (s.takeWhile fun c => isLetter c || decide (c = 39 ∨ c = 45)).length
    if isLetter c = true ∧ n ≠ 0 then n + 1 else 0

/-- The length of `https?://`. -/
def scheme (s : Str) : Nat :=
  if (lit "https://").isPrefixOf s then 8 else if (lit "http://").isPrefixOf s then 7 else 0

/-- `\S+` as long as it gets. -/
def solid (s : Str) : Str := s.takeWhile fun c => !isSpaceCode c

def bareLink : Pattern Nat := fun s =>
  let n := (solid (s.drop (scheme s))).length
  if scheme s ≠ 0 ∧ n ≠ 0 then scheme s + n else 0

/-- `\S+\)`: up to the last parenthesis that closes after a character. -/
def closing (s : Str) : Nat :=
  let n := (((solid s).drop 1).rdropWhile fun c => decide (c ≠ 41)).length
  if n = 0 then 0 else n + 1

def namedLink : Pattern Nat
  | [] => 0
  | c :: s =>
    let n := (s.takeWhile fun c => decide (c ≠ 93)).length
    let target := s.drop (n + 2)
    let m := closing (target.drop (scheme target))
    if c = 91 ∧ n ≠ 0 ∧ (lit "](").isPrefixOf (s.drop n) ∧ scheme target ≠ 0 ∧ m ≠ 0 then
      n + 3 + scheme target + m
    else 0

/-- `_LINK_RE` -/
def link : Pattern Nat := fun s => if bareLink s ≠ 0 then bareLink s else namedLink s

/-! ## Phrases -/

/-- `str.lower`, and the letters and digits outside ASCII. -/
structure Unicode where
  lower : Str → Str
  isAlnum : Nat → Bool

/-- What the phrases are made of: `\b`, `\s+`, and one of some texts. -/
inductive Part where
  | boundary
  | blanks
  | oneOf (texts : List String)

section Phrases

variable (u : Unicode)

/-- `\w` -/
def isWordChar (c : Nat) : Bool :=
  if c < 128 then isLetter c || isDigit c || decide (c = 95) else u.isAlnum c

/-- `re.IGNORECASE` for a small letter; some letters outside ASCII have it as a case. -/
def sameChar (p c : Nat) : Bool :=
  decide (c = p ∨ 97 ≤ p ∧ p ≤ 122 ∧ c + 32 = p ∨ p = 105 ∧ (c = 0x130 ∨ c = 0x131) ∨
    p = 107 ∧ c = 0x212A ∨ p = 115 ∧ c = 0x17F)

/-- A place in a text: the character before it, and the rest. -/
abbrev Place := Option Nat × Str

def readText : Str → Place → Option Place
  | [], place => some place
  | _ :: _, (_, []) => none
  | p :: ps, (_, c :: s) => if sameChar p c then readText ps (some c, s) else none

def readBlanks : Str → List Place
  | [] => []
  | c :: s => if isSpaceCode c then (some c, s) :: readBlanks s else []

/-- The places up to which a part of a phrase can be read. -/
def readPart (place : Place) : Part → List Place
  | .boundary =>
    if place.1.any (isWordChar u) = place.2.head?.any (isWordChar u) then [] else [place]
  | .blanks => readBlanks place.2
  | .oneOf texts => texts.filterMap fun text => readText (lit text) place

def readsPhrase (parts : List Part) (place : Place) : Bool :=
  !(parts.foldl (fun places part => places.flatMap fun place => readPart u place part)
    [place]).isEmpty

/-- `re.search` of one of some phrases. -/
def search (phrases : List (List Part)) (text : Str) : Bool :=
  (List.range (text.length + 1)).any fun i =>
    phrases.any fun parts => readsPhrase u parts ((text.take i).getLast?, text.drop i)

/-- `_SPAM_RE` -/
def spamPhrases : List (List Part) :=
  [[.boundary, .oneOf ["please"], .blanks,
      .oneOf ["help", "subscribe", "follow", "upvote", "donate"], .boundary],
    [.boundary, .oneOf ["check"], .blanks, .oneOf ["out"], .blanks, .oneOf ["my"], .blanks,
      .oneOf ["channel", "blog", "repo", "github"], .boundary],
    [.boundary, .oneOf ["free", "discount", "coupon", "promo"], .blanks, .oneOf ["code"], .boundary],
    [.boundary, .oneOf ["buy"], .blanks, .oneOf ["now"], .boundary],
    [.boundary, .oneOf ["click"], .blanks, .oneOf ["here"], .boundary],
    [.boundary, .oneOf ["job opening", "we are hiring", "hiring now"], .boundary]]

/-- `_HELP_RE` -/
def helpPhrases : List (List Part) :=
  [[.boundary, .oneOf ["can someone help me", "how do i fix", "i am stuck", "i'm stuck",
      "anyone know how", "please help me", "urgent help"], .boundary]]

end Phrases

/-- An apostrophe, a letter outside ASCII as a case, and a boundary that is none. -/
example : search ⟨id, fun _ => false⟩ helpPhrases (lit "Hi, I'm \u017Ftuck.") = true ∧
    search ⟨id, fun _ => false⟩ spamPhrases (lit "unclick here, Buy \n nowadays") = false := by
  decide +kernel

/-! ## The ratios and the score -/

/-- The quotient of two whole numbers. -/
def ratio (m k : Nat) : Double := binary64.round (m / k)

/-- `len(_WORD_RE.findall(text))` -/
def wordsOf (text : Str) : List Str := finditer word text

def linkRatio (text : Str) : Double :=
  if (wordsOf text).length < 20 then 0
  else ratio (finditer link text).length (wordsOf text).length

def uniqueWordRatio (u : Unicode) (text : Str) : Double :=
  let words := wordsOf (u.lower text)
  if words.length < 20 then .finite 1 else ratio words.dedup.length words.length

/-- A literal of the program. -/
def literal (x : ℚ) : Double := binary64.round x

/-- `_quality_score` -/
def qualityScore (n cc : Nat) (lr ur : Double) : Double :=
  let lengthS := (binary64.quotient (literal n) (literal 3000)).least (.finite 1)
  let codeS := (binary64.quotient (literal cc) (literal 800)).least (.finite 1)
  let diversityS := (0 : Double).greatest (ur.least (.finite 1))
  let linkPen := (binary64.quotient lr (literal (3 / 10))).least (.finite 1)
  let score := binary64.sub
    (binary64.add
      (binary64.add (binary64.mul (literal (4 / 10)) lengthS) (binary64.mul (literal (3 / 10)) codeS))
      (binary64.mul (literal (3 / 10)) diversityS))
    (binary64.mul (literal (5 / 10)) linkPen)
  (0 : Double).greatest (score.least (.finite 1))

/-! ## The gate -/

/-- The settings as the program has them. -/
structure Limits where
  minContentLen : Int
  minCodeChars : Int
  maxLinkRatio : Double
  minUniqueRatio : Double
  minWordsNoCode : Int

structure Info where
  len : Nat
  codeChars : Nat
  linkRatio : Double
  uniqueRatio : Double
  qualityScore : Double

/-- `assess` -/
def assess (u : Unicode) (cfg : Limits) (text : Str) : Bool × Str × Option Info :=
  if text = [] then (false, lit "empty", none)
  else
    let n := text.length
    let cc := codeChars text
    let lr := linkRatio text
    let ur := uniqueWordRatio u text
    let info : Info := ⟨n, cc, lr.roundDigits 3, ur.roundDigits 3,
      (qualityScore n cc lr ur).roundDigits 3⟩
    let words := (wordsOf text).length
    if search u spamPhrases text then (false, lit "spam", some info)
    else if cfg.minCodeChars ≤ cc then (true, lit "code_rich", some info)
    else if cfg.maxLinkRatio.Less lr then (false, lit "link_dump", some info)
    else if ur.Less cfg.minUniqueRatio then (false, lit "low_diversity", some info)
    else if n < cfg.minContentLen then (false, lit "too_short", some info)
    else if words < cfg.minWordsNoCode then (false, lit "thin_prose", some info)
    else if search u helpPhrases text = true ∧ words < cfg.minWordsNoCode * 2 then
      (false, lit "help_request", some info)
    else (true, lit "ok", some info)

/-! ## The settings as they are written -/

/-- A number written with a decimal point. -/
structure Decimal where
  num : Nat
  den : Nat
  den_pos : 0 < den

def Decimal.value (x : Decimal) : ℚ := x.num / x.den

/-- `float` of the setting. -/
def Decimal.float (x : Decimal) : Double := literal x.value

structure Thresholds where
  minContentLen : Int
  minCodeChars : Int
  maxLinkRatio : Decimal
  minUniqueRatio : Decimal
  minWordsNoCode : Int

def Thresholds.limits (t : Thresholds) : Limits :=
  ⟨t.minContentLen, t.minCodeChars, t.maxLinkRatio.float, t.minUniqueRatio.float, t.minWordsNoCode⟩

/-- The settings of the exact gate. -/
def Thresholds.settings (t : Thresholds) : Settings :=
  ⟨t.minContentLen, t.minCodeChars, t.maxLinkRatio.value, t.minUniqueRatio.value, t.minWordsNoCode⟩

def Unicode.signals (u : Unicode) : Signals where
  spam := search u spamPhrases
  help := search u helpPhrases
  links text := (finditer link text).length
  words := wordsOf
  lower := u.lower
  round x := nearestEven (x * 10 ^ 3) / 10 ^ 3

/-- A setting of so few digits that a quotient with numbers up to `n` differs from it visibly. -/
def Decimal.Visible (x : Decimal) (n : Nat) : Prop := (n + 1) * (x.num + x.den) < 2 ^ 53

/-! ## The ratios in floating point -/

theorem less_finite {x y : ℚ} : (Double.finite x).Less (.finite y) ↔ x < y := by
  rw [Double.Less, Double.finite_le, Double.finite_le]
  constructor
  · exact fun h => not_le.mp h.2
  · exact fun h => ⟨h.le, not_le.mpr h⟩

theorem ratio_eq {m k : Nat} (hm : m ≤ 2 ^ 53) : ratio m k = .finite (binary64.rounded (m / k)) := by
  apply binary64_round
  rw [abs_of_nonneg (by positivity)]
  rcases Nat.eq_zero_or_pos k with rfl | hk
  · rw [Nat.cast_zero, div_zero]
    positivity
  · have hm' : (m : ℚ) ≤ 2 ^ 53 := by exact_mod_cast hm
    exact (div_le_self (Nat.cast_nonneg m) (by exact_mod_cast hk)).trans hm'

section Visible

variable {x : Decimal} {n m k : Nat}

theorem Decimal.Visible.bounds (h : x.Visible n) : n < 2 ^ 53 ∧ x.num < 2 ^ 53 ∧ x.den < 2 ^ 53 := by
  have hden := x.den_pos
  unfold Decimal.Visible at h
  have hn : n + 1 ≤ (n + 1) * (x.num + x.den) := Nat.le_mul_of_pos_right _ (by omega)
  have hsum : x.num + x.den ≤ (n + 1) * (x.num + x.den) := Nat.le_mul_of_pos_left _ (by omega)
  omega

theorem Decimal.Visible.cross (h : x.Visible n) (hm : m ≤ n) (hk : k ≤ n + 1) :
    m * x.den + x.num * k < 2 ^ 53 := by
  refine lt_of_le_of_lt ?_ h
  have hden : m * x.den ≤ (n + 1) * x.den := Nat.mul_le_mul_right _ (by omega)
  have hnum : x.num * k ≤ (n + 1) * x.num := (Nat.mul_comm _ _).trans_le (Nat.mul_le_mul_right _ hk)
  rw [Nat.mul_add]
  omega

theorem Decimal.float_eq (hx : x.num < 2 ^ 53) : x.float = .finite (binary64.rounded x.value) :=
  ratio_eq hx.le

/-- A quotient is above the setting in floating point when it is. -/
theorem less_ratio_iff (h : x.Visible n) (hm : m ≤ n) (hk : k ≤ n) (hpos : 0 < k) :
    x.float.Less (ratio m k) ↔ x.value < m / k := by
  obtain ⟨hn, hnum, hden⟩ := h.bounds
  have hd : (0 : ℚ) < x.den := by exact_mod_cast x.den_pos
  have hk' : (0 : ℚ) < k := by exact_mod_cast hpos
  rw [Decimal.float_eq hnum, ratio_eq (by omega), less_finite, Decimal.value,
    rounded_div_lt_iff x.den_pos hpos (by omega) hden (h.cross hm (by omega)),
    div_lt_div_iff₀ hd hk']
  exact_mod_cast Iff.rfl

theorem ratio_less_iff (h : x.Visible n) (hm : m ≤ n) (hk : k ≤ n) (hpos : 0 < k) :
    (ratio m k).Less x.float ↔ (m / k : ℚ) < x.value := by
  obtain ⟨hn, hnum, hden⟩ := h.bounds
  have hd : (0 : ℚ) < x.den := by exact_mod_cast x.den_pos
  have hk' : (0 : ℚ) < k := by exact_mod_cast hpos
  have hcross := h.cross hm (show k ≤ n + 1 by omega)
  rw [Decimal.float_eq hnum, ratio_eq (by omega), less_finite, Decimal.value,
    rounded_div_lt_iff hpos x.den_pos hden (by omega) (by omega), div_lt_div_iff₀ hk' hd]
  exact_mod_cast Iff.rfl

theorem not_less_zero (hx : x.num < 2 ^ 53) : ¬ x.float.Less 0 ∧ ¬ x.value < 0 := by
  have hvalue : 0 ≤ x.value := div_nonneg (Nat.cast_nonneg _) (Nat.cast_nonneg _)
  have hfloat := Format.rounded_nonneg (f := binary64) hvalue
  rw [Decimal.float_eq hx]
  exact ⟨fun h => (less_finite.mp h).not_ge hfloat, hvalue.not_gt⟩

theorem one_less_iff (h : x.Visible n) : (Double.finite 1).Less x.float ↔ 1 < x.value := by
  obtain ⟨-, hnum, hden⟩ := h.bounds
  have hd : (0 : ℚ) < x.den := by exact_mod_cast x.den_pos
  have hone := ratio_eq (m := 1) (k := 1) (by decide)
  rw [Nat.cast_one, div_one, binary64_rounded_one] at hone
  have hcross : x.num * 1 + 1 * x.den < 2 ^ 53 := by
    have := h.cross (Nat.zero_le n) (show 1 ≤ n + 1 by omega)
    have hsum : x.num + x.den ≤ (n + 1) * (x.num + x.den) := Nat.le_mul_of_pos_left _ (by omega)
    unfold Decimal.Visible at h
    omega
  have hiff := rounded_div_lt_iff (Nat.zero_lt_one) x.den_pos hden (by decide) hcross
  rw [Nat.cast_one, div_one, binary64_rounded_one] at hiff
  rw [Decimal.float_eq hnum, less_finite, Decimal.value, hiff, one_lt_div hd]
  simp

end Visible

/-! ## The gate decides as the exact one -/

theorem length_finditer_le {α : Type} (p : Pattern α) (s : List α) :
    (finditer p s).length ≤ s.length := by
  induction s using pieces_induction p with
  | nil => exact Nat.le_refl 0
  | plain g s hp ih =>
    rw [finditer_plain hp, List.length_cons]
    omega
  | hit g s n hp ih =>
    rw [finditer_hit hp, List.length_cons, List.length_cons]
    rw [List.length_drop] at ih
    omega

section Refines

variable {u : Unicode} {text : Str} {x : Decimal}

theorem link_dump_iff (h : x.Visible text.length) :
    x.float.Less (linkRatio text) ↔ x.value < Quality.linkRatio u.signals text := by
  unfold linkRatio Quality.linkRatio
  change x.float.Less (if (wordsOf text).length < 20 then _ else _) ↔
    x.value < if (wordsOf text).length < 20 then _ else _
  split
  · obtain ⟨hfloat, hvalue⟩ := not_less_zero h.bounds.2.1
    exact iff_of_false hfloat hvalue
  · exact less_ratio_iff h (length_finditer_le link text) (length_finditer_le word text) (by omega)

theorem low_diversity_iff (h : x.Visible (u.lower text).length) :
    (uniqueWordRatio u text).Less x.float ↔ Quality.uniqueWordRatio u.signals text < x.value := by
  have hwords := length_finditer_le word (u.lower text)
  have hunique := (List.dedup_sublist (wordsOf (u.lower text))).length_le
  unfold uniqueWordRatio Quality.uniqueWordRatio
  change Double.Less (if (wordsOf (u.lower text)).length < 20 then _ else _) _ ↔
    (if (wordsOf (u.lower text)).length < 20 then _ else _) < _
  split
  · exact one_less_iff h
  · exact ratio_less_iff h (hunique.trans hwords) hwords (by omega)

theorem least_finite (x y : ℚ) : (Double.finite x).least (.finite y) = .finite (min x y) := by
  unfold Double.least
  rcases lt_or_ge y x with h | h
  · rw [if_pos (less_finite.mpr h), min_eq_right h.le]
  · rw [if_neg fun hless => h.not_gt (less_finite.mp hless), min_eq_left h]

theorem greatest_finite (x y : ℚ) : (Double.finite x).greatest (.finite y) = .finite (max x y) := by
  unfold Double.greatest
  rcases lt_or_ge x y with h | h
  · rw [if_pos (less_finite.mpr h), max_eq_right h.le]
  · rw [if_neg fun hless => h.not_gt (less_finite.mp hless), max_eq_left h]

/-- Whatever is clamped is a number from zero to one, also if it was none. -/
theorem clamped (score : Double) :
    ∃ q, (0 : Double).greatest (score.least (.finite 1)) = .finite q ∧ 0 ≤ q ∧ q ≤ 1 := by
  cases score with
  | nan => exact ⟨0, rfl, le_rfl, zero_le_one⟩
  | negInf => exact ⟨0, rfl, le_rfl, zero_le_one⟩
  | inf =>
    refine ⟨1, ?_, zero_le_one, le_rfl⟩
    change (Double.finite 0).greatest (.finite 1) = _
    rw [greatest_finite, max_eq_right zero_le_one]
  | finite q =>
    refine ⟨max 0 (min q 1), ?_, le_max_left _ _, max_le zero_le_one (min_le_right _ _)⟩
    change (Double.finite 0).greatest _ = _
    rw [least_finite, greatest_finite]

theorem qualityScore_unit (n cc : Nat) (lr ur : Double) :
    ∃ q, (qualityScore n cc lr ur).roundDigits 3 = .finite q ∧ 0 ≤ q ∧ q ≤ 1 := by
  obtain ⟨q, hq, h0, h1⟩ := clamped _
  rw [qualityScore, hq]
  exact roundDigits_unit 3 h0 h1

/-- The decisions in their order. -/
def verdict (spam rich dump poor short thin help : Prop) [Decidable spam] [Decidable rich]
    [Decidable dump] [Decidable poor] [Decidable short] [Decidable thin] [Decidable help] :
    Bool × Str :=
  if spam then (false, lit "spam")
  else if rich then (true, lit "code_rich")
  else if dump then (false, lit "link_dump")
  else if poor then (false, lit "low_diversity")
  else if short then (false, lit "too_short")
  else if thin then (false, lit "thin_prose")
  else if help then (false, lit "help_request")
  else (true, lit "ok")

theorem assess_eq (cfg : Limits) (h : text ≠ []) : assess u cfg text =
    (fun v : Bool × Str => (v.1, v.2, some (⟨text.length, codeChars text,
      (linkRatio text).roundDigits 3, (uniqueWordRatio u text).roundDigits 3,
      (qualityScore text.length (codeChars text) (linkRatio text)
        (uniqueWordRatio u text)).roundDigits 3⟩ : Info)))
      (verdict (search u spamPhrases text = true) (cfg.minCodeChars ≤ codeChars text)
        (cfg.maxLinkRatio.Less (linkRatio text)) ((uniqueWordRatio u text).Less cfg.minUniqueRatio)
        (text.length < cfg.minContentLen) ((wordsOf text).length < cfg.minWordsNoCode)
        (search u helpPhrases text = true ∧ (wordsOf text).length < cfg.minWordsNoCode * 2)) := by
  rw [assess, if_neg h]
  unfold verdict
  dsimp only
  split_ifs <;> rfl

theorem exact_assess_eq (cfg : Settings) (sig : Signals) (h : text ≠ []) :
    ((Quality.assess cfg sig text).1, (Quality.assess cfg sig text).2.1) =
      verdict (sig.spam text = true) (cfg.minCodeChars ≤ codeChars text)
        (cfg.maxLinkRatio < Quality.linkRatio sig text)
        (Quality.uniqueWordRatio sig text < cfg.minUniqueRatio)
        (text.length < cfg.minContentLen) ((sig.words text).length < cfg.minWordsNoCode)
        (sig.help text = true ∧ (sig.words text).length < cfg.minWordsNoCode * 2) := by
  rw [Quality.assess, if_neg h]
  unfold verdict
  dsimp only
  split_ifs <;> rfl

end Refines

/-- On texts that are not too long for the digits of the settings, the gate keeps and rejects
for the same reasons as the exact gate, though its ratios and settings are rounded; and the
score of every text that is not empty is a number from zero to one. -/
theorem assess_refines (u : Unicode) (t : Thresholds) (text : Str) :
    (t.maxLinkRatio.Visible text.length → t.minUniqueRatio.Visible (u.lower text).length →
      (assess u t.limits text).1 = (Quality.assess t.settings u.signals text).1 ∧
        (assess u t.limits text).2.1 = (Quality.assess t.settings u.signals text).2.1) ∧
      (text ≠ [] → ∃ info q, (assess u t.limits text).2.2 = some info ∧
        info.qualityScore = .finite q ∧ 0 ≤ q ∧ q ≤ 1) := by
  by_cases hempty : text = []
  · rw [assess, Quality.assess, if_pos hempty, if_pos hempty]
    exact ⟨fun _ _ => ⟨rfl, rfl⟩, fun hne => absurd hempty hne⟩
  · obtain ⟨q, hq, h0, h1⟩ :=
      qualityScore_unit text.length (codeChars text) (linkRatio text) (uniqueWordRatio u text)
    rw [assess_eq (u := u) t.limits hempty]
    refine ⟨fun hlinks hunique => ?_, fun _ => ⟨_, q, rfl, hq, h0, h1⟩⟩
    have hdump := link_dump_iff (u := u) hlinks
    have hpoor := low_diversity_iff hunique
    have hsame : verdict (search u spamPhrases text = true) (t.minCodeChars ≤ codeChars text)
        (t.maxLinkRatio.float.Less (linkRatio text))
        ((uniqueWordRatio u text).Less t.minUniqueRatio.float)
        (text.length < t.minContentLen) ((wordsOf text).length < t.minWordsNoCode)
        (search u helpPhrases text = true ∧ (wordsOf text).length < t.minWordsNoCode * 2) =
        ((Quality.assess t.settings u.signals text).1,
          (Quality.assess t.settings u.signals text).2.1) := by
      rw [exact_assess_eq t.settings u.signals hempty]
      unfold verdict
      simp only [hdump, hpoor]
      rfl
    exact ⟨congrArg Prod.fst hsame, congrArg Prod.snd hsame⟩

/-- No letters but those of ASCII. -/
def plain : Unicode := ⟨fun s => s.map fun c => if 65 ≤ c ∧ c ≤ 90 then c + 32 else c, fun _ => false⟩

/-- The settings that hold when none are given. -/
def standard : Thresholds where
  minContentLen := 100
  minCodeChars := 80
  maxLinkRatio := ⟨30, 100, Nat.zero_lt_succ 99⟩
  minUniqueRatio := ⟨25, 100, Nat.zero_lt_succ 99⟩
  minWordsNoCode := 50

/-- Twenty words and six links, which is a ratio of 0.30 exactly. -/
def sixLinks : Str :=
  lit "http://1 http://2 http://3 http://4 http://5 http://6 ab ac ad ae af ag ah ai aj ak al am an ao"

/-- The text is no link dump, also in floating point. -/
theorem assess_refines_sample : (assess plain standard.limits sixLinks).1 = false ∧
    (assess plain standard.limits sixLinks).2.1 = lit "too_short" := by
  have hlinks : standard.maxLinkRatio.Visible sixLinks.length := by
    unfold Decimal.Visible
    decide +kernel
  have hunique : standard.minUniqueRatio.Visible (plain.lower sixLinks).length := by
    unfold Decimal.Visible
    decide +kernel
  obtain ⟨hkeep, hreason⟩ := (assess_refines plain standard sixLinks).1 hlinks hunique
  rw [hkeep, hreason]
  decide +kernel

end WebSpider.Quality.Gate
