import WebSpider.Text.Lines
import WebSpider.Text.Matches
import Mathlib.Algebra.Order.Field.Rat

/-!
# Fenced blocks and inline code

The patterns of `quality.py` with `code_chars`, `strip_code` and `assess`. The inline spans
are those that a reader finds who keeps the span that is open (`finditer_inlineCode`).
-/

namespace WebSpider.Quality

open Text

section Patterns

variable {α : Type} [Glyph α]

def isBacktick (g : α) : Bool := decide (code g = 96)

/-- Three backticks. -/
def isFence : List α → Bool
  | a :: b :: c :: _ => isBacktick a && isBacktick b && isBacktick c
  | _ => false

/-- The number of characters before the next three backticks. -/
def bodyLength : List α → Option Nat
  | [] => none
  | g :: s => if isFence (g :: s) then some 0 else (bodyLength s).map (· + 1)

/-- The length of the line that opens a block. -/
def openingLength (s : List α) : Nat :=
  3 + ((s.drop 3).takeWhile fun g => !isNewline g).length + 1

/-- `_FENCE_RE` -/
def fence : Pattern α := fun s =>
  if isFence s then
    match bodyLength (s.drop (openingLength s)) with
    | some n => openingLength s + n + 3
    | none => 0
  else 0

/-- The group of a match of `_FENCE_RE`. -/
def fenceBody (m : List α) : List α :=
  let rest := ((m.drop 3).dropWhile fun g => !isNewline g).drop 1
  rest.take (rest.length - 3)

/-- The characters of `` [^`\n] ``. -/
def isInline (g : α) : Bool := !isBacktick g && !isNewline g

/-- `_INLINE_CODE_RE` -/
def inlineCode : Pattern α
  | [] => 0
  | g :: s =>
    let n := (s.takeWhile isInline).length
    if isBacktick g = true ∧ n ≠ 0 ∧ (s.drop n).head?.any isBacktick = true then n + 2 else 0

/-- The text with each fenced block replaced by a blank. -/
def stripFences (blank : α) (s : List α) : List α := sub fence (fun _ => [blank]) s

/-- `strip_code` -/
def stripCode (blank : α) (s : List α) : List α :=
  sub inlineCode (fun _ => [blank]) (stripFences blank s)

end Patterns

def codeChars (text : Str) : Nat :=
  ((finditer fence text).map fun m => (fenceBody m).length).sum +
    ((finditer inlineCode text).map List.length).sum

/-! ## Reading inline spans

The span that is open is kept from its backtick on.
-/

section Spans

variable {α : Type} [Glyph α]

/-- The open span after a character, and the span that it closes. -/
def readGlyph (open? : Option (List α)) (g : α) : Option (List α) × Option (List α) :=
  if isBacktick g then
    match open? with
    | none => (some [g], none)
    | some span => if span.length ≤ 1 then (some [g], none) else (none, some (span ++ [g]))
  else if isNewline g then (none, none)
  else (open?.map (· ++ [g]), none)

def readSpans : Option (List α) → List α → List (List α)
  | _, [] => []
  | open?, g :: s => (readGlyph open? g).2.toList ++ readSpans (readGlyph open? g).1 s

/-- The open span after a text. -/
def openAfter (open? : Option (List α)) (s : List α) : Option (List α) :=
  s.foldl (fun o g => (readGlyph o g).1) open?

theorem readSpans_append (open? : Option (List α)) (s t : List α) :
    readSpans open? (s ++ t) = readSpans open? s ++ readSpans (openAfter open? s) t := by
  induction s generalizing open? with
  | nil => rfl
  | cons g s ih =>
    rw [List.cons_append, readSpans, readSpans, ih, List.append_assoc]
    rfl

section

variable {g : α}

theorem isNewline_of_backtick (hg : isBacktick g = true) : isNewline g = false := by
  have hcode := of_decide_eq_true hg
  exact decide_eq_false (by omega)

theorem readGlyph_backtick_none (hg : isBacktick g = true) :
    readGlyph none g = (some [g], none) := if_pos hg

theorem readGlyph_backtick_short (hg : isBacktick g = true) {span : List α}
    (h : span.length ≤ 1) : readGlyph (some span) g = (some [g], none) :=
  (if_pos hg).trans (if_pos h)

theorem readGlyph_backtick_long (hg : isBacktick g = true) {span : List α}
    (h : ¬ span.length ≤ 1) : readGlyph (some span) g = (none, some (span ++ [g])) :=
  (if_pos hg).trans (if_neg h)

theorem readGlyph_newline (hg : isNewline g = true) (open? : Option (List α)) :
    readGlyph open? g = (none, none) := by
  have hb : ¬ isBacktick g = true := fun hb => by simp [isNewline_of_backtick hb] at hg
  exact (if_neg hb).trans (if_pos hg)

theorem readGlyph_inline (hg : isInline g = true) (open? : Option (List α)) :
    readGlyph open? g = (open?.map (· ++ [g]), none) := by
  obtain ⟨hb, hn⟩ := Bool.and_eq_true_iff.mp hg
  rw [Bool.not_eq_true', Bool.eq_false_iff] at hb hn
  exact (if_neg hb).trans (if_neg hn)

theorem glyph_cases (g : α) :
    isBacktick g = true ∨ isNewline g = true ∨ isInline g = true := by
  unfold isInline
  cases isBacktick g <;> cases isNewline g <;> simp

end

/-- Characters of a span close none. -/
theorem readSpans_run {run : List α} (hrun : ∀ g ∈ run, isInline g = true)
    (open? : Option (List α)) (t : List α) :
    readSpans open? (run ++ t) = readSpans (open?.map (· ++ run)) t := by
  induction run generalizing open? with
  | nil => cases open? <;> simp
  | cons g run ih =>
    have hg := readGlyph_inline (hrun g List.mem_cons_self) open?
    rw [List.cons_append, readSpans, hg, ih fun r hr => hrun r (List.mem_cons_of_mem _ hr)]
    cases open? <;> simp

/-- A text up to the first backtick or newline. -/
theorem inline_split (s : List α) : ∃ run rest, s = run ++ rest ∧
    run = s.takeWhile isInline ∧ (∀ g ∈ run, isInline g = true) ∧
    ∀ g t, rest = g :: t → isInline g = false := by
  refine ⟨s.takeWhile isInline, s.dropWhile isInline, List.takeWhile_append_dropWhile.symm, rfl,
    fun g hg => List.mem_takeWhile_imp hg, fun g t hrest => ?_⟩
  have hhead := List.head?_dropWhile_not isInline s
  rw [hrest] at hhead
  exact hhead

/-- A match of the pattern is a span. -/
theorem inlineCode_hit {g : α} {s : List α} {n : Nat} (h : inlineCode (g :: s) = n + 1) :
    isBacktick g = true ∧ ∃ run b t, s = run ++ b :: t ∧ (∀ r ∈ run, isInline r = true) ∧
      run ≠ [] ∧ isBacktick b = true ∧ n = run.length + 1 := by
  obtain ⟨run, rest, hs, hrun, hinline, -⟩ := inline_split s
  rw [inlineCode, ← hrun] at h
  split at h
  · rename_i hmatch
    obtain ⟨hg, hne, hclose⟩ := hmatch
    rw [hs, List.drop_left] at hclose
    cases rest with
    | nil => cases hclose
    | cons b t =>
      refine ⟨hg, run, b, t, hs, hinline, ?_, hclose, by omega⟩
      rintro rfl
      exact hne rfl
  · cases h

/-- A backtick where no span starts. -/
theorem readSpans_unclosed {g : α} {s : List α} (hg : isBacktick g = true)
    (h : inlineCode (g :: s) = 0) : readSpans (some [g]) s = readSpans none s := by
  obtain ⟨run, rest, hs, hrun, hinline, hrest⟩ := inline_split s
  rw [inlineCode, ← hrun] at h
  rw [hs, readSpans_run hinline, readSpans_run hinline]
  cases rest with
  | nil => rfl
  | cons b t =>
    rcases glyph_cases b with hb | hb | hb
    · -- the two backticks are neighbours
      have hempty : run = [] := by
        by_contra hne
        have hclose : (s.drop run.length).head?.any isBacktick = true := by
          rw [hs, List.drop_left]
          exact hb
        rw [if_pos ⟨hg, fun hzero => hne (List.length_eq_zero_iff.mp hzero), hclose⟩] at h
        omega
      rw [hempty]
      exact congrArg (fun x : Option (List α) × Option (List α) => x.2.toList ++ readSpans x.1 t)
        ((readGlyph_backtick_short hb le_rfl).trans (readGlyph_backtick_none hb).symm)
    · exact congrArg (fun x : Option (List α) × Option (List α) => x.2.toList ++ readSpans x.1 t)
        ((readGlyph_newline hb _).trans (readGlyph_newline hb none).symm)
    · rw [hrest b t rfl] at hb
      cases hb

/-- The matches of the pattern are the spans that are read. -/
theorem finditer_inlineCode (s : List α) : finditer inlineCode s = readSpans none s := by
  induction s using pieces_induction (inlineCode : Pattern α) with
  | nil => rfl
  | plain g s hp ih =>
    rw [finditer_plain hp, ih, readSpans]
    rcases glyph_cases g with hg | hg | hg
    · rw [readGlyph_backtick_none hg]
      exact (readSpans_unclosed hg hp).symm
    · rw [readGlyph_newline hg]
      rfl
    · rw [readGlyph_inline hg]
      rfl
  | hit g s n hp ih =>
    obtain ⟨hg, run, b, t, rfl, hrun, hne, hb, rfl⟩ := inlineCode_hit hp
    have hlong : ¬ ([g] ++ run).length ≤ 1 := by
      have := List.length_pos_iff.mpr hne
      rw [List.length_append, List.length_singleton]
      omega
    have htake : (run ++ b :: t).take (run.length + 1) = run ++ [b] := by
      rw [List.take_append, List.take_of_length_le (by omega)]
      simp
    have hdrop : (run ++ b :: t).drop (run.length + 1) = t := by
      rw [List.drop_append, List.drop_of_length_le (by omega)]
      simp
    rw [hdrop] at ih
    rw [finditer_hit hp, htake, hdrop, ih, readSpans, readGlyph_backtick_none hg]
    dsimp only
    rw [readSpans_run hrun, Option.map_some, readSpans, readGlyph_backtick_long hb hlong]
    rfl

end Spans

/-! ## The gate -/

/-- The settings of the gate. -/
structure Settings where
  minContentLen : Int
  minCodeChars : Int
  maxLinkRatio : ℚ
  minUniqueRatio : ℚ
  minWordsNoCode : Int

/-- The other patterns, `str.lower` and `round` to three digits. -/
structure Signals where
  spam : Str → Bool
  help : Str → Bool
  links : Str → Nat
  words : Str → List Str
  lower : Str → Str
  round : ℚ → ℚ

structure Meta where
  len : Nat
  codeChars : Nat
  linkRatio : ℚ
  uniqueRatio : ℚ
  qualityScore : ℚ

def linkRatio (sig : Signals) (text : Str) : ℚ :=
  if (sig.words text).length < 20 then 0 else sig.links text / (sig.words text).length

def uniqueWordRatio (sig : Signals) (text : Str) : ℚ :=
  let words := sig.words (sig.lower text)
  if words.length < 20 then 1 else words.dedup.length / words.length

def qualityScore (n cc : Nat) (lr ur : ℚ) : ℚ :=
  let lengthS : ℚ := min (n / 3000) 1
  let codeS : ℚ := min (cc / 800) 1
  let diversityS := max 0 (min ur 1)
  let linkPen := min (lr / (3 / 10)) 1
  max 0 (min (4 / 10 * lengthS + 3 / 10 * codeS + 3 / 10 * diversityS - 5 / 10 * linkPen) 1)

/-- `assess`: whether the text is kept, the reason, and the metadata of a text that is not
empty. -/
def assess (cfg : Settings) (sig : Signals) (text : Str) : Bool × Str × Option Meta :=
  if text = [] then (false, lit "empty", none)
  else
    let n := text.length
    let cc := codeChars text
    let lr := linkRatio sig text
    let ur := uniqueWordRatio sig text
    let info : Meta :=
      ⟨n, cc, sig.round lr, sig.round ur, sig.round (qualityScore n cc lr ur)⟩
    let words := (sig.words text).length
    if sig.spam text then (false, lit "spam", some info)
    else if cfg.minCodeChars ≤ cc then (true, lit "code_rich", some info)
    else if cfg.maxLinkRatio < lr then (false, lit "link_dump", some info)
    else if ur < cfg.minUniqueRatio then (false, lit "low_diversity", some info)
    else if n < cfg.minContentLen then (false, lit "too_short", some info)
    else if words < cfg.minWordsNoCode then (false, lit "thin_prose", some info)
    else if sig.help text = true ∧ words < cfg.minWordsNoCode * 2 then
      (false, lit "help_request", some info)
    else (true, lit "ok", some info)

end WebSpider.Quality
