import WebSpider.Text.Decimal
import Mathlib.Data.List.DropRight
import Mathlib.Data.List.Infix

/-!
# Text as lines and paragraphs

The string methods of Python that split and trim a text: `strip`, `splitlines`,
`join`, and `re.split` at blank lines. A text is a list of glyphs. A glyph has a
code point, and may carry more, such as the place it was read from: the methods
look at code points only, so they carry the rest along (`Glyph.Map`).
-/

namespace WebSpider.Text

/-- A character: its code point, and the newline the methods insert. -/
class Glyph (α : Type) where
  code : α → Nat
  newline : α
  code_newline : code newline = 10

instance : Glyph Nat := ⟨id, 10, rfl⟩

/-- A character with the place it was read from. Inserted newlines have none. -/
instance : Glyph (Nat × Option Nat) := ⟨Prod.fst, (10, none), rfl⟩

export Glyph (code newline)

/-! ## Trimming -/

/-- Remove the characters satisfying `p` at both ends. -/
def trimBy {α : Type} (p : α → Bool) (s : List α) : List α := (s.dropWhile p).rdropWhile p

/-- `str.isspace` of one character. -/
def isSpaceCode (c : Nat) : Bool :=
  decide (9 ≤ c ∧ c ≤ 13 ∨ 28 ≤ c ∧ c ≤ 32 ∨ c = 0x85 ∨ c = 0xA0 ∨ c = 0x1680 ∨
    0x2000 ≤ c ∧ c ≤ 0x200A ∨ c = 0x2028 ∨ c = 0x2029 ∨ c = 0x202F ∨ c = 0x205F ∨ c = 0x3000)

variable {α : Type} [Glyph α]

def isSpace (g : α) : Bool := isSpaceCode (code g)

def isNewline (g : α) : Bool := decide (code g = 10)

/-- `str.strip` -/
def strip (s : List α) : List α := trimBy isSpace s

/-! ## Lines -/

/-- The characters at which `splitlines` ends a line. -/
def isLineEnd (g : α) : Bool :=
  let c := code g
  decide (10 ≤ c ∧ c ≤ 13 ∨ 28 ≤ c ∧ c ≤ 30 ∨ c = 0x85 ∨ c = 0x2028 ∨ c = 0x2029)

/-- Put a character in front of the first line. -/
def consHead (g : α) : List (List α) → List (List α)
  | [] => [[g]]
  | line :: lines => (g :: line) :: lines

/-- `str.splitlines` -/
def splitlines : List α → List (List α)
  | [] => []
  | [g] => if isLineEnd g then [[]] else [[g]]
  | g :: h :: s =>
    if code g = 13 ∧ code h = 10 then [] :: splitlines s
    else if isLineEnd g then [] :: splitlines (h :: s)
    else consHead g (splitlines (h :: s))

/-- `sep.join(pieces)` -/
def join (sep : List α) : List (List α) → List α
  | [] => []
  | [piece] => piece
  | piece :: pieces => piece ++ sep ++ join sep pieces

omit [Glyph α] in
theorem join_cons_cons (sep piece piece' : List α) (pieces : List (List α)) :
    join sep (piece :: piece' :: pieces) = piece ++ sep ++ join sep (piece' :: pieces) := rfl

/-- A blank line between two paragraphs. -/
def blankLine : List α := [newline, newline]

/-! ## Paragraphs -/

/-- The white space ahead contains a newline. -/
def newlineAhead (s : List α) : Bool := (s.takeWhile isSpace).any isNewline

/-- `re.split(r"\n\s*\n", text)`. A match starts at a newline with another newline
in the white space after it and ends at the last such newline; the flag says that
we are inside a match. -/
def splitBlank : Bool → List α → List (List α)
  | _, [] => [[]]
  | inside, g :: s =>
    if inside && newlineAhead (g :: s) then splitBlank true s
    else if isNewline g && newlineAhead s then [] :: splitBlank true s
    else consHead g (splitBlank false s)

/-! ## The lines of a text -/

omit [Glyph α] in
theorem flatten_consHead (g : α) (lines : List (List α)) :
    (consHead g lines).flatten = g :: lines.flatten := by
  cases lines with
  | nil => rfl
  | cons line lines => rfl

omit [Glyph α] in
theorem mem_consHead {g : α} {lines : List (List α)} {line : List α}
    (h : line ∈ consHead g lines) : line ∈ lines ∨ ∃ rest, line = g :: rest ∧
      (rest = [] ∨ rest ∈ lines) := by
  cases lines with
  | nil => exact .inr ⟨[], List.mem_singleton.mp h, .inl rfl⟩
  | cons first lines =>
    rcases List.mem_cons.mp h with rfl | h
    · exact .inr ⟨first, rfl, .inr List.mem_cons_self⟩
    · exact .inl (List.mem_cons_of_mem _ h)

/-- The lines are the text without its line ends. -/
theorem splitlines_sublist (s : List α) : (splitlines s).flatten.Sublist s := by
  induction s using splitlines.induct with
  | case1 => exact List.Sublist.refl _
  | case2 g h =>
    rw [splitlines, if_pos h]
    exact List.nil_sublist _
  | case3 g h =>
    rw [splitlines, if_neg h]
    exact List.Sublist.refl _
  | case4 g h s hpair ih =>
    rw [splitlines, if_pos hpair]
    exact (ih.cons _).cons _
  | case5 g h s hpair hend ih =>
    rw [splitlines, if_neg hpair, if_pos hend]
    exact ih.cons _
  | case6 g h s hpair hend ih =>
    rw [splitlines, if_neg hpair, if_neg hend, flatten_consHead]
    exact ih.cons_cons _

theorem not_isLineEnd_of_mem (s : List α) :
    ∀ line ∈ splitlines s, ∀ g ∈ line, isLineEnd g = false := by
  induction s using splitlines.induct with
  | case1 => exact fun _ hline => absurd hline List.not_mem_nil
  | case2 g h =>
    intro line hline x hx
    rw [splitlines, if_pos h, List.mem_singleton] at hline
    rw [hline] at hx
    cases hx
  | case3 g h =>
    intro line hline x hx
    rw [splitlines, if_neg h, List.mem_singleton] at hline
    rw [hline, List.mem_singleton] at hx
    rw [hx]
    exact (Bool.not_eq_true _).mp h
  | case4 g h s hpair ih =>
    rw [splitlines, if_pos hpair]
    exact List.forall_mem_cons.mpr ⟨fun _ hx => absurd hx List.not_mem_nil, ih⟩
  | case5 g h s hpair hend ih =>
    rw [splitlines, if_neg hpair, if_pos hend]
    exact List.forall_mem_cons.mpr ⟨fun _ hx => absurd hx List.not_mem_nil, ih⟩
  | case6 g h s hpair hend ih =>
    intro line hline x hx
    rw [splitlines, if_neg hpair, if_neg hend] at hline
    rcases mem_consHead hline with hline | ⟨rest, rfl, hrest⟩
    · exact ih line hline x hx
    · rcases List.mem_cons.mp hx with rfl | hx
      · exact (Bool.not_eq_true _).mp hend
      · rcases hrest with rfl | hrest
        · cases hx
        · exact ih rest hrest x hx

/-- A text that does not start with a line end starts its first line. -/
theorem splitlines_cons {g : α} (hg : isLineEnd g = false) (s : List α) :
    ∃ rest lines, splitlines (g :: s) = (g :: rest) :: lines := by
  cases s with
  | nil => exact ⟨[], [], by rw [splitlines, hg]; rfl⟩
  | cons h s =>
    have hpair : ¬ (code g = 13 ∧ code h = 10) := by
      rintro ⟨hcode, -⟩
      rw [isLineEnd, hcode] at hg
      exact absurd hg (by decide)
    rw [splitlines, if_neg hpair, hg, if_neg Bool.false_ne_true]
    cases splitlines (h :: s) with
    | nil => exact ⟨[], [], rfl⟩
    | cons line lines => exact ⟨line, lines, rfl⟩

theorem isLineEnd_newline : isLineEnd (newline : α) = true := by
  rw [isLineEnd, Glyph.code_newline]
  decide

/-- After a newline a line starts. -/
theorem splitlines_newline {g : α} (hg : isLineEnd g = false) (s u : List α) :
    ∃ lines rest lines', splitlines (u ++ newline :: g :: s) = lines ++ (g :: rest) :: lines' ∧
      lines ≠ [] := by
  obtain ⟨rest, lines', hstart⟩ := splitlines_cons hg s
  have hnewline : ¬ code (newline : α) = 13 := by
    rw [Glyph.code_newline]
    decide
  induction ht : u ++ newline :: g :: s using splitlines.induct generalizing u with
  | case1 => exact absurd ht (by simp)
  | case2 x h =>
    have hlength := congrArg List.length ht
    simp only [List.length_append, List.length_cons, List.length_nil] at hlength
    omega
  | case3 x h =>
    have hlength := congrArg List.length ht
    simp only [List.length_append, List.length_cons, List.length_nil] at hlength
    omega
  | case4 x y t hpair ih =>
    rw [splitlines, if_pos hpair]
    match u, ht with
    | [], ht =>
      obtain ⟨rfl, -⟩ := List.cons.inj ht
      exact absurd hpair.1 hnewline
    | [_], ht =>
      obtain ⟨-, ht⟩ := List.cons.inj ht
      obtain ⟨-, rfl⟩ := List.cons.inj ht
      exact ⟨[[]], rest, lines', by rw [hstart]; rfl, List.cons_ne_nil _ _⟩
    | _ :: _ :: u, ht =>
      obtain ⟨-, ht⟩ := List.cons.inj ht
      obtain ⟨-, rfl⟩ := List.cons.inj ht
      obtain ⟨lines, rest, lines', heq, -⟩ := ih u rfl
      exact ⟨[] :: lines, rest, lines', by rw [heq]; rfl, List.cons_ne_nil _ _⟩
  | case5 x y t hpair hend ih =>
    rw [splitlines, if_neg hpair, if_pos hend]
    match u, ht with
    | [], ht =>
      obtain ⟨-, ht⟩ := List.cons.inj ht
      rw [← ht]
      exact ⟨[[]], rest, lines', by rw [hstart]; rfl, List.cons_ne_nil _ _⟩
    | _ :: u, ht =>
      obtain ⟨-, ht⟩ := List.cons.inj ht
      obtain ⟨lines, rest, lines', heq, -⟩ := ih u ht
      exact ⟨[] :: lines, rest, lines', by rw [heq]; rfl, List.cons_ne_nil _ _⟩
  | case6 x y t hpair hend ih =>
    rw [splitlines, if_neg hpair, if_neg hend]
    match u, ht with
    | [], ht =>
      obtain ⟨rfl, -⟩ := List.cons.inj ht
      exact absurd isLineEnd_newline hend
    | _ :: u, ht =>
      obtain ⟨-, ht⟩ := List.cons.inj ht
      obtain ⟨lines, rest, lines', heq, hne⟩ := ih u ht
      obtain ⟨line, lines, rfl⟩ := List.exists_cons_of_ne_nil hne
      exact ⟨(x :: line) :: lines, rest, lines', by rw [heq]; rfl, List.cons_ne_nil _ _⟩

/-! ## Glyphs that carry more -/

/-- A function that keeps what the methods look at. -/
structure Glyph.Map {β : Type} [Glyph β] (f : α → β) : Prop where
  code : ∀ g, Glyph.code (f g) = Glyph.code g
  newline : f Glyph.newline = Glyph.newline

/-- Forgetting the places. -/
theorem Glyph.map_fst : Glyph.Map (Prod.fst : Nat × Option Nat → Nat) := ⟨fun _ => rfl, rfl⟩

section Map

variable {β : Type} [Glyph β] {f : α → β} (hf : Glyph.Map f)

include hf

theorem isSpace_map (g : α) : isSpace (f g) = isSpace g := congrArg isSpaceCode (hf.code g)

theorem isNewline_map (g : α) : isNewline (f g) = isNewline g := by
  rw [isNewline, hf.code]
  rfl

theorem isLineEnd_map (g : α) : isLineEnd (f g) = isLineEnd g := by
  rw [isLineEnd, hf.code]
  rfl

theorem takeWhile_isSpace_map (s : List α) :
    (s.map f).takeWhile isSpace = (s.takeWhile isSpace).map f := by
  rw [List.takeWhile_map]
  exact congrArg (fun p => (s.takeWhile p).map f) (funext (isSpace_map hf))

theorem dropWhile_isSpace_map (s : List α) :
    (s.map f).dropWhile isSpace = (s.dropWhile isSpace).map f := by
  rw [List.dropWhile_map]
  exact congrArg (fun p => (s.dropWhile p).map f) (funext (isSpace_map hf))

theorem strip_map (s : List α) : strip (s.map f) = (strip s).map f := by
  rw [strip, trimBy, dropWhile_isSpace_map hf, List.rdropWhile, ← List.map_reverse,
    dropWhile_isSpace_map hf, ← List.map_reverse]
  rfl

omit [Glyph α] [Glyph β] hf in
theorem consHead_map (f : α → β) (g : α) (lines : List (List α)) :
    consHead (f g) (lines.map (List.map f)) = (consHead g lines).map (List.map f) := by
  cases lines with
  | nil => rfl
  | cons line lines => rfl

theorem splitlines_map (s : List α) :
    splitlines (s.map f) = (splitlines s).map (List.map f) := by
  induction s using splitlines.induct with
  | case1 => rfl
  | case2 g h => simp [splitlines, isLineEnd_map hf, h]
  | case3 g h => simp [splitlines, isLineEnd_map hf, h]
  | case4 g h s hpair ih => simp [splitlines, hf.code, hpair, ih]
  | case5 g h s hpair hend ih =>
    rw [List.map_cons, List.map_cons, splitlines, splitlines, hf.code, hf.code, if_neg hpair,
      if_neg hpair, isLineEnd_map hf, if_pos hend, if_pos hend, ← List.map_cons, ih]
    rfl
  | case6 g h s hpair hend ih =>
    rw [List.map_cons, List.map_cons, splitlines, splitlines, hf.code, hf.code, if_neg hpair,
      if_neg hpair, isLineEnd_map hf, if_neg hend, if_neg hend, ← List.map_cons, ih,
      consHead_map]

omit [Glyph α] [Glyph β] hf in
theorem join_map (f : α → β) (sep : List α) (pieces : List (List α)) :
    join (sep.map f) (pieces.map (List.map f)) = (join sep pieces).map f := by
  induction pieces with
  | nil => rfl
  | cons piece pieces ih =>
    cases pieces with
    | nil => rfl
    | cons piece' pieces =>
      rw [join_cons_cons, List.map_append, List.map_append, ← ih]
      rfl

theorem newlineAhead_map (s : List α) : newlineAhead (s.map f) = newlineAhead s := by
  rw [newlineAhead, takeWhile_isSpace_map hf, List.any_map]
  exact congrArg (s.takeWhile isSpace).any (funext (isNewline_map hf))

theorem splitBlank_map (inside : Bool) (s : List α) :
    splitBlank inside (s.map f) = (splitBlank inside s).map (List.map f) := by
  induction s generalizing inside with
  | nil => rfl
  | cons g s ih =>
    rw [List.map_cons, splitBlank, ← List.map_cons, newlineAhead_map hf, newlineAhead_map hf,
      isNewline_map hf, ih, ih, consHead_map, splitBlank]
    split
    · rfl
    · split
      · rfl
      · rfl

end Map

end WebSpider.Text
