import WebSpider.Text.Decimal
import WebSpider.Text.Matches
import Mathlib.Data.List.MinMax

/-!
# Character references

What a tokenizer makes of `&...` in text and in the value of an attribute. Strings are lists
of UTF-16 code units. The table of the named references is a parameter.
-/

namespace WebSpider.Html

open Text

/-- Named references: the name without its ampersand, and the text it stands for. -/
abbrev Names := List (Str × Str)

def isAlpha (c : Nat) : Bool := decide (65 ≤ c ∧ c ≤ 90 ∨ 97 ≤ c ∧ c ≤ 122)

def isAlnum (c : Nat) : Bool := isAlpha c || isDigit c

/-! ## Named references -/

def nameLength (n : Str × Str) : Nat := n.1.length

/-- The longest name at the start of a text. -/
def longestName (names : Names) (s : Str) : Option (Str × Str) :=
  (names.filter fun n => n.1.isPrefixOf s).argmax nameLength

/-- The length of a named reference after its ampersand. In an attribute a name without a
semicolon is no reference before `=` and before letters and digits. -/
def namedLength (names : Names) (inAttribute : Bool) (s : Str) : Nat :=
  match longestName names s with
  | none => 0
  | some n =>
    let goesOn := (s.drop n.1.length).head?.any fun c => decide (c = 61) || isAlnum c
    if inAttribute && goesOn && decide (n.1.getLast? ≠ some 59) then 0 else n.1.length

/-! ## Numeric references -/

def isHexDigit (c : Nat) : Bool := isDigit c || decide (65 ≤ c ∧ c ≤ 70 ∨ 97 ≤ c ∧ c ≤ 102)

def hexDigit (c : Nat) : Nat := if c ≤ 57 then c - 48 else if c ≤ 70 then c - 55 else c - 87

/-- A numeric reference after `&#`: its base, and the length of what is in front of its digits. -/
def numericBase : Str → Nat × Nat
  | c :: _ => if c = 88 ∨ c = 120 then (16, 1) else (10, 0)
  | [] => (10, 0)

def numericDigits (s : Str) : Str :=
  let (base, skipped) := numericBase s
  (s.drop skipped).takeWhile fun c => if base = 16 then isHexDigit c else isDigit c

/-- The length of a numeric reference after `&#`. -/
def numericLength (s : Str) : Nat :=
  let digits := numericDigits s
  if digits = [] then 0
  else
    let length := (numericBase s).2 + digits.length
    if (s.drop length).head? = some 59 then length + 1 else length

/-- The control characters that a numeric reference stands for. -/
def controls : List (Nat × Nat) :=
  [(0x80, 0x20AC), (0x82, 0x201A), (0x83, 0x0192), (0x84, 0x201E), (0x85, 0x2026), (0x86, 0x2020),
    (0x87, 0x2021), (0x88, 0x02C6), (0x89, 0x2030), (0x8A, 0x0160), (0x8B, 0x2039), (0x8C, 0x0152),
    (0x8E, 0x017D), (0x91, 0x2018), (0x92, 0x2019), (0x93, 0x201C), (0x94, 0x201D), (0x95, 0x2022),
    (0x96, 0x2013), (0x97, 0x2014), (0x98, 0x02DC), (0x99, 0x2122), (0x9A, 0x0161), (0x9B, 0x203A),
    (0x9C, 0x0153), (0x9E, 0x017E), (0x9F, 0x0178)]

/-- The replacement character. -/
def replacement : Nat := 0xFFFD

def codeUnits (n : Nat) : Str :=
  if n < 0x10000 then [n]
  else [0xD800 + (n - 0x10000) / 0x400, 0xDC00 + (n - 0x10000) % 0x400]

/-- What a numeric reference stands for, from the text after `&#`. -/
def numericText (s : Str) : Str :=
  let n := (numericDigits s).foldl (fun n c => (numericBase s).1 * n + hexDigit c) 0
  if n = 0 ∨ 0x10FFFF < n ∨ isSurrogate n = true then [replacement]
  else codeUnits ((controls.lookup n).getD n)

/-! ## Decoding -/

/-- A character reference. -/
def reference (names : Names) (inAttribute : Bool) : Pattern Nat
  | 38 :: 35 :: s => if numericLength s = 0 then 0 else numericLength s + 2
  | 38 :: s => if namedLength names inAttribute s = 0 then 0 else namedLength names inAttribute s + 1
  | _ => 0

/-- What a reference stands for. -/
def expand (names : Names) : Str → Str
  | 38 :: 35 :: s => numericText s
  | 38 :: s => (names.lookup s).getD (38 :: s)
  | s => s

def decode (names : Names) (inAttribute : Bool) (s : Str) : Str :=
  sub (reference names inAttribute) (expand names) s

/-! ## Tables -/

/-- The shape of the standard table. A name is letters and digits, perhaps with a semicolon. -/
structure Standard (names : Names) : Prop where
  shape : ∀ n ∈ names, ∃ base, base ≠ [] ∧ base.all isAlnum = true ∧
    (n.1 = base ∨ n.1 = base ++ [59])
  keys : (names.map Prod.fst).Nodup
  amp : (lit "amp;", [38]) ∈ names
  lt : (lit "lt;", [60]) ∈ names
  gt : (lit "gt;", [62]) ∈ names

theorem lookup_of_mem {names : Names} (hkeys : (names.map Prod.fst).Nodup) {n : Str × Str}
    (hn : n ∈ names) : names.lookup n.1 = some n.2 := by
  induction names with
  | nil => cases hn
  | cons m names ih =>
    obtain ⟨hm, hkeys⟩ := List.nodup_cons.mp hkeys
    rw [List.lookup_cons]
    rcases List.mem_cons.mp hn with rfl | hn
    · rw [beq_self_eq_true]
    · have hne : (n.1 == m.1) = false :=
        beq_eq_false_iff_ne.mpr fun heq => hm (heq ▸ List.mem_map_of_mem hn)
      rw [hne]
      exact ih hkeys hn

theorem not_mem_semicolon {base : Str} (hbase : base.all isAlnum = true) : 59 ∉ base := fun h =>
  absurd (List.all_eq_true.mp hbase 59 h) (by decide)

/-- A semicolon ends a name. -/
theorem Standard.semicolon {names : Names} (h : Standard names) {n : Str × Str} (hn : n ∈ names)
    {before after : Str} (heq : n.1 = before ++ 59 :: after) :
    after = [] ∧ before ≠ [] ∧ before.all isAlnum = true := by
  obtain ⟨base, hne, hbase, hshape⟩ := h.shape n hn
  rcases hshape with hshape | hshape
  · refine absurd ?_ (not_mem_semicolon hbase)
    rw [← hshape, heq]
    exact List.mem_append_right _ List.mem_cons_self
  · have hsplit : before ++ 59 :: after = base ++ 59 :: [] := heq.symm.trans hshape
    have hcount : before.count 59 + (after.count 59 + 1) = 1 := by
      rw [← List.count_cons_self, ← List.count_append, hsplit, List.count_append,
        List.count_eq_zero.mpr (not_mem_semicolon hbase)]
      rfl
    have hbefore : 59 ∉ before := List.count_eq_zero.mp (by omega)
    obtain ⟨rfl, hafter⟩ := append_sep_inj hbefore (not_mem_semicolon hbase) hsplit
    exact ⟨hafter, hne, hbase⟩

/-- A name with a semicolon is the longest one. -/
theorem longestName_closed {names : Names} (h : Standard names) {base v : Str}
    (hn : (base ++ [59], v) ∈ names) (s : Str) :
    longestName names (base ++ 59 :: s) = some (base ++ [59], v) := by
  have hprefix : base ++ [59] <+: base ++ 59 :: s := ⟨s, by rw [List.append_assoc]; rfl⟩
  have hmem : (base ++ [59], v) ∈ names.filter fun n => n.1.isPrefixOf (base ++ 59 :: s) :=
    List.mem_filter.mpr ⟨hn, List.isPrefixOf_iff_prefix.mpr hprefix⟩
  cases hlongest : longestName names (base ++ 59 :: s) with
  | none =>
    rw [List.argmax_eq_none.mp hlongest] at hmem
    cases hmem
  | some m =>
    obtain ⟨hm, hstart⟩ := List.mem_filter.mp (List.argmax_mem hlongest)
    have hstart := List.isPrefixOf_iff_prefix.mp hstart
    have hle : nameLength (base ++ [59], v) ≤ nameLength m := List.le_of_mem_argmax hmem hlongest
    obtain ⟨after, hafter⟩ := List.prefix_of_prefix_length_le hprefix hstart hle
    rw [List.append_assoc] at hafter
    obtain ⟨rfl, -⟩ := h.semicolon hm hafter.symm
    have hkey : m.1 = base ++ [59] := hafter.symm
    have hvalue : some m.2 = some v := by
      rw [← lookup_of_mem h.keys hm, hkey]
      exact lookup_of_mem h.keys hn
    exact congrArg some (Prod.ext hkey (Option.some.inj hvalue))

/-! ## Decoding texts without stray ampersands -/

section Decoding

variable {names : Names} {inAttribute : Bool}

theorem decode_cons {c : Nat} (hc : c ≠ 38) (s : Str) :
    decode names inAttribute (c :: s) = c :: decode names inAttribute s := by
  refine sub_plain ?_ _
  unfold reference
  split
  · rename_i heq
    exact absurd (List.cons.inj heq).1 hc
  · rename_i heq
    exact absurd (List.cons.inj heq).1 hc
  · rfl

/-- A reference with a semicolon. -/
theorem decode_closed (h : Standard names) {base v : Str} (hn : (base ++ [59], v) ∈ names)
    (s : Str) : decode names inAttribute (38 :: (base ++ 59 :: s)) =
      v ++ decode names inAttribute s := by
  obtain ⟨-, hne, hbase⟩ := h.semicolon hn rfl
  have hlength : namedLength names inAttribute (base ++ 59 :: s) = base.length + 1 := by
    unfold namedLength
    rw [longestName_closed h hn]
    simp
  obtain ⟨c, base, rfl⟩ := List.exists_cons_of_ne_nil hne
  have hc : c ≠ 35 := by
    rintro rfl
    exact absurd (List.all_eq_true.mp hbase 35 List.mem_cons_self) (by decide)
  have htake : ((c :: base) ++ 59 :: s).take ((c :: base).length + 1) = (c :: base) ++ [59] := by
    rw [List.take_append, List.take_of_length_le (by omega)]
    simp
  have hdrop : ((c :: base) ++ 59 :: s).drop ((c :: base).length + 1) = s := by
    rw [List.drop_append, List.drop_of_length_le (by omega)]
    simp
  have hmatch : reference names inAttribute (38 :: ((c :: base) ++ 59 :: s)) =
      (c :: base).length + 1 + 1 := by
    rw [List.cons_append, reference, ← List.cons_append, hlength]
    · rfl
    · intro t ht
      exact hc (List.cons.inj ht).1
  rw [decode, sub_hit hmatch, htake, hdrop, ← decode]
  have hexpand : expand names (38 :: ((c :: base) ++ [59])) = v := by
    rw [List.cons_append, expand, ← List.cons_append, lookup_of_mem h.keys hn]
    · rfl
    · intro t ht
      exact hc (List.cons.inj ht).1
  rw [hexpand]

end Decoding

end WebSpider.Html
