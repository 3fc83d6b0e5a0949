import WebSpider.Floats.Arithmetic
import WebSpider.Text.Lines

/-!
# Reading a floating-point number

`float` of a text. White space at the ends is dropped, an underscore may stand between two
digits, and the rest is a decimal number, an infinity or NaN, with a sign. The value is the
exact number rounded once, so a number may become infinite or zero
(`value_pos_iff`). The decimal digits outside ASCII are a parameter.
-/

namespace WebSpider.Floats

open Text

/-- What a text says. -/
inductive Literal where
  | number (x : ℚ)
  | infinity (negative : Bool)
  | nan
  deriving DecidableEq

/-! ## The grammar -/

/-- A character as `float` sees it: white space and decimal digits become those of ASCII, and
no number contains the question mark. -/
def toAscii (decimal : Nat → Option (Fin 10)) (c : Nat) : Nat :=
  if c < 127 then c
  else if isSpaceCode c then 32
  else match decimal c with
    | some digit => 48 + digit
    | none => 63

def isAsciiSpace (c : Nat) : Bool := decide (9 ≤ c ∧ c ≤ 13 ∨ c = 32)

/-- Every underscore stands between two digits, where `last` is the character before. -/
def underscoresOk (last : Nat) : Str → Bool
  | [] => decide (last ≠ 95)
  | c :: s =>
    if c = 95 then isDigit last && underscoresOk c s
    else (decide (last ≠ 95) || isDigit c) && underscoresOk c s

def removeUnderscores (s : Str) : Option Str :=
  if underscoresOk 0 s then some (s.filter fun c => decide (c ≠ 95)) else none

/-- A sign, and whether it is a minus. -/
def readSign : Str → Bool × Str
  | 45 :: s => (true, s)
  | 43 :: s => (false, s)
  | s => (false, s)

/-- The digits of the fraction, after a point. -/
def readFraction : Str → Str × Str
  | 46 :: s => s.span isDigit
  | s => ([], s)

/-- The exponent, with nothing after it. -/
def readExponent : Str → Option ℤ
  | [] => some 0
  | c :: s =>
    if c = 101 ∨ c = 69 then
      let (negative, digits) := readSign s
      (readDecimal digits).map fun n => if negative then -n else n
    else none

/-- A decimal number without a sign. -/
def readNumber (s : Str) : Option ℚ :=
  let (whole, s) := s.span isDigit
  let (fraction, s) := readFraction s
  if whole = [] ∧ fraction = [] then none
  else (readExponent s).map fun e =>
    (readDigits (whole ++ fraction) : ℚ) * 10 ^ (e - (fraction.length : ℤ))

def lowerAscii (c : Nat) : Nat := if 65 ≤ c ∧ c ≤ 90 then c + 32 else c

/-- What a text without white space and underscores says. -/
def readLiteral (s : Str) : Option Literal :=
  let (negative, s) := readSign s
  let name := s.map lowerAscii
  if name = lit "inf" ∨ name = lit "infinity" then some (.infinity negative)
  else if name = lit "nan" then some .nan
  else (readNumber s).map fun x => .number (if negative then -x else x)

def literal (decimal : Nat → Option (Fin 10)) (text : Str) : Option Literal :=
  (removeUnderscores (trimBy isAsciiSpace (text.map (toAscii decimal)))).bind readLiteral

/-! ## The value -/

def Literal.value : Literal → Double
  | .number x => binary64.round x
  | .infinity true => .negInf
  | .infinity false => .inf
  | .nan => .nan

/-- `float(text)`. No value is a `ValueError`. -/
def float (decimal : Nat → Option (Fin 10)) (text : Str) : Option Double :=
  (literal decimal text).map Literal.value

/-- The numbers that are positive and finite also in double precision. -/
def Literal.InRange : Literal → Prop
  | .number x => 2 ^ (-1075 : ℤ) < x ∧ x < (2 : ℚ) ^ (1024 : ℤ) - 2 ^ (970 : ℤ)
  | _ => False

theorem value_pos_iff (l : Literal) : (∃ x, l.value = .finite x ∧ 0 < x) ↔ l.InRange := by
  cases l with
  | number x => exact Format.round_pos_iff (f := binary64) x
  | infinity negative =>
    refine iff_of_false ?_ id
    cases negative with
    | false => simp [Literal.value]
    | true => simp [Literal.value]
  | nan => exact iff_of_false (by simp [Literal.value]) id

/-- Digits, a fraction and an exponent; an underscore, a sign and white space. -/
example : literal (fun _ => none) (lit " -1_0.25e+2\n") = some (.number (-1025)) := by
  decide +kernel

end WebSpider.Floats
