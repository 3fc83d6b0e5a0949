import WebSpider.Json.Value

/-!
# Decoding JSON text

The decoder reads one value from the front of the text and returns the rest,
as a scanner with an index does. It differs from the JSON grammar where the
decoder of the Python standard library does: `NaN`, `Infinity` and `-Infinity`
are accepted, lone surrogate escapes are kept, a repeated key keeps its first
place and its last value, an integer of more than 4300 digits and a nesting
past the recursion limit raise errors of their own.

The first argument of the scanners bounds the recursion; `loads` starts it high
enough, and `loads_ne_fuel` states that it never runs out.
-/

namespace WebSpider.Json

open Text

/-! ## Numbers -/

def signPart : Str → Str × Str
  | 45 :: r => ([45], r)
  | s => ([], s)

/-- The integer part: a single `0`, or digits that do not start with `0`. -/
def intPart : Str → Option (Str × Str)
  | [] => none
  | c :: r =>
    if c = 48 then some ([48], r)
    else if isDigit c then some (c :: r.takeWhile isDigit, r.dropWhile isDigit)
    else none

/-- A point and at least one digit, or nothing. -/
def fracPart : Str → Str × Str
  | 46 :: r =>
    if r.takeWhile isDigit = [] then ([], 46 :: r)
    else (46 :: r.takeWhile isDigit, r.dropWhile isDigit)
  | s => ([], s)

def expSign : Str → Str × Str
  | 43 :: r => ([43], r)
  | 45 :: r => ([45], r)
  | s => ([], s)

/-- `e` or `E`, a sign and at least one digit, or nothing. -/
def expPart : Str → Str × Str
  | [] => ([], [])
  | c :: r =>
    if c = 101 ∨ c = 69 then
      let (sg, r') := expSign r
      if r'.takeWhile isDigit = [] then ([], c :: r)
      else (c :: (sg ++ r'.takeWhile isDigit), r'.dropWhile isDigit)
    else ([], c :: r)

/-- The lexeme at the front of the text: sign, integer part, the fraction with
the exponent, and the rest. -/
def scanNumber (s : Str) : Option (Str × Str × Str × Str) :=
  let (sg, r₀) := signPart s
  match intPart r₀ with
  | none => none
  | some (i, r₁) =>
    let (f, r₂) := fracPart r₁
    let (e, r₃) := expPart r₂
    some (sg, i, f ++ e, r₃)

/-! ## Floats -/

def nanText : Str := lit "NaN"
def infText : Str := lit "Infinity"
def negInfText : Str := lit "-Infinity"

/-- The text of a float: one of the three constants, or a number with a
fraction or an exponent. -/
def IsFloatText (t : Str) : Prop :=
  t = nanText ∨ t = infText ∨ t = negInfText ∨
    ∃ sg i fe, scanNumber t = some (sg, i, fe, []) ∧ fe ≠ []

/-- The floats of the language: their JSON text, and the float a text denotes.
Writing a float and reading it back gives the same float. -/
class FloatText (F : Type) where
  text : F → Str
  ofText : Str → F
  isZero : F → Bool
  text_isFloat : ∀ x, IsFloatText (text x)
  ofText_text : ∀ x, ofText (text x) = x

instance (t : Str) : Decidable (IsFloatText t) :=
  decidable_of_iff (t = nanText ∨ t = infText ∨ t = negInfText ∨
      (match scanNumber t with | some (_, _, fe, []) => decide (fe ≠ []) | _ => false) = true) <| by
    refine or_congr Iff.rfl (or_congr Iff.rfl (or_congr Iff.rfl ⟨fun h => ?_, ?_⟩))
    · split at h
      · rename_i sg i fe hs
        exact ⟨sg, i, fe, hs, by simpa using h⟩
      · cases h
    · rintro ⟨sg, i, fe, hs, hfe⟩
      rw [hs]
      simpa using hfe

/-- Floats kept as their texts, without rounding. -/
structure TextFloat where
  val : Str
  isFloat : IsFloatText val
  deriving DecidableEq

instance : FloatText TextFloat where
  text := TextFloat.val
  ofText t := if h : IsFloatText t then ⟨t, h⟩ else ⟨nanText, Or.inl rfl⟩
  -- no digit other than `0` before the exponent
  isZero x := (x.val.takeWhile fun c => decide (c ≠ 101 ∧ c ≠ 69)).all fun c =>
    decide (c = 45 ∨ c = 46 ∨ c = 48)
  text_isFloat := TextFloat.isFloat
  ofText_text x := by simp [x.isFloat]

/-! ## Strings -/

/-- What a string literal is made of: characters, and code units of `\u` escapes. -/
inductive Piece where
  | raw (c : Nat)
  | unit (u : Nat)

def hexDigit (c : Nat) : Option Nat :=
  if 48 ≤ c ∧ c ≤ 57 then some (c - 48)
  else if 97 ≤ c ∧ c ≤ 102 then some (c - 87)
  else if 65 ≤ c ∧ c ≤ 70 then some (c - 55)
  else none

def hex4 (a b c d : Nat) : Option Nat := do
  let a ← hexDigit a
  let b ← hexDigit b
  let c ← hexDigit c
  let d ← hexDigit d
  return ((a * 16 + b) * 16 + c) * 16 + d

/-- The characters with a short escape. -/
def shortEscape (c : Nat) : Option Nat :=
  if c = 34 then some 34
  else if c = 92 then some 92
  else if c = 47 then some 47
  else if c = 98 then some 8
  else if c = 102 then some 12
  else if c = 110 then some 10
  else if c = 114 then some 13
  else if c = 116 then some 9
  else none

/-- The pieces up to the closing quote. Control characters are refused. -/
def scanPieces : Str → Option (List Piece × Str)
  | [] => none
  | 34 :: r => some ([], r)
  | 92 :: 117 :: a :: b :: c :: d :: r =>
    match hex4 a b c d with
    | none => none
    | some u => (scanPieces r).map fun p => (.unit u :: p.1, p.2)
  | 92 :: c :: r =>
    match shortEscape c with
    | none => none
    | some x => (scanPieces r).map fun p => (.raw x :: p.1, p.2)
  | c :: r => if c < 32 ∨ c = 92 then none else (scanPieces r).map fun p => (.raw c :: p.1, p.2)

def isHigh (u : Nat) : Bool := decide (0xD800 ≤ u ∧ u ≤ 0xDBFF)
def isLow (u : Nat) : Bool := decide (0xDC00 ≤ u ∧ u ≤ 0xDFFF)

/-- Escaped surrogate pairs are joined, a lone surrogate stays. -/
def joinUnits : List Piece → Str
  | [] => []
  | .raw c :: ps => c :: joinUnits ps
  | .unit hi :: .unit lo :: ps =>
    if isHigh hi && isLow lo then
      (0x10000 + (hi - 0xD800) * 0x400 + (lo - 0xDC00)) :: joinUnits ps
    else hi :: joinUnits (.unit lo :: ps)
  | .unit u :: ps => u :: joinUnits ps

def scanString (s : Str) : Option (Str × Str) :=
  (scanPieces s).map fun p => (joinUnits p.1, p.2)

/-! ## Values -/

inductive LoadsError where
  /-- `JSONDecodeError` -/
  | decode
  /-- `ValueError`: an integer with too many digits. -/
  | tooManyDigits
  /-- `RecursionError` -/
  | tooDeep
  /-- The bound of the scanner ran out. -/
  | fuel
  deriving DecidableEq

def maxDigits : Nat := 4300

def isWs (c : Nat) : Bool := decide (c = 32 ∨ c = 9 ∨ c = 10 ∨ c = 13)

def skipWs (s : Str) : Str := s.dropWhile isWs

section Values

variable {F : Type} [FloatText F]

/-- The constant that starts with a character, and its text. -/
def constant (c : Nat) : Option (Str × Value F) :=
  if c = 110 then some (lit "null", .null)
  else if c = 116 then some (lit "true", .bool true)
  else if c = 102 then some (lit "false", .bool false)
  else if c = 78 then some (nanText, .float (FloatText.ofText nanText))
  else if c = 73 then some (infText, .float (FloatText.ofText infText))
  else if c = 45 then some (negInfText, .float (FloatText.ofText negInfText))
  else none

def number (s : Str) : Except LoadsError (Value F × Str) :=
  match scanNumber s with
  | none => .error .decode
  | some (sg, i, fe, r) =>
    if fe ≠ [] then .ok (.float (FloatText.ofText (sg ++ i ++ fe)), r)
    else if maxDigits < i.length then .error .tooManyDigits
    else if sg = [] then .ok (.int (readDigits i), r)
    else .ok (.int (-(readDigits i : Int)), r)

/-- A constant or a number. -/
def atom (s : Str) : Except LoadsError (Value F × Str) :=
  match s.head?.bind constant with
  | some (w, v) => if w <+: s then .ok (v, s.drop w.length) else number s
  | none => number s

mutual

/-- One value: `n` bounds the recursion, `d` is the nesting still allowed. -/
def value : (n d : Nat) → Str → Except LoadsError (Value F × Str)
  | 0, _, _ => .error .fuel
  | _ + 1, _, [] => .error .decode
  | n + 1, d, c :: r =>
    if c = 34 then
      match scanString r with
      | none => .error .decode
      | some (t, r') => .ok (.str t, r')
    else if c = 123 then
      match d with
      | 0 => .error .tooDeep
      | d + 1 =>
        if (skipWs r).head? = some 125 then .ok (.obj [], (skipWs r).tail)
        else do
          let (kvs, r') ← members n d (skipWs r)
          .ok (.obj (dictOf kvs), r')
    else if c = 91 then
      match d with
      | 0 => .error .tooDeep
      | d + 1 =>
        if (skipWs r).head? = some 93 then .ok (.arr [], (skipWs r).tail)
        else do
          let (vs, r') ← elems n d (skipWs r)
          .ok (.arr vs, r')
    else atom (c :: r)

/-- The elements of an array up to the closing bracket. -/
def elems : (n d : Nat) → Str → Except LoadsError (List (Value F) × Str)
  | 0, _, _ => .error .fuel
  | n + 1, d, s => do
    let (v, r) ← value n d s
    match skipWs r with
    | 93 :: r' => .ok ([v], r')
    | 44 :: r' => do
      let (vs, r'') ← elems n d (skipWs r')
      .ok (v :: vs, r'')
    | _ => .error .decode

/-- The fields of an object up to the closing brace. -/
def members : (n d : Nat) → Str → Except LoadsError (List (Str × Value F) × Str)
  | 0, _, _ => .error .fuel
  | _ + 1, _, [] => .error .decode
  | n + 1, d, c :: s =>
    if c ≠ 34 then .error .decode
    else
      match scanString s with
      | none => .error .decode
      | some (k, r) =>
        match skipWs r with
        | 58 :: r₁ => do
          let (v, r₂) ← value n d (skipWs r₁)
          match skipWs r₂ with
          | 125 :: r₃ => .ok ([(k, v)], r₃)
          | 44 :: r₃ => do
            let (kvs, r₄) ← members n d (skipWs r₃)
            .ok ((k, v) :: kvs, r₄)
          | _ => .error .decode
        | _ => .error .decode

end

/-- `json.loads` of a text, with `limit` levels of nesting allowed. -/
def loads (limit : Nat) (s : Str) : Except LoadsError (Value F) :=
  if s.head? = some 0xFEFF then .error .decode
  else
    match value (2 * s.length + 2) limit (skipWs s) with
    | .error e => .error e
    | .ok (v, r) => if skipWs r = [] then .ok v else .error .decode

end Values

end WebSpider.Json
