import WebSpider.Text.Lines

/-!
# The chunker

`chunker.py`: a Markdown text is cut into sections at its heading lines, and a
section longer than the target into groups of paragraphs that overlap. The text
is over any glyphs, so that a chunk can be traced to the places of the text it
was taken from.
-/

namespace WebSpider.Vectors

open Text

variable {α : Type} [Glyph α]

/-- A chunk with the headings it stands under. -/
structure Piece (α : Type) where
  text : List α
  headingPath : List (List α)
  deriving DecidableEq

def isHash (g : α) : Bool := decide (code g = 35)

/-- `_HEADING_RE.match(line)`: the level and the title of a heading. -/
def matchHeading (line : List α) : Option (Nat × List α) :=
  let level := (line.takeWhile isHash).length
  match line.drop level with
  | [] => none
  | g :: rest =>
    if 1 ≤ level ∧ level ≤ 6 ∧ isSpace g = true ∧ strip rest ≠ [] then some (level, strip rest)
    else none

def isHeading (line : List α) : Bool := (matchHeading line).isSome

/-! ## Sections -/

/-- The variables of the loop of `_parse_sections`. -/
structure Parse (α : Type) where
  path : List (List α)
  sections : List (List (List α) × List α)
  current : List (List α)

/-- `sections.append((list(path), "\n".join(current).strip()))`, if there are lines. -/
def Parse.flush (p : Parse α) : List (List (List α) × List α) :=
  if p.current = [] then p.sections
  else p.sections ++ [(p.path, strip (join [newline] p.current))]

def parseLine (p : Parse α) (line : List α) : Parse α :=
  match matchHeading line with
  | some (level, title) =>
    ⟨p.path.take (level - 1) ++ [title], p.flush, [line]⟩
  | none => { p with current := p.current ++ [line] }

/-- `_parse_sections`: the sections that are not blank, each with its path. -/
def parseSections (text : List α) : List (List (List α) × List α) :=
  ((splitlines text).foldl parseLine ⟨[], [], []⟩).flush.filter fun s => !s.2.isEmpty

/-! ## Paragraphs -/

/-- The trailing paragraphs that are carried over, from the reversed buffer. -/
def carryOver (overlap : Nat) : List (List α) → List (List α) → Nat → List (List α)
  | [], carry, _ => carry
  | p :: rest, carry, carryLen =>
    if overlap < carryLen + p.length + 2 then carry
    else carryOver overlap rest (p :: carry) (carryLen + p.length + 2)

/-- The variables of the loop of `_split_paragraphs`. -/
structure Buffer (α : Type) where
  chunks : List (List α)
  buf : List (List α)
  bufLen : Nat

/-- The chunk is full: emit it and carry its tail over. -/
def Buffer.emit (overlap : Nat) (b : Buffer α) : Buffer α :=
  let carry := carryOver overlap b.buf.reverse [] 0
  ⟨b.chunks ++ [join blankLine b.buf], carry,
    (carry.map List.length).sum + 2 * (carry.length - 1)⟩

def addParagraph (target overlap : Nat) (b : Buffer α) (para : List α) : Buffer α :=
  let b' := if b.buf ≠ [] ∧ target < b.bufLen + para.length + 2 then b.emit overlap else b
  ⟨b'.chunks, b'.buf ++ [para], b'.bufLen + (para.length + if b'.bufLen ≠ 0 then 2 else 0)⟩

/-- `_split_paragraphs` -/
def splitParagraphs (paragraphs : List (List α)) (target overlap : Nat) : List (List α) :=
  let b := paragraphs.foldl (addParagraph target overlap) ⟨[], [], 0⟩
  if b.buf = [] then b.chunks else b.chunks ++ [join blankLine b.buf]

/-- The paragraphs of a section. -/
def paragraphs (body : List α) : List (List α) :=
  ((splitBlank false body).map strip).filter fun p => !p.isEmpty

/-! ## Chunks -/

/-- The paragraphs at the start of a section that are headings, glued together,
and the other paragraphs. -/
def takeHeadings : List α → List (List α) → List α × List (List α)
  | lead, [] => (lead, [])
  | lead, p :: ps =>
    if (splitlines p).all isHeading then takeHeadings (strip (lead ++ blankLine ++ p)) ps
    else (lead, p :: ps)

/-- The chunks of a section. -/
def sectionChunks (target overlap : Nat) (minChars : Int) (path : List (List α))
    (body : List α) : List (Piece α) :=
  if body.length ≤ target then
    if minChars ≤ body.length then [⟨body, path⟩] else []
  else
    let (lead, ps) := takeHeadings [] (paragraphs body)
    ((splitParagraphs ps target overlap).map fun piece =>
      Piece.mk (if lead = [] then piece else strip (lead ++ blankLine ++ piece)) path).filter
        fun c => decide (minChars ≤ c.text.length)

/-- `split_markdown` -/
def splitMarkdown (text : List α) (target overlap : Nat) (minChars : Int) : List (Piece α) :=
  (parseSections text).flatMap fun s => sectionChunks target overlap minChars s.1 s.2

end WebSpider.Vectors
