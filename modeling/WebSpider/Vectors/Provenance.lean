import WebSpider.Vectors.Chunker
import Mathlib.Data.List.Nodup
import Mathlib.Data.Option.Basic

/-!
# Chunks and the places of their characters

The chunker looks at code points only: on characters that carry the place they were
read from it makes the same chunks, with the places (`splitMarkdown_placed`). So a chunk
tells for each of its characters where in the text it comes from.
-/

namespace WebSpider.Vectors

open Text

/-- A character with its place. -/
abbrev Placed : Type := Nat × Option Nat

/-- The text with the place of each character. -/
def placed (text : Str) : List Placed := text.zipIdx.map fun x => (x.1, some x.2)

theorem erase_placed (text : Str) : (placed text).map Prod.fst = text := by
  rw [placed, List.map_map]
  exact List.zipIdx_map_fst 0 text

theorem nodup_placed (text : Str) : (placed text).Nodup := by
  have hplaces : ((placed text).map Prod.snd).Nodup := by
    have hmap : (placed text).map Prod.snd = (text.zipIdx.map Prod.snd).map some := by
      rw [placed, List.map_map, List.map_map]
      rfl
    rw [hmap, List.zipIdx_map_snd]
    exact (List.nodup_range').map (Option.some_injective _)
  exact List.Nodup.of_map Prod.snd hplaces

variable {α β : Type} [Glyph α] [Glyph β] {f : α → β}

def Piece.map (f : α → β) (p : Piece α) : Piece β := ⟨p.text.map f, p.headingPath.map (List.map f)⟩

/-! ## Sections -/

section Sections

variable (hf : Glyph.Map f)

include hf

theorem isHash_map (g : α) : isHash (f g) = isHash g := by
  rw [isHash, hf.code]
  rfl

theorem takeWhile_isHash_map (line : List α) :
    (line.map f).takeWhile isHash = (line.takeWhile isHash).map f := by
  rw [List.takeWhile_map]
  exact congrArg (fun p => (line.takeWhile p).map f) (funext (isHash_map hf))

theorem matchHeading_map (line : List α) :
    matchHeading (line.map f) = (matchHeading line).map fun m => (m.1, m.2.map f) := by
  simp only [matchHeading, takeWhile_isHash_map hf, List.length_map, ← List.map_drop]
  cases line.drop (line.takeWhile isHash).length with
  | nil => rfl
  | cons g rest =>
    simp only [List.map_cons, isSpace_map hf, strip_map hf, ne_eq, List.map_eq_nil_iff]
    split
    · rfl
    · rfl

theorem isHeading_map (line : List α) : isHeading (line.map f) = isHeading line := by
  rw [isHeading, matchHeading_map hf, Option.isSome_map]
  rfl

omit [Glyph α] [Glyph β] hf in
/-- A section with its path. -/
def sectionMap (f : α → β) (s : List (List α) × List α) : List (List β) × List β :=
  (s.1.map (List.map f), s.2.map f)

def Parse.map (f : α → β) (p : Parse α) : Parse β :=
  ⟨p.path.map (List.map f), p.sections.map (sectionMap f), p.current.map (List.map f)⟩

theorem flush_map (p : Parse α) : (p.map f).flush = p.flush.map (sectionMap f) := by
  have hjoin := join_map f [newline] p.current
  rw [List.map_singleton, hf.newline] at hjoin
  simp only [Parse.flush, Parse.map, List.map_eq_nil_iff, hjoin, strip_map hf]
  split
  · rfl
  · rw [List.map_append]
    rfl

theorem parseLine_map (p : Parse α) (line : List α) :
    parseLine (p.map f) (line.map f) = (parseLine p line).map f := by
  rw [parseLine, parseLine, matchHeading_map hf]
  cases matchHeading line with
  | none => simp [Parse.map]
  | some m =>
    have hflush := flush_map hf p
    rw [Option.map_some, hflush]
    simp [Parse.map, List.map_take]

theorem parseSections_map (text : List α) :
    parseSections (text.map f) = (parseSections text).map (sectionMap f) := by
  have hfold (lines : List (List α)) (p : Parse α) :
      (lines.map (List.map f)).foldl parseLine (p.map f) = (lines.foldl parseLine p).map f := by
    induction lines generalizing p with
    | nil => rfl
    | cons line lines ih =>
      rw [List.map_cons, List.foldl_cons, parseLine_map hf, ih]
      rfl
  have hstart : (⟨[], [], []⟩ : Parse β) = Parse.map f ⟨[], [], []⟩ := rfl
  rw [parseSections, parseSections, splitlines_map hf, hstart, hfold, flush_map hf,
    List.filter_map]
  congr 2
  funext s
  simp [sectionMap]

end Sections

/-! ## Chunks of a section -/

omit [Glyph α] [Glyph β] in
theorem filter_nonempty_map (f : α → β) (pieces : List (List α)) :
    (pieces.map (List.map f)).filter (fun p => !p.isEmpty) =
      (pieces.filter fun p => !p.isEmpty).map (List.map f) := by
  rw [List.filter_map]
  congr 2
  funext p
  simp

omit [Glyph α] [Glyph β] in
theorem carryOver_map (f : α → β) (overlap : Nat) (buf carry : List (List α)) (n : Nat) :
    carryOver overlap (buf.map (List.map f)) (carry.map (List.map f)) n =
      (carryOver overlap buf carry n).map (List.map f) := by
  induction buf generalizing carry n with
  | nil => rfl
  | cons p rest ih =>
    simp only [List.map_cons, carryOver, List.length_map]
    split
    · rfl
    · exact ih (p :: carry) _

def Buffer.map (f : α → β) (b : Buffer α) : Buffer β :=
  ⟨b.chunks.map (List.map f), b.buf.map (List.map f), b.bufLen⟩

section Chunks

variable (hf : Glyph.Map f)

include hf

theorem join_blankLine_map (pieces : List (List α)) :
    join blankLine (pieces.map (List.map f)) = (join blankLine pieces).map f := by
  rw [← join_map]
  simp [blankLine, hf.newline]

theorem paragraphs_map (body : List α) :
    paragraphs (body.map f) = (paragraphs body).map (List.map f) := by
  rw [paragraphs, paragraphs, ← filter_nonempty_map, splitBlank_map hf, List.map_map,
    List.map_map]
  have hstrip : strip ∘ List.map f = List.map f ∘ strip := funext (strip_map hf)
  rw [hstrip]

theorem emit_map (overlap : Nat) (b : Buffer α) :
    (b.map f).emit overlap = (b.emit overlap).map f := by
  have hcarry := carryOver_map f overlap b.buf.reverse [] 0
  rw [List.map_reverse, List.map_nil] at hcarry
  simp [Buffer.emit, Buffer.map, hcarry, join_blankLine_map hf, Function.comp_def]

theorem addParagraph_map (target overlap : Nat) (b : Buffer α) (para : List α) :
    addParagraph target overlap (b.map f) (para.map f) =
      (addParagraph target overlap b para).map f := by
  have hbuf : (b.map f).buf ≠ [] ↔ b.buf ≠ [] := by
    simp [Buffer.map]
  simp only [addParagraph, List.length_map, hbuf]
  by_cases hfull : b.buf ≠ [] ∧ target < b.bufLen + para.length + 2
  · have hfull' : b.buf ≠ [] ∧ target < (b.map f).bufLen + para.length + 2 := hfull
    rw [if_pos hfull, if_pos hfull', emit_map hf]
    simp only [Buffer.map, List.map_append, List.map_singleton]
    rfl
  · have hfull' : ¬ (b.buf ≠ [] ∧ target < (b.map f).bufLen + para.length + 2) := hfull
    rw [if_neg hfull, if_neg hfull']
    simp only [Buffer.map, List.map_append, List.map_singleton]
    rfl

theorem splitParagraphs_map (paras : List (List α)) (target overlap : Nat) :
    splitParagraphs (paras.map (List.map f)) target overlap =
      (splitParagraphs paras target overlap).map (List.map f) := by
  have hfold (b : Buffer α) :
      (paras.map (List.map f)).foldl (addParagraph target overlap) (b.map f) =
        (paras.foldl (addParagraph target overlap) b).map f := by
    induction paras generalizing b with
    | nil => rfl
    | cons para paras ih =>
      rw [List.map_cons, List.foldl_cons, addParagraph_map hf, ih]
      rfl
  have hstart : (⟨[], [], 0⟩ : Buffer β) = Buffer.map f ⟨[], [], 0⟩ := rfl
  simp only [splitParagraphs, hstart, hfold]
  simp only [Buffer.map, List.map_eq_nil_iff, join_blankLine_map hf]
  split
  · rfl
  · rw [List.map_append]
    rfl

theorem takeHeadings_map (lead : List α) (ps : List (List α)) :
    takeHeadings (lead.map f) (ps.map (List.map f)) =
      ((takeHeadings lead ps).1.map f, (takeHeadings lead ps).2.map (List.map f)) := by
  induction ps generalizing lead with
  | nil => rfl
  | cons p ps ih =>
    have hall : (splitlines (p.map f)).all isHeading = (splitlines p).all isHeading := by
      rw [splitlines_map hf, List.all_map]
      exact congrArg (splitlines p).all (funext (isHeading_map hf))
    have hglue : strip (lead.map f ++ blankLine ++ p.map f) =
        (strip (lead ++ blankLine ++ p)).map f := by
      rw [← strip_map hf]
      simp [blankLine, hf.newline]
    rw [List.map_cons, takeHeadings, takeHeadings, hall, hglue]
    split
    · exact ih _
    · rfl

theorem sectionChunks_map (target overlap : Nat) (minChars : Int) (path : List (List α))
    (body : List α) :
    sectionChunks target overlap minChars (path.map (List.map f)) (body.map f) =
      (sectionChunks target overlap minChars path body).map (Piece.map f) := by
  simp only [sectionChunks, List.length_map]
  split
  · split
    · rfl
    · rfl
  · have hheadings := takeHeadings_map hf [] (paragraphs body)
    rw [List.map_nil, ← paragraphs_map hf] at hheadings
    rw [hheadings]
    generalize takeHeadings [] (paragraphs body) = headings
    obtain ⟨lead, ps⟩ := headings
    have hglue (piece : List α) : (if lead.map f = [] then piece.map f
        else strip (lead.map f ++ blankLine ++ piece.map f)) =
        (if lead = [] then piece else strip (lead ++ blankLine ++ piece)).map f := by
      simp only [List.map_eq_nil_iff]
      split
      · rfl
      · rw [← strip_map hf]
        simp [blankLine, hf.newline]
    dsimp only
    rw [splitParagraphs_map hf, List.map_map, List.filter_map, List.filter_map, List.map_map]
    simp only [Function.comp_def, hglue, List.length_map]
    rfl

theorem splitMarkdown_map (text : List α) (target overlap : Nat) (minChars : Int) :
    splitMarkdown (text.map f) target overlap minChars =
      (splitMarkdown text target overlap minChars).map (Piece.map f) := by
  rw [splitMarkdown, splitMarkdown, parseSections_map hf, List.flatMap_map, List.map_flatMap]
  congr 1
  funext s
  exact sectionChunks_map hf target overlap minChars s.1 s.2

end Chunks

/-- The chunks of the text with places are its chunks. -/
theorem splitMarkdown_placed (text : Str) (target overlap : Nat) (minChars : Int) :
    (splitMarkdown (placed text) target overlap minChars).map (Piece.map Prod.fst) =
      splitMarkdown text target overlap minChars := by
  rw [← splitMarkdown_map Glyph.map_fst, erase_placed]

end WebSpider.Vectors
