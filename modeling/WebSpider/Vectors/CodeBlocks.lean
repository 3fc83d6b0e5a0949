import WebSpider.Vectors.Sections
import WebSpider.Vectors.Provenance
import WebSpider.Lists.InOrder
import Mathlib.Data.List.Flatten
import Mathlib.Data.List.Pairwise

/-!
# Code blocks

A fenced code block should stay whole in every chunk it occurs in. The scanner for
headings and the splitter at blank lines do not know of fences, so a comment line that
looks like a heading cuts a block (`comment_cuts_block`), and so does a blank line in a
section that is too long. `blocks_uncut_iff` says exactly which texts keep their blocks,
for a target and whatever the overlap.
-/

namespace WebSpider.Vectors

open Text

variable {α : Type} [Glyph α]

/-! ## Definitions -/

/-- A line starting with three backticks. -/
def isFence (line : List α) : Bool := decide ((line.take 3).map code = [96, 96, 96])

/-- A fenced code block in the lines of a text. -/
structure CodeBlock (α : Type) where
  before : List (List α)
  opening : List α
  inner : List (List α)
  closing : List α
  after : List (List α)
  deriving DecidableEq

def CodeBlock.lines (b : CodeBlock α) : List (List α) := b.opening :: (b.inner ++ [b.closing])

/-- The blocks: from a fence up to the next one. The second argument is the block that is
open. -/
def codeBlocksFrom (before : List (List α)) :
    Option (List α × List (List α)) → List (List α) → List (CodeBlock α)
  | _, [] => []
  | none, line :: lines =>
    if isFence line then codeBlocksFrom before (some (line, [])) lines
    else codeBlocksFrom (before ++ [line]) none lines
  | some (opening, inner), line :: lines =>
    if isFence line then
      ⟨before, opening, inner, line, lines⟩ ::
        codeBlocksFrom (before ++ opening :: inner ++ [line]) none lines
    else codeBlocksFrom before (some (opening, inner ++ [line])) lines

def codeBlocks (text : List α) : List (CodeBlock α) := codeBlocksFrom [] none (splitlines text)

/-- A chunk with a character of the block holds the whole block. -/
def Unbroken (block : List (List α)) (chunk : List α) : Prop :=
  (∃ line ∈ block, ∃ g ∈ line, g ∈ chunk) → join [newline] block <:+: chunk

instance [DecidableEq α] (block : List (List α)) (chunk : List α) :
    Decidable (Unbroken block chunk) := inferInstanceAs (Decidable (_ → _))

/-- No block of the text is cut. The characters carry their places, so a chunk has one of a
block only because of that block. -/
def Uncut (text : Str) (target overlap : Nat) (minChars : Int) : Prop :=
  ∀ b ∈ codeBlocks (placed text), ∀ c ∈ splitMarkdown (placed text) target overlap minChars,
    Unbroken b.lines c.text

/-- The section of the block, when there is no heading in the block. -/
def CodeBlock.sectionLines (b : CodeBlock α) : List (List α) :=
  sinceHeading [] b.before ++ b.lines ++ b.after.takeWhile fun line => !isHeading line

/-- The closing line does not end in white space. -/
def CodeBlock.endsClean (b : CodeBlock α) : Bool := b.closing.getLast?.all fun g => !isSpace g

/-- The condition: no line of the block looks like a heading. In a section that fits the
target nothing else is needed but that trimming the section leaves the closing line alone.
In a longer one the block is in one paragraph, or the paragraphs below the leading
headings fit the target together and the block is unaltered in their join. -/
def Kept [DecidableEq α] (target : Nat) (b : CodeBlock α) : Prop :=
  (∀ line ∈ b.inner, isHeading line = false) ∧
    if (bodyOf b.sectionLines).length ≤ target then
      b.endsClean = true ∨
        ∃ line ∈ b.after.takeWhile (fun line => !isHeading line), isBlank line = false
    else
      ((∀ line ∈ b.inner, isBlank line = false) ∧ (b.endsClean = true ∨
        ∃ line ∈ b.after.head?, isHeading line = false ∧ isBlank line = false)) ∨
      (joinedLength (belowHeadings (bodyOf b.sectionLines)) ≤ target ∧
        join [newline] b.lines <:+: join blankLine (paragraphs (bodyOf b.sectionLines)))

instance [DecidableEq α] (target : Nat) (b : CodeBlock α) : Decidable (Kept target b) :=
  inferInstanceAs (Decidable (_ ∧ ite _ _ _))

omit [Glyph α] in
theorem CodeBlock.opening_mem (b : CodeBlock α) : b.opening ∈ b.lines := List.mem_cons_self

omit [Glyph α] in
theorem CodeBlock.closing_mem (b : CodeBlock α) : b.closing ∈ b.lines :=
  List.mem_cons_of_mem _ (List.mem_append_right _ List.mem_cons_self)

/-! ## Lines whose characters differ -/

/-- Lines of a text with places: no character occurs twice, and none ends a line. -/
structure PlacedLines (lines : List (List α)) : Prop where
  nodup : lines.flatten.Nodup
  noEnd : ∀ line ∈ lines, ∀ g ∈ line, isLineEnd g = false

theorem placedLines (text : Str) : PlacedLines (splitlines (placed text)) :=
  ⟨(nodup_placed text).sublist (splitlines_sublist _), not_isLineEnd_of_mem _⟩

theorem isNewline_of_not_isLineEnd {g : α} (h : isLineEnd g = false) : isNewline g = false := by
  by_contra hnewline
  rw [Bool.not_eq_false, isNewline, decide_eq_true_eq] at hnewline
  rw [isLineEnd, hnewline] at h
  exact absurd h (by decide)

theorem PlacedLines.isLine {lines : List (List α)} (h : PlacedLines lines) :
    ∀ line ∈ lines, IsLine line :=
  fun line hline g hg => isNewline_of_not_isLineEnd (h.noEnd line hline g hg)

/-- A character is on one side of any place between two lines. -/
theorem PlacedLines.disjoint {xs ys : List (List α)} (h : PlacedLines (xs ++ ys))
    {l l' : List α} (hl : l ∈ xs) (hl' : l' ∈ ys) {g : α} (hg : g ∈ l) (hg' : g ∈ l') : False := by
  have hnodup := h.nodup
  rw [List.flatten_append] at hnodup
  exact List.disjoint_of_nodup_append hnodup (List.mem_flatten.mpr ⟨l, hl, hg⟩)
    (List.mem_flatten.mpr ⟨l', hl', hg'⟩)

/-- A character is in one line. -/
theorem PlacedLines.unique {lines : List (List α)} (h : PlacedLines lines) {l l' : List α}
    (hl : l ∈ lines) (hl' : l' ∈ lines) {g : α} (hg : g ∈ l) (hg' : g ∈ l') : l = l' := by
  by_contra hne
  have hpairwise := (List.nodup_flatten.mp h.nodup).2
  have : Std.Symm (List.Disjoint (α := α)) := ⟨fun _ _ h _ ha ha' => h ha' ha⟩
  exact hpairwise.forall hl hl' hne hg hg'

theorem PlacedLines.sublist {lines lines' : List (List α)} (h : PlacedLines lines)
    (hsub : lines'.Sublist lines) : PlacedLines lines' :=
  ⟨h.nodup.sublist (List.Sublist.flatten hsub), fun line hline => h.noEnd line (hsub.subset hline)⟩

/-! ## Fences -/

theorem exists_backtick {line : List α} (h : isFence line = true) :
    ∃ g rest, line = g :: rest ∧ code g = 96 := by
  rw [isFence, decide_eq_true_eq] at h
  cases line with
  | nil => cases h
  | cons g rest => exact ⟨g, rest, rfl, (List.cons.inj h).1⟩

theorem isSpace_of_code {g : α} (h : code g = 96) : isSpace g = false := by
  rw [isSpace, h]
  decide

theorem isLineEnd_of_code {g : α} (h : code g = 96) : isLineEnd g = false := by
  rw [isLineEnd, h]
  decide

theorem isHeading_backtick {g : α} (h : code g = 96) (rest : List α) :
    isHeading (g :: rest) = false := by
  have hhash : ¬ isHash g = true := by
    rw [isHash, h]
    decide
  rw [isHeading, matchHeading, List.takeWhile_cons_of_neg hhash]
  rfl

theorem isHeading_fence {line : List α} (h : isFence line = true) : isHeading line = false := by
  obtain ⟨g, rest, rfl, hg⟩ := exists_backtick h
  exact isHeading_backtick hg rest

theorem isBlank_fence {line : List α} (h : isFence line = true) : isBlank line = false := by
  obtain ⟨g, rest, rfl, hg⟩ := exists_backtick h
  rw [isBlank, List.all_cons, isSpace_of_code hg, Bool.false_and]

/-- Where a block is. -/
structure Fenced (lines : List (List α)) (b : CodeBlock α) : Prop where
  opening : isFence b.opening = true
  closing : isFence b.closing = true
  split : b.before ++ b.lines ++ b.after = lines

theorem fenced_codeBlocksFrom (lines before : List (List α))
    (pending : Option (List α × List (List α))) (hopen : ∀ o ∈ pending, isFence o.1 = true) :
    ∀ b ∈ codeBlocksFrom before pending lines,
      Fenced (before ++ (pending.elim [] fun o => o.1 :: o.2) ++ lines) b := by
  induction lines generalizing before pending with
  | nil =>
    intro b hb
    cases pending <;> cases hb
  | cons line lines ih =>
    intro b hb
    cases pending with
    | none =>
      rw [codeBlocksFrom] at hb
      split at hb
      · rename_i hfence
        have hfenced := ih before (some (line, [])) (fun o ho => by cases ho; exact hfence) b hb
        simpa using hfenced
      · have hfenced := ih (before ++ [line]) none (fun o ho => by cases ho) b hb
        simpa using hfenced
    | some o =>
      obtain ⟨opening, inner⟩ := o
      have hopening : isFence opening = true := hopen _ rfl
      rw [codeBlocksFrom] at hb
      split at hb
      · rename_i hfence
        rcases List.mem_cons.mp hb with rfl | hb
        · exact ⟨hopening, hfence, by simp [CodeBlock.lines]⟩
        · have hfenced := ih _ none (fun o ho => by cases ho) b hb
          simpa using hfenced
      · have hfenced := ih before (some (opening, inner ++ [line]))
          (fun o ho => by cases ho; exact hopening) b hb
        simpa using hfenced

theorem fenced_codeBlocks {text : List α} {b : CodeBlock α} (hb : b ∈ codeBlocks text) :
    Fenced (splitlines text) b := by
  have hfenced := fenced_codeBlocksFrom (splitlines text) [] none (fun o ho => by cases ho) b hb
  simpa using hfenced

/-! ## Bodies -/

theorem mem_strip {s : List α} {g : α} (hg : g ∈ s) (hsolid : isSpace g = false) : g ∈ strip s := by
  obtain ⟨lead, trail, hs, hlead, htrail⟩ := exists_trimBy isSpace s
  rw [hs, List.mem_append, List.mem_append] at hg
  rcases hg with (hg | hg) | hg
  · have hspace := hlead g hg
    rw [hsolid] at hspace
    cases hspace
  · exact hg
  · have hspace := htrail g hg
    rw [hsolid] at hspace
    cases hspace

theorem strip_subset (s : List α) : strip s ⊆ s := by
  obtain ⟨lead, trail, hs, -, -⟩ := exists_trimBy isSpace s
  intro g hg
  rw [hs]
  exact List.mem_append_left _ (List.mem_append_right _ hg)

theorem mem_bodyOf {lines : List (List α)} {g : α} (hg : g ∈ bodyOf lines)
    (hnewline : isNewline g = false) : ∃ l ∈ lines, g ∈ l := by
  apply (mem_of_mem_join (strip_subset _ hg)).resolve_left
  intro h
  rw [List.mem_singleton.mp h, isNewline_newline] at hnewline
  cases hnewline

theorem mem_bodyOf_of_mem {lines : List (List α)} {l : List α} (hl : l ∈ lines) {g : α}
    (hg : g ∈ l) (hsolid : isSpace g = false) : g ∈ bodyOf lines :=
  mem_strip (mem_join_of_mem _ hl hg) hsolid

theorem paragraphs_bodyOf {lines : List (List α)} (hlines : ∀ l ∈ lines, IsLine l) :
    paragraphs (bodyOf lines) = (runs lines).map bodyOf :=
  (trimmed_splitBlank_strip _).trans (paragraphs_join hlines)

/-- Lines that start with a character that is not white space are kept whole in a body, when
they end with such a character or one follows. -/
theorem join_infix_bodyOf (xs : List (List α)) {block : List (List α)} (ys : List (List α))
    {g : α} {rest : List α} (hblock : join [newline] block = g :: rest) (hg : isSpace g = false)
    (hend : (∃ init d, join [newline] block = init ++ [d] ∧ isSpace d = false) ∨
      ∃ l ∈ ys, isBlank l = false) :
    join [newline] block <:+: bodyOf (xs ++ block ++ ys) := by
  have hne : block ≠ [] := by
    rintro rfl
    cases hblock
  have hjoin := join_around [newline] xs hne ys
  rcases hend with ⟨init, d, hlast, hd⟩ | ⟨l, hl, hsolid⟩
  · obtain ⟨u', v', heq, -, -⟩ := exists_trimBy_of_ends hjoin hblock hg hlast hd
    exact ⟨u', v', heq.symm⟩
  · obtain ⟨w, d, w', rfl, -, hd⟩ := exists_solid hsolid
    have hmem : d ∈ join [newline] ys := mem_join_of_mem _ hl (by simp)
    rw [if_neg (List.ne_nil_of_mem hl)] at hjoin
    obtain ⟨v₁, v₂, hv⟩ := List.append_of_mem (List.mem_append_right [newline] hmem)
    rw [hv] at hjoin
    have hjoin' : join [newline] (xs ++ block ++ ys) =
        (if xs = [] then [] else join [newline] xs ++ [newline]) ++
          (join [newline] block ++ v₁ ++ [d]) ++ v₂ := by
      rw [hjoin]
      simp
    have hhead : join [newline] block ++ v₁ ++ [d] = g :: (rest ++ v₁ ++ [d]) := by
      rw [hblock]
      simp
    obtain ⟨u', v', heq, -, -⟩ := exists_trimBy_of_ends hjoin' hhead hg rfl hd
    refine ⟨u', v₁ ++ [d] ++ v', ?_⟩
    rw [bodyOf, strip, heq]
    simp

/-- White space at the end of a line that only blank lines follow is lost. -/
theorem not_mem_bodyOf {xs ys : List (List α)} {w : List α} {d : α}
    (h : PlacedLines (xs ++ [w ++ [d]] ++ ys)) (hd : isSpace d = true)
    (hblank : ∀ l ∈ ys, isBlank l = true) : d ∉ bodyOf (xs ++ [w ++ [d]] ++ ys) := by
  have hline : w ++ [d] ∈ xs ++ [w ++ [d]] := List.mem_append_right _ List.mem_cons_self
  have hend : isNewline d = false :=
    h.isLine _ (List.mem_append_left _ hline) d (List.mem_append_right _ List.mem_cons_self)
  have hne : d ≠ newline := by
    rintro rfl
    rw [isNewline_newline] at hend
    cases hend
  have hspace : AllOf isSpace ([d] ++ if ys = [] then [] else [newline] ++ join [newline] ys) := by
    intro c hc
    rcases List.mem_append.mp hc with hc | hc
    · rwa [List.mem_singleton.mp hc]
    · split at hc
      · cases hc
      · have hmem : c ∈ [newline] ∨ ∃ l ∈ ys, c ∈ l :=
          (List.mem_append.mp hc).elim .inl mem_of_mem_join
        rcases hmem with hc | ⟨l, hl, hc⟩
        · rw [List.mem_singleton.mp hc]
          exact isSpace_newline
        · exact isBlank_iff.mp (hblank l hl) c hc
  have hbody : bodyOf (xs ++ [w ++ [d]] ++ ys) =
      strip ((if xs = [] then [] else join [newline] xs ++ [newline]) ++ w) := by
    rw [bodyOf, join_around [newline] xs (List.cons_ne_nil (w ++ [d]) []) ys]
    refine Eq.trans (congrArg strip ?_) (trimBy_append_right hspace _)
    simp [join]
  rw [hbody]
  intro hmem
  rcases List.mem_append.mp (strip_subset _ hmem) with hmem | hmem
  · split at hmem
    · cases hmem
    · have hmem' : d ∈ [newline] ∨ ∃ l ∈ xs, d ∈ l :=
        (List.mem_append.mp hmem).elim mem_of_mem_join .inl
      rcases hmem' with hmem | ⟨l, hl, hmem⟩
      · exact hne (List.mem_singleton.mp hmem)
      · have hsub := h.sublist (List.sublist_append_left (xs ++ [w ++ [d]]) ys)
        exact hsub.disjoint hl List.mem_cons_self hmem (List.mem_append_right _ List.mem_cons_self)
  · have hnodup := h.nodup
    rw [List.flatten_append, List.flatten_append] at hnodup
    have hline' : (w ++ [d]).Nodup := by
      simpa using hnodup.of_append_left.of_append_right
    exact List.disjoint_of_nodup_append hline' hmem List.mem_cons_self

/-- The lines of a paragraph with a fence are not all headings. -/
theorem not_all_isHeading {run : List (List α)} {line : List α} (hline : line ∈ run)
    (hfence : isFence line = true) : ¬ (splitlines (bodyOf run)).all isHeading = true := by
  obtain ⟨g, rest, rfl, hg⟩ := exists_backtick hfence
  obtain ⟨xs, ys, rfl⟩ := List.append_of_mem hline
  have hjoin := join_around [newline] xs (List.cons_ne_nil (g :: rest) []) ys
  rw [List.append_assoc, List.singleton_append] at hjoin
  have hjoin' : join [newline] (xs ++ (g :: rest) :: ys) =
      (if xs = [] then [] else join [newline] xs ++ [newline]) ++ [g] ++
        (rest ++ if ys = [] then [] else [newline] ++ join [newline] ys) := by
    rw [hjoin]
    simp [join]
  obtain ⟨u', v', heq, hsuffix, -⟩ := exists_trimBy_of_ends hjoin' rfl (isSpace_of_code hg)
    (List.nil_append [g]).symm (isSpace_of_code hg)
  have hbody : bodyOf (xs ++ (g :: rest) :: ys) = u' ++ g :: v' := by
    rw [bodyOf, strip, heq]
    simp
  rw [hbody, List.all_eq_true]
  intro hall
  have hend := isLineEnd_of_code hg
  have hhead (rest : List α) : isHeading (g :: rest) = false := isHeading_backtick hg rest
  -- The backtick starts a line: it is the first character, or a newline is before it.
  by_cases hnil : u' = []
  · obtain ⟨rest', lines, hsplit⟩ := splitlines_cons hend v'
    have hfirst := hall (g :: rest') (by rw [hnil, List.nil_append, hsplit]; exact List.mem_cons_self)
    rw [hhead] at hfirst
    cases hfirst
  · obtain ⟨u'', rfl⟩ : ∃ u'', u' = u'' ++ [newline] := by
      split at hsuffix
      · exact absurd (List.suffix_nil.mp hsuffix) hnil
      · exact (List.suffix_concat_iff.mp hsuffix).resolve_left hnil |>.imp fun _ h => h.1
    obtain ⟨lines, rest', lines', hsplit, -⟩ := splitlines_newline hend v' u''
    have hline' := hall (g :: rest') (by
      rw [List.append_assoc, List.singleton_append, hsplit]
      exact List.mem_append_right _ List.mem_cons_self)
    rw [hhead] at hline'
    cases hline'

/-! ## The section of a block -/

/-- The lines of a block are not headings. -/
theorem Fenced.noHeading {lines : List (List α)} {b : CodeBlock α} (h : Fenced lines b)
    (hinner : ∀ line ∈ b.inner, isHeading line = false) :
    ∀ line ∈ b.lines, isHeading line = false := by
  refine List.forall_mem_cons.mpr ⟨isHeading_fence h.opening, fun line hline => ?_⟩
  rcases List.mem_append.mp hline with hline | hline
  · exact hinner line hline
  · rw [List.mem_singleton.mp hline]
    exact isHeading_fence h.closing

theorem Fenced.noBlank {lines : List (List α)} {b : CodeBlock α} (h : Fenced lines b)
    (hinner : ∀ line ∈ b.inner, isBlank line = false) :
    ∀ line ∈ b.lines, isBlank line = false := by
  refine List.forall_mem_cons.mpr ⟨isBlank_fence h.opening, fun line hline => ?_⟩
  rcases List.mem_append.mp hline with hline | hline
  · exact hinner line hline
  · rw [List.mem_singleton.mp hline]
    exact isBlank_fence h.closing

/-- The section of the block among the sections. -/
theorem Fenced.exists_section {lines : List (List α)} {b : CodeBlock α} (h : Fenced lines b)
    (hinner : ∀ line ∈ b.inner, isHeading line = false) : ∃ earlier later,
      sectionsFrom [] lines = earlier ++ b.sectionLines :: later := by
  have haround := sectionsFrom_around [] b.before (List.cons_ne_nil b.opening _)
    (h.noHeading hinner) b.after
  rw [← h.split]
  exact haround

/-- A character is in one section. -/
theorem PlacedLines.section_unique {lines : List (List α)} (hlines : PlacedLines lines)
    {G G' : List (List α)} (hG : G ∈ sectionsFrom [] lines) (hG' : G' ∈ sectionsFrom [] lines)
    {l l' : List α} (hl : l ∈ G) (hl' : l' ∈ G') {g : α} (hg : g ∈ l) (hg' : g ∈ l') :
    G = G' := by
  obtain ⟨earlier, later, hsections⟩ := List.append_of_mem hG'
  have hflat := flatten_sectionsFrom [] lines
  rw [hsections, List.flatten_append, List.flatten_cons, List.nil_append] at hflat
  rw [← hflat] at hlines
  rw [hsections] at hG
  rcases List.mem_append.mp hG with hG | hG
  · exact (hlines.disjoint (List.mem_flatten.mpr ⟨G, hG, hl⟩) (List.mem_append_left _ hl')
      hg hg').elim
  · rcases List.mem_cons.mp hG with rfl | hG
    · rfl
    · rw [← List.append_assoc] at hlines
      exact (hlines.disjoint (List.mem_append_right _ hl') (List.mem_flatten.mpr ⟨G, hG, hl⟩)
        hg' hg).elim

/-- A section that shares a character with the block is the section of the block. -/
theorem Fenced.section_unique {lines : List (List α)} {b : CodeBlock α} (h : Fenced lines b)
    (hlines : PlacedLines lines) (hinner : ∀ line ∈ b.inner, isHeading line = false)
    {G : List (List α)} (hG : G ∈ sectionsFrom [] lines) {l l' : List α} (hl : l ∈ b.lines)
    (hl' : l' ∈ G) {g : α} (hg : g ∈ l) (hg' : g ∈ l') : G = b.sectionLines := by
  obtain ⟨earlier, later, hsections⟩ := h.exists_section hinner
  have hsection : b.sectionLines ∈ sectionsFrom [] lines := by
    rw [hsections]
    exact List.mem_append_right _ List.mem_cons_self
  have hmem : l ∈ b.sectionLines := List.mem_append_left _ (List.mem_append_right _ hl)
  exact hlines.section_unique hG hsection hl' hmem hg' hg

/-- The lines of a section are lines of the text. -/
theorem placedLines_section {lines : List (List α)} (hlines : PlacedLines lines)
    {G : List (List α)} (hG : G ∈ sectionsFrom [] lines) : PlacedLines G := by
  have hflat := flatten_sectionsFrom [] lines
  rw [List.nil_append] at hflat
  exact hlines.sublist (hflat ▸ List.sublist_flatten_of_mem hG)

/-- A chunk comes from a section. -/
theorem mem_splitMarkdown {text : List α} {target overlap : Nat} {minChars : Int} {c : Piece α}
    (hc : c ∈ splitMarkdown text target overlap minChars) :
    ∃ G ∈ sectionsFrom [] (splitlines text), ∃ path,
      c ∈ sectionChunks target overlap minChars path (bodyOf G) := by
  obtain ⟨s, hs, hc⟩ := List.mem_flatMap.mp hc
  have hbody : s.2 ∈ (parseSections text).map Prod.snd := List.mem_map_of_mem hs
  rw [bodies_parseSections, List.mem_filter] at hbody
  obtain ⟨G, hG, heq⟩ := List.mem_map.mp hbody.1
  exact ⟨G, hG, s.1, heq ▸ hc⟩

/-- The chunks of a section with a body are chunks of the text. -/
theorem exists_path {text : List α} {G : List (List α)}
    (hG : G ∈ sectionsFrom [] (splitlines text)) (hne : bodyOf G ≠ []) : ∃ path,
      ∀ target overlap minChars, ∀ c ∈ sectionChunks target overlap minChars path (bodyOf G),
        c ∈ splitMarkdown text target overlap minChars := by
  have hbody : bodyOf G ∈ (parseSections text).map Prod.snd := by
    rw [bodies_parseSections, List.mem_filter]
    exact ⟨List.mem_map_of_mem hG, by simp [hne]⟩
  obtain ⟨⟨path, body⟩, hs, heq⟩ := List.mem_map.mp hbody
  obtain rfl : body = bodyOf G := heq
  exact ⟨path, fun _ _ _ c hc => List.mem_flatMap.mpr ⟨(path, bodyOf G), hs, hc⟩⟩

/-- The characters of a paragraph are of its lines. -/
theorem mem_paragraph {G : List (List α)} (hG : ∀ l ∈ G, IsLine l) {p : List α}
    (hp : p ∈ paragraphs (bodyOf G)) : ∃ run ∈ runs G, p = bodyOf run := by
  rw [paragraphs_bodyOf hG] at hp
  obtain ⟨run, hrun, rfl⟩ := List.mem_map.mp hp
  exact ⟨run, hrun, rfl⟩

/-- Neither is a character of the join of paragraphs in a blank line. -/
theorem mem_join_paragraphs {ps : List (List α)} {g : α} (hg : g ∈ join blankLine ps)
    (hnewline : isNewline g = false) : ∃ p ∈ ps, g ∈ p := by
  apply (mem_of_mem_join hg).resolve_left
  intro h
  have hsame : g = newline := by
    simpa [blankLine] using h
  rw [hsame, isNewline_newline] at hnewline
  cases hnewline

/-! ## Kept blocks are not cut -/

omit [Glyph α] in
theorem join_cons_head (sep : List α) (g : α) (line : List α) (lines : List (List α)) :
    ∃ rest, join sep ((g :: line) :: lines) = g :: rest := by
  cases lines with
  | nil => exact ⟨line, rfl⟩
  | cons line' lines => exact ⟨line ++ sep ++ join sep (line' :: lines), rfl⟩

theorem Fenced.join_head {lines : List (List α)} {b : CodeBlock α} (h : Fenced lines b) :
    ∃ g rest, join [newline] b.lines = g :: rest ∧ g ∈ b.opening ∧ code g = 96 := by
  obtain ⟨g, line, hopening, hg⟩ := exists_backtick h.opening
  obtain ⟨rest, hjoin⟩ := join_cons_head [newline] g line (b.inner ++ [b.closing])
  refine ⟨g, rest, ?_, hopening ▸ List.mem_cons_self, hg⟩
  rw [CodeBlock.lines, hopening, hjoin]

/-- The last character of the block. -/
theorem Fenced.join_last {lines : List (List α)} {b : CodeBlock α} (h : Fenced lines b) :
    ∃ w d, b.closing = w ++ [d] ∧ (b.endsClean = true ↔ isSpace d = false) ∧
      ∃ init, join [newline] b.lines = init ++ [d] := by
  obtain ⟨g, line, hclosing, -⟩ := exists_backtick h.closing
  have hne : b.closing ≠ [] := hclosing ▸ List.cons_ne_nil _ _
  have hlast := (List.dropLast_append_getLast hne).symm
  refine ⟨b.closing.dropLast, b.closing.getLast hne, hlast, ?_, ?_⟩
  · rw [CodeBlock.endsClean, List.getLast?_eq_some_getLast hne]
    simp
  · have hjoin := join_append [newline] (List.cons_ne_nil b.opening b.inner)
      (List.cons_ne_nil b.closing [])
    refine ⟨join [newline] (b.opening :: b.inner) ++ [newline] ++ b.closing.dropLast, ?_⟩
    rw [List.append_assoc _ b.closing.dropLast, ← hlast]
    exact hjoin

theorem Fenced.block_infix {lines : List (List α)} {b : CodeBlock α} (h : Fenced lines b)
    (xs ys : List (List α)) (hend : b.endsClean = true ∨ ∃ l ∈ ys, isBlank l = false) :
    join [newline] b.lines <:+: bodyOf (xs ++ b.lines ++ ys) := by
  obtain ⟨g, rest, hhead, -, hg⟩ := h.join_head
  obtain ⟨w, d, -, hclean, init, hlast⟩ := h.join_last
  refine join_infix_bodyOf xs ys hhead (isSpace_of_code hg) (hend.imp_left fun hends => ?_)
  exact ⟨init, d, hlast, hclean.mp hends⟩

/-- A block without a blank line is in one run. -/
theorem Fenced.run_unique {lines : List (List α)} {b : CodeBlock α} (h : Fenced lines b)
    (hsection : PlacedLines b.sectionLines) (hinner : ∀ line ∈ b.inner, isBlank line = false)
    {run : List (List α)} (hrun : run ∈ runs b.sectionLines) {l l' : List α} (hl : l ∈ b.lines)
    (hl' : l' ∈ run) {g : α} (hg : g ∈ l) (hg' : g ∈ l') :
    ∃ tail, tail <:+ sinceHeading [] b.before ∧ run = tail ++ b.lines ++
      (b.after.takeWhile fun line => !isHeading line).takeWhile fun line => !isBlank line := by
  obtain ⟨earlier, tail, later, hearlier, htail, hlater, hruns⟩ :=
    runs_around (sinceHeading [] b.before) (List.cons_ne_nil b.opening _) (h.noBlank hinner)
      (b.after.takeWhile fun line => !isHeading line)
  refine ⟨tail, htail, ?_⟩
  rw [CodeBlock.sectionLines] at hsection
  have hmem : run ∈ earlier ++ (tail ++ b.lines ++ (b.after.takeWhile fun line =>
      !isHeading line).takeWhile fun line => !isBlank line) :: later := hruns ▸ hrun
  rcases List.mem_append.mp hmem with hmem | hmem
  · have hbefore := hsection.sublist (List.sublist_append_left _ _)
    exact (hbefore.disjoint (hearlier run hmem l' hl') hl hg' hg).elim
  · rcases List.mem_cons.mp hmem with rfl | hmem
    · rfl
    · exact (hsection.disjoint (List.mem_append_right _ hl) (hlater run hmem l' hl') hg hg').elim

theorem Kept.unbroken {text : Str} {target overlap : Nat} {minChars : Int} {b : CodeBlock Placed}
    (hb : b ∈ codeBlocks (placed text)) (hkept : Kept target b) {c : Piece Placed}
    (hc : c ∈ splitMarkdown (placed text) target overlap minChars) : Unbroken b.lines c.text := by
  have hfenced := fenced_codeBlocks hb
  have hlines := placedLines text
  have hsplit : ∀ l ∈ b.lines, l ∈ splitlines (placed text) := by
    intro l hl
    rw [← hfenced.split]
    exact List.mem_append_left _ (List.mem_append_right _ hl)
  obtain ⟨hheading, hcases⟩ := hkept
  obtain ⟨G, hG, path, hc⟩ := mem_splitMarkdown hc
  have hGlines := placedLines_section hlines hG
  rintro ⟨l, hl, g, hg, hgc⟩
  have hnewline : isNewline g = false := hlines.isLine l (hsplit l hl) g hg
  by_cases hlength : (bodyOf G).length ≤ target
  · obtain ⟨-, rfl⟩ := (mem_sectionChunks_short hlength).mp hc
    obtain ⟨l', hl', hg'⟩ := mem_bodyOf hgc hnewline
    obtain rfl := hfenced.section_unique hlines hheading hG hl hl' hg hg'
    rw [if_pos hlength] at hcases
    exact hfenced.block_infix _ _ hcases
  · obtain ⟨heads, hparagraphs, hlead, -⟩ := exists_heads (bodyOf G)
    obtain ⟨-, -, grp, hgrp, htext⟩ := (mem_sectionChunks (by omega) hparagraphs hlead).mp hc
    rw [htext] at hgc ⊢
    obtain ⟨p, hp, hgp⟩ := mem_join_paragraphs hgc hnewline
    have hp' : p ∈ paragraphs (bodyOf G) := by
      rw [hparagraphs]
      rcases List.mem_append.mp hp with hp | hp
      · exact List.mem_append_left _ hp
      · exact List.mem_append_right _ ((mem_groups hgrp).2 hp)
    obtain ⟨run, hrun, rfl⟩ := mem_paragraph hGlines.isLine hp'
    obtain ⟨l', hl', hg'⟩ := mem_bodyOf hgp hnewline
    have hl'G : l' ∈ G := ((mem_runs hrun).2 l' hl').1
    obtain rfl := hfenced.section_unique hlines hheading hG hl hl'G hg hg'
    rw [if_neg hlength] at hcases
    rcases hcases with ⟨hblank, hend⟩ | ⟨hfits, hwithin⟩
    · obtain ⟨tail, -, rfl⟩ := hfenced.run_unique hGlines hblank hrun hl hl' hg hg'
      refine (hfenced.block_infix _ _ (hend.imp_right ?_)).trans (infix_join blankLine hp)
      rintro ⟨line, hline, hnot, hsolid⟩
      obtain ⟨after, hafter⟩ := List.head?_eq_some_iff.mp hline
      refine ⟨line, ?_, hsolid⟩
      rw [hafter, List.takeWhile_cons_of_pos (by simp [hnot]),
        List.takeWhile_cons_of_pos (by simp [hsolid])]
      exact List.mem_cons_self
    · have hne : belowHeadings (bodyOf b.sectionLines) ≠ [] := by
        intro hnil
        rw [hnil] at hgrp
        exact (mem_groups hgrp).1 (List.subset_nil.mp (mem_groups hgrp).2)
      rw [groups_of_fits overlap hne hfits, List.mem_singleton] at hgrp
      rw [hgrp, ← hparagraphs]
      exact hwithin

/-! ## Blocks that are not cut are kept -/

/-- The paragraph of a fence is not one of the leading headings. -/
theorem exists_run_below {G : List (List α)} (hG : ∀ l ∈ G, IsLine l) {line : List α}
    (hline : line ∈ G) (hfence : isFence line = true) :
    ∃ run ∈ runs G, line ∈ run ∧ bodyOf run ∈ belowHeadings (bodyOf G) := by
  obtain ⟨run, hrun, hmem⟩ := exists_run hline (isBlank_fence hfence)
  obtain ⟨heads, hsplit, -, hheads⟩ := exists_heads (bodyOf G)
  have hp : bodyOf run ∈ heads ++ belowHeadings (bodyOf G) := by
    rw [← hsplit, paragraphs_bodyOf hG]
    exact List.mem_map_of_mem hrun
  refine ⟨run, hrun, hmem, (List.mem_append.mp hp).resolve_left fun hhead => ?_⟩
  exact not_all_isHeading hmem hfence (hheads _ hhead)

/-- The chunk of a short section. -/
theorem exists_chunk_short {text : List α} {G : List (List α)}
    (hG : G ∈ sectionsFrom [] (splitlines text)) (hne : bodyOf G ≠ []) {target : Nat}
    (overlap : Nat) (hshort : (bodyOf G).length ≤ target) :
    ∃ c ∈ splitMarkdown text target overlap 0, c.text = bodyOf G := by
  obtain ⟨path, hpath⟩ := exists_path hG hne
  refine ⟨⟨bodyOf G, path⟩, hpath _ _ _ _ ?_, rfl⟩
  exact (mem_sectionChunks_short hshort).mpr ⟨Int.natCast_nonneg _, rfl⟩

/-- The chunk of a group of a long section. -/
theorem exists_chunk_long {text : List α} {G : List (List α)}
    (hG : G ∈ sectionsFrom [] (splitlines text)) {target overlap : Nat}
    (hlong : target < (bodyOf G).length) {heads : List (List α)}
    (hsplit : paragraphs (bodyOf G) = heads ++ belowHeadings (bodyOf G))
    (hlead : (takeHeadings [] (paragraphs (bodyOf G))).1 = join blankLine heads)
    {grp : List (List α)} (hgrp : grp ∈ groups target overlap [] (belowHeadings (bodyOf G))) :
    ∃ c ∈ splitMarkdown text target overlap 0, c.text = join blankLine (heads ++ grp) := by
  have hne : bodyOf G ≠ [] := by
    intro hnil
    rw [hnil] at hlong
    exact Nat.not_lt_zero _ hlong
  obtain ⟨path, hpath⟩ := exists_path hG hne
  refine ⟨⟨join blankLine (heads ++ grp), path⟩, hpath _ _ _ _ ?_, rfl⟩
  exact (mem_sectionChunks hlong hsplit hlead).mpr ⟨Int.natCast_nonneg _, rfl, grp, hgrp, rfl⟩

/-- A chunk of a long section with a given fence, made of paragraphs of the section. -/
theorem exists_chunk_of_fence {text : List α} (hlines : PlacedLines (splitlines text))
    {G : List (List α)} (hG : G ∈ sectionsFrom [] (splitlines text)) {target : Nat} (overlap : Nat)
    (hlong : target < (bodyOf G).length) {line : List α} (hline : line ∈ G)
    (hfence : isFence line = true) {g : α} (hg : g ∈ line) (hcode : code g = 96) :
    ∃ c ∈ splitMarkdown text target overlap 0, g ∈ c.text ∧
      ∀ x ∈ c.text, isNewline x = false → ∃ p ∈ paragraphs (bodyOf G), x ∈ p := by
  obtain ⟨heads, hsplit, hlead, -⟩ := exists_heads (bodyOf G)
  obtain ⟨run, -, hmem, hbelow⟩ :=
    exists_run_below (placedLines_section hlines hG).isLine hline hfence
  have hbelow' : bodyOf run ∈ [] ++ belowHeadings (bodyOf G) := hbelow
  obtain ⟨grp, hgrp, hrun⟩ := exists_group_of_mem target overlap hbelow'
  obtain ⟨c, hc, htext⟩ := exists_chunk_long hG hlong hsplit hlead hgrp
  refine ⟨c, hc, ?_, fun x hx hnewline => ?_⟩
  · rw [htext]
    exact mem_join_of_mem _ (List.mem_append_right _ hrun)
      (mem_bodyOf_of_mem hmem hg (isSpace_of_code hcode))
  · rw [htext] at hx
    obtain ⟨p, hp, hxp⟩ := mem_join_paragraphs hx hnewline
    refine ⟨p, ?_, hxp⟩
    rw [hsplit]
    rcases List.mem_append.mp hp with hp | hp
    · exact List.mem_append_left _ hp
    · exact List.mem_append_right _ ((mem_groups hgrp).2 hp)

/-- What a chunk that holds the block has. -/
theorem mem_of_unbroken {block : List (List α)} {chunk : List α} (h : Unbroken block chunk)
    {l l' : List α} (hl : l ∈ block) (hl' : l' ∈ block) {g g' : α} (hg : g ∈ l) (hg' : g' ∈ l')
    (hgc : g ∈ chunk) : g' ∈ chunk :=
  (h ⟨l, hl, g, hg, hgc⟩).subset (mem_join_of_mem _ hl' hg')

/-- A heading in a block starts a section without the opening fence. -/
theorem noHeading_of_uncut {text : Str} {target : Nat}
    (huncut : ∀ overlap minChars, Uncut text target overlap minChars) {b : CodeBlock Placed}
    (hb : b ∈ codeBlocks (placed text)) : ∀ line ∈ b.inner, isHeading line = false := by
  intro line hline
  by_contra hheading
  rw [Bool.not_eq_false] at hheading
  have hfenced := fenced_codeBlocks hb
  have hlines := placedLines text
  obtain ⟨u, v, hinner⟩ := List.append_of_mem hline
  have hsplit : splitlines (placed text) =
      (b.before ++ b.opening :: u) ++ line :: (v ++ b.closing :: b.after) := by
    rw [← hfenced.split, CodeBlock.lines, hinner]
    simp
  have hsections := sectionsFrom_heading [] (b.before ++ b.opening :: u) hheading
    (v ++ b.closing :: b.after)
  rw [← hsplit] at hsections
  have hflat := flatten_sectionsFrom [] (b.before ++ b.opening :: u)
  have hopening : b.opening ∈ (sectionsFrom [] (b.before ++ b.opening :: u)).flatten := by
    rw [hflat]
    exact List.mem_append_right _ (List.mem_append_right _ List.mem_cons_self)
  obtain ⟨G, hG, hopeningG⟩ := List.mem_flatten.mp hopening
  have hG' : G ∈ sectionsFrom [] (splitlines (placed text)) := by
    rw [hsections]
    exact List.mem_append_left _ hG
  have hGlines := placedLines_section hlines hG'
  obtain ⟨g, -, -, hg, hcode⟩ := hfenced.join_head
  obtain ⟨g', rest', hclosing, hcode'⟩ := exists_backtick hfenced.closing
  have hg' : g' ∈ b.closing := hclosing ▸ List.mem_cons_self
  have hgbody := mem_bodyOf_of_mem hopeningG hg (isSpace_of_code hcode)
  have hnewline' := isNewline_of_not_isLineEnd (isLineEnd_of_code hcode')
  -- A chunk with the opening fence has characters of its section only.
  obtain ⟨c, hc, hgc, hchars⟩ : ∃ c ∈ splitMarkdown (placed text) target 0 0, g ∈ c.text ∧
      ∀ x ∈ c.text, isNewline x = false → ∃ l ∈ G, x ∈ l := by
    by_cases hlength : (bodyOf G).length ≤ target
    · obtain ⟨c, hc, htext⟩ := exists_chunk_short hG' (List.ne_nil_of_mem hgbody) 0 hlength
      exact ⟨c, hc, htext ▸ hgbody, fun x hx => mem_bodyOf (htext ▸ hx)⟩
    · obtain ⟨c, hc, hgc, hparagraphs⟩ := exists_chunk_of_fence hlines hG' 0
        (Nat.lt_of_not_le hlength) hopeningG hfenced.opening hg hcode
      refine ⟨c, hc, hgc, fun x hx hnewline => ?_⟩
      obtain ⟨p, hp, hxp⟩ := hparagraphs x hx hnewline
      obtain ⟨run, hrun, rfl⟩ := mem_paragraph hGlines.isLine hp
      obtain ⟨l, hl, hxl⟩ := mem_bodyOf hxp hnewline
      exact ⟨l, ((mem_runs hrun).2 l hl).1, hxl⟩
  have hg'c := mem_of_unbroken (huncut 0 0 b hb c hc) List.mem_cons_self
    (List.mem_cons_of_mem _ (List.mem_append_right _ List.mem_cons_self)) hg hg' hgc
  obtain ⟨l, hl, hg'l⟩ := hchars g' hg'c hnewline'
  rw [hsplit] at hlines
  have hl' : l ∈ b.before ++ b.opening :: u := by
    rw [List.nil_append] at hflat
    rw [← hflat]
    exact List.mem_flatten.mpr ⟨G, hG, hl⟩
  exact hlines.disjoint hl' (List.mem_cons_of_mem _ (List.mem_append_right _ List.mem_cons_self))
    hg'l hg'

/-- White space at the end of the closing fence is kept only before a line that is not
blank. -/
theorem ends_of_mem {b : CodeBlock α} {xs ys : List (List α)} (hlines : PlacedLines (xs ++ b.lines ++ ys)) {d : α} {w : List α}
    (hclosing : b.closing = w ++ [d]) (hclean : b.endsClean = true ↔ isSpace d = false)
    (hd : d ∈ bodyOf (xs ++ b.lines ++ ys)) :
    b.endsClean = true ∨ ∃ l ∈ ys, isBlank l = false := by
  by_contra hnot
  obtain ⟨hdirty, hblank⟩ := not_or.mp hnot
  have hspace : isSpace d = true := by
    by_contra hsolid
    exact hdirty (hclean.mpr ((Bool.not_eq_true _).mp hsolid))
  have hsame : xs ++ b.lines ++ ys = (xs ++ b.opening :: b.inner) ++ [w ++ [d]] ++ ys := by
    rw [CodeBlock.lines, hclosing]
    simp
  rw [hsame] at hlines hd
  refine not_mem_bodyOf hlines hspace (fun l hl => ?_) hd
  by_contra hsolid
  exact hblank ⟨l, hl, (Bool.not_eq_true _).mp hsolid⟩

/-- A character of a paragraph is of one of its lines. -/
theorem mem_run_paragraph {xs : List (List α)} {p : List α} (hp : p ∈ (runs xs).map bodyOf)
    {x : α} (hx : x ∈ p) (hnewline : isNewline x = false) :
    ∃ run ∈ runs xs, p = bodyOf run ∧ ∃ l ∈ run, l ∈ xs ∧ x ∈ l := by
  obtain ⟨run, hrun, rfl⟩ := List.mem_map.mp hp
  obtain ⟨l, hl, hxl⟩ := mem_bodyOf hx hnewline
  exact ⟨run, hrun, rfl, l, hl, ((mem_runs hrun).2 l hl).1, hxl⟩

/-- A blank line after a fence divides the paragraphs below the leading headings. -/
theorem exists_middle {xs ys : List (List α)} {blank line : List α}
    (hG : ∀ l ∈ xs ++ blank :: ys, IsLine l) (hblank : isBlank blank = true) (hline : line ∈ xs)
    (hfence : isFence line = true) {heads : List (List α)}
    (hsplit : paragraphs (bodyOf (xs ++ blank :: ys)) =
      heads ++ belowHeadings (bodyOf (xs ++ blank :: ys)))
    (hheads : ∀ p ∈ heads, (splitlines p).all isHeading = true) :
    ∃ middle run, (runs xs).map bodyOf = heads ++ middle ∧
      belowHeadings (bodyOf (xs ++ blank :: ys)) = middle ++ (runs ys).map bodyOf ∧
      line ∈ run ∧ bodyOf run ∈ middle := by
  obtain ⟨run, hrun, hmem⟩ := exists_run hline (isBlank_fence hfence)
  have hnotHead : bodyOf run ∉ heads := fun h => not_all_isHeading hmem hfence (hheads _ h)
  have hboth : heads ++ belowHeadings (bodyOf (xs ++ blank :: ys)) =
      (runs xs).map bodyOf ++ (runs ys).map bodyOf := by
    rw [← hsplit, paragraphs_bodyOf hG, runs_append_cons xs hblank, List.map_append]
  rcases List.append_eq_append_iff.mp hboth with ⟨middle, hmiddle, hbelow⟩ | ⟨rest, hrest, -⟩
  · have hrun' : bodyOf run ∈ heads ++ middle := hmiddle ▸ List.mem_map_of_mem hrun
    exact ⟨middle, run, hmiddle, hbelow, hmem, (List.mem_append.mp hrun').resolve_left hnotHead⟩
  · refine absurd ?_ hnotHead
    rw [hrest]
    exact List.mem_append_left _ (List.mem_map_of_mem hrun)

/-- The paragraphs before a place do not hold a block that goes on after it. -/
theorem not_unbroken_before {xs ys : List (List α)} (hlines : PlacedLines (xs ++ ys))
    {ps : List (List α)} (hps : ∀ p ∈ ps, p ∈ (runs xs).map bodyOf) {block : List (List α)}
    {l l' : List α} (hl : l ∈ block) (hl' : l' ∈ block) (hl'ys : l' ∈ ys) {x x' : α} (hx : x ∈ l)
    (hx' : x' ∈ l') (hxc : x ∈ join blankLine ps) : ¬ Unbroken block (join blankLine ps) := by
  intro hunbroken
  have hx'c := mem_of_unbroken hunbroken hl hl' hx hx' hxc
  have hnewline : isNewline x' = false :=
    hlines.isLine l' (List.mem_append_right _ hl'ys) x' hx'
  obtain ⟨p, hp, hx'p⟩ := mem_join_paragraphs hx'c hnewline
  obtain ⟨-, -, -, l'', -, hl'', hx'l⟩ := mem_run_paragraph (hps p hp) hx'p hnewline
  exact hlines.disjoint hl'' hl'ys hx'l hx'

/-- The paragraphs after a place, under the leading headings, do not hold a block with a
fence before it. -/
theorem not_unbroken_after {xs ys : List (List α)} (hlines : PlacedLines (xs ++ ys))
    {heads ps : List (List α)} (hheads : ∀ p ∈ heads, (splitlines p).all isHeading = true)
    (hheadsRuns : ∀ p ∈ heads, p ∈ (runs xs).map bodyOf)
    (hps : ∀ p ∈ ps, p ∈ (runs ys).map bodyOf) {block : List (List α)} {l l' : List α}
    (hl : l ∈ block) (hl' : l' ∈ block) (hl'xs : l' ∈ xs) (hfence : isFence l' = true) {x : α}
    (hx : x ∈ l) (hxc : x ∈ join blankLine (heads ++ ps)) :
    ¬ Unbroken block (join blankLine (heads ++ ps)) := by
  intro hunbroken
  obtain ⟨g, rest, hsplit, -⟩ := exists_backtick hfence
  have hg : g ∈ l' := hsplit ▸ List.mem_cons_self
  have hgc := mem_of_unbroken hunbroken hl hl' hx hg hxc
  have hnewline : isNewline g = false := hlines.isLine l' (List.mem_append_left _ hl'xs) g hg
  obtain ⟨p, hp, hgp⟩ := mem_join_paragraphs hgc hnewline
  rcases List.mem_append.mp hp with hp | hp
  · -- The fence would be in a leading heading.
    obtain ⟨run, -, rfl, l'', hl'', hmem, hgl⟩ := mem_run_paragraph (hheadsRuns p hp) hgp hnewline
    obtain rfl := (hlines.sublist (List.sublist_append_left xs ys)).unique hmem hl'xs hgl hg
    exact not_all_isHeading hl'' hfence (hheads _ hp)
  · obtain ⟨-, -, -, l'', -, hmem, hgl⟩ := mem_run_paragraph (hps p hp) hgp hnewline
    exact hlines.disjoint hl'xs hmem hg hgl

/-- A block with a blank line, in a long section, is cut for some overlap unless the
paragraphs below the leading headings fit the target together. -/
theorem fits_of_uncut {text : Str} {target : Nat}
    (huncut : ∀ overlap minChars, Uncut text target overlap minChars) {b : CodeBlock Placed}
    (hb : b ∈ codeBlocks (placed text))
    (hsection : b.sectionLines ∈ sectionsFrom [] (splitlines (placed text)))
    (hlong : target < (bodyOf b.sectionLines).length) {line : List Placed} (hline : line ∈ b.inner)
    (hblank : isBlank line = true) :
    joinedLength (belowHeadings (bodyOf b.sectionLines)) ≤ target := by
  by_contra hnot
  have hfenced := fenced_codeBlocks hb
  have hGlines := placedLines_section (placedLines text) hsection
  obtain ⟨u, v, hinner⟩ := List.append_of_mem hline
  obtain ⟨xs, hxs⟩ : ∃ xs, xs = sinceHeading [] b.before ++ b.opening :: u := ⟨_, rfl⟩
  obtain ⟨ys, hys⟩ : ∃ ys, ys = v ++ b.closing :: b.after.takeWhile fun line => !isHeading line :=
    ⟨_, rfl⟩
  have hsplit : b.sectionLines = xs ++ line :: ys := by
    rw [CodeBlock.sectionLines, CodeBlock.lines, hinner, hxs, hys]
    simp
  rw [hsplit] at hsection hlong hGlines hnot
  have hdivided : PlacedLines (xs ++ ys) :=
    hGlines.sublist ((List.Sublist.refl xs).append (List.sublist_cons_self line ys))
  have hopening : b.opening ∈ xs := by
    rw [hxs]
    exact List.mem_append_right _ List.mem_cons_self
  have hclosing : b.closing ∈ ys := by
    rw [hys]
    exact List.mem_append_right _ List.mem_cons_self
  have hopeningLine := b.opening_mem
  have hclosingLine := b.closing_mem
  obtain ⟨heads, hparagraphs, hlead, hheads⟩ := exists_heads (bodyOf (xs ++ line :: ys))
  obtain ⟨middle, run, hmiddle, hbelow, hrun, hrunMiddle⟩ :=
    exists_middle hGlines.isLine hblank hopening hfenced.opening hparagraphs hheads
  obtain ⟨run₂, later, hrun₂, l₂, hl₂, hl₂Mem⟩ := runs_head v (isBlank_fence hfenced.closing)
    (b.after.takeWhile fun line => !isHeading line)
  rw [← hys] at hrun₂
  have hne : (runs ys).map bodyOf ≠ [] := by
    rw [hrun₂]
    exact List.cons_ne_nil _ _
  rw [hbelow] at hnot
  obtain ⟨overlap, hcut⟩ := exists_cut (List.ne_nil_of_mem hrunMiddle) hne (Nat.lt_of_not_le hnot)
  rw [← hbelow] at hcut
  rcases hcut with hgrp | ⟨grp, hprefix, hgrpNe, hgrp⟩
  · -- A chunk with the opening fence ends before the blank line.
    obtain ⟨c, hc, htext⟩ := exists_chunk_long hsection hlong hparagraphs hlead hgrp
    obtain ⟨g, -, -, hg, hcode⟩ := hfenced.join_head
    obtain ⟨g', rest', hfence, -⟩ := exists_backtick hfenced.closing
    have hgc : g ∈ join blankLine (heads ++ middle) :=
      mem_join_of_mem _ (List.mem_append_right _ hrunMiddle)
        (mem_bodyOf_of_mem hrun hg (isSpace_of_code hcode))
    refine not_unbroken_before hdivided (fun p hp => hmiddle ▸ hp) hopeningLine hclosingLine
      hclosing hg (hfence ▸ List.mem_cons_self) hgc ?_
    rw [← htext]
    exact huncut overlap 0 b hb c hc
  · -- A chunk starts after the blank line with a line of the block.
    obtain ⟨c, hc, htext⟩ := exists_chunk_long hsection hlong hparagraphs hlead hgrp
    have hrun₂Mem : run₂ ∈ runs ys := by
      rw [hrun₂]
      exact List.mem_cons_self
    have hrun₂Grp : bodyOf run₂ ∈ grp := by
      obtain ⟨p, grp', rfl⟩ := List.exists_cons_of_ne_nil hgrpNe
      rw [hrun₂, List.map_cons] at hprefix
      rw [(List.cons_prefix_cons.mp hprefix).1]
      exact List.mem_cons_self
    obtain ⟨w, x, w', hl₂Split, -, hx⟩ := exists_solid ((mem_runs hrun₂Mem).2 l₂ hl₂).2
    have hxl₂ : x ∈ l₂ := by
      rw [hl₂Split]
      exact List.mem_append_right _ List.mem_cons_self
    have hl₂Block : l₂ ∈ b.lines := by
      rcases hl₂Mem with hv | rfl
      · rw [CodeBlock.lines, hinner]
        exact List.mem_cons_of_mem _ (List.mem_append_left _
          (List.mem_append_right _ (List.mem_cons_of_mem _ hv)))
      · exact hclosingLine
    have hxc : x ∈ join blankLine (heads ++ grp) :=
      mem_join_of_mem _ (List.mem_append_right _ hrun₂Grp) (mem_bodyOf_of_mem hl₂ hxl₂ hx)
    refine not_unbroken_after hdivided hheads
      (fun p hp => hmiddle ▸ List.mem_append_left _ hp) (fun p hp => hprefix.subset hp) hl₂Block
      hopeningLine hopening hfenced.opening hxl₂ hxc ?_
    rw [← htext]
    exact huncut overlap 0 b hb c hc

/-- A line that continues the paragraph is the next one. -/
theorem next_line {after : List (List α)} {l : List α}
    (hl : l ∈ (after.takeWhile fun line => !isHeading line).takeWhile fun line => !isBlank line) :
    ∃ line ∈ after.head?, isHeading line = false ∧ isBlank line = false := by
  cases after with
  | nil => cases hl
  | cons line after =>
    refine ⟨line, rfl, ?_⟩
    by_contra hnot
    rw [List.takeWhile_cons] at hl
    split at hl
    · rename_i hnext
      have hnext' : isHeading line = false := by simpa using hnext
      rw [List.takeWhile_cons_of_neg (by simpa using fun h => hnot ⟨hnext', h⟩)] at hl
      cases hl
    · cases hl

section Uncut

variable {text : Str} {target : Nat} (huncut : ∀ overlap minChars, Uncut text target overlap minChars)
  {b : CodeBlock Placed} (hb : b ∈ codeBlocks (placed text))
  (hsection : b.sectionLines ∈ sectionsFrom [] (splitlines (placed text)))

include huncut hb hsection

/-- A block in a section that fits the target. -/
theorem ends_of_uncut_short (hshort : (bodyOf b.sectionLines).length ≤ target) :
    b.endsClean = true ∨
      ∃ line ∈ b.after.takeWhile (fun line => !isHeading line), isBlank line = false := by
  have hfenced := fenced_codeBlocks hb
  have hGlines := placedLines_section (placedLines text) hsection
  obtain ⟨g, -, -, hg, hcode⟩ := hfenced.join_head
  obtain ⟨w, d, hclosing, hclean, -⟩ := hfenced.join_last
  have hd : d ∈ b.closing := hclosing ▸ List.mem_append_right _ List.mem_cons_self
  have hopening : b.opening ∈ b.sectionLines :=
    List.mem_append_left _ (List.mem_append_right _ b.opening_mem)
  have hgbody := mem_bodyOf_of_mem hopening hg (isSpace_of_code hcode)
  obtain ⟨c, hc, htext⟩ := exists_chunk_short hsection (List.ne_nil_of_mem hgbody) 0 hshort
  have hdc := mem_of_unbroken (huncut 0 0 b hb c hc) b.opening_mem b.closing_mem hg hd
    (htext ▸ hgbody)
  rw [htext] at hdc
  exact ends_of_mem hGlines hclosing hclean hdc

/-- A block without a blank line in a longer section. -/
theorem ends_of_uncut_long (hlong : target < (bodyOf b.sectionLines).length)
    (hblank : ∀ line ∈ b.inner, isBlank line = false) :
    b.endsClean = true ∨ ∃ line ∈ b.after.head?, isHeading line = false ∧ isBlank line = false := by
  have hfenced := fenced_codeBlocks hb
  have hlines := placedLines text
  have hGlines := placedLines_section hlines hsection
  obtain ⟨g, -, -, hg, hcode⟩ := hfenced.join_head
  obtain ⟨w, d, hclosing, hclean, -⟩ := hfenced.join_last
  have hd : d ∈ b.closing := hclosing ▸ List.mem_append_right _ List.mem_cons_self
  have hmem {l : List Placed} (hl : l ∈ b.lines) : l ∈ b.sectionLines :=
    List.mem_append_left _ (List.mem_append_right _ hl)
  have hdLine := hGlines.isLine _ (hmem b.closing_mem) d hd
  obtain ⟨c, hc, hgc, hparagraphs⟩ := exists_chunk_of_fence hlines hsection 0 hlong
    (hmem b.opening_mem) hfenced.opening hg hcode
  have hdc := mem_of_unbroken (huncut 0 0 b hb c hc) b.opening_mem b.closing_mem hg hd hgc
  obtain ⟨p, hp, hdp⟩ := hparagraphs d hdc hdLine
  obtain ⟨run, hrun, rfl⟩ := mem_paragraph hGlines.isLine hp
  obtain ⟨l', hl', hd'⟩ := mem_bodyOf hdp hdLine
  obtain ⟨tail, htail, rfl⟩ := hfenced.run_unique hGlines hblank hrun b.closing_mem hl' hd hd'
  have hrunLines : PlacedLines (tail ++ b.lines ++ (b.after.takeWhile fun line =>
      !isHeading line).takeWhile fun line => !isBlank line) :=
    hGlines.sublist ((htail.sublist.append (List.Sublist.refl _)).append
      (List.takeWhile_sublist _))
  apply (ends_of_mem hrunLines hclosing hclean hdp).imp_right
  rintro ⟨l, hl, -⟩
  exact next_line hl

/-- A block with a blank line in a longer section is unaltered in the join of the
paragraphs. -/
theorem unaltered_of_uncut (hlong : target < (bodyOf b.sectionLines).length)
    (hfits : joinedLength (belowHeadings (bodyOf b.sectionLines)) ≤ target) :
    join [newline] b.lines <:+: join blankLine (paragraphs (bodyOf b.sectionLines)) := by
  have hfenced := fenced_codeBlocks hb
  have hGlines := placedLines_section (placedLines text) hsection
  obtain ⟨g, -, -, hg, hcode⟩ := hfenced.join_head
  have hopening : b.opening ∈ b.sectionLines :=
    List.mem_append_left _ (List.mem_append_right _ b.opening_mem)
  obtain ⟨heads, hsplit, hlead, -⟩ := exists_heads (bodyOf b.sectionLines)
  obtain ⟨run, -, hrunMem, hbelow⟩ := exists_run_below hGlines.isLine hopening hfenced.opening
  have hgrp : belowHeadings (bodyOf b.sectionLines) ∈
      groups target 0 [] (belowHeadings (bodyOf b.sectionLines)) := by
    rw [groups_of_fits 0 (List.ne_nil_of_mem hbelow) hfits]
    exact List.mem_cons_self
  obtain ⟨c, hc, htext⟩ := exists_chunk_long hsection hlong hsplit hlead hgrp
  rw [← hsplit] at htext
  rw [← htext]
  refine huncut 0 0 b hb c hc ⟨b.opening, b.opening_mem, g, hg, ?_⟩
  rw [htext, hsplit]
  exact mem_join_of_mem _ (List.mem_append_right _ hbelow)
    (mem_bodyOf_of_mem hrunMem hg (isSpace_of_code hcode))

end Uncut

theorem kept_of_uncut {text : Str} {target : Nat}
    (huncut : ∀ overlap minChars, Uncut text target overlap minChars) {b : CodeBlock Placed}
    (hb : b ∈ codeBlocks (placed text)) : Kept target b := by
  have hheading := noHeading_of_uncut huncut hb
  have hsection : b.sectionLines ∈ sectionsFrom [] (splitlines (placed text)) := by
    obtain ⟨earlier, later, heq⟩ := (fenced_codeBlocks hb).exists_section hheading
    rw [heq]
    exact List.mem_append_right _ List.mem_cons_self
  refine ⟨hheading, ?_⟩
  split
  · rename_i hshort
    exact ends_of_uncut_short huncut hb hsection hshort
  · rename_i hlong
    have hlong' : target < (bodyOf b.sectionLines).length := Nat.lt_of_not_le hlong
    by_cases hblank : ∀ line ∈ b.inner, isBlank line = false
    · exact .inl ⟨hblank, ends_of_uncut_long huncut hb hsection hlong' hblank⟩
    · obtain ⟨line, hline⟩ := not_forall.mp hblank
      obtain ⟨hline, hblank'⟩ := Classical.not_imp.mp hline
      have hfits := fits_of_uncut huncut hb hsection hlong' hline ((Bool.not_eq_false _).mp hblank')
      exact .inr ⟨hfits, unaltered_of_uncut huncut hb hsection hlong' hfits⟩

/-- For a target, the code keeps the blocks of a text whatever the overlap exactly when every
block meets the condition. -/
theorem blocks_uncut_iff (text : Str) (target : Nat) :
    (∀ (overlap : Nat) (minChars : Int), Uncut text target overlap minChars) ↔
      ∀ b ∈ codeBlocks (placed text), Kept target b :=
  ⟨fun huncut _ hb => kept_of_uncut huncut hb,
    fun hkept _ _ b hb _ hc => (hkept b hb).unbroken hb hc⟩

/-- A comment in a code block. -/
def commentedBlock : Str :=
  lit "```python\n# load the configuration file first\nconfig = read()\n```"

/-- The comment starts a section. -/
theorem comment_cuts_block : ¬ ∀ (text : Str) (target overlap : Nat) (minChars : Int),
    1 ≤ target → Uncut text target overlap minChars := by
  intro hwhole
  have huncut := hwhole commentedBlock 1200 150 30 (by decide)
  revert huncut
  unfold Uncut
  decide +kernel

end WebSpider.Vectors
