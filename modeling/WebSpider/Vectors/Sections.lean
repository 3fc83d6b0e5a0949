import WebSpider.Vectors.Grouping

/-!
# Sections and their chunks

The sections of a text as groups of its lines (`bodies_foldl_parseLine`), and the chunks of
a section as joins of its paragraphs: the leading headings stand in front of every group
of the other paragraphs (`mem_sectionChunks`, `exists_chunk`).
-/

namespace WebSpider.Vectors

open Text

variable {α : Type} [Glyph α]

/-! ## The lines of the sections -/

/-- The sections that are made from the current lines and the lines to come. -/
def sectionsFrom : List (List α) → List (List α) → List (List (List α))
  | current, [] => if current = [] then [] else [current]
  | current, line :: lines =>
    if isHeading line then
      (if current = [] then [] else [current]) ++ sectionsFrom [line] lines
    else sectionsFrom (current ++ [line]) lines

/-- The current lines after some lines: from the last heading on. -/
def sinceHeading (current lines : List (List α)) : List (List α) :=
  lines.foldl (fun current line => if isHeading line then [line] else current ++ [line]) current

/-- The body of a section. -/
def bodyOf (lines : List (List α)) : List α := strip (join [newline] lines)

theorem bodies_flush (p : Parse α) :
    p.flush.map Prod.snd = p.sections.map Prod.snd ++ (sectionsFrom p.current []).map bodyOf := by
  rw [Parse.flush, sectionsFrom]
  split
  · rw [List.map_nil, List.append_nil]
  · rw [List.map_append]
    rfl

theorem bodies_foldl_parseLine (lines : List (List α)) (p : Parse α) :
    (lines.foldl parseLine p).flush.map Prod.snd =
      p.sections.map Prod.snd ++ (sectionsFrom p.current lines).map bodyOf := by
  induction lines generalizing p with
  | nil => exact bodies_flush p
  | cons line lines ih =>
    rw [List.foldl_cons, ih, sectionsFrom, parseLine]
    cases hmatch : matchHeading line with
    | none =>
      have hheading : ¬ isHeading line = true := by
        rw [isHeading, hmatch]
        exact Bool.false_ne_true
      rw [if_neg hheading]
    | some m =>
      have hheading : isHeading line = true := by
        rw [isHeading, hmatch]
        rfl
      rw [if_pos hheading, List.map_append]
      dsimp only
      rw [bodies_flush, List.append_assoc]
      rfl

/-- The bodies are those of the sections, without the blank ones. -/
theorem bodies_parseSections (text : List α) :
    (parseSections text).map Prod.snd =
      ((sectionsFrom [] (splitlines text)).map bodyOf).filter fun body => !body.isEmpty := by
  have hbodies := bodies_foldl_parseLine (splitlines text) ⟨[], [], []⟩
  rw [List.map_nil, List.nil_append] at hbodies
  rw [← hbodies, List.filter_map]
  rfl

theorem flatten_sectionsFrom (current lines : List (List α)) :
    (sectionsFrom current lines).flatten = current ++ lines := by
  induction lines generalizing current with
  | nil =>
    rw [sectionsFrom]
    split
    · rename_i hnil
      rw [hnil]
      rfl
    · simp
  | cons line lines ih =>
    rw [sectionsFrom]
    split
    · rw [List.flatten_append, ih]
      split
      · rename_i hnil
        rw [hnil]
        rfl
      · simp
    · rw [ih]
      simp

/-- A heading starts a section. -/
theorem sectionsFrom_heading (current xs : List (List α)) {line : List α}
    (hline : isHeading line = true) (ys : List (List α)) :
    sectionsFrom current (xs ++ line :: ys) = sectionsFrom current xs ++ sectionsFrom [line] ys := by
  induction xs generalizing current with
  | nil =>
    simp [sectionsFrom, hline]
  | cons x xs ih =>
    rw [List.cons_append, sectionsFrom, sectionsFrom]
    split
    · rw [ih, List.append_assoc]
    · rw [ih]

/-- Lines without a heading extend the section. -/
theorem sectionsFrom_append (current : List (List α)) {block : List (List α)}
    (hblock : ∀ line ∈ block, isHeading line = false) (ys : List (List α)) :
    sectionsFrom current (block ++ ys) = sectionsFrom (current ++ block) ys := by
  induction block generalizing current with
  | nil => rw [List.append_nil, List.nil_append]
  | cons line block ih =>
    rw [List.cons_append, sectionsFrom, hblock line List.mem_cons_self,
      if_neg Bool.false_ne_true, ih _ fun l hl => hblock l (List.mem_cons_of_mem _ hl)]
    simp

/-- The section at hand ends before the next heading. -/
theorem sectionsFrom_takeWhile {current : List (List α)} (hne : current ≠ [])
    (lines : List (List α)) : ∃ later, sectionsFrom current lines =
      (current ++ lines.takeWhile fun line => !isHeading line) :: later := by
  induction lines generalizing current with
  | nil => exact ⟨[], by rw [sectionsFrom, if_neg hne]; simp⟩
  | cons line lines ih =>
    rw [sectionsFrom]
    split
    · rename_i hheading
      refine ⟨sectionsFrom [line] lines, ?_⟩
      rw [List.takeWhile_cons_of_neg (by simp [hheading]), List.append_nil]
      rfl
    · rename_i hheading
      have hne' : current ++ [line] ≠ [] := by simp
      obtain ⟨later, heq⟩ := ih hne'
      refine ⟨later, ?_⟩
      rw [heq, List.takeWhile_cons_of_pos (by simp [hheading])]
      simp

/-- Lines without a heading are in one section. -/
theorem sectionsFrom_around (current before : List (List α)) {block : List (List α)}
    (hne : block ≠ []) (hblock : ∀ line ∈ block, isHeading line = false)
    (after : List (List α)) : ∃ earlier later, sectionsFrom current (before ++ block ++ after) =
      earlier ++ (sinceHeading current before ++ block ++
        after.takeWhile fun line => !isHeading line) :: later := by
  induction before generalizing current with
  | nil =>
    have hne' : current ++ block ≠ [] := by simp [hne]
    obtain ⟨later, heq⟩ := sectionsFrom_takeWhile hne' after
    refine ⟨[], later, ?_⟩
    rw [List.nil_append, sectionsFrom_append current hblock, heq]
    rfl
  | cons line before ih =>
    rw [List.cons_append, List.cons_append, sectionsFrom, sinceHeading, List.foldl_cons]
    split
    · obtain ⟨earlier, later, heq⟩ := ih [line]
      refine ⟨(if current = [] then [] else [current]) ++ earlier, later, ?_⟩
      rw [heq, List.append_assoc _ earlier]
      rfl
    · exact ih (current ++ [line])

/-! ## Trimmed texts -/

/-- A text that is not empty and has no white space at its ends. -/
structure Clean (s : List α) : Prop where
  ne_nil : s ≠ []
  strip : strip s = s

theorem clean_append {x y : List α} (hx : Clean x) (hy : Clean y) (z : List α) :
    Clean (x ++ z ++ y) := by
  refine ⟨by simp [hx.ne_nil], ?_⟩
  have hx' : trimBy isSpace x ≠ [] := by
    rw [show trimBy isSpace x = x from hx.strip]
    exact hx.ne_nil
  have hy' : trimBy isSpace y ≠ [] := by
    rw [show trimBy isSpace y = y from hy.strip]
    exact hy.ne_nil
  obtain ⟨⟨c, rest, hhead, hc⟩, -⟩ := trimBy_ends isSpace hx'
  obtain ⟨-, init, d, hlast, hd⟩ := trimBy_ends isSpace hy'
  rw [show trimBy isSpace x = x from hx.strip] at hhead
  rw [show trimBy isSpace y = y from hy.strip] at hlast
  have hhead' : x ++ z ++ y = c :: (rest ++ z ++ y) := by
    rw [hhead]
    simp
  have hlast' : x ++ z ++ y = x ++ z ++ init ++ [d] := by
    rw [hlast]
    simp
  exact trimBy_of_ends hhead' hc hlast' hd

theorem clean_join {ps : List (List α)} (hne : ps ≠ []) (hps : ∀ p ∈ ps, Clean p) :
    Clean (join blankLine ps) := by
  induction ps with
  | nil => exact absurd rfl hne
  | cons p ps ih =>
    have hp := hps p List.mem_cons_self
    cases ps with
    | nil => exact hp
    | cons q ps =>
      rw [join_cons_cons]
      exact clean_append hp (ih (List.cons_ne_nil _ _) fun r hr =>
        hps r (List.mem_cons_of_mem _ hr)) _

theorem allOf_blankLine : AllOf isSpace (blankLine : List α) := by
  intro c hc
  simp only [blankLine, List.mem_cons, List.not_mem_nil, or_false] at hc
  rcases hc with rfl | rfl
  · exact isSpace_newline
  · exact isSpace_newline

/-- Gluing paragraphs under others. -/
theorem strip_glue {xs : List (List α)} (hxs : ∀ p ∈ xs, Clean p) {ys : List (List α)}
    (hne : ys ≠ []) (hys : ∀ p ∈ ys, Clean p) :
    strip (join blankLine xs ++ blankLine ++ join blankLine ys) = join blankLine (xs ++ ys) := by
  have hclean := clean_join hne hys
  by_cases hnil : xs = []
  · subst hnil
    exact (trimBy_append_left (allOf_blankLine (α := α)) _).trans hclean.strip
  · rw [join_append _ hnil hne]
    exact (clean_append (clean_join hnil hxs) hclean blankLine).strip

theorem clean_of_mem_paragraphs {body p : List α} (hp : p ∈ paragraphs body) : Clean p := by
  rw [paragraphs, List.mem_filter, List.mem_map] at hp
  obtain ⟨⟨piece, -, rfl⟩, hne⟩ := hp
  refine ⟨fun hnil => ?_, trimBy_idempotent isSpace piece⟩
  rw [hnil] at hne
  cases hne

/-! ## The chunks of a section -/

/-- The paragraphs at the start that are headings, and the lead they make. -/
theorem takeHeadings_spec {xs ps : List (List α)} (hxs : ∀ p ∈ xs, Clean p)
    (hps : ∀ p ∈ ps, Clean p) : ∃ heads, ps = heads ++ (takeHeadings (join blankLine xs) ps).2 ∧
      (takeHeadings (join blankLine xs) ps).1 = join blankLine (xs ++ heads) ∧
      ∀ p ∈ heads, (splitlines p).all isHeading = true := by
  induction ps generalizing xs with
  | nil => exact ⟨[], rfl, by rw [List.append_nil]; rfl, fun _ hp => absurd hp List.not_mem_nil⟩
  | cons p ps ih =>
    have hp := hps p List.mem_cons_self
    rw [takeHeadings]
    split
    · rename_i hall
      have hglue := strip_glue hxs (List.cons_ne_nil p []) fun q hq => by
        rwa [List.mem_singleton.mp hq]
      rw [show join blankLine [p] = p from rfl] at hglue
      rw [hglue]
      have hxs' : ∀ q ∈ xs ++ [p], Clean q := by
        intro q hq
        rcases List.mem_append.mp hq with hq | hq
        · exact hxs q hq
        · rwa [List.mem_singleton.mp hq]
      obtain ⟨heads, hsplit, hlead, hheads⟩ :=
        ih hxs' fun q hq => hps q (List.mem_cons_of_mem _ hq)
      refine ⟨p :: heads, ?_, ?_, List.forall_mem_cons.mpr ⟨hall, hheads⟩⟩
      · rw [List.cons_append, ← hsplit]
      · rw [hlead, List.append_assoc, List.singleton_append]
    · exact ⟨[], rfl, by rw [List.append_nil], fun _ hp => absurd hp List.not_mem_nil⟩

/-- The paragraphs of a section below its leading headings. -/
def belowHeadings (body : List α) : List (List α) := (takeHeadings [] (paragraphs body)).2

theorem exists_heads (body : List α) : ∃ heads, paragraphs body = heads ++ belowHeadings body ∧
    (takeHeadings [] (paragraphs body)).1 = join blankLine heads ∧
    ∀ p ∈ heads, (splitlines p).all isHeading = true := by
  have hnil : ∀ p ∈ ([] : List (List α)), Clean p := fun _ hp => absurd hp List.not_mem_nil
  exact takeHeadings_spec hnil fun _ => clean_of_mem_paragraphs

/-- A chunk of a group under the leading headings. -/
theorem glue_heads {body : List α} {heads : List (List α)}
    (hsplit : paragraphs body = heads ++ belowHeadings body) {grp : List (List α)}
    (hne : grp ≠ []) (hgrp : grp ⊆ belowHeadings body) :
    (if join blankLine heads = [] then join blankLine grp
      else strip (join blankLine heads ++ blankLine ++ join blankLine grp)) =
      join blankLine (heads ++ grp) := by
  have hclean : ∀ p ∈ heads ++ belowHeadings body, Clean p :=
    fun p hp => clean_of_mem_paragraphs (hsplit ▸ hp)
  have hheads : ∀ p ∈ heads, Clean p := fun p hp => hclean p (List.mem_append_left _ hp)
  have hgrp' : ∀ p ∈ grp, Clean p := fun p hp => hclean p (List.mem_append_right _ (hgrp hp))
  split
  · rename_i hnil
    have hnil' : heads = [] := by
      by_contra h
      exact (clean_join h hheads).ne_nil hnil
    rw [hnil']
    rfl
  · exact strip_glue hheads hne hgrp'

/-- The chunks of a long section are joins of its paragraphs: the leading headings and a
group. -/
theorem sectionChunks_long {target : Nat} (overlap : Nat) (minChars : Int)
    (path : List (List α)) {body : List α} (hlong : target < body.length)
    {heads : List (List α)} (hsplit : paragraphs body = heads ++ belowHeadings body)
    (hlead : (takeHeadings [] (paragraphs body)).1 = join blankLine heads) :
    sectionChunks target overlap minChars path body =
      ((groups target overlap [] (belowHeadings body)).map fun grp =>
        Piece.mk (join blankLine (heads ++ grp)) path).filter
          fun c => decide (minChars ≤ c.text.length) := by
  have hne : ∀ p ∈ belowHeadings body, p ≠ [] := fun p hp =>
    (clean_of_mem_paragraphs (hsplit ▸ List.mem_append_right heads hp)).ne_nil
  have hparts : takeHeadings [] (paragraphs body) = (join blankLine heads, belowHeadings body) :=
    Prod.ext hlead rfl
  rw [sectionChunks, if_neg (by omega), hparts]
  dsimp only
  rw [splitParagraphs_eq target overlap hne, List.map_map]
  congr 1
  apply List.map_congr_left
  intro grp hgrp
  rw [Function.comp, glue_heads hsplit (mem_groups hgrp).1 (mem_groups hgrp).2]

theorem mem_sectionChunks {target overlap : Nat} {minChars : Int} {path : List (List α)}
    {body : List α} (hlong : target < body.length) {heads : List (List α)}
    (hsplit : paragraphs body = heads ++ belowHeadings body)
    (hlead : (takeHeadings [] (paragraphs body)).1 = join blankLine heads) {c : Piece α} :
    c ∈ sectionChunks target overlap minChars path body ↔ minChars ≤ c.text.length ∧
      c.headingPath = path ∧ ∃ grp ∈ groups target overlap [] (belowHeadings body),
        c.text = join blankLine (heads ++ grp) := by
  rw [sectionChunks_long overlap minChars path hlong hsplit hlead, List.mem_filter,
    decide_eq_true_eq, and_comm, List.mem_map]
  refine and_congr_right fun _ => ⟨?_, ?_⟩
  · rintro ⟨grp, hgrp, rfl⟩
    exact ⟨rfl, grp, hgrp, rfl⟩
  · rintro ⟨rfl, grp, hgrp, htext⟩
    exact ⟨grp, hgrp, htext ▸ rfl⟩

/-- A chunk of a short section is its body. -/
theorem mem_sectionChunks_short {target overlap : Nat} {minChars : Int} {path : List (List α)}
    {body : List α} (hshort : body.length ≤ target) {c : Piece α} :
    c ∈ sectionChunks target overlap minChars path body ↔
      minChars ≤ c.text.length ∧ c = ⟨body, path⟩ := by
  rw [sectionChunks, if_pos hshort]
  split
  · rename_i hmin
    rw [List.mem_singleton]
    exact ⟨fun h => ⟨h ▸ hmin, h⟩, And.right⟩
  · rename_i hmin
    refine ⟨fun h => absurd h List.not_mem_nil, ?_⟩
    rintro ⟨hle, rfl⟩
    exact absurd hle hmin

end WebSpider.Vectors
