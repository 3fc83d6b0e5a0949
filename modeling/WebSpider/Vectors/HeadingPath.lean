import WebSpider.Lists.Outline
import WebSpider.Text.Trim
import WebSpider.Vectors.Sections

/-!
# The heading paths of the sections

`_parse_sections` keeps the headings above a section on a stack, which it cuts by the
number of a heading's level and not by the levels of the headings on it. So the path
of a heading is its chain of ancestors exactly when every heading that is not deeper
than the one before it has an ancestor of each smaller level (`pathsRight_iff`). The
path of the second of two headings of level 2 without a heading of level 1 has the
first one in it (`sibling_in_path`).
-/

namespace WebSpider.Vectors

open Text WebSpider.Lists

variable {α : Type} [Glyph α]

/-! ## Definitions -/

/-- The headings among some lines, the last one first. -/
def headingsOf (lines : List (List α)) : List (Nat × List α) :=
  (lines.filterMap matchHeading).reverse

/-- The loop of `_parse_sections` over some lines. -/
def parseLines (lines : List (List α)) : Parse α := lines.foldl parseLine ⟨[], [], []⟩

/-- The sections that are not blank. -/
def sectionsOf (lines : List (List α)) : List (List (List α) × List α) :=
  (parseLines lines).flush.filter fun s => !s.2.isEmpty

/-- The section that starts at a line of the text has the given path. -/
def SectionPath (text : List α) (before : List (List α)) (line : List α)
    (after : List (List α)) (path : List (List α)) : Prop :=
  ∃ later, parseSections text = sectionsOf before ++
    (path, bodyOf (line :: after.takeWhile fun l => !isHeading l)) :: later

/-- The path of each heading is its ancestors and itself. -/
def PathsAreChains (text : List α) : Prop :=
  ∀ before line after level title, splitlines text = before ++ line :: after →
    matchHeading line = some (level, title) →
      SectionPath text before line after (ancestors (headingsOf before) level ++ [title])

/-- The paths of two headings of one level with no smaller level between them differ in
the last element only. -/
def SiblingsAgree (text : List α) : Prop :=
  ∀ before line between line' after level title title' path path',
    splitlines text = before ++ line :: (between ++ line' :: after) →
    matchHeading line = some (level, title) → matchHeading line' = some (level, title') →
    (∀ heading ∈ headingsOf between, level ≤ heading.1) →
    SectionPath text before line (between ++ line' :: after) path →
    SectionPath text (before ++ line :: between) line' after path' →
      ∃ above, path = above ++ [title] ∧ path' = above ++ [title']

/-- Each heading that is not deeper than the one before it has an ancestor of each
smaller level. -/
def NoLevelSkipped (text : List α) : Prop :=
  ∀ before line after level title, splitlines text = before ++ line :: after →
    matchHeading line = some (level, title) → ∀ m other rest,
      headingsOf before = (m, other) :: rest → level ≤ m →
        (ancestors (headingsOf before) level).length = level - 1

/-! ## Sections -/

theorem headingsOf_append (lines lines' : List (List α)) :
    headingsOf (lines ++ lines') = headingsOf lines' ++ headingsOf lines := by
  rw [headingsOf, List.filterMap_append, List.reverse_append]
  rfl

theorem headingsOf_heading {line : List α} {level : Nat} {title : List α}
    (h : matchHeading line = some (level, title)) (lines : List (List α)) :
    headingsOf (line :: lines) = headingsOf lines ++ [(level, title)] := by
  rw [headingsOf, List.filterMap_cons_some h, List.reverse_cons]
  rfl

theorem matchHeading_level {line : List α} {level : Nat} {title : List α}
    (h : matchHeading line = some (level, title)) : 1 ≤ level := by
  unfold matchHeading at h
  dsimp only at h
  split at h
  · cases h
  · split at h
    · rename_i hlevel
      cases h
      exact hlevel.1
    · cases h

theorem one_le_of_mem_headingsOf {lines : List (List α)} :
    ∀ heading ∈ headingsOf lines, 1 ≤ heading.1 := by
  intro heading h
  obtain ⟨line, -, hline⟩ := List.mem_filterMap.mp (List.mem_reverse.mp h)
  exact matchHeading_level hline

/-- The path of the loop is the stack of the headings read. -/
theorem path_parseLines (lines : List (List α)) :
    (parseLines lines).path = stackAt (headingsOf lines) := by
  induction lines using List.reverseRecOn with
  | nil => rfl
  | append_singleton lines line ih =>
    rw [headingsOf_append, parseLines, List.foldl_append]
    change (parseLine (parseLines lines) line).path = _
    cases hline : matchHeading line with
    | none =>
      have hnone : headingsOf [line] = [] := by
        rw [headingsOf, List.filterMap_cons_none hline]
        rfl
      rw [parseLine, hline, hnone, List.nil_append]
      exact ih
    | some heading =>
      obtain ⟨level, title⟩ := heading
      rw [parseLine, hline, headingsOf_heading hline]
      change (parseLines lines).path.take (level - 1) ++ [title] =
        (stackAt (headingsOf lines)).take (level - 1) ++ [title]
      rw [ih]

/-- A heading line starts with a number sign. -/
theorem heading_not_blank {line : List α} (h : isHeading line = true) (lines : List (List α)) :
    (bodyOf (line :: lines)).isEmpty = false := by
  obtain ⟨g, rest, rfl, hg⟩ : ∃ g rest, line = g :: rest ∧ isHash g = true := by
    cases line with
    | nil => cases h
    | cons g rest =>
      refine ⟨g, rest, rfl, ?_⟩
      by_contra hg
      have hzero : ((g :: rest).takeWhile isHash).length = 0 := by
        rw [List.takeWhile_cons_of_neg hg]
        rfl
      rw [isHeading, Option.isSome_iff_exists] at h
      obtain ⟨⟨level, title⟩, h⟩ := h
      unfold matchHeading at h
      dsimp only at h
      rw [hzero] at h
      split at h
      · cases h
      · rw [if_neg (by omega)] at h
        cases h
  have hspace : isSpace g = false := by
    simp only [isHash, decide_eq_true_eq] at hg
    simp [isSpace, isSpaceCode, hg]
  have hmem : g ∈ join [newline] ((g :: rest) :: lines) := by
    cases lines with
    | nil => exact List.mem_cons_self
    | cons next lines => exact List.mem_append_left _ (List.mem_append_left _ List.mem_cons_self)
  rw [List.isEmpty_eq_false_iff]
  intro hnil
  have hall := trimBy_eq_nil_iff.mp hnil
  rw [hall g hmem] at hspace
  cases hspace

/-- The section at hand gets the path it was started with. -/
theorem flush_foldl {p : Parse α} (hne : p.current ≠ []) (lines : List (List α)) :
    ∃ later, (lines.foldl parseLine p).flush = p.sections ++
      (p.path, bodyOf (p.current ++ lines.takeWhile fun l => !isHeading l)) :: later := by
  induction lines generalizing p with
  | nil =>
    refine ⟨[], ?_⟩
    rw [List.foldl_nil, Parse.flush, if_neg hne, List.takeWhile_nil, List.append_nil]
    rfl
  | cons line lines ih =>
    rw [List.foldl_cons]
    cases hline : matchHeading line with
    | none =>
      have hheading : isHeading line = false := by rw [isHeading, hline]; rfl
      have hparse : parseLine p line = { p with current := p.current ++ [line] } := by
        rw [parseLine, hline]
      rw [hparse, List.takeWhile_cons_of_pos (by rw [hheading]; rfl)]
      obtain ⟨later, hlater⟩ := ih (p := { p with current := p.current ++ [line] }) (by simp)
      refine ⟨later, ?_⟩
      rw [hlater, List.append_assoc, List.singleton_append]
    | some heading =>
      obtain ⟨level, title⟩ := heading
      have hheading : isHeading line = true := by rw [isHeading, hline]; rfl
      have hparse : parseLine p line =
          ⟨p.path.take (level - 1) ++ [title], p.flush, [line]⟩ := by
        rw [parseLine, hline]
      rw [hparse, List.takeWhile_cons_of_neg (by rw [hheading]; decide), List.append_nil]
      obtain ⟨later, hlater⟩ := ih
        (p := ⟨p.path.take (level - 1) ++ [title], p.flush, [line]⟩) (by simp)
      refine ⟨(p.path.take (level - 1) ++ [title],
        bodyOf ([line] ++ lines.takeWhile fun l => !isHeading l)) :: later, ?_⟩
      rw [hlater, Parse.flush, if_neg hne, List.append_assoc, List.singleton_append]
      rfl

/-- A heading starts a section, whose path is the stack after it. -/
theorem sectionPath_stackAt {text : List α} {before : List (List α)} {line : List α}
    {after : List (List α)} {level : Nat} {title : List α}
    (hlines : splitlines text = before ++ line :: after)
    (hline : matchHeading line = some (level, title)) :
    SectionPath text before line after (stackAt ((level, title) :: headingsOf before)) := by
  have hheading : isHeading line = true := by rw [isHeading, hline]; rfl
  have hparse : parseLine (parseLines before) line =
      ⟨stackAt ((level, title) :: headingsOf before), (parseLines before).flush, [line]⟩ := by
    rw [parseLine, hline, path_parseLines]
    rfl
  obtain ⟨later, hlater⟩ := flush_foldl
    (p := ⟨stackAt ((level, title) :: headingsOf before), (parseLines before).flush, [line]⟩)
    (by simp) after
  refine ⟨later.filter fun s => !s.2.isEmpty, ?_⟩
  have hsections : parseSections text = sectionsOf (before ++ line :: after) := by
    rw [← hlines]
    rfl
  rw [hsections, sectionsOf, parseLines, List.foldl_append, List.foldl_cons]
  change (List.foldl parseLine (parseLine (parseLines before) line) after).flush.filter _ = _
  rw [hparse, hlater, List.filter_append, List.filter_cons_of_pos]
  · rfl
  · rw [List.singleton_append, heading_not_blank hheading]
    rfl

/-- A section has one path. -/
theorem SectionPath.unique {text : List α} {before : List (List α)} {line : List α}
    {after : List (List α)} {path path' : List (List α)}
    (h : SectionPath text before line after path) (h' : SectionPath text before line after path') :
    path = path' := by
  obtain ⟨later, h⟩ := h
  obtain ⟨later', h'⟩ := h'
  have heq := List.append_cancel_left (h.symm.trans h')
  exact (Prod.mk.inj (List.cons.inj heq).1).1

/-! ## Paths and chains -/

theorem sectionPath_iff {text : List α} {before : List (List α)} {line : List α}
    {after : List (List α)} {level : Nat} {title : List α}
    (hlines : splitlines text = before ++ line :: after)
    (hline : matchHeading line = some (level, title)) (path : List (List α)) :
    SectionPath text before line after path ↔
      stackAt ((level, title) :: headingsOf before) = path :=
  ⟨fun h => (sectionPath_stackAt hlines hline).unique h,
    fun h => h ▸ sectionPath_stackAt hlines hline⟩

/-- The headings up to a heading of the text are a suffix of all its headings, and each
suffix ends at a heading. -/
theorem suffix_headings_iff (lines : List (List α)) (level : Nat) (title : List α)
    (before : List (Nat × List α)) : (level, title) :: before <:+ headingsOf lines ↔
      ∃ earlier line after, lines = earlier ++ line :: after ∧
        matchHeading line = some (level, title) ∧ before = headingsOf earlier := by
  constructor
  · rintro ⟨later, h⟩
    have hread : lines.filterMap matchHeading =
        before.reverse ++ (level, title) :: later.reverse := by
      have hreverse := congrArg List.reverse h
      rw [headingsOf, List.reverse_reverse, List.reverse_append, List.reverse_cons,
        List.append_assoc] at hreverse
      exact hreverse.symm
    obtain ⟨first, second, rfl, hfirst, hsecond⟩ := List.filterMap_eq_append_iff.mp hread
    obtain ⟨plain, line, after, rfl, hplain, hline, -⟩ := List.filterMap_eq_cons_iff.mp hsecond
    refine ⟨first ++ plain, line, after, (List.append_assoc _ _ _).symm, hline, ?_⟩
    have hnone : headingsOf plain = [] := by
      rw [headingsOf, List.filterMap_eq_nil_iff.mpr hplain]
      rfl
    rw [headingsOf_append, hnone, List.nil_append, headingsOf, hfirst, List.reverse_reverse]
  · rintro ⟨earlier, line, after, rfl, hline, rfl⟩
    rw [headingsOf_append, headingsOf_heading hline, List.append_assoc]
    exact List.suffix_append _ _

theorem pathsAreChains_iff (text : List α) : PathsAreChains text ↔
    ∀ s, s <:+ headingsOf (splitlines text) → stackAt s = chain s := by
  constructor
  · intro h s hs
    cases s with
    | nil => rfl
    | cons heading before =>
      obtain ⟨level, title⟩ := heading
      obtain ⟨earlier, line, after, hlines, hline, rfl⟩ := (suffix_headings_iff _ _ _ _).mp hs
      exact (sectionPath_iff hlines hline _).mp (h earlier line after level title hlines hline)
  · intro h before line after level title hlines hline
    refine (sectionPath_iff hlines hline _).mpr (h _ ?_)
    exact (suffix_headings_iff _ _ _ _).mpr ⟨before, line, after, hlines, hline, rfl⟩

theorem noLevelSkipped_iff (text : List α) : NoLevelSkipped text ↔
    ∀ s, s <:+ headingsOf (splitlines text) → Stepwise s := by
  constructor
  · intro h s hs
    cases s with
    | nil => trivial
    | cons heading before =>
      obtain ⟨level, title⟩ := heading
      obtain ⟨earlier, line, after, hlines, hline, rfl⟩ := (suffix_headings_iff _ _ _ _).mp hs
      have hstep := h earlier line after level title hlines hline
      cases hbefore : headingsOf earlier with
      | nil => trivial
      | cons last rest =>
        rw [hbefore] at hstep
        exact hstep last.1 last.2 rest rfl
  · intro h before line after level title hlines hline m other rest hbefore hle
    have hstep := h _ ((suffix_headings_iff _ _ _ _).mpr ⟨before, line, after, hlines, hline, rfl⟩)
    rw [hbefore] at hstep ⊢
    exact hstep hle

/-- With ancestors for paths, headings of one level with no smaller level between them
have the same ancestors. -/
theorem siblingsAgree_of_chains {text : List α} (h : PathsAreChains text) : SiblingsAgree text := by
  intro before line between line' after level title title' path path' hlines hline hline' hbetween
    hpath hpath'
  have hlines' : splitlines text = (before ++ line :: between) ++ line' :: after := by
    rw [hlines, List.append_assoc, List.cons_append]
  have hfirst := hpath.unique (h _ _ _ _ _ hlines hline)
  have hsecond := hpath'.unique (h _ _ _ _ _ hlines' hline')
  refine ⟨ancestors (headingsOf before) level, hfirst, ?_⟩
  rw [hsecond, headingsOf_append, headingsOf_heading hline, List.append_assoc,
    ancestors_append hbetween, List.singleton_append, ancestors, if_neg (lt_irrefl _)]

/-- The paths are the chains of the headings, and so agree for siblings, exactly when no
heading that is not deeper than the one before it skips a level. -/
theorem pathsRight_iff (text : List α) :
    (PathsAreChains text ∧ SiblingsAgree text) ↔ NoLevelSkipped text := by
  rw [and_iff_left_of_imp siblingsAgree_of_chains, pathsAreChains_iff, noLevelSkipped_iff]
  exact stackAt_eq_chain_iff one_le_of_mem_headingsOf

/-- The second heading is put below the first one of the same level. -/
theorem sibling_in_path : ¬ ∀ text : Str, PathsAreChains text ∧ SiblingsAgree text := by
  intro hpaths
  have hlines : splitlines (lit "## Install\n## Usage") = [lit "## Install"] ++ [lit "## Usage"] := by
    decide +kernel
  have hline : matchHeading (lit "## Usage") = some (2, lit "Usage") := by decide +kernel
  have hpath := (sectionPath_iff hlines hline _).mp
    ((hpaths _).1 _ _ _ _ _ hlines hline)
  exact absurd hpath (by decide +kernel)

end WebSpider.Vectors
