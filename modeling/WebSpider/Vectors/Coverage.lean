import WebSpider.Vectors.CodeBlocks
import WebSpider.Lists.InOrder
import Mathlib.Data.Prod.Lex

/-!
# What the chunker keeps of a text

Every line that is not blank should be in a chunk, and the first occurrences of the lines
should be in the order of the text. They are in order whenever every section has chunks
(`before_of_occurs`). A section longer than the target whose paragraphs are all headings
has none: the headings are put in front of every group of the other paragraphs, and there
are no others (`loses_nothing_iff`).
-/

namespace WebSpider.Vectors

open Text WebSpider.Lists

variable {α : Type} [Glyph α]

/-! ## Definitions -/

/-- The texts of the chunks. -/
def chunkTexts (text : List α) (target overlap : Nat) (minChars : Int) : List (List α) :=
  (splitMarkdown text target overlap minChars).map Piece.text

/-- The places of a line in the texts, without the white space around it: the chunk and the
first character. -/
def occurrences (texts : List (List α)) (line : List α) : Set (Nat ×ₗ Nat) :=
  {place | ∃ t ∈ texts[(ofLex place).1]?, strip line <+: t.drop (ofLex place).2}

/-- Every line that is not blank is in a chunk, and the first occurrences follow the order of
the text. The characters carry their places, so equal lines are told apart. -/
def LosesNothing (text : Str) (target overlap : Nat) (minChars : Int) : Prop :=
  ∃ places, List.Forall₂ (fun line place =>
      IsLeast (occurrences (chunkTexts (placed text) target overlap minChars) line) place)
    ((splitlines (placed text)).filter fun line => !isBlank line) places ∧
    places.Pairwise (· < ·)

/-- Every line of every paragraph is a heading. -/
def OnlyHeadings (body : List α) : Prop :=
  ∀ p ∈ paragraphs body, (splitlines p).all isHeading = true

instance (body : List α) : Decidable (OnlyHeadings body) :=
  inferInstanceAs (Decidable (∀ p ∈ paragraphs body, _))

/-- A section that is longer than the target has a paragraph that is not all headings. -/
def HasChunks (target : Nat) (body : List α) : Prop := target < body.length → ¬ OnlyHeadings body

instance (target : Nat) (body : List α) : Decidable (HasChunks target body) :=
  inferInstanceAs (Decidable (_ → _))

/-! ## Characters that are not white space -/

/-- The text without its white space. -/
def solid (s : List α) : List α := s.filter fun g => !isSpace g

theorem mem_solid {s : List α} {g : α} : g ∈ solid s ↔ g ∈ s ∧ isSpace g = false := by
  rw [solid, List.mem_filter, Bool.not_eq_true']

theorem isNewline_of_solid {g : α} (hg : isSpace g = false) : isNewline g = false := by
  by_contra h
  rw [Bool.not_eq_false, isNewline, decide_eq_true_eq] at h
  rw [isSpace, h] at hg
  exact absurd hg (by decide)

theorem solid_append (s t : List α) : solid (s ++ t) = solid s ++ solid t := List.filter_append ..

theorem solid_of_space {s : List α} (hs : AllOf isSpace s) : solid s = [] := by
  apply List.filter_eq_nil_iff.mpr
  intro g hg
  rw [hs g hg]
  decide

theorem solid_strip (s : List α) : solid (strip s) = solid s := by
  obtain ⟨lead, trail, hs, hlead, htrail⟩ := exists_trimBy isSpace s
  have hsame : solid s = solid (lead ++ strip s ++ trail) := congrArg solid hs
  rw [hsame, solid_append, solid_append, solid_of_space hlead, solid_of_space htrail,
    List.nil_append, List.append_nil]

theorem solid_join {sep : List α} (hsep : AllOf isSpace sep) (xs : List (List α)) :
    solid (join sep xs) = solid xs.flatten := by
  induction xs with
  | nil => rfl
  | cons x xs ih =>
    cases xs with
    | nil => simp [join]
    | cons y ys =>
      rw [join_cons_cons, solid_append, solid_append, solid_of_space hsep, List.append_nil, ih,
        ← solid_append, ← List.flatten_cons]

theorem solid_bodyOf (lines : List (List α)) : solid (bodyOf lines) = solid lines.flatten := by
  rw [bodyOf, solid_strip, solid_join]
  intro g hg
  rw [List.mem_singleton.mp hg]
  exact isSpace_newline

theorem solid_flatten_bodyOf (rs : List (List (List α))) :
    solid (rs.map bodyOf).flatten = solid rs.flatten.flatten := by
  induction rs with
  | nil => rfl
  | cons r rs ih =>
    rw [List.map_cons, List.flatten_cons, solid_append, solid_bodyOf, ih, List.flatten_cons,
      List.flatten_append, solid_append]

/-- What is trimmed of a line that is not blank starts and ends with characters that are not
white space. -/
theorem strip_solid {line : List α} (hline : isBlank line = false) :
    (∃ g rest, strip line = g :: rest ∧ isSpace g = false) ∧
      ∃ init d, strip line = init ++ [d] ∧ isSpace d = false := by
  apply trimBy_ends isSpace
  intro hnil
  rw [isBlank_iff.mpr (trimBy_eq_nil_iff.mp hnil)] at hline
  cases hline

/-- In a text that repeats no character but white space, a line that follows another occurs
only after it. -/
theorem before_of_pair {t u v w : List α} {l l' : List α} (hl : isBlank l = false)
    (hl' : isBlank l' = false) (hnodup : (solid t).Nodup)
    (ht : t = u ++ strip l ++ v ++ strip l' ++ w) {j : Nat} (hj : strip l' <+: t.drop j) :
    ∃ i < j, strip l <+: t.drop i := by
  obtain ⟨⟨g, rest, hhead, hg⟩, -⟩ := strip_solid hl'
  obtain ⟨⟨g₀, rest₀, hhead₀, -⟩, -⟩ := strip_solid hl
  obtain ⟨w', hw⟩ := hj
  have ht' : t = t.take j ++ g :: (rest ++ w') := by
    rw [← List.cons_append, ← hhead, hw, List.take_append_drop]
  have hpos : 0 < (strip l).length := hhead₀ ▸ Nat.succ_pos _
  have hsplit : t = u ++ strip l ++ v ++ g :: (rest ++ w) := by
    rw [ht, hhead]
    simp
  refine ⟨u.length, ?_, ?_⟩
  · by_contra hle
    -- The first character of the line would occur twice.
    have hlt : (t.take j).length < (u ++ strip l ++ v).length := by
      rw [List.length_append, List.length_append, List.length_take]
      omega
    have hsame := ht'.symm.trans hsplit
    rcases List.append_eq_append_iff.mp hsame with ⟨as, has, hrest⟩ | ⟨bs, hbs, -⟩
    · cases as with
      | nil =>
        rw [List.append_nil] at has
        rw [has] at hlt
        exact Nat.lt_irrefl _ hlt
      | cons g' as =>
        obtain ⟨rfl, -⟩ := List.cons.inj hrest
        rw [hsplit, has, solid_append, solid_append] at hnodup
        have hmem : g ∈ solid (g :: as) := mem_solid.mpr ⟨List.mem_cons_self, hg⟩
        exact List.disjoint_of_nodup_append hnodup (List.mem_append_right _ hmem)
          (mem_solid.mpr ⟨List.mem_cons_self, hg⟩)
    · rw [hbs, List.length_append] at hlt
      omega
  · rw [ht, List.append_assoc, List.append_assoc, List.append_assoc, List.drop_left]
    exact List.prefix_append _ _

/-! ## Lines in order -/

theorem exists_strip (line : List α) : ∃ lead trail, line = lead ++ strip line ++ trail := by
  obtain ⟨lead, trail, hs, -, -⟩ := exists_trimBy isSpace line
  exact ⟨lead, trail, hs⟩

theorem strip_infix_bodyOf {lines : List (List α)} {l : List α} (hl : l ∈ lines)
    (hsolid : isBlank l = false) : strip l <:+: bodyOf lines := by
  obtain ⟨lead, trail, hline⟩ := exists_strip l
  obtain ⟨u, v, hjoin⟩ := infix_join [newline] hl
  obtain ⟨⟨g, rest, hhead, hg⟩, init, d, hlast, hd⟩ := strip_solid hsolid
  have hsplit : join [newline] lines = (u ++ lead) ++ strip l ++ (trail ++ v) := by
    rw [← hjoin]
    conv_lhs => rw [hline]
    simp
  obtain ⟨u', v', heq, -, -⟩ := exists_trimBy_of_ends hsplit hhead hg hlast hd
  exact ⟨u', v', heq.symm⟩

/-- Two lines are in the body in their order. -/
theorem pair_bodyOf {lines : List (List α)} {l l' : List α} (h : [l, l'].Sublist lines)
    (hl : isBlank l = false) (hl' : isBlank l' = false) :
    ∃ u v w, bodyOf lines = u ++ strip l ++ v ++ strip l' ++ w := by
  obtain ⟨lead, trail, hline⟩ := exists_strip l
  obtain ⟨lead', trail', hline'⟩ := exists_strip l'
  obtain ⟨u, v, w, hjoin⟩ := exists_join_pair [newline] h
  obtain ⟨⟨g, rest, hhead, hg⟩, -⟩ := strip_solid hl
  obtain ⟨-, init, d, hlast, hd⟩ := strip_solid hl'
  obtain ⟨mid, hmid⟩ : ∃ mid, mid = trail ++ v ++ lead' := ⟨_, rfl⟩
  have hsplit : join [newline] lines =
      (u ++ lead) ++ (strip l ++ mid ++ strip l') ++ (trail' ++ w) := by
    rw [hjoin, hmid]
    conv_lhs => rw [hline, hline']
    simp
  have hfirst : strip l ++ mid ++ strip l' = g :: (rest ++ mid ++ strip l') := by
    rw [hhead]
    simp
  have hend : strip l ++ mid ++ strip l' = (strip l ++ mid ++ init) ++ [d] := by
    rw [hlast]
    simp
  obtain ⟨u', w', heq, -, -⟩ := exists_trimBy_of_ends hsplit hfirst hg hend hd
  exact ⟨u', mid, w', by rw [bodyOf, strip, heq]; simp⟩

/-- Two lines of a section are in one paragraph, or in two in their order. -/
theorem pair_runs {lines : List (List α)} {l l' : List α} (h : [l, l'].Sublist lines)
    (hl : isBlank l = false) (hl' : isBlank l' = false) :
    (∃ run ∈ runs lines, [l, l'].Sublist run) ∨
      ∃ run run', [run, run'].Sublist (runs lines) ∧ l ∈ run ∧ l' ∈ run' := by
  apply pair_flatten
  have hfilter := h.filter fun line => !isBlank line
  rw [List.filter_cons_of_pos (by simp [hl]), List.filter_cons_of_pos (by simp [hl'])] at hfilter
  rwa [runs, List.flatten_filter_not_isEmpty, flatten_splitOnP]

/-! ## The paragraphs of a section -/

section Section

variable {lines : List (List α)} (hlines : PlacedLines lines)

include hlines

theorem placedLines_runs : PlacedLines (runs lines).flatten := by
  apply hlines.sublist
  rw [runs, List.flatten_filter_not_isEmpty, flatten_splitOnP]
  exact List.filter_sublist

/-- A line is in one run. -/
theorem run_unique {run run' : List (List α)} (hrun : run ∈ runs lines)
    (hrun' : run' ∈ runs lines) {l : List α} (hl : l ∈ run) (hl' : l ∈ run') : run = run' := by
  refine eq_of_mem_both (nodup_of_flatten (placedLines_runs hlines).nodup fun l hl => ?_)
    hrun hrun' hl hl'
  obtain ⟨run, hrun, hl⟩ := List.mem_flatten.mp hl
  obtain ⟨u, g, v, rfl, -, -⟩ := exists_solid ((mem_runs hrun).2 l hl).2
  simp

theorem nodup_solid_paragraphs : (solid (paragraphs (bodyOf lines)).flatten).Nodup := by
  rw [paragraphs_bodyOf hlines.isLine, solid_flatten_bodyOf]
  exact (placedLines_runs hlines).nodup.filter _

theorem nodup_paragraphs : (paragraphs (bodyOf lines)).Nodup := by
  have hnodup := nodup_solid_paragraphs hlines
  rw [solid, List.filter_flatten] at hnodup
  refine List.Nodup.of_map _ (nodup_of_flatten hnodup fun q hq => ?_)
  obtain ⟨p, hp, rfl⟩ := List.mem_map.mp hq
  have hclean := clean_of_mem_paragraphs hp
  obtain ⟨⟨g, rest, hhead, hg⟩, -⟩ := trimBy_ends isSpace (hclean.strip.symm ▸ hclean.ne_nil)
  rw [show trimBy isSpace p = p from hclean.strip] at hhead
  exact List.ne_nil_of_mem (mem_solid.mpr ⟨hhead ▸ List.mem_cons_self, hg⟩)

/-- Paragraphs of the section in their order repeat no character but white space. -/
theorem nodup_solid_join {ps : List (List α)} (hps : ps.Sublist (paragraphs (bodyOf lines))) :
    (solid (join blankLine ps)).Nodup := by
  rw [solid_join (allOf_blankLine (α := α))]
  exact (nodup_solid_paragraphs hlines).sublist ((List.Sublist.flatten hps).filter _)

end Section

/-! ## The chunks of a section -/

/-- The texts of the chunks that a section has. -/
def sectionTexts (target overlap : Nat) (minChars : Int) (lines : List (List α)) :
    List (List α) :=
  if bodyOf lines = [] then []
  else (sectionChunks target overlap minChars [] (bodyOf lines)).map Piece.text

theorem map_text_sectionChunks (target overlap : Nat) (minChars : Int) (path : List (List α))
    (body : List α) : (sectionChunks target overlap minChars path body).map Piece.text =
      (sectionChunks target overlap minChars [] body).map Piece.text := by
  rw [sectionChunks, sectionChunks]
  split
  · split <;> rfl
  · dsimp only
    rw [List.filter_map, List.filter_map, List.map_map, List.map_map]
    rfl

theorem chunkTexts_eq (text : List α) (target overlap : Nat) (minChars : Int) :
    chunkTexts text target overlap minChars =
      (sectionsFrom [] (splitlines text)).flatMap (sectionTexts target overlap minChars) := by
  have hbodies : chunkTexts text target overlap minChars =
      ((parseSections text).map Prod.snd).flatMap fun body =>
        (sectionChunks target overlap minChars [] body).map Piece.text := by
    rw [chunkTexts, splitMarkdown, List.map_flatMap, List.flatMap_map]
    exact List.flatMap_congr fun s _ => map_text_sectionChunks target overlap minChars s.1 s.2
  rw [hbodies, bodies_parseSections]
  induction sectionsFrom [] (splitlines text) with
  | nil => rfl
  | cons lines sections ih =>
    rw [List.map_cons, List.flatMap_cons, sectionTexts, ← ih]
    by_cases hnil : bodyOf lines = []
    · rw [if_pos hnil, List.filter_cons_of_neg (by simp [hnil]), List.nil_append]
    · rw [if_neg hnil, List.filter_cons_of_pos (by simp [hnil]), List.flatMap_cons]

theorem sublist_paragraphs {target overlap : Nat} {body : List α} {heads grp : List (List α)}
    (hsplit : paragraphs body = heads ++ belowHeadings body)
    (hgrp : grp ∈ groups target overlap [] (belowHeadings body)) :
    (heads ++ grp).Sublist (paragraphs body) := by
  rw [hsplit]
  exact (sublist_of_mem_groups hgrp).append_left heads

section Texts

variable {target : Nat} (overlap : Nat) {minChars : Int} (hmin : minChars ≤ 1)
  {lines : List (List α)}

include hmin

theorem sectionTexts_short (hne : bodyOf lines ≠ []) (hshort : (bodyOf lines).length ≤ target) :
    sectionTexts target overlap minChars lines = [bodyOf lines] := by
  have hpos := List.length_pos_of_ne_nil hne
  rw [sectionTexts, if_neg hne, sectionChunks, if_pos hshort, if_pos (by omega)]
  rfl

theorem sectionTexts_long (hlong : target < (bodyOf lines).length) : ∃ heads,
    paragraphs (bodyOf lines) = heads ++ belowHeadings (bodyOf lines) ∧
      sectionTexts target overlap minChars lines =
        (groups target overlap [] (belowHeadings (bodyOf lines))).map
          fun grp => join blankLine (heads ++ grp) := by
  obtain ⟨heads, hsplit, hlead, -⟩ := exists_heads (bodyOf lines)
  refine ⟨heads, hsplit, ?_⟩
  have hne : bodyOf lines ≠ [] := List.ne_nil_of_length_pos (by omega)
  rw [sectionTexts, if_neg hne, sectionChunks_long overlap minChars [] hlong hsplit hlead,
    List.filter_eq_self.mpr, List.map_map]
  · rfl
  · intro c hc
    obtain ⟨grp, hgrp, rfl⟩ := List.mem_map.mp hc
    have hclean : Clean (join blankLine (heads ++ grp)) :=
      clean_join (by simp [(mem_groups hgrp).1]) fun p hp =>
        clean_of_mem_paragraphs ((sublist_paragraphs hsplit hgrp).subset hp)
    have hpos := List.length_pos_of_ne_nil hclean.ne_nil
    exact decide_eq_true (by dsimp only; omega)

end Texts

theorem takeHeadings_snd (lead : List α) (ps : List (List α)) :
    (takeHeadings lead ps).2 = ps.dropWhile fun p => (splitlines p).all isHeading := by
  induction ps generalizing lead with
  | nil => rfl
  | cons p ps ih =>
    rw [takeHeadings, List.dropWhile_cons]
    split
    · exact ih _
    · rfl

theorem belowHeadings_eq_nil_iff {body : List α} :
    belowHeadings body = [] ↔ OnlyHeadings body := by
  rw [belowHeadings, takeHeadings_snd, List.dropWhile_eq_nil_iff]
  rfl

/-- The lines of a section with chunks are in them. -/
theorem exists_sectionText {target : Nat} (overlap : Nat) {minChars : Int} (hmin : minChars ≤ 1)
    {lines : List (List α)} (hlines : PlacedLines lines)
    (hbelow : HasChunks target (bodyOf lines)) {l : List α}
    (hl : l ∈ lines) (hsolid : isBlank l = false) :
    ∃ t ∈ sectionTexts target overlap minChars lines, strip l <:+: t := by
  by_cases hlength : (bodyOf lines).length ≤ target
  · obtain ⟨u, g, v, hsplit, -, hg⟩ := exists_solid hsolid
    have hne := List.ne_nil_of_mem
      (mem_bodyOf_of_mem hl (hsplit ▸ List.mem_append_right u List.mem_cons_self) hg)
    rw [sectionTexts_short overlap hmin hne hlength]
    exact ⟨_, List.mem_cons_self, strip_infix_bodyOf hl hsolid⟩
  · have hlong : target < (bodyOf lines).length := Nat.lt_of_not_le hlength
    obtain ⟨heads, hsplit, htexts⟩ := sectionTexts_long overlap hmin hlong
    obtain ⟨run, hrun, hmem⟩ := exists_run hl hsolid
    have hp : bodyOf run ∈ heads ++ belowHeadings (bodyOf lines) := by
      rw [← hsplit, paragraphs_bodyOf hlines.isLine]
      exact List.mem_map_of_mem hrun
    -- The paragraph is in a group or in front of all of them, and there is one.
    obtain ⟨grp, hgrp, hpgrp⟩ : ∃ grp ∈ groups target overlap [] (belowHeadings (bodyOf lines)),
        bodyOf run ∈ heads ++ grp := by
      have hmem {p : List α} (hp : p ∈ belowHeadings (bodyOf lines)) :
          ∃ grp ∈ groups target overlap [] (belowHeadings (bodyOf lines)), p ∈ grp :=
        exists_group_of_mem target overlap (List.mem_append_right [] hp)
      rcases List.mem_append.mp hp with hp | hp
      · obtain ⟨p, hp'⟩ := List.exists_mem_of_ne_nil _
          (mt belowHeadings_eq_nil_iff.mp (hbelow hlong))
        obtain ⟨grp, hgrp, -⟩ := hmem hp'
        exact ⟨grp, hgrp, List.mem_append_left _ hp⟩
      · obtain ⟨grp, hgrp, hpgrp⟩ := hmem hp
        exact ⟨grp, hgrp, List.mem_append_right _ hpgrp⟩
    rw [htexts]
    exact ⟨_, List.mem_map_of_mem hgrp,
      (strip_infix_bodyOf hmem hsolid).trans (infix_join blankLine hpgrp)⟩

/-- The characters of a chunk are of the lines of its section. -/
theorem mem_of_sectionText {target overlap : Nat} {minChars : Int} (hmin : minChars ≤ 1)
    {lines : List (List α)} (hlines : PlacedLines lines) {t : List α}
    (ht : t ∈ sectionTexts target overlap minChars lines) {g : α} (hg : g ∈ t)
    (hsolid : isSpace g = false) : ∃ l ∈ lines, g ∈ l := by
  have hnewline := isNewline_of_solid hsolid
  have hne : bodyOf lines ≠ [] := by
    intro hnil
    rw [sectionTexts, if_pos hnil] at ht
    cases ht
  by_cases hlength : (bodyOf lines).length ≤ target
  · rw [sectionTexts_short overlap hmin hne hlength] at ht
    obtain rfl := List.mem_singleton.mp ht
    exact mem_bodyOf hg hnewline
  · obtain ⟨heads, hsplit, htexts⟩ := sectionTexts_long overlap hmin (Nat.lt_of_not_le hlength)
    rw [htexts] at ht
    obtain ⟨grp, hgrp, rfl⟩ := List.mem_map.mp ht
    obtain ⟨p, hp, hgp⟩ := mem_join_paragraphs hg hnewline
    obtain ⟨run, hrun, rfl⟩ :=
      mem_paragraph hlines.isLine ((sublist_paragraphs hsplit hgrp).subset hp)
    obtain ⟨l, hl, hgl⟩ := mem_bodyOf hgp hnewline
    exact ⟨l, ((mem_runs hrun).2 l hl).1, hgl⟩

/-! ## The order of the lines in the chunks -/

/-- Lines of two paragraphs in a chunk. -/
theorem pair_join {ps : List (List α)} {p p' : List α} (h : [p, p'].Sublist ps) {l l' : List α}
    (hl : strip l <:+: p) (hl' : strip l' <:+: p') :
    ∃ u v w, join blankLine ps = u ++ strip l ++ v ++ strip l' ++ w := by
  obtain ⟨u, v, w, hjoin⟩ := exists_join_pair blankLine h
  obtain ⟨a, b, rfl⟩ := hl
  obtain ⟨a', b', rfl⟩ := hl'
  exact ⟨u ++ a, b ++ v ++ a', b' ++ w, by rw [hjoin]; simp⟩

/-- A group with the paragraph of a line has that of an earlier line, or an earlier group
has. -/
theorem earlier_paragraph {target overlap : Nat} {heads ps : List (List α)}
    (hnodup : (heads ++ ps).Nodup) {before after : List (List (List α))} {grp : List (List α)}
    (hgroups : groups target overlap [] ps = before ++ grp :: after) {p p' : List α}
    (h : [p, p'].Sublist (heads ++ ps)) (hp' : p' ∈ heads ++ grp) :
    [p, p'].Sublist (heads ++ grp) ∨ ∃ grp' ∈ before, p ∈ grp' := by
  obtain ⟨new, ⟨rest, rfl⟩, hgrp, hupto⟩ := groups_upto (List.suffix_refl []) hgroups
  rw [List.nil_append] at hgrp
  have hsub : (heads ++ grp).Sublist (heads ++ (new ++ rest)) :=
    (hgrp.sublist.trans (List.sublist_append_left new rest)).append_left heads
  by_cases hp : p ∈ heads ++ grp
  · exact .inl (pair_of_sublist hsub hnodup h hp hp')
  · have hnew : p' ∈ heads ++ new := List.append_subset.mpr ⟨List.subset_append_left _ _,
      List.Subset.trans hgrp.subset (List.subset_append_right _ _)⟩ hp'
    rw [← List.append_assoc] at h hnodup
    have hrest : p' ∉ rest := fun hmem => List.disjoint_of_nodup_append hnodup hnew hmem
    have hmem : p ∈ new := (List.mem_append.mp (left_mem (pair_before h hrest))).resolve_left
      fun hhead => hp (List.mem_append_left _ hhead)
    exact .inr ((hupto p hmem).resolve_left fun hgrp => hp (List.mem_append_right _ hgrp))

/-- In the chunks of a section, before every occurrence of a line there is one of every line
before it: in an earlier chunk or earlier in the chunk. -/
theorem section_before {target overlap : Nat} {minChars : Int} (hmin : minChars ≤ 1)
    {lines : List (List α)} (hlines : PlacedLines lines) {l l' : List α}
    (h : [l, l'].Sublist lines) (hl : isBlank l = false) (hl' : isBlank l' = false) {i j : Nat}
    {t : List α} (ht : (sectionTexts target overlap minChars lines)[i]? = some t)
    (hj : strip l' <+: t.drop j) :
    (∃ t' ∈ (sectionTexts target overlap minChars lines).take i, strip l <:+: t') ∨
      ∃ j' < j, strip l <+: t.drop j' := by
  have hne : bodyOf lines ≠ [] := by
    obtain ⟨u, g, v, hsplit, -, hg⟩ := exists_solid hl
    exact List.ne_nil_of_mem (mem_bodyOf_of_mem (left_mem h)
      (hsplit ▸ List.mem_append_right u List.mem_cons_self) hg)
  by_cases hlength : (bodyOf lines).length ≤ target
  · rw [sectionTexts_short overlap hmin hne hlength] at ht
    obtain rfl := List.mem_singleton.mp (List.mem_of_getElem? ht)
    obtain ⟨u, v, w, hsplit⟩ := pair_bodyOf h hl hl'
    refine .inr (before_of_pair hl hl' ?_ hsplit hj)
    rw [solid_bodyOf]
    exact hlines.nodup.filter _
  · obtain ⟨heads, hsplit, htexts⟩ := sectionTexts_long overlap hmin (Nat.lt_of_not_le hlength)
    rw [htexts] at ht ⊢
    rw [List.getElem?_map] at ht
    obtain ⟨grp, hgrp, rfl⟩ := Option.map_eq_some_iff.mp ht
    have hgroups := List.take_append_drop i (groups target overlap [] (belowHeadings (bodyOf lines)))
    rw [List.drop_eq_getElem_cons (List.getElem?_eq_some_iff.mp hgrp).1,
      (List.getElem?_eq_some_iff.mp hgrp).2] at hgroups
    -- The paragraph of the later line is in the chunk.
    obtain ⟨⟨g, rest, hhead, hg⟩, -⟩ := strip_solid hl'
    have hgl : g ∈ strip l' := hhead ▸ List.mem_cons_self
    obtain ⟨p', hp', hgp⟩ := mem_join_paragraphs (List.mem_of_mem_drop (hj.subset hgl))
      (isNewline_of_solid hg)
    have hmem := List.mem_of_getElem? hgrp
    have hsolid := nodup_solid_join hlines (sublist_paragraphs hsplit hmem)
    obtain ⟨run', hrun', rfl⟩ :=
      mem_paragraph hlines.isLine ((sublist_paragraphs hsplit hmem).subset hp')
    obtain ⟨l₁, hl₁, hgl₁⟩ := mem_bodyOf hgp (isNewline_of_solid hg)
    obtain rfl := hlines.unique (right_mem h) ((mem_runs hrun').2 l₁ hl₁).1
      (strip_subset _ hgl) hgl₁
    rcases pair_runs h hl hl' with ⟨run, hrun, hpair⟩ | ⟨run, run₁, hpair, hlrun, hlrun'⟩
    · obtain rfl := run_unique hlines hrun hrun' (right_mem hpair) hl₁
      obtain ⟨u, v, w, hbody⟩ := pair_bodyOf hpair hl hl'
      obtain ⟨a, b, hjoin⟩ := infix_join blankLine hp'
      have hchunk : join blankLine (heads ++ grp) =
          (a ++ u) ++ strip l ++ v ++ strip l' ++ (w ++ b) := by
        rw [← hjoin, hbody]
        simp
      exact .inr (before_of_pair hl hl' hsolid hchunk hj)
    · obtain rfl := run_unique hlines (right_mem hpair) hrun' hlrun' hl₁
      have hpars : [bodyOf run, bodyOf run₁].Sublist (heads ++ belowHeadings (bodyOf lines)) := by
        rw [← hsplit, paragraphs_bodyOf hlines.isLine]
        exact hpair.map bodyOf
      have hlbody := strip_infix_bodyOf hlrun hl
      rcases earlier_paragraph (hsplit ▸ nodup_paragraphs hlines) hgroups.symm hpars hp' with
        hpair' | ⟨grp', hgrp', hp⟩
      · obtain ⟨u, v, w, hchunk⟩ := pair_join hpair' hlbody (strip_infix_bodyOf hlrun' hl')
        exact .inr (before_of_pair hl hl' hsolid hchunk hj)
      · refine .inl ⟨join blankLine (heads ++ grp'), ?_,
          hlbody.trans (infix_join blankLine (List.mem_append_right _ hp))⟩
        rw [← List.map_take]
        exact List.mem_map_of_mem hgrp'

theorem exists_occurrence {texts : List (List α)} {k : Nat} {t : List α}
    (ht : t ∈ texts.take k) {l : List α} (hl : strip l <:+: t) :
    ∃ place ∈ occurrences texts l, (ofLex place).1 < k := by
  obtain ⟨i, hi, rfl⟩ := List.getElem_of_mem ht
  obtain ⟨u, v, hsplit⟩ := hl
  rw [List.getElem_take] at hsplit
  rw [List.length_take, Nat.lt_min] at hi
  obtain ⟨hlt, hlen⟩ := hi
  refine ⟨toLex (i, u.length), ⟨texts[i], ?_, ?_⟩, hlt⟩
  · exact List.getElem?_eq_getElem _
  · change strip l <+: List.drop u.length _
    rw [← hsplit, List.append_assoc, List.drop_left]
    exact List.prefix_append _ _

/-- The same in the chunks of the text. -/
theorem before_of_occurs {text : List α} (hplaced : PlacedLines (splitlines text))
    {target overlap : Nat} {minChars : Int} (hmin : minChars ≤ 1)
    (hbelow : ∀ lines ∈ sectionsFrom [] (splitlines text), HasChunks target (bodyOf lines))
    {l l' : List α} (h : [l, l'].Sublist (splitlines text)) (hl : isBlank l = false)
    (hl' : isBlank l' = false) {place : Nat ×ₗ Nat}
    (hplace : place ∈ occurrences (chunkTexts text target overlap minChars) l') :
    ∃ place' ∈ occurrences (chunkTexts text target overlap minChars) l, place' < place := by
  obtain ⟨t, ht, hj⟩ := hplace
  -- An occurrence in an earlier chunk is enough.
  have hearlier {t' : List α} (ht' : t' ∈ (chunkTexts text target overlap minChars).take
      (ofLex place).1) (hinside : strip l <:+: t') : ∃ place' ∈ occurrences
        (chunkTexts text target overlap minChars) l, place' < place := by
    obtain ⟨place', hmem, hlt⟩ := exists_occurrence ht' hinside
    exact ⟨place', hmem, Prod.Lex.lt_iff.mpr (.inl hlt)⟩
  have htexts := chunkTexts_eq text target overlap minChars
  have ht' : t ∈ ((sectionsFrom [] (splitlines text)).flatMap
      (sectionTexts target overlap minChars))[(ofLex place).1]? := htexts ▸ ht
  obtain ⟨earlier, lines, later, i, hsections, hti, hk⟩ := exists_part ht'
  have hmem : lines ∈ sectionsFrom [] (splitlines text) := by
    rw [hsections]
    exact List.mem_append_right _ List.mem_cons_self
  have hlines := placedLines_section hplaced hmem
  have hflat := flatten_sectionsFrom [] (splitlines text)
  rw [hsections, List.flatten_append, List.flatten_cons, List.nil_append] at hflat
  rw [hsections, List.flatMap_append, List.flatMap_cons] at htexts
  rw [← hflat] at h
  have hall := hflat ▸ hplaced
  -- The later line is in the section of the chunk.
  obtain ⟨⟨g, rest, hhead, hg⟩, -⟩ := strip_solid hl'
  have hgl : g ∈ strip l' := hhead ▸ List.mem_cons_self
  obtain ⟨l₁, hl₁, hgl₁⟩ := mem_of_sectionText hmin hlines (List.mem_of_getElem? hti)
    (List.mem_of_mem_drop (hj.subset hgl)) hg
  obtain rfl := hall.unique (right_mem h) (List.mem_append_right _
    (List.mem_append_left _ hl₁)) (strip_subset _ hgl) hgl₁
  rw [← List.append_assoc] at h hall
  have hlater : l' ∉ later.flatten := fun hmem =>
    hall.disjoint (List.mem_append_right _ hl₁) hmem hgl₁ hgl₁
  rcases pair_append (pair_before h hlater) with hpair | ⟨hleft, -⟩ | hpair
  · have hfirst := hall.sublist (List.sublist_append_left _ _)
    exact (hfirst.disjoint (right_mem hpair) hl₁ hgl₁ hgl₁).elim
  · obtain ⟨lines', hlines', hleft⟩ := List.mem_flatten.mp hleft
    have hmem' : lines' ∈ sectionsFrom [] (splitlines text) := by
      rw [hsections]
      exact List.mem_append_left _ hlines'
    obtain ⟨t', ht', hinside⟩ := exists_sectionText overlap hmin
      (placedLines_section hplaced hmem') (hbelow lines' hmem') hleft hl
    refine hearlier ?_ hinside
    rw [htexts, hk, List.take_length_add_append]
    exact List.mem_append_left _ (List.mem_flatMap.mpr ⟨lines', hlines', ht'⟩)
  · rcases section_before hmin hlines hpair hl hl' hti hj with ⟨t', ht', hinside⟩ | ⟨j, hlt, hj'⟩
    · refine hearlier ?_ hinside
      rw [htexts, hk, List.take_length_add_append, List.take_append]
      exact List.mem_append_right _ (List.mem_append_left _ ht')
    · exact ⟨toLex ((ofLex place).1, j), ⟨t, ht, hj'⟩, Prod.Lex.lt_iff.mpr (.inr ⟨rfl, hlt⟩)⟩

/-! ## When no line is lost -/

theorem exists_place {texts lines : List (List α)} {places : List (Nat ×ₗ Nat)}
    (h : List.Forall₂ (fun line place => IsLeast (occurrences texts line) place) lines places)
    {l : List α} (hl : l ∈ lines) : (occurrences texts l).Nonempty := by
  obtain ⟨i, hi, rfl⟩ := List.getElem_of_mem hl
  exact ⟨_, (h.get hi (h.length_eq ▸ hi)).1⟩

theorem onlyHeadings_map {β : Type} [Glyph β] {f : α → β} (hf : Glyph.Map f) (body : List α) :
    OnlyHeadings (body.map f) ↔ OnlyHeadings body := by
  have hall (p : List α) : (splitlines (p.map f)).all isHeading = (splitlines p).all isHeading := by
    rw [splitlines_map hf, List.all_map]
    congr 1
    exact funext (isHeading_map hf)
  rw [OnlyHeadings, paragraphs_map hf, List.forall_mem_map]
  exact forall₂_congr fun p _ => by rw [hall]

/-- The sections of the text with places are those of the text. -/
theorem hasChunks_placed {text : Str} {target : Nat} :
    (∀ s ∈ parseSections text, HasChunks target s.2) ↔
      ∀ lines ∈ sectionsFrom [] (splitlines (placed text)), HasChunks target (bodyOf lines) := by
  have hbodies (P : List Placed → Prop) : (∀ s ∈ parseSections (placed text), P s.2) ↔
      ∀ lines ∈ sectionsFrom [] (splitlines (placed text)), bodyOf lines ≠ [] → P (bodyOf lines) := by
    rw [← @List.forall_mem_map _ _ Prod.snd _ P, bodies_parseSections]
    simp
  have hsections := parseSections_map Glyph.map_fst (placed text)
  rw [erase_placed] at hsections
  rw [hsections, List.forall_mem_map]
  refine Iff.trans (forall₂_congr fun s _ => ?_) ((hbodies (HasChunks target)).trans
    (forall₂_congr fun lines _ => ⟨fun h hlong => ?_, fun h _ => h⟩))
  · rw [HasChunks, HasChunks, sectionMap, List.length_map, onlyHeadings_map Glyph.map_fst]
  · exact h (List.ne_nil_of_length_pos (by omega)) hlong

/-- The lines of the text itself are in its chunks. -/
theorem LosesNothing.line_in_chunk {text : Str} {target overlap : Nat} {minChars : Int}
    (h : LosesNothing text target overlap minChars) {line : Str} (hline : line ∈ splitlines text)
    (hsolid : isBlank line = false) :
    ∃ c ∈ splitMarkdown text target overlap minChars, strip line <:+: c.text := by
  obtain ⟨places, hplaces, -⟩ := h
  have hlines := splitlines_map Glyph.map_fst (placed text)
  rw [erase_placed] at hlines
  rw [hlines] at hline
  obtain ⟨l, hl, rfl⟩ := List.mem_map.mp hline
  have hblank : isBlank l = false := by
    rw [isBlank, List.all_map] at hsolid
    exact hsolid
  have hmem : l ∈ (splitlines (placed text)).filter fun line => !isBlank line :=
    List.mem_filter.mpr ⟨hl, by rw [hblank]; rfl⟩
  obtain ⟨place, t, ht, hj⟩ := exists_place hplaces hmem
  rw [chunkTexts, List.getElem?_map] at ht
  obtain ⟨c, hc, rfl⟩ := Option.map_eq_some_iff.mp ht
  refine ⟨c.map Prod.fst, ?_, ?_⟩
  · rw [← splitMarkdown_placed]
    exact List.mem_map_of_mem (List.mem_of_getElem? hc)
  · rw [strip_map Glyph.map_fst]
    exact (hj.isInfix.trans (List.drop_suffix _ _).isInfix).map Prod.fst

/-- A line with an occurrence is in a chunk of its section. -/
theorem exists_sectionText_of_occurs {text : List α} (hplaced : PlacedLines (splitlines text))
    {target overlap : Nat} {minChars : Int} (hmin : minChars ≤ 1) {lines : List (List α)}
    (hlines : lines ∈ sectionsFrom [] (splitlines text)) {l : List α} (hl : l ∈ lines)
    (hsolid : isBlank l = false) {place : Nat ×ₗ Nat}
    (hplace : place ∈ occurrences (chunkTexts text target overlap minChars) l) :
    ∃ t, t ∈ sectionTexts target overlap minChars lines := by
  obtain ⟨t, ht, hj⟩ := hplace
  rw [chunkTexts_eq] at ht
  obtain ⟨lines', hlines', ht'⟩ := List.mem_flatMap.mp (List.mem_of_getElem? ht)
  obtain ⟨⟨g, rest, hhead, hg⟩, -⟩ := strip_solid hsolid
  have hgl : g ∈ strip l := hhead ▸ List.mem_cons_self
  obtain ⟨l', hl', hgl'⟩ := mem_of_sectionText hmin (placedLines_section hplaced hlines') ht'
    (List.mem_of_mem_drop (hj.subset hgl)) hg
  obtain rfl := hplaced.section_unique hlines hlines' hl hl' (strip_subset _ hgl) hgl'
  exact ⟨t, ht'⟩

/-- A section with a body has a line that is not blank. -/
theorem exists_solid_line {lines : List (List Placed)} (hne : bodyOf lines ≠ []) :
    ∃ l ∈ lines, isBlank l = false := by
  by_contra hnot
  refine hne (trimBy_eq_nil_iff.mpr fun g hg => ?_)
  rcases mem_of_mem_join hg with hg | ⟨l, hl, hg⟩
  · rw [List.mem_singleton.mp hg]
    exact isSpace_newline
  · have hblank : isBlank l = true := by
      by_contra h
      exact hnot ⟨l, hl, (Bool.not_eq_true _).mp h⟩
    exact isBlank_iff.mp hblank g hg

/-- The chunks hold every line that is not blank, in order, exactly when every section longer
than the target has a paragraph that is not all headings. -/
theorem loses_nothing_iff (text : Str) (target overlap : Nat) {minChars : Int}
    (hmin : minChars ≤ 1) : LosesNothing text target overlap minChars ↔
      ∀ s ∈ parseSections text, HasChunks target s.2 := by
  rw [hasChunks_placed]
  have hplaced := placedLines text
  have hflat := flatten_sectionsFrom [] (splitlines (placed text))
  rw [List.nil_append] at hflat
  constructor
  · rintro ⟨places, hplaces, -⟩ lines hlines hlong honly
    have hne : bodyOf lines ≠ [] := List.ne_nil_of_length_pos (by omega)
    obtain ⟨l, hl, hsolid⟩ := exists_solid_line hne
    have hmem : l ∈ (splitlines (placed text)).filter fun line => !isBlank line := by
      rw [List.mem_filter, hsolid]
      exact ⟨hflat ▸ List.mem_flatten.mpr ⟨lines, hlines, hl⟩, rfl⟩
    obtain ⟨place, hplace⟩ := exists_place hplaces hmem
    obtain ⟨t, ht⟩ := exists_sectionText_of_occurs hplaced hmin hlines hl hsolid hplace
    obtain ⟨heads, -, htexts⟩ := sectionTexts_long overlap hmin hlong
    rw [htexts, belowHeadings_eq_nil_iff.mpr honly] at ht
    cases ht
  · intro hbelow
    refine exists_firsts (fun l hl => ?_) fun l l' hpair place hplace => ?_
    · obtain ⟨hl, hsolid⟩ := List.mem_filter.mp hl
      obtain ⟨lines, hlines, hl⟩ := List.mem_flatten.mp (hflat.symm ▸ hl)
      obtain ⟨t, ht, hinside⟩ := exists_sectionText overlap hmin
        (placedLines_section hplaced hlines) (hbelow lines hlines) hl (by simpa using hsolid)
      have hmem : t ∈ chunkTexts (placed text) target overlap minChars := by
        rw [chunkTexts_eq]
        exact List.mem_flatMap.mpr ⟨lines, hlines, ht⟩
      obtain ⟨place, hplace, -⟩ := exists_occurrence
        ((List.take_length (l := chunkTexts (placed text) target overlap minChars)).symm ▸ hmem)
        hinside
      exact ⟨place, hplace⟩
    · have hsolid {x : List Placed} (hx : x ∈ [l, l']) : isBlank x = false := by
        simpa using (List.mem_filter.mp (hpair.subset hx)).2
      exact before_of_occurs hplaced hmin hbelow (hpair.trans List.filter_sublist)
        (hsolid List.mem_cons_self) (hsolid (List.mem_cons_of_mem _ List.mem_cons_self)) hplace

/-- A section longer than the target with other text than headings. -/
theorem loses_nothing_notes :
    LosesNothing (lit "# Heap\n\nA heap is a tree.\n\nIt is shallow.") 20 4 1 :=
  (loses_nothing_iff _ 20 4 (by decide)).mpr (by decide +kernel)

/-- A heading that is longer than the target is in no chunk. -/
theorem heading_lost : ¬ ∀ (text : Str) (target overlap : Nat) (minChars : Int),
    1 ≤ target → minChars ≤ 1 → LosesNothing text target overlap minChars := by
  intro hcovers
  obtain ⟨places, hplaces, -⟩ := hcovers (lit "# Heap") 5 0 1 (by decide) (by decide)
  have htexts : chunkTexts (placed (lit "# Heap")) 5 0 1 = [] := by decide +kernel
  have hlines : (splitlines (placed (lit "# Heap"))).filter (fun line => !isBlank line) =
      [placed (lit "# Heap")] := by decide +kernel
  rw [hlines, htexts] at hplaces
  obtain ⟨place, rest, hleast, -, -⟩ := List.forall₂_cons_left_iff.mp hplaces
  obtain ⟨t, ht, -⟩ := hleast.1
  cases ht

end WebSpider.Vectors
