import WebSpider.Text.Lines
import WebSpider.Text.Trim

/-!
# Paragraphs of joined lines

`re.split(r"\n\s*\n", text)` on a text made of lines: its pieces, trimmed and without
the empty ones, are the runs of lines that are not blank (`paragraphs_join`). White
space around the text makes no difference (`paragraphs_strip`).
-/

namespace WebSpider.Text

variable {α : Type}

/-! ## Joining -/

theorem join_append (sep : List α) {xs ys : List (List α)} (hxs : xs ≠ []) (hys : ys ≠ []) :
    join sep (xs ++ ys) = join sep xs ++ sep ++ join sep ys := by
  induction xs with
  | nil => exact absurd rfl hxs
  | cons x xs ih =>
    cases xs with
    | nil =>
      obtain ⟨y, ys, rfl⟩ := List.exists_cons_of_ne_nil hys
      rfl
    | cons x' xs =>
      rw [List.cons_append, List.cons_append, join_cons_cons, ← List.cons_append,
        ih (List.cons_ne_nil _ _), join_cons_cons]
      simp only [List.append_assoc]

theorem mem_join_of_mem (sep : List α) {xs : List (List α)} {x : List α} (hx : x ∈ xs) {g : α}
    (hg : g ∈ x) : g ∈ join sep xs := by
  induction xs with
  | nil => cases hx
  | cons y ys ih =>
    cases ys with
    | nil =>
      obtain rfl := List.mem_singleton.mp hx
      exact hg
    | cons y' ys =>
      rw [join_cons_cons]
      rcases List.mem_cons.mp hx with rfl | hx
      · exact List.mem_append_left _ (List.mem_append_left _ hg)
      · exact List.mem_append_right _ (ih hx)

theorem mem_of_mem_join {sep : List α} {xs : List (List α)} {g : α} (hg : g ∈ join sep xs) :
    g ∈ sep ∨ ∃ x ∈ xs, g ∈ x := by
  induction xs with
  | nil => cases hg
  | cons y ys ih =>
    cases ys with
    | nil => exact .inr ⟨y, List.mem_cons_self, hg⟩
    | cons y' ys =>
      rw [join_cons_cons, List.mem_append, List.mem_append] at hg
      rcases hg with (hg | hg) | hg
      · exact .inr ⟨y, List.mem_cons_self, hg⟩
      · exact .inl hg
      · apply (ih hg).imp_right
        rintro ⟨x, hx, hgx⟩
        exact ⟨x, List.mem_cons_of_mem _ hx, hgx⟩

/-- Consecutive pieces are joined within the whole, with separators around them. -/
theorem join_around (sep : List α) (xs : List (List α)) {block : List (List α)} (hne : block ≠ [])
    (ys : List (List α)) : join sep (xs ++ block ++ ys) =
      (if xs = [] then [] else join sep xs ++ sep) ++ join sep block ++
        if ys = [] then [] else sep ++ join sep ys := by
  have hright : join sep (block ++ ys) =
      join sep block ++ if ys = [] then [] else sep ++ join sep ys := by
    by_cases hys : ys = []
    · rw [if_pos hys, hys, List.append_nil, List.append_nil]
    · rw [if_neg hys, join_append sep hne hys, List.append_assoc]
  by_cases hxs : xs = []
  · rw [if_pos hxs, hxs, List.nil_append, List.nil_append, hright]
  · rw [if_neg hxs, List.append_assoc xs, join_append sep hxs (by simp [hne]), hright,
      List.append_assoc, List.append_assoc, List.append_assoc]

theorem infix_join (sep : List α) {xs : List (List α)} {x : List α} (hx : x ∈ xs) :
    x <:+: join sep xs := by
  obtain ⟨before, after, rfl⟩ := List.append_of_mem hx
  have hjoin := join_around sep before (List.cons_ne_nil x []) after
  rw [List.append_assoc, List.singleton_append] at hjoin
  exact ⟨_, _, hjoin.symm⟩

/-- Two pieces that stand in order are joined in order. -/
theorem exists_join_pair (sep : List α) {x y : List α} {xs : List (List α)}
    (h : [x, y].Sublist xs) : ∃ u v w, join sep xs = u ++ x ++ v ++ y ++ w := by
  induction xs with
  | nil => cases h
  | cons z zs ih =>
    obtain ⟨z', zs, rfl⟩ : ∃ z' zs', zs = z' :: zs' := by
      apply List.exists_cons_of_ne_nil
      intro hnil
      rw [hnil] at h
      exact absurd h.length_le (by simp)
    rw [join_cons_cons]
    rcases List.sublist_cons_iff.mp h with h | ⟨rest, heq, hrest⟩
    · obtain ⟨u, v, w, hjoin⟩ := ih h
      exact ⟨z ++ sep ++ u, v, w, by rw [hjoin]; simp⟩
    · obtain ⟨rfl, rfl⟩ := List.cons.inj heq
      obtain ⟨u, w, hjoin⟩ := infix_join sep (List.singleton_sublist.mp hrest)
      exact ⟨[], sep ++ u, w, by rw [← hjoin]; simp⟩

variable [Glyph α]

/-! ## Blank lines -/

/-- A line of white space. -/
def isBlank (line : List α) : Bool := line.all isSpace

/-- A line: no newline in it. -/
def IsLine (line : List α) : Prop := ∀ g ∈ line, isNewline g = false

/-- The runs of lines that are not blank. -/
def runs (lines : List (List α)) : List (List (List α)) :=
  (lines.splitOnP isBlank).filter fun run => !run.isEmpty

theorem isSpace_newline : isSpace (newline : α) = true := by
  rw [isSpace, Glyph.code_newline]
  decide

theorem isNewline_newline : isNewline (newline : α) = true := by
  rw [isNewline, Glyph.code_newline]
  decide

theorem isBlank_iff {line : List α} : isBlank line = true ↔ AllOf isSpace line :=
  List.all_eq_true

/-- A line that is not blank is white space up to a character that is not. -/
theorem exists_solid {line : List α} (h : isBlank line = false) :
    ∃ u g v, line = u ++ g :: v ∧ AllOf isSpace u ∧ isSpace g = false := by
  have hne : line.dropWhile isSpace ≠ [] := by
    intro hnil
    rw [List.dropWhile_eq_nil_iff] at hnil
    rw [isBlank_iff.mpr hnil] at h
    cases h
  obtain ⟨g, v, hdrop⟩ := List.exists_cons_of_ne_nil hne
  refine ⟨line.takeWhile isSpace, g, v, ?_, fun c hc => List.mem_takeWhile_imp hc, ?_⟩
  · rw [← hdrop, List.takeWhile_append_dropWhile]
  · have hhead := List.head?_dropWhile_not isSpace line
    rw [hdrop] at hhead
    simpa using hhead

/-! ## The white space ahead -/

/-- The white space ahead ends at the first other character. -/
theorem newlineAhead_append_cons (s : List α) {d : α} (hd : isSpace d = false) (rest : List α) :
    newlineAhead (s ++ d :: rest) = newlineAhead s := by
  have htake : (s ++ d :: rest).takeWhile isSpace = s.takeWhile isSpace := by
    induction s with
    | nil =>
      rw [List.nil_append, List.takeWhile_cons_of_neg (by rw [hd]; exact Bool.false_ne_true)]
      rfl
    | cons g s ih => rw [List.cons_append, List.takeWhile_cons, List.takeWhile_cons, ih]
  rw [newlineAhead, htake]
  rfl

theorem newlineAhead_of_isLine {line : List α} (h : IsLine line) : newlineAhead line = false := by
  rw [newlineAhead, List.any_eq_false]
  intro g hg
  rw [h g ((List.takeWhile_prefix _).subset hg)]
  exact Bool.false_ne_true

/-- No paragraph ends right before a line that is not blank. -/
theorem newlineAhead_solid {line : List α} (h : IsLine line) (hblank : isBlank line = false)
    (rest : List α) : newlineAhead (line ++ rest) = false := by
  obtain ⟨u, g, v, rfl, -, hg⟩ := exists_solid hblank
  have hu : IsLine u := fun c hc => h c (List.mem_append_left _ hc)
  rw [List.append_assoc, List.cons_append, newlineAhead_append_cons u hg,
    newlineAhead_of_isLine hu]

theorem newlineAhead_blank {line : List α} (hblank : isBlank line = true) (rest : List α) :
    newlineAhead (line ++ newline :: rest) = true := by
  rw [newlineAhead, List.takeWhile_append_of_pos (isBlank_iff.mp hblank), List.any_append,
    List.takeWhile_cons_of_pos isSpace_newline, List.any_cons, isNewline_newline, Bool.true_or,
    Bool.or_true]

theorem isSpace_of_newlineAhead {g : α} {s : List α} (h : newlineAhead (g :: s) = true) :
    isSpace g = true := by
  by_contra hg
  rw [newlineAhead, List.takeWhile_cons_of_neg hg] at h
  cases h

/-! ## Trimmed pieces -/

/-- The pieces, trimmed, without the empty ones. -/
def trimmed (pieces : List (List α)) : List (List α) :=
  (pieces.map strip).filter fun p => !p.isEmpty

theorem trimmed_append (xs ys : List (List α)) : trimmed (xs ++ ys) = trimmed xs ++ trimmed ys := by
  rw [trimmed, List.map_append, List.filter_append]
  rfl

theorem trimmed_cons_of_strip {x y : List α} (h : strip x = strip y) (xs : List (List α)) :
    trimmed (x :: xs) = trimmed (y :: xs) := by
  rw [trimmed, List.map_cons, h]
  rfl

theorem trimmed_cons_blank {x : List α} (hx : AllOf isSpace x) (xs : List (List α)) :
    trimmed (x :: xs) = trimmed xs := by
  rw [trimmed, List.map_cons, strip, trimBy_eq_nil_iff.mpr hx]
  rfl

theorem trimmed_of_blank {xs : List (List α)} (h : ∀ x ∈ xs, AllOf isSpace x) :
    trimmed xs = [] := by
  induction xs with
  | nil => rfl
  | cons x xs ih =>
    rw [trimmed_cons_blank (h x List.mem_cons_self)]
    exact ih fun y hy => h y (List.mem_cons_of_mem _ hy)

theorem trimmed_singleton {x : List α} (hx : ¬ AllOf isSpace x) : trimmed [x] = [strip x] := by
  have hne : strip x ≠ [] := fun h => hx (trimBy_eq_nil_iff.mp h)
  simp [trimmed, hne]

omit [Glyph α] in
theorem consHead_eq (g : α) {xs : List (List α)} (h : xs ≠ []) :
    consHead g xs = xs.modifyHead (g :: ·) := by
  obtain ⟨x, xs, rfl⟩ := List.exists_cons_of_ne_nil h
  rfl

theorem splitBlank_ne_nil (inside : Bool) (s : List α) : splitBlank inside s ≠ [] := by
  induction s generalizing inside with
  | nil => exact List.cons_ne_nil _ _
  | cons g s ih =>
    rw [splitBlank]
    split
    · exact ih true
    · split
      · exact List.cons_ne_nil _ _
      · rw [consHead_eq g (ih false)]
        simpa using ih false

theorem trimmed_modifyHead {u : List α} (hu : AllOf isSpace u) {xs : List (List α)} (h : xs ≠ []) :
    trimmed (xs.modifyHead (u ++ ·)) = trimmed xs := by
  obtain ⟨x, xs, rfl⟩ := List.exists_cons_of_ne_nil h
  exact trimmed_cons_of_strip (trimBy_append_left hu x) xs

/-! ## White space around a text -/

/-- A piece holds characters of the text. -/
theorem subset_of_mem_splitBlank (inside : Bool) (s : List α) :
    ∀ x ∈ splitBlank inside s, x ⊆ s := by
  induction s generalizing inside with
  | nil =>
    intro x hx
    rw [List.mem_singleton.mp hx]
    exact List.Subset.refl _
  | cons g s ih =>
    intro x hx
    rw [splitBlank] at hx
    split at hx
    · exact List.Subset.trans (ih true x hx) (List.subset_cons_self _ _)
    · split at hx
      · rcases List.mem_cons.mp hx with rfl | hx
        · exact List.nil_subset _
        · exact List.Subset.trans (ih true x hx) (List.subset_cons_self _ _)
      · obtain ⟨y, ys, hsplit⟩ := List.exists_cons_of_ne_nil (splitBlank_ne_nil false s)
        have hall := ih false
        rw [hsplit] at hx hall
        rcases List.mem_cons.mp hx with rfl | hx
        · exact List.cons_subset_cons g (hall y List.mem_cons_self)
        · exact List.Subset.trans (hall x (List.mem_cons_of_mem _ hx)) (List.subset_cons_self _ _)

theorem trimmed_splitBlank_of_space {w : List α} (hw : AllOf isSpace w) (inside : Bool) :
    trimmed (splitBlank inside w) = [] :=
  trimmed_of_blank fun x hx c hc => hw c (subset_of_mem_splitBlank inside w x hx hc)

/-- One character of white space ahead, when the flag makes no difference after it. -/
theorem trimmed_splitBlank_cons_of {g : α} (hg : isSpace g = true) {s : List α}
    (h : trimmed (splitBlank true s) = trimmed (splitBlank false s)) :
    trimmed (splitBlank false (g :: s)) = trimmed (splitBlank false s) := by
  rw [splitBlank, Bool.false_and, if_neg Bool.false_ne_true]
  split
  · rw [trimmed_cons_blank fun _ hc => absurd hc List.not_mem_nil]
    exact h
  · rw [consHead_eq g (splitBlank_ne_nil false s)]
    apply trimmed_modifyHead (u := [g]) _ (splitBlank_ne_nil false s)
    intro c hc
    rwa [List.mem_singleton.mp hc]

/-- Inside a match or not, the pieces differ in white space only. -/
theorem trimmed_splitBlank_true (s : List α) :
    trimmed (splitBlank true s) = trimmed (splitBlank false s) := by
  induction s with
  | nil => rfl
  | cons g s ih =>
    by_cases hahead : newlineAhead (g :: s) = true
    · rw [trimmed_splitBlank_cons_of (isSpace_of_newlineAhead hahead) ih, splitBlank, Bool.true_and,
        if_pos hahead, ih]
    · rw [splitBlank, splitBlank, Bool.true_and, if_neg hahead, Bool.false_and,
        if_neg Bool.false_ne_true]

theorem trimmed_splitBlank_lead {w : List α} (hw : AllOf isSpace w) (s : List α) :
    trimmed (splitBlank false (w ++ s)) = trimmed (splitBlank false s) := by
  induction w with
  | nil => rfl
  | cons g w ih =>
    rw [List.cons_append, trimmed_splitBlank_cons_of (hw g List.mem_cons_self)
      (trimmed_splitBlank_true _)]
    exact ih fun c hc => hw c (List.mem_cons_of_mem _ hc)

/-- What follows the last character that is not white space only adds to the last piece
and after it. -/
theorem splitBlank_append {d : α} (hd : isSpace d = false) (w : List α) (inside : Bool)
    (s : List α) : ∃ xs last, splitBlank inside (s ++ [d]) = xs ++ [last] ∧
      splitBlank inside (s ++ d :: w) = xs ++ (splitBlank false w).modifyHead (last ++ ·) := by
  have hnewline : isNewline d = false := by
    by_contra h
    rw [Bool.not_eq_false, isNewline, decide_eq_true_eq] at h
    rw [isSpace, h] at hd
    exact absurd hd (by decide)
  induction s generalizing inside with
  | nil =>
    have hahead (rest : List α) : newlineAhead (d :: rest) = false :=
      newlineAhead_append_cons [] hd rest
    refine ⟨[], [d], ?_, ?_⟩
    · rw [List.nil_append, splitBlank, hahead, hnewline, Bool.and_false]
      rfl
    · rw [List.nil_append, splitBlank, hahead, hnewline, Bool.and_false, Bool.false_and,
        if_neg Bool.false_ne_true, if_neg Bool.false_ne_true, consHead_eq d (splitBlank_ne_nil _ _)]
      rfl
  | cons g s ih =>
    rw [List.cons_append, List.cons_append, splitBlank, splitBlank, ← List.cons_append,
      ← List.cons_append, newlineAhead_append_cons _ hd, newlineAhead_append_cons _ hd,
      newlineAhead_append_cons _ hd, newlineAhead_append_cons _ hd]
    split
    · exact ih true
    · split
      · obtain ⟨xs, last, h, h'⟩ := ih true
        exact ⟨[] :: xs, last, by rw [h]; rfl, by rw [h']; rfl⟩
      · obtain ⟨xs, last, h, h'⟩ := ih false
        cases xs with
        | nil =>
          refine ⟨[], g :: last, by rw [h]; rfl, ?_⟩
          rw [h']
          obtain ⟨y, ys, hw⟩ := List.exists_cons_of_ne_nil (splitBlank_ne_nil false w)
          rw [hw]
          rfl
        | cons x xs => exact ⟨(g :: x) :: xs, last, by rw [h]; rfl, by rw [h']; rfl⟩

theorem trimmed_splitBlank_trail {w : List α} (hw : AllOf isSpace w) {d : α}
    (hd : isSpace d = false) (s : List α) :
    trimmed (splitBlank false (s ++ d :: w)) = trimmed (splitBlank false (s ++ [d])) := by
  obtain ⟨xs, last, h, h'⟩ := splitBlank_append hd w false s
  obtain ⟨y, ys, hsplit⟩ := List.exists_cons_of_ne_nil (splitBlank_ne_nil false w)
  have hall : ∀ x ∈ y :: ys, AllOf isSpace x := fun x hx c hc =>
    hw c (subset_of_mem_splitBlank false w x (hsplit ▸ hx) hc)
  have hlast : strip (last ++ y) = strip last :=
    trimBy_append_right (hall y List.mem_cons_self) last
  rw [h, h', hsplit, trimmed_append, trimmed_append, List.modifyHead_cons,
    trimmed_cons_of_strip hlast]
  change trimmed xs ++ trimmed ([last] ++ ys) = _
  rw [trimmed_append, trimmed_of_blank fun x hx => hall x (List.mem_cons_of_mem _ hx),
    List.append_nil]

/-- White space around the text makes no difference. -/
theorem trimmed_splitBlank_strip (s : List α) :
    trimmed (splitBlank false (strip s)) = trimmed (splitBlank false s) := by
  obtain ⟨lead, trail, hs, hlead, htrail⟩ := exists_trimBy isSpace s
  have hs' : trimmed (splitBlank false s) =
      trimmed (splitBlank false (lead ++ strip s ++ trail)) :=
    congrArg (fun t => trimmed (splitBlank false t)) hs
  rw [hs', List.append_assoc, trimmed_splitBlank_lead hlead]
  by_cases hnil : strip s = []
  · rw [hnil, List.nil_append, trimmed_splitBlank_of_space htrail,
      trimmed_splitBlank_of_space fun _ hc => absurd hc List.not_mem_nil]
  · obtain ⟨-, init, d, hlast, hd⟩ := trimBy_ends isSpace hnil
    have hlast' : strip s = init ++ [d] := hlast
    rw [hlast', List.append_assoc, List.singleton_append, trimmed_splitBlank_trail htrail hd]

/-! ## Runs of lines -/

/-- A line is consumed as it is. -/
theorem splitBlank_line {line : List α} (h : IsLine line) (rest : List α) :
    splitBlank false (line ++ rest) = (splitBlank false rest).modifyHead (line ++ ·) := by
  induction line with
  | nil =>
    obtain ⟨x, xs, hsplit⟩ := List.exists_cons_of_ne_nil (splitBlank_ne_nil false rest)
    rw [List.nil_append, hsplit]
    rfl
  | cons g line ih =>
    rw [List.cons_append, splitBlank, h g List.mem_cons_self, Bool.false_and, Bool.false_and,
      if_neg Bool.false_ne_true, if_neg Bool.false_ne_true,
      ih fun c hc => h c (List.mem_cons_of_mem _ hc), consHead_eq g, List.modifyHead_modifyHead]
    · rfl
    · obtain ⟨x, xs, hsplit⟩ := List.exists_cons_of_ne_nil (splitBlank_ne_nil false rest)
      rw [hsplit]
      exact List.cons_ne_nil _ _

/-- A newline with no newline in the white space after it is consumed as it is. -/
theorem splitBlank_newline {s : List α} (h : newlineAhead s = false) :
    splitBlank false (newline :: s) = (splitBlank false s).modifyHead (newline :: ·) := by
  rw [splitBlank, h, Bool.and_false, Bool.false_and, if_neg Bool.false_ne_true,
    if_neg Bool.false_ne_true, consHead_eq _ (splitBlank_ne_nil false s)]

/-- A run of lines is one piece. -/
theorem splitBlank_run {run : List (List α)} (hne : run ≠ []) (hlines : ∀ l ∈ run, IsLine l)
    (hsolid : ∀ l ∈ run, isBlank l = false) (rest : List α) :
    splitBlank false (join [newline] run ++ rest) =
      (splitBlank false rest).modifyHead (join [newline] run ++ ·) := by
  induction run with
  | nil => exact absurd rfl hne
  | cons line run ih =>
    have hline := hlines line List.mem_cons_self
    cases run with
    | nil => exact splitBlank_line hline rest
    | cons line' run =>
      have hahead : newlineAhead (join [newline] (line' :: run) ++ rest) = false := by
        have hline' := hlines line' (List.mem_cons_of_mem _ List.mem_cons_self)
        have hsolid' := hsolid line' (List.mem_cons_of_mem _ List.mem_cons_self)
        cases run with
        | nil => exact newlineAhead_solid hline' hsolid' rest
        | cons line'' run =>
          rw [join_cons_cons, List.append_assoc, List.append_assoc]
          exact newlineAhead_solid hline' hsolid' _
      rw [join_cons_cons, List.append_assoc, List.append_assoc, splitBlank_line hline,
        List.singleton_append, splitBlank_newline hahead,
        ih (List.cons_ne_nil _ _) (fun l hl => hlines l (List.mem_cons_of_mem _ hl))
          (fun l hl => hsolid l (List.mem_cons_of_mem _ hl)),
        List.modifyHead_modifyHead, List.modifyHead_modifyHead]
      congr 1
      funext piece
      simp

theorem runs_append_cons (xs : List (List α)) {b : List α} (hb : isBlank b = true)
    (ys : List (List α)) : runs (xs ++ b :: ys) = runs xs ++ runs ys := by
  rw [runs, List.splitOnP_append_cons _ _ hb, List.filter_append]
  rfl

theorem runs_of_solid {run : List (List α)} (hne : run ≠ [])
    (hsolid : ∀ l ∈ run, isBlank l = false) : runs run = [run] := by
  rw [runs, List.splitOnP_eq_singleton hsolid]
  simp [hne]

theorem runs_nil : runs ([] : List (List α)) = [] := rfl

/-- The lines are not blank, or there is a first blank line. -/
theorem solid_or_split (lines : List (List α)) : (∀ l ∈ lines, isBlank l = false) ∨
    ∃ run b more, lines = run ++ b :: more ∧ (∀ l ∈ run, isBlank l = false) ∧
      isBlank b = true := by
  induction lines with
  | nil => exact .inl fun _ hl => absurd hl List.not_mem_nil
  | cons line lines ih =>
    by_cases hblank : isBlank line = true
    · exact .inr ⟨[], line, lines, rfl, fun _ hl => absurd hl List.not_mem_nil, hblank⟩
    · rw [Bool.not_eq_true] at hblank
      rcases ih with hall | ⟨run, b, more, rfl, hrun, hb⟩
      · exact .inl (List.forall_mem_cons.mpr ⟨hblank, hall⟩)
      · exact .inr ⟨line :: run, b, more, rfl, List.forall_mem_cons.mpr ⟨hblank, hrun⟩, hb⟩

theorem not_allOf_join {run : List (List α)} (hne : run ≠ [])
    (hsolid : ∀ l ∈ run, isBlank l = false) : ¬ AllOf isSpace (join [newline] run) := by
  obtain ⟨line, run, rfl⟩ := List.exists_cons_of_ne_nil hne
  intro hall
  have hblank : isBlank line = true :=
    isBlank_iff.mpr fun c hc => hall c (mem_join_of_mem _ List.mem_cons_self hc)
  rw [hsolid line List.mem_cons_self] at hblank
  cases hblank

/-- A run ends before a blank line or with it. -/
theorem trimmed_run_blank {run : List (List α)} (hne : run ≠ []) (hlines : ∀ l ∈ run, IsLine l)
    (hsolid : ∀ l ∈ run, isBlank l = false) {b : List α} (hline : IsLine b)
    (hb : isBlank b = true) (more : List (List α)) :
    trimmed (splitBlank false (join [newline] (run ++ b :: more))) =
      strip (join [newline] run) :: trimmed (splitBlank true (join [newline] (b :: more))) := by
  have hstrip := trimmed_singleton (not_allOf_join hne hsolid)
  rw [join_append _ hne (List.cons_ne_nil _ _), List.append_assoc, List.singleton_append,
    splitBlank_run hne hlines hsolid]
  cases more with
  | nil =>
    have hblank : AllOf isSpace (newline :: b) :=
      List.forall_mem_cons.mpr ⟨isSpace_newline, isBlank_iff.mp hb⟩
    have hb' := splitBlank_line hline []
    rw [List.append_nil] at hb'
    change trimmed ((splitBlank false (newline :: b)).modifyHead _) =
      _ :: trimmed (splitBlank true b)
    rw [splitBlank_newline (newlineAhead_of_isLine hline), hb',
      trimmed_splitBlank_of_space (isBlank_iff.mp hb), ← hstrip]
    refine trimmed_cons_of_strip ?_ []
    dsimp only
    rw [List.append_nil]
    exact trimBy_append_right hblank _
  | cons line more =>
    have hahead : newlineAhead (join [newline] (b :: line :: more)) = true := by
      rw [join_cons_cons, List.append_assoc]
      exact newlineAhead_blank hb _
    rw [splitBlank, hahead, isNewline_newline, Bool.false_and, Bool.and_true,
      if_neg Bool.false_ne_true, if_pos rfl, List.modifyHead_cons, List.append_nil]
    change trimmed ([_] ++ _) = _
    rw [trimmed_append, hstrip]
    rfl

/-- A blank line ahead is dropped. -/
theorem trimmed_blank_cons {b : List α} (hb : isBlank b = true) (more : List (List α)) :
    trimmed (splitBlank true (join [newline] (b :: more))) =
      trimmed (splitBlank false (join [newline] more)) := by
  rw [trimmed_splitBlank_true]
  cases more with
  | nil =>
    rw [trimmed_splitBlank_of_space (w := join [newline] [b]) (isBlank_iff.mp hb)]
    rfl
  | cons line more =>
    rw [join_cons_cons, trimmed_splitBlank_lead]
    intro c hc
    rcases List.mem_append.mp hc with hc | hc
    · exact isBlank_iff.mp hb c hc
    · rw [List.mem_singleton.mp hc]
      exact isSpace_newline

/-- The paragraphs of joined lines are their runs, trimmed. -/
theorem paragraphs_join {lines : List (List α)} (hlines : ∀ l ∈ lines, IsLine l) :
    trimmed (splitBlank false (join [newline] lines)) =
      (runs lines).map fun run => strip (join [newline] run) := by
  induction hn : lines.length using Nat.strong_induction_on generalizing lines with
  | _ n ih =>
    rcases solid_or_split lines with hsolid | ⟨run, b, more, rfl, hsolid, hb⟩
    · by_cases hne : lines = []
      · subst hne
        rfl
      · have hsplit := splitBlank_run hne hlines hsolid []
        rw [List.append_nil] at hsplit
        rw [hsplit, runs_of_solid hne hsolid]
        change trimmed [join [newline] lines ++ []] = _
        rw [List.append_nil]
        exact trimmed_singleton (not_allOf_join hne hsolid)
    · have hmore : trimmed (splitBlank false (join [newline] more)) =
          (runs more).map fun run => strip (join [newline] run) := by
        apply ih more.length _ _ rfl
        · rw [← hn, List.length_append, List.length_cons]
          omega
        · exact fun l hl => hlines l (List.mem_append_right _ (List.mem_cons_of_mem _ hl))
      rw [runs_append_cons run hb, List.map_append, ← hmore]
      by_cases hne : run = []
      · subst hne
        rw [List.nil_append, ← trimmed_splitBlank_true, trimmed_blank_cons hb]
        rfl
      · have hline : IsLine b := hlines b (List.mem_append_right _ List.mem_cons_self)
        rw [trimmed_run_blank hne (fun l hl => hlines l (List.mem_append_left _ hl)) hsolid hline hb,
          runs_of_solid hne hsolid, trimmed_blank_cons hb]
        rfl

/-! ## Where the runs are -/

omit [Glyph α] in
theorem flatten_splitOnP (p : List α → Bool) (lines : List (List α)) :
    (lines.splitOnP p).flatten = lines.filter fun line => !p line := by
  induction lines with
  | nil => rfl
  | cons line lines ih =>
    rw [List.splitOnP_cons_eq_if_modifyHead]
    split
    · rename_i hp
      rw [List.filter_cons_of_neg (by simp [hp]), ← ih]
      rfl
    · rename_i hp
      obtain ⟨run, rest, hsplit⟩ := List.exists_cons_of_ne_nil (List.splitOnP_ne_nil p lines)
      rw [List.filter_cons_of_pos (by simp [hp]), ← ih, hsplit]
      rfl

theorem mem_runs {lines run : List (List α)} (h : run ∈ runs lines) :
    run ≠ [] ∧ ∀ l ∈ run, l ∈ lines ∧ isBlank l = false := by
  rw [runs, List.mem_filter] at h
  obtain ⟨hrun, hne⟩ := h
  refine ⟨by simpa using hne, fun l hl => ?_⟩
  have hmem : l ∈ (lines.splitOnP isBlank).flatten := List.mem_flatten.mpr ⟨run, hrun, hl⟩
  rw [flatten_splitOnP, List.mem_filter] at hmem
  exact ⟨hmem.1, by simpa using hmem.2⟩

theorem exists_run {lines : List (List α)} {l : List α} (hl : l ∈ lines)
    (hsolid : isBlank l = false) : ∃ run ∈ runs lines, l ∈ run := by
  have hmem : l ∈ (lines.splitOnP isBlank).flatten := by
    rw [flatten_splitOnP, List.mem_filter]
    exact ⟨hl, by simp [hsolid]⟩
  obtain ⟨run, hrun, hlrun⟩ := List.mem_flatten.mp hmem
  refine ⟨run, List.mem_filter.mpr ⟨hrun, ?_⟩, hlrun⟩
  simp [List.ne_nil_of_mem hlrun]

/-- A run goes on to the next blank line. -/
theorem runs_takeWhile {run : List (List α)} (hne : run ≠ [])
    (hsolid : ∀ l ∈ run, isBlank l = false) (ys : List (List α)) :
    ∃ later, (∀ r ∈ later, ∀ l ∈ r, l ∈ ys) ∧
      runs (run ++ ys) = (run ++ ys.takeWhile fun l => !isBlank l) :: later := by
  induction ys generalizing run with
  | nil =>
    refine ⟨[], fun _ hr => absurd hr List.not_mem_nil, ?_⟩
    rw [List.takeWhile_nil, List.append_nil, runs_of_solid hne hsolid]
  | cons y ys ih =>
    by_cases hy : isBlank y = true
    · refine ⟨runs ys, fun r hr l hl => List.mem_cons_of_mem _ ((mem_runs hr).2 l hl).1, ?_⟩
      rw [runs_append_cons run hy, runs_of_solid hne hsolid,
        List.takeWhile_cons_of_neg (by simp [hy]), List.append_nil]
      rfl
    · have hne' : run ++ [y] ≠ [] := by simp
      have hsolid' : ∀ l ∈ run ++ [y], isBlank l = false := by
        intro l hl
        rcases List.mem_append.mp hl with hl | hl
        · exact hsolid l hl
        · rw [List.mem_singleton.mp hl]
          exact (Bool.not_eq_true _).mp hy
      obtain ⟨later, hlater, heq⟩ := ih hne' hsolid'
      refine ⟨later, fun r hr l hl => List.mem_cons_of_mem _ (hlater r hr l hl), ?_⟩
      rw [List.takeWhile_cons_of_pos (by simpa using hy)]
      rw [List.append_assoc, List.singleton_append, List.append_assoc, List.singleton_append] at heq
      exact heq

/-- The lines before a run, without their last run. -/
theorem runs_append (xs : List (List α)) : ∃ earlier tail, (∀ run ∈ earlier, ∀ l ∈ run, l ∈ xs) ∧
    tail <:+ xs ∧ (∀ l ∈ tail, isBlank l = false) ∧
    ∀ zs, runs (xs ++ zs) = earlier ++ runs (tail ++ zs) := by
  induction hn : xs.length using Nat.strong_induction_on generalizing xs with
  | _ n ih =>
    rcases solid_or_split xs with hsolid | ⟨run, b, more, rfl, hsolid, hb⟩
    · exact ⟨[], xs, fun _ hrun => absurd hrun List.not_mem_nil, List.suffix_refl xs, hsolid,
        fun _ => rfl⟩
    · have hlt : more.length < n := by
        rw [← hn, List.length_append, List.length_cons]
        omega
      have hmore {l : List α} (hl : l ∈ more) : l ∈ run ++ b :: more :=
        List.mem_append_right _ (List.mem_cons_of_mem _ hl)
      obtain ⟨earlier, tail, hearlier, htail, htailSolid, hruns⟩ := ih more.length hlt more rfl
      refine ⟨runs run ++ earlier, tail, fun r hr l hl => ?_,
        htail.trans ((List.suffix_cons b more).trans (List.suffix_append _ _)), htailSolid,
        fun zs => ?_⟩
      · rcases List.mem_append.mp hr with hr | hr
        · exact List.mem_append_left _ ((mem_runs hr).2 l hl).1
        · exact hmore (hearlier r hr l hl)
      · rw [List.append_assoc, List.cons_append, runs_append_cons run hb, hruns zs,
          List.append_assoc]

/-- Lines that are not blank are in one run. -/
theorem runs_around (xs : List (List α)) {block : List (List α)} (hne : block ≠ [])
    (hsolid : ∀ l ∈ block, isBlank l = false) (ys : List (List α)) :
    ∃ earlier tail later, (∀ run ∈ earlier, ∀ l ∈ run, l ∈ xs) ∧ tail <:+ xs ∧
      (∀ run ∈ later, ∀ l ∈ run, l ∈ ys) ∧ runs (xs ++ block ++ ys) =
        earlier ++ (tail ++ block ++ ys.takeWhile fun l => !isBlank l) :: later := by
  obtain ⟨earlier, tail, hearlier, htail, htailSolid, hruns⟩ := runs_append xs
  have hsolid' : ∀ l ∈ tail ++ block, isBlank l = false := by
    intro l hl
    rcases List.mem_append.mp hl with hl | hl
    · exact htailSolid l hl
    · exact hsolid l hl
  have hne' : tail ++ block ≠ [] := by simp [hne]
  obtain ⟨later, hlater, heq⟩ := runs_takeWhile hne' hsolid' ys
  refine ⟨earlier, tail, later, hearlier, htail, hlater, ?_⟩
  rw [List.append_assoc, hruns, ← List.append_assoc, heq]

/-- The first run starts with the first line that is not blank. -/
theorem runs_head (xs : List (List α)) {line : List α} (hsolid : isBlank line = false)
    (ys : List (List α)) : ∃ run later, runs (xs ++ line :: ys) = run :: later ∧
      ∃ l ∈ run, l ∈ xs ∨ l = line := by
  induction xs with
  | nil =>
    obtain ⟨later, -, heq⟩ := runs_takeWhile (List.cons_ne_nil line [])
      (fun l hl => by rwa [List.mem_singleton.mp hl]) ys
    exact ⟨_, later, heq, line, List.mem_append_left _ List.mem_cons_self, .inr rfl⟩
  | cons x xs ih =>
    by_cases hx : isBlank x = true
    · obtain ⟨run, later, heq, l, hl, hmem⟩ := ih
      refine ⟨run, later, ?_, l, hl, hmem.imp_left (List.mem_cons_of_mem _)⟩
      have hdrop := runs_append_cons [] hx (xs ++ line :: ys)
      rw [List.nil_append, runs_nil, List.nil_append] at hdrop
      rw [List.cons_append, hdrop, heq]
    · obtain ⟨later, -, heq⟩ := runs_takeWhile (List.cons_ne_nil x [])
        (fun l hl => by rw [List.mem_singleton.mp hl]; exact (Bool.not_eq_true _).mp hx)
        (xs ++ line :: ys)
      exact ⟨_, later, heq, x, List.mem_append_left _ List.mem_cons_self,
        .inl List.mem_cons_self⟩

end WebSpider.Text
