import WebSpider.Json.Lexical
import WebSpider.Text.Trim

/-!
# Files of JSON lines

Objects are written one on a line, and a writer that dies may leave any beginning of what
it meant to write. The file is `Intact` when what it holds is whole objects, of which the
last may lack the end of its line: then it reads back as these objects
(`readLines_of_intact`). It is `Ruined` when a line of it was cut off within an object or
goes on after one: then no reader gets anything from it, and what is appended later does
not mend it (`Ruined.append`). A file that is appended to is always one or the other, by
the place of the cut (`intact_cut`, `ruined_cut`) and by the line it began on
(`ruined_unended`).
-/

namespace WebSpider.Json.Lines

open Text Lexical

variable {F : Type} [FloatText F]

/-! ## Reading -/

/-- The text that is read for a file opened in text mode. -/
def universal : Str → Str
  | [] => []
  | 13 :: 10 :: s => 10 :: universal s
  | 13 :: s => 10 :: universal s
  | c :: s => c :: universal s

/-- The lines of a file, each with its end. -/
def fileLines : Str → List Str
  | [] => []
  | c :: s =>
    if c = 10 then [10] :: fileLines s
    else
      match fileLines s with
      | [] => [[c]]
      | line :: lines => (c :: line) :: lines

/-- `[json.loads(line) for line in f if line.strip()]` -/
def readLines (limit : Nat) (text : Str) : Except LoadsError (List (Value F)) :=
  ((fileLines (universal text)).filter fun line => decide (strip line ≠ [])).mapM (loads limit)

/-- The objects, each on a line of its own. -/
def writeLines (rs : List (List (Str × Value F))) : Str :=
  rs.flatMap fun r => dumps (.obj r) ++ [10]

/-! ## Lines of a file -/

/-- The text has no end of a line. -/
def Bare (s : Str) : Prop := ∀ c ∈ s, c ≠ 10 ∧ c ≠ 13

/-- Lines with their ends, and what stands after the last end. -/
def sheet (lines : List Str) (tail : Str) : Str := lines.flatMap (· ++ [10]) ++ tail

theorem bare_nil : Bare [] := fun _ h => nomatch h

theorem universal_append {s : Str} (h : Bare s) (t : Str) :
    universal (s ++ t) = s ++ universal t := by
  induction s with
  | nil => rfl
  | cons c s ih =>
    have hc := (h c List.mem_cons_self).2
    rw [List.cons_append, universal.eq_4 _ _ (by rintro _ rfl; exact fun _ => hc rfl) hc,
      ih fun c' hc' => h c' (List.mem_cons_of_mem _ hc')]
    rfl

theorem fileLines_append {s : Str} (h : Bare s) (t : Str) :
    fileLines (s ++ 10 :: t) = (s ++ [10]) :: fileLines t := by
  induction s with
  | nil => rfl
  | cons c s ih =>
    rw [List.cons_append, fileLines, if_neg (h c List.mem_cons_self).1,
      ih fun c' hc' => h c' (List.mem_cons_of_mem _ hc')]
    rfl

theorem fileLines_bare {s : Str} (h : Bare s) (hne : s ≠ []) : fileLines s = [s] := by
  induction s with
  | nil => exact (hne rfl).elim
  | cons c s ih =>
    rw [fileLines, if_neg (h c List.mem_cons_self).1]
    cases s with
    | nil => rfl
    | cons c' s =>
      rw [ih (fun c'' hc'' => h c'' (List.mem_cons_of_mem _ hc'')) (List.cons_ne_nil _ _)]

theorem fileLines_sheet {lines : List Str} {tail : Str} (hlines : ∀ line ∈ lines, Bare line)
    (htail : Bare tail) :
    fileLines (universal (sheet lines tail)) =
      lines.map (· ++ [10]) ++ if tail = [] then [] else [tail] := by
  induction lines with
  | nil =>
    have h := universal_append htail []
    rw [List.append_nil] at h
    change fileLines (universal tail) = _
    rw [h, universal, List.append_nil]
    split
    · rename_i hnil
      rw [hnil]
      rfl
    · rename_i hne
      exact fileLines_bare htail hne
  | cons line lines ih =>
    have hline := hlines line List.mem_cons_self
    have hsheet : sheet (line :: lines) tail = line ++ 10 :: sheet lines tail := by
      simp [sheet]
    have huniversal : universal (10 :: sheet lines tail) = 10 :: universal (sheet lines tail) := rfl
    rw [hsheet, universal_append hline, huniversal, fileLines_append hline,
      ih fun line' hline' => hlines line' (List.mem_cons_of_mem _ hline')]
    rfl

/-- A line that starts with a brace is not blank. -/
theorem strip_brace (s : Str) : strip (123 :: s) ≠ [] := by
  intro h
  obtain ⟨lead, trail, hsplit, hlead, htrail⟩ := exists_trimBy isSpace (123 :: s)
  rw [show trimBy isSpace (123 :: s) = [] from h, List.append_nil] at hsplit
  have hall : AllOf isSpace (123 :: s) := by
    rw [hsplit]
    intro c hc
    rcases List.mem_append.mp hc with hc | hc
    · exact hlead c hc
    · exact htrail c hc
  exact absurd (hall 123 List.mem_cons_self) (by decide)

/-! ## The characters of a line -/

/-- No control characters. -/
def Printed (s : Str) : Prop := ∀ c ∈ s, 32 ≤ c

theorem Printed.append {s t : Str} (hs : Printed s) (ht : Printed t) : Printed (s ++ t) := by
  intro c hc
  rcases List.mem_append.mp hc with hc | hc
  · exact hs c hc
  · exact ht c hc

theorem Printed.cons {c : Nat} {s : Str} (hc : 32 ≤ c) (hs : Printed s) : Printed (c :: s) := by
  intro c' hc'
  rcases List.mem_cons.mp hc' with rfl | hc'
  · exact hc
  · exact hs c' hc'

theorem printed_nil : Printed [] := fun _ h => nomatch h

theorem hexLower_ge (n : Nat) : 32 ≤ hexLower n := by
  unfold hexLower
  split <;> omega

theorem printed_escapeChar (c : Nat) : Printed (escapeChar c) := by
  have htwo : ∀ c', 32 ≤ c' → Printed [92, c'] :=
    fun c' hc' => Printed.cons (by decide) (Printed.cons hc' printed_nil)
  unfold escapeChar
  repeat' split
  all_goals first | exact htwo _ (by decide) | skip
  · apply Printed.cons (by decide)
    apply Printed.cons (by decide)
    apply Printed.cons (by decide)
    apply Printed.cons (by decide)
    exact Printed.cons (hexLower_ge _) (Printed.cons (hexLower_ge _) printed_nil)
  · exact Printed.cons (by omega) printed_nil

theorem printed_dumpStr (s : Str) : Printed (dumpStr s) := by
  apply Printed.cons (by decide)
  refine Printed.append (fun c hc => ?_) (Printed.cons (by decide) printed_nil)
  obtain ⟨c', -, hc'⟩ := List.mem_flatMap.mp hc
  exact printed_escapeChar c' c hc'

theorem printed_numeral {c : Nat} (h : numeral c = true) : 32 ≤ c := by
  unfold numeral at h
  rcases Bool.or_eq_true_iff.mp h with hd | hc
  · have hrange : 48 ≤ c ∧ c ≤ 57 := by simpa [isDigit] using hd
    omega
  · have hall : ∀ c ∈ lit "+-.Ee", 32 ≤ c := by decide
    exact hall c (List.contains_iff_mem.mp hc)

theorem printed_number {s sg i fe : Str} (h : scanNumber s = some (sg, i, fe, [])) :
    Printed s := by
  obtain ⟨w, hw, hnumeral⟩ := spans_scanNumber h
  rw [List.append_nil] at hw
  rw [hw]
  exact fun c hc => printed_numeral (hnumeral c hc)

theorem printed_float (x : F) : Printed (FloatText.text x) := by
  have hnames : ∀ c ∈ nanText ++ infText ++ negInfText, 32 ≤ c := by decide
  rcases FloatText.text_isFloat x with ht | ht | ht | ⟨sg, i, fe, hs, -⟩
  · rw [ht]
    exact fun c hc => hnames c (List.mem_append_left _ (List.mem_append_left _ hc))
  · rw [ht]
    exact fun c hc => hnames c (List.mem_append_left _ (List.mem_append_right _ hc))
  · rw [ht]
    exact fun c hc => hnames c (List.mem_append_right _ hc)
  · exact printed_number hs

mutual

theorem printed_dumps : (v : Value F) → Printed (dumps v)
  | .null => show ∀ c ∈ lit "null", 32 ≤ c by decide
  | .bool true => show ∀ c ∈ lit "true", 32 ≤ c by decide
  | .bool false => show ∀ c ∈ lit "false", 32 ≤ c by decide
  | .int n => by
    have h := scanNumber_dumpInt n stops_nil
    rw [List.append_nil] at h
    exact printed_number h
  | .float x => printed_float x
  | .str s => printed_dumpStr s
  | .arr xs =>
    Printed.cons (by decide) ((printed_dumpElems xs).append (Printed.cons (by decide) printed_nil))
  | .obj kvs =>
    Printed.cons (by decide) ((printed_dumpFields kvs).append (Printed.cons (by decide) printed_nil))

theorem printed_dumpElems : (xs : List (Value F)) → Printed (dumpElems xs)
  | [] => printed_nil
  | [x] => printed_dumps x
  | x :: y :: ys => (printed_dumps x).append
    (Printed.cons (by decide) (Printed.cons (by decide) (printed_dumpElems (y :: ys))))

theorem printed_dumpFields : (kvs : List (Str × Value F)) → Printed (dumpFields kvs)
  | [] => printed_nil
  | [(k, v)] => (printed_dumpStr k).append
    (Printed.cons (by decide) (Printed.cons (by decide) (printed_dumps v)))
  | (k, v) :: kw :: kvs => (printed_dumpStr k).append
    (Printed.cons (by decide) (Printed.cons (by decide) ((printed_dumps v).append
      (Printed.cons (by decide) (Printed.cons (by decide) (printed_dumpFields (kw :: kvs)))))))

end

theorem bare_dumps (v : Value F) : Bare (dumps v) := by
  intro c hc
  have := printed_dumps v c hc
  omega

theorem Bare.ofPrefix {s p : Str} (h : Bare s) (hp : p <+: s) : Bare p :=
  fun c hc => h c (hp.subset hc)

theorem Bare.append {s t : Str} (hs : Bare s) (ht : Bare t) : Bare (s ++ t) := by
  intro c hc
  rcases List.mem_append.mp hc with hc | hc
  · exact hs c hc
  · exact ht c hc

/-! ## What a file is left with -/

/-- The object can be read back, and its first key begins with a character that JSON has
only in strings. -/
def Writable (limit : Nat) (r : List (Str × Value F)) : Prop :=
  Fits limit (.obj r) ∧ ∃ c k v r', r = (c :: k, v) :: r' ∧ Foreign c

/-- The file holds whole objects, the last one perhaps without the end of its line. -/
def Intact (rs : List (List (Str × Value F))) (text : Str) : Prop :=
  text = writeLines rs ∨ text ++ [10] = writeLines rs

/-- A line that was cut off within an object, or goes on after one. -/
def Spoilt (F : Type) [FloatText F] (limit : Nat) (line : Str) : Prop :=
  (∃ t, line = 123 :: t) ∧ (Within line ∨
    ∃ (r : List (Str × Value F)) (c : Nat) (t : Str), Fits limit (.obj r) ∧ isWs c = false ∧
      line = dumps (.obj r) ++ c :: t)

/-- A line of the file is spoilt. -/
def Ruined (F : Type) [FloatText F] (limit : Nat) (text : Str) : Prop :=
  ∃ lines tail, text = sheet lines tail ∧ (∀ line ∈ lines, Bare line) ∧ Bare tail ∧
    ∃ line ∈ lines ++ [tail], Spoilt F limit line

variable {limit : Nat}

/-- An object is read with or without the end of its line. -/
theorem loads_object {r : List (Str × Value F)} (hr : Fits limit (.obj r)) :
    loads limit (dumps (.obj r)) = .ok (.obj r) ∧
      loads limit (dumps (.obj r) ++ [10]) = .ok (.obj r) := by
  refine ⟨loads_dumps hr, ?_⟩
  have hval : value (2 * (dumps (Value.obj r) ++ [10]).length + 2) limit
      (dumps (Value.obj r) ++ [10]) = .ok (.obj r, [10]) :=
    value_dumps hr (by rw [List.length_append]; omega) (fun hnum => nomatch hnum)
  have hhead : (dumps (Value.obj r) ++ [10]).head? ≠ some 0xFEFF := by
    intro h
    cases h
  rw [loads, if_neg hhead, skipWs_dumps, hval]
  rfl

theorem loads_spoilt {line : Str} (h : Spoilt F limit line) (v : Value F) :
    loads limit line ≠ .ok v ∧ loads limit (line ++ [10]) ≠ .ok v := by
  obtain ⟨-, hwithin | ⟨r, c, t, hr, hc, rfl⟩⟩ := h
  · exact ⟨fun hv => hwithin.not_closed (loads_closed hv),
      fun hv => hwithin.newline.not_closed (loads_closed hv)⟩
  · refine ⟨loads_doubled hr hc t v, ?_⟩
    rw [List.append_assoc]
    exact loads_doubled hr hc (t ++ [10]) v

/-! ### Reading it -/

theorem mapM_ok {α β ε : Type} {f : α → Except ε β} {xs : List α} {ys : List β}
    (h : List.Forall₂ (fun x y => f x = .ok y) xs ys) : xs.mapM f = .ok ys := by
  induction h with
  | nil => rfl
  | cons hxy _ ih => rw [List.mapM_cons, hxy, ih]; rfl

theorem mem_of_mapM_ok {α β ε : Type} {f : α → Except ε β} {xs : List α} {ys : List β}
    (h : xs.mapM f = .ok ys) {x : α} (hx : x ∈ xs) : ∃ y, f x = .ok y := by
  induction xs generalizing ys with
  | nil => cases hx
  | cons x' xs ih =>
    rw [List.mapM_cons] at h
    cases hx' : f x' with
    | error e =>
      rw [hx'] at h
      cases h
    | ok y =>
      rw [hx'] at h
      cases hxs : xs.mapM f with
      | error e =>
        rw [hxs] at h
        cases h
      | ok ys' =>
        rcases List.mem_cons.mp hx with rfl | hx
        · exact ⟨y, hx'⟩
        · exact ih hxs hx

theorem writeLines_cons (r : List (Str × Value F)) (rs : List (List (Str × Value F))) :
    writeLines (r :: rs) = dumps (.obj r) ++ 10 :: writeLines rs := by
  simp [writeLines]

theorem writeLines_append (rs rs' : List (List (Str × Value F))) :
    writeLines (rs ++ rs') = writeLines rs ++ writeLines rs' := List.flatMap_append

theorem ne_of_writeLines_nil {text : Str} : text ++ [10] ≠ writeLines (F := F) [] :=
  List.append_ne_nil_of_right_ne_nil _ (List.cons_ne_nil _ _)

/-- A text that lacks the end of its last line has a last line. -/
theorem exists_of_unended {rs : List (List (Str × Value F))} {text : Str}
    (h : text ++ [10] = writeLines rs) :
    ∃ init r, rs = init ++ [r] ∧ text = writeLines init ++ dumps (.obj r) := by
  cases rs using List.reverseRecOn with
  | nil => exact (ne_of_writeLines_nil h).elim
  | append_singleton init r =>
    refine ⟨init, r, rfl, ?_⟩
    have hconcat : writeLines (init ++ [r]) = (writeLines init ++ dumps (.obj r)) ++ [10] := by
      rw [writeLines_append, writeLines_cons, List.append_assoc]
      rfl
    rw [hconcat] at h
    exact List.append_cancel_right h

theorem writeLines_eq_sheet (rs : List (List (Str × Value F))) :
    writeLines rs = sheet (rs.map fun r => dumps (.obj r)) [] := by
  simp [writeLines, sheet, List.flatMap_map]

theorem unended_eq_sheet (rs : List (List (Str × Value F))) (tail : Str) :
    writeLines rs ++ tail = sheet (rs.map fun r => dumps (.obj r)) tail := by
  rw [writeLines_eq_sheet]
  simp [sheet]

theorem bare_objects (rs : List (List (Str × Value F))) :
    ∀ line ∈ rs.map fun r => dumps (.obj r), Bare line := by
  intro line hline
  obtain ⟨r, -, rfl⟩ := List.mem_map.mp hline
  exact bare_dumps _

theorem readLines_writeLines {rs : List (List (Str × Value F))} (hrs : ∀ r ∈ rs, Fits limit (.obj r)) :
    readLines limit (writeLines rs) = .ok (rs.map .obj) := by
  have hlines : fileLines (universal (writeLines rs)) =
      rs.map fun r => dumps (Value.obj r) ++ [10] := by
    rw [writeLines_eq_sheet, fileLines_sheet (bare_objects rs) bare_nil]
    simp
  have hfilter : (rs.map fun r => dumps (Value.obj r) ++ [10]).filter
      (fun line => decide (strip line ≠ [])) = rs.map fun r => dumps (Value.obj r) ++ [10] := by
    apply List.filter_eq_self.mpr
    intro line hline
    obtain ⟨r, -, rfl⟩ := List.mem_map.mp hline
    exact decide_eq_true (strip_brace _)
  rw [readLines, hlines, hfilter]
  apply mapM_ok
  rw [List.forall₂_map_left_iff, List.forall₂_map_right_iff, List.forall₂_same]
  exact fun r hr => (loads_object (hrs r hr)).2

/-- The end of the last line makes no difference. -/
theorem readLines_of_intact {rs : List (List (Str × Value F))} {text : Str} (h : Intact rs text)
    (hrs : ∀ r ∈ rs, Fits limit (.obj r)) : readLines limit text = .ok (rs.map .obj) := by
  rcases h with rfl | h
  · exact readLines_writeLines hrs
  · obtain ⟨init, r, rfl, rfl⟩ := exists_of_unended h
    have hne : dumps (Value.obj r) ≠ [] := List.cons_ne_nil _ _
    have hlines : fileLines (universal (writeLines init ++ dumps (Value.obj r))) =
        (init.map fun r => dumps (Value.obj r) ++ [10]) ++ [dumps (Value.obj r)] := by
      rw [unended_eq_sheet, fileLines_sheet (bare_objects init) (bare_dumps _), if_neg hne]
      simp
    have hfilter : ((init.map fun r => dumps (Value.obj r) ++ [10]) ++ [dumps (Value.obj r)]).filter
        (fun line => decide (strip line ≠ [])) =
          (init.map fun r => dumps (Value.obj r) ++ [10]) ++ [dumps (Value.obj r)] := by
      apply List.filter_eq_self.mpr
      intro line hline
      rcases List.mem_append.mp hline with hline | hline
      · obtain ⟨r, -, rfl⟩ := List.mem_map.mp hline
        exact decide_eq_true (strip_brace _)
      · obtain rfl := List.mem_singleton.mp hline
        exact decide_eq_true (strip_brace _)
    rw [readLines, hlines, hfilter]
    apply mapM_ok
    rw [List.map_append]
    apply List.rel_append
    · rw [List.forall₂_map_left_iff, List.forall₂_map_right_iff, List.forall₂_same]
      exact fun r hr => (loads_object (hrs r (List.mem_append_left _ hr))).2
    · have hr := hrs r (List.mem_append_right _ (List.mem_singleton.mpr rfl))
      exact List.Forall₂.cons (loads_object hr).1 List.Forall₂.nil

/-- Nobody reads a file with a spoilt line. -/
theorem readLines_of_ruined {text : Str} (h : Ruined F limit text) (vs : List (Value F)) :
    readLines limit text ≠ .ok vs := by
  obtain ⟨lines, tail, rfl, hlines, htail, line, hline, hspoilt⟩ := h
  intro hread
  rw [readLines, fileLines_sheet hlines htail] at hread
  obtain ⟨t, rfl⟩ := hspoilt.1
  rcases List.mem_append.mp hline with hline | hline
  · obtain ⟨v, hv⟩ := mem_of_mapM_ok hread (x := 123 :: t ++ [10]) <| by
      apply List.mem_filter.mpr
      refine ⟨List.mem_append_left _ (List.mem_map.mpr ⟨_, hline, rfl⟩), ?_⟩
      exact decide_eq_true (strip_brace _)
    exact (loads_spoilt hspoilt v).2 hv
  · obtain rfl := List.mem_singleton.mp hline
    obtain ⟨v, hv⟩ := mem_of_mapM_ok hread (x := 123 :: t) <| by
      apply List.mem_filter.mpr
      refine ⟨List.mem_append_right _ ?_, decide_eq_true (strip_brace _)⟩
      rw [if_neg (List.cons_ne_nil _ _)]
      exact List.mem_singleton.mpr rfl
    exact (loads_spoilt hspoilt v).1 hv

/-! ## Writing -/

/-- The cut after `n` characters is within an object. -/
def inside : Nat → List (List (Str × Value F)) → Bool
  | _, [] => false
  | n, r :: rs =>
    let length := (dumps (.obj r)).length
    if n = 0 then false else if n < length then true else inside (n - (length + 1)) rs

/-- The objects that are whole in the first `n` characters. -/
def complete : Nat → List (List (Str × Value F)) → List (List (Str × Value F))
  | _, [] => []
  | n, r :: rs =>
    let length := (dumps (.obj r)).length
    if n < length then [] else r :: complete (n - (length + 1)) rs

/-- What a writer has written: whole lines and the beginning of one. -/
def Cut (limit : Nat) (w : Str) : Prop :=
  ∃ (pre : List (List (Str × Value F))) (p : Str), w = writeLines pre ++ p ∧
    (∀ r ∈ pre, Writable limit r) ∧ (p = [] ∨ ∃ r : List (Str × Value F), Writable limit r ∧ Begins p r)

section Cuts

variable {rs new : List (List (Str × Value F))}

theorem length_object_pos (r : List (Str × Value F)) : 0 < (dumps (.obj r)).length :=
  Nat.succ_pos _

/-- The first characters of some lines: a part of the first object, or its line and the
first characters of the rest. -/
theorem take_writeLines (n : Nat) (r : List (Str × Value F)) (rs : List (List (Str × Value F))) :
    (writeLines (r :: rs)).take n =
      if n ≤ (dumps (.obj r)).length then (dumps (.obj r)).take n
      else dumps (.obj r) ++ 10 :: (writeLines rs).take (n - ((dumps (.obj r)).length + 1)) := by
  rw [writeLines_cons]
  split
  · rename_i hn
    exact List.take_append_of_le_length hn
  · rename_i hn
    obtain ⟨k, rfl⟩ : ∃ k, n = (dumps (Value.obj r)).length + (k + 1) :=
      ⟨n - ((dumps (Value.obj r)).length + 1), by omega⟩
    rw [List.take_length_add_append, List.take_succ_cons]
    congr 3
    omega

theorem begins_take {n : Nat} (hn : n ≠ 0) (r : List (Str × Value F)) :
    Begins ((dumps (.obj r)).take n) r := by
  refine ⟨fun h => ?_, List.take_prefix _ _⟩
  rcases List.take_eq_nil_iff.mp h with h | h
  · exact hn h
  · exact List.cons_ne_nil _ _ h

theorem cut_take (hnew : ∀ r ∈ new, Writable limit r) (n : Nat) :
    Cut (F := F) limit ((writeLines new).take n) := by
  induction new generalizing n with
  | nil => exact ⟨[], [], by simp [writeLines], (fun _ h => nomatch h), Or.inl rfl⟩
  | cons r new ih =>
    have hr := hnew r List.mem_cons_self
    rw [take_writeLines]
    split
    · refine ⟨[], (dumps (.obj r)).take n, rfl, (fun _ h => nomatch h), ?_⟩
      by_cases hn : n = 0
      · left
        rw [hn]
        rfl
      · exact Or.inr ⟨r, hr, begins_take hn r⟩
    · obtain ⟨pre, p, hw, hpre, hp⟩ := ih (fun r' hr' => hnew r' (List.mem_cons_of_mem _ hr'))
        (n - ((dumps (Value.obj r)).length + 1))
      refine ⟨r :: pre, p, ?_, fun r' hr' => ?_, hp⟩
      · rw [hw, writeLines_cons]
        simp
      · rcases List.mem_cons.mp hr' with rfl | hr'
        · exact hr
        · exact hpre r' hr'

theorem inside_zero (rs : List (List (Str × Value F))) : inside 0 rs = false := by
  cases rs with
  | nil => rfl
  | cons r rs => rfl

theorem complete_zero (rs : List (List (Str × Value F))) : complete 0 rs = [] := by
  cases rs with
  | nil => rfl
  | cons r rs =>
    rw [complete]
    exact if_pos (length_object_pos r)

/-- Where nothing is written no object is whole. -/
theorem complete_nothing {n : Nat} (h : (writeLines rs).take n = []) : complete n rs = [] := by
  cases rs with
  | nil => rfl
  | cons r rs =>
    rcases List.take_eq_nil_iff.mp h with rfl | hnil
    · exact complete_zero _
    · rw [writeLines_cons] at hnil
      exact absurd hnil (List.append_ne_nil_of_right_ne_nil _ (List.cons_ne_nil _ _))

theorem ne_nil_of_inside {n : Nat} (h : inside n rs = true) : (writeLines rs).take n ≠ [] := by
  intro hnil
  rcases List.take_eq_nil_iff.mp hnil with rfl | hnil
  · rw [inside_zero] at h
    cases h
  · cases rs with
    | nil => cases h
    | cons r rs =>
      rw [writeLines_cons] at hnil
      exact absurd hnil (List.append_ne_nil_of_right_ne_nil _ (List.cons_ne_nil _ _))

/-- The whole objects are the first ones. -/
theorem complete_eq_take (n : Nat) (rs : List (List (Str × Value F))) :
    complete n rs = rs.take (complete n rs).length := by
  induction rs generalizing n with
  | nil => rfl
  | cons r rs ih =>
    rw [complete]
    split
    · rfl
    · rw [List.length_cons, List.take_succ_cons, ← ih]

theorem complete_all (rs : List (List (Str × Value F))) :
    inside (writeLines rs).length rs = false ∧ complete (writeLines rs).length rs = rs := by
  induction rs with
  | nil => exact ⟨rfl, rfl⟩
  | cons r rs ih =>
    have hlength : (writeLines (r :: rs)).length =
        (dumps (.obj r)).length + ((writeLines rs).length + 1) := by
      rw [writeLines_cons, List.length_append, List.length_cons]
    have hrest : (writeLines (r :: rs)).length - ((dumps (.obj r)).length + 1) =
        (writeLines rs).length := by omega
    constructor
    · rw [inside, if_neg (by omega), if_neg (by omega), hrest]
      exact ih.1
    · rw [complete, if_neg (by omega), hrest, ih.2]

/-- A writer that began on a line of its own and was not cut off within an object. -/
theorem intact_cut {n : Nat} (h : inside n new = false) :
    Intact (rs ++ complete n new) (writeLines rs ++ (writeLines new).take n) := by
  induction new generalizing rs n with
  | nil =>
    left
    simp [complete, writeLines]
  | cons r new ih =>
    have hpos := length_object_pos r
    rw [inside] at h
    rw [take_writeLines, complete]
    split at h
    · rename_i hn
      rw [hn, if_pos (Nat.zero_le _), if_pos hpos]
      left
      simp
    · split at h
      · cases h
      · rename_i hlt
        rw [if_neg hlt]
        split
        · rename_i hle
          right
          have heq : n = (dumps (Value.obj r)).length := by omega
          rw [heq, List.take_length, Nat.sub_eq_zero_of_le (Nat.le_succ _), complete_zero]
          simp [writeLines]
        · have hrest : Intact ((rs ++ [r]) ++ complete (n - ((dumps (.obj r)).length + 1)) new)
              (writeLines (rs ++ [r]) ++
                (writeLines new).take (n - ((dumps (.obj r)).length + 1))) := ih h
          rw [List.append_assoc, writeLines_append, List.append_assoc, writeLines_cons,
            List.append_assoc] at hrest
          exact hrest

/-- A writer that began on a line of its own and was cut off within an object. -/
theorem ruined_cut (hrs : ∀ r ∈ rs, Writable limit r) (hnew : ∀ r ∈ new, Writable limit r) {n : Nat}
    (h : inside n new = true) : Ruined F limit (writeLines rs ++ (writeLines new).take n) := by
  induction new generalizing rs n with
  | nil => cases h
  | cons r new ih =>
    have hr := hnew r List.mem_cons_self
    rw [inside] at h
    rw [take_writeLines]
    split at h
    · cases h
    · rename_i hn
      split at h
      · rename_i hlt
        rw [if_pos (Nat.le_of_lt hlt)]
        refine ⟨_, _, unended_eq_sheet rs _, bare_objects rs, ?_, ?_⟩
        · exact (bare_dumps _).ofPrefix (List.take_prefix _ _)
        · refine ⟨_, List.mem_append_right _ (List.mem_singleton.mpr rfl), ?_, Or.inl ?_⟩
          · cases n with
            | zero => exact (hn rfl).elim
            | succ n => exact ⟨_, rfl⟩
          · apply within_of_begins hr.1 (begins_take hn r)
            intro heq
            have := congrArg List.length heq
            rw [List.length_take] at this
            omega
      · rename_i hlt
        have hrs' : ∀ r' ∈ rs ++ [r], Writable limit r' := by
          intro r' hr'
          rcases List.mem_append.mp hr' with hr' | hr'
          · exact hrs r' hr'
          · obtain rfl := List.mem_singleton.mp hr'
            exact hr
        have hrest := ih hrs' (fun r' hr' => hnew r' (List.mem_cons_of_mem _ hr')) h
        have hne : ¬ n ≤ (dumps (Value.obj r)).length := by
          intro hle
          rw [Nat.sub_eq_zero_of_le (by omega), inside_zero] at h
          cases h
        rw [writeLines_append, List.append_assoc, writeLines_cons, List.append_assoc] at hrest
        rw [if_neg hne]
        exact hrest

/-- A writer that began with an empty file. -/
theorem intact_new {n : Nat} (h : inside n new = false) :
    Intact (complete n new) ((writeLines new).take n) := by
  have hcut : Intact ([] ++ complete n new) (writeLines [] ++ (writeLines new).take n) :=
    intact_cut h
  exact hcut

theorem ruined_new (hnew : ∀ r ∈ new, Writable limit r) {n : Nat} (h : inside n new = true) :
    Ruined F limit ((writeLines new).take n) := by
  have hnone : ∀ r ∈ ([] : List (List (Str × Value F))), Writable limit r := fun _ hr => nomatch hr
  exact ruined_cut hnone hnew h

/-! ## Appending -/

/-- A spoilt line stays spoilt when the beginning of an object is written behind it. -/
theorem Spoilt.append {line p : Str} {r : List (Str × Value F)} (h : Spoilt F limit line)
    (hr : Writable limit r) (hp : Begins p r) : Spoilt F limit (line ++ p) := by
  obtain ⟨⟨t, rfl⟩, hwithin | ⟨r', c, t', hr', hc, hline⟩⟩ := h
  · obtain ⟨hfits, c, k, v, r', rfl, hc⟩ := hr
    exact ⟨⟨t ++ p, rfl⟩, Or.inl (hwithin.append hc hfits hp)⟩
  · refine ⟨⟨t ++ p, rfl⟩, Or.inr ⟨r', c, t' ++ p, hr', hc, ?_⟩⟩
    rw [hline, List.append_assoc]
    rfl

/-- The beginning of an object behind a whole one. -/
theorem spoilt_doubled {p : Str} {r r' : List (Str × Value F)} (hr : Writable limit r)
    (hp : Begins p r') : Spoilt F limit (dumps (.obj r) ++ p) := by
  obtain ⟨hne, u, hu⟩ := hp
  cases p with
  | nil => exact (hne rfl).elim
  | cons c p =>
    obtain ⟨rfl, -⟩ : c = 123 ∧ _ := List.cons.inj hu
    exact ⟨⟨_, rfl⟩, Or.inr ⟨r, 123, p, hr.1, by decide, rfl⟩⟩

theorem bare_of_begins {p : Str} {r : List (Str × Value F)} (h : Begins p r) : Bare p :=
  (bare_dumps _).ofPrefix h.2

/-- What is written behind the last line, if anything, begins with the beginning of an
object, and makes one line with the rest of that line. -/
theorem sheet_append_cut {w : Str} (hw : Cut (F := F) limit w) (hne : w ≠ []) {lines : List Str}
    {tail : Str} (hlines : ∀ line ∈ lines, Bare line) (htail : Bare tail) :
    ∃ (r : List (Str × Value F)) (p : Str) (lines' : List Str) (tail' : Str),
      Writable limit r ∧ Begins p r ∧ sheet lines tail ++ w = sheet lines' tail' ∧
      (∀ line ∈ lines', Bare line) ∧ Bare tail' ∧ (∀ line ∈ lines, line ∈ lines' ++ [tail']) ∧
      tail ++ p ∈ lines' ++ [tail'] := by
  obtain ⟨pre, p, rfl, hpre, hp⟩ := hw
  cases pre with
  | nil =>
    rcases hp with rfl | ⟨r, hr, hp⟩
    · exact (hne rfl).elim
    · refine ⟨r, p, lines, tail ++ p, hr, hp, ?_, hlines, htail.append (bare_of_begins hp), ?_, ?_⟩
      · simp [sheet, writeLines]
      · exact fun line hline => List.mem_append_left _ hline
      · exact List.mem_append_right _ (List.mem_singleton.mpr rfl)
  | cons r pre =>
    have hr := hpre r List.mem_cons_self
    have hbegins : Begins (dumps (.obj r)) r := ⟨List.cons_ne_nil _ _, List.prefix_refl _⟩
    have hbare : Bare p := by
      rcases hp with rfl | ⟨r', -, hp⟩
      · exact bare_nil
      · exact bare_of_begins hp
    refine ⟨r, dumps (.obj r), lines ++ (tail ++ dumps (.obj r)) :: pre.map fun r => dumps (.obj r),
      p, hr, hbegins, ?_, ?_, hbare, ?_, ?_⟩
    · rw [writeLines_cons, writeLines_eq_sheet]
      simp [sheet]
    · intro line hline
      rcases List.mem_append.mp hline with hline | hline
      · exact hlines line hline
      · rcases List.mem_cons.mp hline with rfl | hline
        · exact htail.append (bare_dumps _)
        · exact bare_objects pre line hline
    · exact fun line hline => List.mem_append_left _ (List.mem_append_left _ hline)
    · exact List.mem_append_left _ (List.mem_append_right _ List.mem_cons_self)

/-- Nothing that is appended mends a ruined file. -/
theorem Ruined.append {text w : Str} (h : Ruined F limit text) (hw : Cut (F := F) limit w) :
    Ruined F limit (text ++ w) := by
  by_cases hne : w = []
  · rwa [hne, List.append_nil]
  · obtain ⟨lines, tail, rfl, hlines, htail, line, hline, hspoilt⟩ := h
    obtain ⟨r, p, lines', tail', hr, hp, heq, hlines', htail', hkept, hjoined⟩ :=
      sheet_append_cut hw hne hlines htail
    refine ⟨lines', tail', heq, hlines', htail', ?_⟩
    rcases List.mem_append.mp hline with hline | hline
    · exact ⟨line, hkept line hline, hspoilt⟩
    · obtain rfl := List.mem_singleton.mp hline
      exact ⟨_, hjoined, hspoilt.append hr hp⟩

/-- What is appended to a file whose last line has no end ruins it. -/
theorem ruined_unended {text w : Str} (hrs : ∀ r ∈ rs, Writable limit r)
    (htext : text ++ [10] = writeLines rs) (hw : Cut (F := F) limit w) (hne : w ≠ []) :
    Ruined F limit (text ++ w) := by
  obtain ⟨init, r, rfl, rfl⟩ := exists_of_unended htext
  obtain ⟨r', p, lines', tail', -, hp, heq, hlines', htail', -, hjoined⟩ :=
    sheet_append_cut hw hne (bare_objects init) (bare_dumps (Value.obj r))
  have hr := hrs r (List.mem_append_right _ (List.mem_singleton.mpr rfl))
  refine ⟨lines', tail', ?_, hlines', htail', _, hjoined, spoilt_doubled hr hp⟩
  rw [unended_eq_sheet, heq]

end Cuts

end WebSpider.Json.Lines
