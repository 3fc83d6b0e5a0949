import WebSpider.Quality.CodeSpans

/-!
# Spans around fenced blocks

`code_chars` looks for inline spans in the whole text and `strip_code` in the text without
its fenced blocks. They find the same spans when none of the first reaches into a block
(`readSpans_stripFences`): the span that is open is then the same in both, or it began with
the last backtick of a block.
-/

namespace WebSpider.Quality

open Text

section Fences

variable {α : Type} [Glyph α]

/-! ## Matches of the fence pattern -/

theorem isFence_iff {s : List α} : isFence s = true ↔ ∃ a b c t, s = a :: b :: c :: t ∧
    isBacktick a = true ∧ isBacktick b = true ∧ isBacktick c = true := by
  constructor
  · intro h
    match s, h with
    | a :: b :: c :: t, h =>
      obtain ⟨hab, hc⟩ := Bool.and_eq_true_iff.mp h
      obtain ⟨ha, hb⟩ := Bool.and_eq_true_iff.mp hab
      exact ⟨a, b, c, t, rfl, ha, hb, hc⟩
  · rintro ⟨a, b, c, t, rfl, ha, hb, hc⟩
    rw [isFence, ha, hb, hc]
    rfl

theorem isFence_drop_bodyLength {s : List α} {n : Nat} (h : bodyLength s = some n) :
    isFence (s.drop n) = true := by
  induction s generalizing n with
  | nil => cases h
  | cons g s ih =>
    rw [bodyLength] at h
    split at h
    · rename_i hfence
      obtain rfl := Option.some.inj h
      exact hfence
    · obtain ⟨k, hk, rfl⟩ := Option.map_eq_some_iff.mp h
      exact ih hk

theorem fence_eq_zero {s : List α} (h : isFence s = false) : fence s = 0 :=
  if_neg (Bool.eq_false_iff.mp h)

theorem fence_unclosed {s : List α} (h : bodyLength (s.drop (openingLength s)) = none) :
    fence s = 0 := by
  unfold fence
  rw [h]
  exact ite_self 0

theorem fence_closed {s : List α} {n : Nat} (hs : isFence s = true)
    (h : bodyLength (s.drop (openingLength s)) = some n) : fence s = openingLength s + n + 3 := by
  rw [fence, if_pos hs, h]

/-- A block begins and ends with three backticks. -/
theorem fence_hit {g : α} {s : List α} {n : Nat} (h : fence (g :: s) = n + 1) :
    isBacktick g = true ∧ ∃ m a b c, g :: s.take n = m ++ [a, b, c] ∧ isBacktick a = true ∧
      isBacktick b = true ∧ isBacktick c = true := by
  cases hfence : isFence (g :: s) with
  | false => rw [fence_eq_zero hfence] at h; cases h
  | true =>
    obtain ⟨_, _, _, _, hs, hg, -⟩ := isFence_iff.mp hfence
    obtain ⟨rfl, -⟩ := List.cons.inj hs
    refine ⟨hg, ?_⟩
    cases hbody : bodyLength ((g :: s).drop (openingLength (g :: s))) with
    | none => rw [fence_unclosed hbody] at h; cases h
    | some k =>
      rw [fence_closed hfence hbody] at h
      obtain ⟨a, b, c, t, hclose, ha, hb, hc⟩ := isFence_iff.mp (isFence_drop_bodyLength hbody)
      refine ⟨(g :: s).take (openingLength (g :: s) + k), a, b, c, ?_, ha, hb, hc⟩
      rw [← List.take_succ_cons, ← h, List.take_add, ← List.drop_drop, hclose]
      rfl

/-- A backtick before a block belongs to the block. -/
theorem fence_backtick {g : α} {s : List α} (hg : isBacktick g = true) (h : fence (g :: s) = 0) :
    fence s = 0 := by
  cases hfence : isFence s with
  | false => exact fence_eq_zero hfence
  | true =>
    obtain ⟨a, b, c, t, rfl, ha, hb, hc⟩ := isFence_iff.mp hfence
    have hwider : isFence (g :: a :: b :: c :: t) = true :=
      isFence_iff.mpr ⟨g, a, b, c :: t, rfl, hg, ha, hb⟩
    have hopening : openingLength (g :: a :: b :: c :: t) = openingLength (a :: b :: c :: t) + 1 := by
      have hline : ((c :: t).takeWhile fun g => !isNewline g) =
          c :: t.takeWhile fun g => !isNewline g :=
        List.takeWhile_cons_of_pos (Bool.not_eq_true' _ ▸ isNewline_of_backtick hc)
      exact congrArg (fun line => 3 + line.length + 1) hline
    cases hbody : bodyLength ((a :: b :: c :: t).drop (openingLength (a :: b :: c :: t))) with
    | none => exact fence_unclosed hbody
    | some k =>
      rw [← List.drop_succ_cons (a := g), ← hopening] at hbody
      rw [fence_closed hwider hbody] at h
      cases h

/-! ## The two readings -/

/-- A span that is closed in a text has a character there. -/
theorem readSpans_touches {open? : Option (List α)} {s span : List α}
    (h : span ∈ readSpans open? s) : ∃ g ∈ s, g ∈ span := by
  induction s generalizing open? with
  | nil => cases h
  | cons g s ih =>
    rcases List.mem_append.mp h with h | h
    · refine ⟨g, List.mem_cons_self, ?_⟩
      rcases glyph_cases g with hg | hg | hg
      · cases open? with
        | none => rw [readGlyph_backtick_none hg] at h; cases h
        | some pending =>
          by_cases hlong : pending.length ≤ 1
          · rw [readGlyph_backtick_short hg hlong] at h; cases h
          · rw [readGlyph_backtick_long hg hlong] at h
            obtain rfl := List.mem_singleton.mp h
            exact List.mem_append_right _ List.mem_cons_self
      · rw [readGlyph_newline hg] at h; cases h
      · rw [readGlyph_inline hg] at h; cases h
    · obtain ⟨x, hx, hspan⟩ := ih h
      exact ⟨x, List.mem_cons_of_mem _ hx, hspan⟩

/-- After three backticks that close no span, the last one is open. -/
theorem openAfter_fence {open? : Option (List α)} {a b c : α} (ha : isBacktick a = true)
    (hb : isBacktick b = true) (hc : isBacktick c = true)
    (h : readSpans open? [a, b, c] = []) : openAfter open? [a, b, c] = some [c] := by
  have hfirst : (readGlyph open? a).1 = some [a] := by
    cases open? with
    | none => rw [readGlyph_backtick_none ha]
    | some pending =>
      by_cases hlong : pending.length ≤ 1
      · rw [readGlyph_backtick_short ha hlong]
      · rw [readSpans, readGlyph_backtick_long ha hlong] at h
        cases h
  unfold openAfter
  rw [List.foldl_cons, hfirst, List.foldl_cons, readGlyph_backtick_short hb le_rfl,
    List.foldl_cons, readGlyph_backtick_short hc le_rfl]
  rfl

/-- The open spans of the whole text and of the text without its blocks: the same one, or one
that began in a block and none. A backtick alone is not followed by a block. -/
def Alike (Fenced : α → Prop) (s : List α) (whole stripped : Option (List α)) : Prop :=
  (whole = stripped ∧ ∀ span, whole = some span → span ≠ [] ∧ (span.length ≤ 1 → fence s = 0)) ∨
    stripped = none ∧ ∃ span, whole = some span ∧ ∃ g ∈ span, Fenced g

variable {Fenced : α → Prop} {g : α} {s : List α} {whole stripped : Option (List α)}

theorem alike_backtick (hg : isBacktick g = true) (hplain : fence (g :: s) = 0) :
    Alike Fenced s (some [g]) (some [g]) :=
  Or.inl ⟨rfl, fun _ hspan =>
    ⟨Option.some.inj hspan ▸ List.cons_ne_nil g [], fun _ => fence_backtick hg hplain⟩⟩

theorem alike_none : Alike Fenced s none none := Or.inl ⟨rfl, fun _ h => by cases h⟩

/-- A character outside the blocks. -/
theorem Alike.plain (h : Alike Fenced (g :: s) whole stripped) (hplain : fence (g :: s) = 0)
    (hspan : ∀ span ∈ (readGlyph whole g).2.toList, ∀ x ∈ span, ¬ Fenced x) :
    (readGlyph whole g).2 = (readGlyph stripped g).2 ∧
      Alike Fenced s (readGlyph whole g).1 (readGlyph stripped g).1 := by
  rcases h with ⟨rfl, hshort⟩ | ⟨rfl, span, rfl, x, hx, hfenced⟩
  · refine ⟨rfl, ?_⟩
    rcases glyph_cases g with hg | hg | hg
    · cases whole with
      | none =>
        rw [readGlyph_backtick_none hg]
        exact alike_backtick hg hplain
      | some span =>
        by_cases hlong : span.length ≤ 1
        · rw [readGlyph_backtick_short hg hlong]
          exact alike_backtick hg hplain
        · rw [readGlyph_backtick_long hg hlong]
          exact alike_none
    · rw [readGlyph_newline hg]
      exact alike_none
    · rw [readGlyph_inline hg]
      refine Or.inl ⟨rfl, fun span heq => ?_⟩
      obtain ⟨before, hbefore, rfl⟩ := Option.map_eq_some_iff.mp heq
      have hlength := List.length_pos_iff.mpr (hshort before hbefore).1
      refine ⟨List.append_ne_nil_of_right_ne_nil _ (List.cons_ne_nil g []), fun hle => ?_⟩
      rw [List.length_append, List.length_singleton] at hle
      omega
  · rcases glyph_cases g with hg | hg | hg
    · by_cases hlong : span.length ≤ 1
      · rw [readGlyph_backtick_short hg hlong, readGlyph_backtick_none hg]
        exact ⟨rfl, alike_backtick hg hplain⟩
      · rw [readGlyph_backtick_long hg hlong] at hspan
        exact absurd hfenced (hspan _ List.mem_cons_self x (List.mem_append_left _ hx))
    · rw [readGlyph_newline hg, readGlyph_newline hg]
      exact ⟨rfl, alike_none⟩
    · rw [readGlyph_inline hg, readGlyph_inline hg]
      exact ⟨rfl, Or.inr ⟨rfl, _, rfl, x, List.mem_append_left _ hx, hfenced⟩⟩

/-- A block whose characters are in no span. -/
theorem Alike.hit (h : Alike Fenced (g :: s) whole stripped) {n : Nat}
    (hhit : fence (g :: s) = n + 1) (hfenced : ∀ x ∈ g :: s.take n, Fenced x)
    (hspan : ∀ span ∈ readSpans whole (g :: s.take n), ∀ x ∈ span, ¬ Fenced x) :
    stripped = none ∧ readSpans whole (g :: s.take n) = [] ∧
      Alike Fenced (s.drop n) (openAfter whole (g :: s.take n)) none := by
  obtain ⟨hg, m, a, b, c, hm, ha, hb, hc⟩ := fence_hit hhit
  have hnone : readSpans whole (g :: s.take n) = [] := by
    rw [List.eq_nil_iff_forall_not_mem]
    intro span hmem
    obtain ⟨x, hx, hxspan⟩ := readSpans_touches hmem
    exact hspan span hmem x hxspan (hfenced x hx)
  refine ⟨?_, hnone, Or.inr ⟨rfl, [c], ?_, c, List.mem_cons_self, hfenced c ?_⟩⟩
  · rcases h with ⟨rfl, hshort⟩ | ⟨hstripped, -⟩
    · cases whole with
      | none => rfl
      | some span =>
        -- the first backtick of the block closes it
        by_cases hlong : span.length ≤ 1
        · have hplain := (hshort span rfl).2 hlong
          omega
        · rw [readSpans, readGlyph_backtick_long hg hlong] at hnone
          cases hnone
    · exact hstripped
  · rw [hm, readSpans_append] at hnone
    rw [hm, openAfter, List.foldl_append]
    exact openAfter_fence ha hb hc (List.append_eq_nil_iff.mp hnone).2
  · rw [hm]
    exact List.mem_append_right _ (List.mem_cons_of_mem _ (List.mem_cons_of_mem _
      List.mem_cons_self))

/-- When no span of the whole text reaches into a block, the text without its blocks has the
same spans. -/
theorem readSpans_stripFences {blank : α} (hblank : isInline blank = true) (s : List α)
    (hfenced : ∀ m ∈ finditer fence s, ∀ x ∈ m, Fenced x) {whole stripped : Option (List α)}
    (h : Alike Fenced s whole stripped)
    (hspan : ∀ span ∈ readSpans whole s, ∀ x ∈ span, ¬ Fenced x) :
    readSpans whole s = readSpans stripped (stripFences blank s) := by
  unfold stripFences
  induction s using pieces_induction (fence : Pattern α) generalizing whole stripped with
  | nil => rfl
  | plain g s hp ih =>
    rw [readSpans] at hspan
    obtain ⟨hclosed, hnext⟩ := h.plain hp fun span hmem =>
      hspan span (List.mem_append_left _ hmem)
    rw [finditer_plain hp] at hfenced
    rw [sub_plain hp, readSpans, readSpans, hclosed,
      ih hfenced hnext fun span hmem => hspan span (List.mem_append_right _ hmem)]
  | hit g s n hp ih =>
    have hsplit : g :: s = (g :: s.take n) ++ s.drop n := by
      rw [List.cons_append, List.take_append_drop]
    rw [finditer_hit hp] at hfenced
    rw [hsplit, readSpans_append] at hspan
    obtain ⟨rfl, hnone, hnext⟩ := h.hit hp (hfenced _ List.mem_cons_self) fun span hmem =>
      hspan span (List.mem_append_left _ hmem)
    rw [sub_hit hp, List.singleton_append, hsplit, readSpans_append, hnone, List.nil_append,
      readSpans, readGlyph_inline hblank]
    exact ih (fun m hm => hfenced m (List.mem_cons_of_mem _ hm)) hnext fun span hmem =>
      hspan span (List.mem_append_right _ hmem)

end Fences

end WebSpider.Quality
