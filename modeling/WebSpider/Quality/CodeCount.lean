import WebSpider.Quality.Fences
import WebSpider.Vectors.Provenance

/-!
# Counting code

`code_chars` counts the inline spans of the whole text. On characters that carry their places
this says which places it counts: each place of code once exactly when no span reaches into
a fenced block (`codeChars_iff`).
-/

namespace WebSpider.Quality

open Text
open Vectors (Placed placed erase_placed nodup_placed)

/-! ## Texts whose characters carry more -/

section Map

variable {α β : Type} [Glyph α] [Glyph β] {f : α → β} (hf : Glyph.Map f)

include hf

theorem isBacktick_map (g : α) : isBacktick (f g) = isBacktick g := by
  rw [isBacktick, hf.code]
  rfl

theorem isFence_map (s : List α) : isFence (s.map f) = isFence s := by
  match s with
  | [] | [_] | [_, _] => rfl
  | a :: b :: c :: t =>
    show (isBacktick (f a) && isBacktick (f b) && isBacktick (f c)) = _
    rw [isBacktick_map hf, isBacktick_map hf, isBacktick_map hf]
    rfl

theorem bodyLength_map (s : List α) : bodyLength (s.map f) = bodyLength s := by
  induction s with
  | nil => rfl
  | cons g s ih => rw [List.map_cons, bodyLength, bodyLength, ← List.map_cons, isFence_map hf, ih]

theorem line_map : (fun g => !isNewline g) ∘ f = fun g => !isNewline g :=
  funext fun g => congrArg not (isNewline_map hf g)

theorem openingLength_map (s : List α) : openingLength (s.map f) = openingLength s := by
  rw [openingLength, ← List.map_drop, List.takeWhile_map, List.length_map, line_map hf]
  rfl

theorem fence_map (s : List α) : fence (s.map f) = fence s := by
  unfold fence
  rw [isFence_map hf, openingLength_map hf, ← List.map_drop, bodyLength_map hf]

theorem fenceBody_map (m : List α) : fenceBody (m.map f) = (fenceBody m).map f := by
  unfold fenceBody
  rw [← List.map_drop, List.dropWhile_map, line_map hf, ← List.map_drop]
  dsimp only
  rw [← List.map_take, List.length_map]

theorem inlineCode_map (s : List α) : inlineCode (s.map f) = inlineCode s := by
  cases s with
  | nil => rfl
  | cons g s =>
    have hinline : isInline ∘ f = isInline := by
      funext x
      show (!isBacktick (f x) && !isNewline (f x)) = _
      rw [isBacktick_map hf, isNewline_map hf]
      rfl
    have hclose (n : Nat) : ((s.map f).drop n).head?.any isBacktick =
        (s.drop n).head?.any isBacktick := by
      rw [← List.map_drop, List.head?_map]
      cases (s.drop n).head? with
      | none => rfl
      | some b => exact isBacktick_map hf b
    rw [List.map_cons, inlineCode, List.takeWhile_map, List.length_map, hinline,
      isBacktick_map hf, hclose]
    rfl

end Map

/-! ## The places of code -/

/-- The places of characters. -/
def placesOf (s : List Placed) : List Nat := s.filterMap Prod.snd

/-- The bodies of the fenced blocks. -/
def bodyPlaces (text : Str) : List Nat :=
  placesOf ((finditer fence (placed text)).flatMap fenceBody)

/-- The inline spans that `code_chars` finds. -/
def spanPlaces (text : Str) : List Nat := placesOf (finditer inlineCode (placed text)).flatten

/-- The inline spans outside the fenced blocks: those that `strip_code` removes. -/
def inlinePlaces (text : Str) : List Nat :=
  placesOf (finditer inlineCode (stripFences (32, none) (placed text))).flatten

/-- The places that `code_chars` counts. -/
def counted (text : Str) : List Nat := bodyPlaces text ++ spanPlaces text

/-- The places that hold code. -/
def codePlaces (text : Str) : List Nat :=
  (List.range text.length).filter fun i => i ∈ bodyPlaces text ∨ i ∈ inlinePlaces text

/-- No inline span of the whole text reaches into a fenced block. -/
def Apart (text : Str) : Prop :=
  ∀ span ∈ finditer inlineCode (placed text), ∀ m ∈ finditer fence (placed text),
    ∀ g ∈ span, g ∉ m

/-- The places in spans of the whole text that hold no inline code. -/
def strays (text : Str) : List Nat := (spanPlaces text).filter (· ∉ inlinePlaces text)

/-- The places of inline code that are in no span of the whole text. -/
def missed (text : Str) : List Nat := (inlinePlaces text).filter (· ∉ spanPlaces text)

theorem placesOf_placed (text : Str) : placesOf (placed text) = List.range text.length := by
  rw [placesOf, placed, List.filterMap_map, List.range_eq_range', ← List.zipIdx_map_snd 0 text]
  exact congrFun List.filterMap_eq_map text.zipIdx

theorem length_placesOf {text : Str} {s : List Placed} (h : s.Sublist (placed text)) :
    (placesOf s).length = s.length := by
  apply List.filterMap_length_eq_length.mpr
  intro g hg
  obtain ⟨x, -, rfl⟩ := List.mem_map.mp (h.subset hg)
  rfl

theorem fenceBody_sublist {α : Type} [Glyph α] (m : List α) : (fenceBody m).Sublist m :=
  (List.take_sublist _ _).trans ((List.drop_sublist _ _).trans
    ((List.dropWhile_sublist _).trans (List.drop_sublist _ _)))

theorem bodies_sublist {α : Type} [Glyph α] (ms : List (List α)) :
    (ms.flatMap fenceBody).Sublist ms.flatten := by
  induction ms with
  | nil => exact List.Sublist.refl _
  | cons m ms ih => exact (fenceBody_sublist m).append ih

theorem length_counted (text : Str) : (counted text).length = codeChars text := by
  have hfence := finditer_map (fence_map Glyph.map_fst) (placed text)
  have hinline := finditer_map (inlineCode_map Glyph.map_fst) (placed text)
  rw [erase_placed] at hfence hinline
  rw [counted, List.length_append, bodyPlaces, spanPlaces,
    length_placesOf ((bodies_sublist _).trans (flatten_finditer_sublist _ _)),
    length_placesOf (flatten_finditer_sublist _ _), codeChars, hfence, hinline, List.map_map,
    List.map_map, List.length_flatMap, List.length_flatten]
  congr 2
  · exact List.map_congr_left fun m _ => by simp [fenceBody_map Glyph.map_fst]
  · exact List.map_congr_left fun m _ => by simp

/-! ## What is removed -/

theorem isInline_blank : isInline ((32, none) : Placed) = true := rfl

/-- The places of the fenced blocks, delimiters included. -/
def fencedPlaces (text : Str) : List Nat := placesOf (finditer fence (placed text)).flatten

/-- The places outside the fenced blocks. -/
def openPlaces (text : Str) : List Nat := placesOf (unmatched fence (placed text))

theorem perm_fencedPlaces (text : Str) :
    (fencedPlaces text ++ openPlaces text).Perm (List.range text.length) := by
  have hperm := (perm_finditer fence (placed text)).filterMap Prod.snd
  rw [List.filterMap_append] at hperm
  exact placesOf_placed text ▸ hperm

theorem placesOf_stripFences (text : Str) :
    placesOf (stripFences (32, none) (placed text)) = openPlaces text :=
  filterMap_sub fence (fun _ => rfl) (placed text)

theorem nodup_fencedPlaces (text : Str) : (fencedPlaces text ++ openPlaces text).Nodup :=
  (perm_fencedPlaces text).nodup_iff.mpr List.nodup_range

theorem bodyPlaces_sublist (text : Str) : (bodyPlaces text).Sublist (fencedPlaces text) :=
  (bodies_sublist _).filterMap _

theorem inlinePlaces_sublist (text : Str) : (inlinePlaces text).Sublist (openPlaces text) := by
  rw [← placesOf_stripFences]
  exact (flatten_finditer_sublist _ _).filterMap _

theorem nodup_spanPlaces (text : Str) : (spanPlaces text).Nodup := by
  have hsub : (spanPlaces text).Sublist (placesOf (placed text)) :=
    (flatten_finditer_sublist _ _).filterMap _
  rw [placesOf_placed] at hsub
  exact hsub.nodup List.nodup_range

theorem nodup_code (text : Str) : (bodyPlaces text ++ inlinePlaces text).Nodup :=
  ((bodyPlaces_sublist text).append (inlinePlaces_sublist text)).nodup (nodup_fencedPlaces text)

theorem mem_codePlaces {text : Str} {i : Nat} :
    i ∈ codePlaces text ↔ i ∈ bodyPlaces text ++ inlinePlaces text := by
  rw [codePlaces, List.mem_filter, decide_eq_true_iff, List.mem_append, and_iff_right_iff_imp]
  intro h
  refine (perm_fencedPlaces text).subset (List.mem_append.mpr ?_)
  exact h.imp (fun h => (bodyPlaces_sublist text).subset h) fun h =>
    (inlinePlaces_sublist text).subset h

theorem codePlaces_perm (text : Str) :
    (codePlaces text).Perm (bodyPlaces text ++ inlinePlaces text) :=
  (List.perm_ext_iff_of_nodup (List.nodup_range.filter _) (nodup_code text)).mpr fun _ =>
    mem_codePlaces

theorem length_codePlaces_le (text : Str) : (codePlaces text).length ≤ text.length :=
  (List.length_filter_le _ _).trans_eq List.length_range

/-- `strip_code` looks at characters only. -/
theorem stripCode_placed (text : Str) :
    (stripCode (32, none) (placed text)).map Prod.fst = stripCode 32 text := by
  have hfences := sub_map (fence_map Glyph.map_fst) (r := fun _ => [(32, none)])
    (t := fun _ => [32]) (fun _ => rfl) (placed text)
  have hinline := sub_map (inlineCode_map Glyph.map_fst) (r := fun _ => [(32, none)])
    (t := fun _ => [32]) (fun _ => rfl) (stripFences (32, none) (placed text))
  rw [erase_placed] at hfences
  rw [stripCode, stripCode, stripFences, stripFences, hfences]
  exact hinline.symm

/-- The code is what `strip_code` removes, up to the delimiters of the blocks. -/
theorem mem_codePlaces_iff_removed {text : Str} {i : Nat} : i ∈ codePlaces text ↔
    i < text.length ∧ i ∉ placesOf (stripCode (32, none) (placed text)) ∧
      (i ∈ fencedPlaces text → i ∈ bodyPlaces text) := by
  have hstrip : placesOf (stripCode (32, none) (placed text)) =
      placesOf (unmatched inlineCode (stripFences (32, none) (placed text))) :=
    filterMap_sub inlineCode (fun _ => rfl) _
  have hopen := (perm_finditer inlineCode (stripFences (32, none) (placed text))).filterMap
    Prod.snd
  rw [List.filterMap_append, ← placesOf, ← placesOf, ← placesOf, placesOf_stripFences,
    ← hstrip] at hopen
  have hnodup := nodup_fencedPlaces text
  have hmem (j : Nat) : j < text.length ↔ j ∈ fencedPlaces text ∨ j ∈ openPlaces text := by
    rw [← List.mem_range, ← (perm_fencedPlaces text).mem_iff, List.mem_append]
  have hmem' (j : Nat) : j ∈ openPlaces text ↔
      j ∈ inlinePlaces text ∨ j ∈ placesOf (stripCode (32, none) (placed text)) := by
    rw [← hopen.mem_iff, List.mem_append]
    rfl
  obtain ⟨-, hopenNodup, hapart⟩ := List.nodup_append'.mp hnodup
  obtain ⟨-, -, hapart'⟩ := List.nodup_append'.mp (hopen.nodup_iff.mpr hopenNodup)
  rw [mem_codePlaces, List.mem_append, hmem, hmem']
  constructor
  · rintro (hbody | hinline)
    · have hfenced := (bodyPlaces_sublist text).subset hbody
      refine ⟨Or.inl hfenced, fun hleft => hapart hfenced ((hmem' i).mpr (Or.inr hleft)), ?_⟩
      exact fun _ => hbody
    · refine ⟨Or.inr (Or.inl hinline), fun hleft => hapart' hinline hleft, fun hfenced => ?_⟩
      exact absurd ((hmem' i).mpr (Or.inl hinline)) (hapart hfenced)
  · rintro ⟨hfenced | hinline | hleft, hremoved, hbody⟩
    · exact Or.inl (hbody hfenced)
    · exact Or.inr hinline
    · exact absurd hleft hremoved

/-! ## What is counted -/

/-- Two lists without repetition are as long as each other when as many are only in the one as
are only in the other. -/
theorem length_eq_iff_of_nodup {α : Type} [DecidableEq α] {xs ys : List α} (hxs : xs.Nodup)
    (hys : ys.Nodup) : xs.length = ys.length ↔
      (xs.filter (· ∉ ys)).length = (ys.filter (· ∉ xs)).length := by
  have hcommon : (xs.filter (· ∈ ys)).Perm (ys.filter (· ∈ xs)) := by
    apply (List.perm_ext_iff_of_nodup (hxs.filter _) (hys.filter _)).mpr
    intro x
    simp only [List.mem_filter, decide_eq_true_eq]
    exact and_comm
  have hlength := hcommon.length_eq
  have hx := xs.length_eq_length_filter_add fun x => decide (x ∈ ys)
  have hy := ys.length_eq_length_filter_add fun y => decide (y ∈ xs)
  simp only [← decide_not] at hx hy
  omega

def InBlock (text : Str) (g : Placed) : Prop := ∃ m ∈ finditer fence (placed text), g ∈ m

theorem spanPlaces_eq_of_apart {text : Str} (h : Apart text) :
    spanPlaces text = inlinePlaces text := by
  have hblocks : ∀ m ∈ finditer fence (placed text), ∀ g ∈ m, InBlock text g :=
    fun m hm _ hg => ⟨m, hm, hg⟩
  have hspans := readSpans_stripFences isInline_blank (placed text) hblocks alike_none ?_
  · rw [spanPlaces, inlinePlaces, finditer_inlineCode, finditer_inlineCode, hspans]
  · rintro span hspan g hg ⟨m, hm, hgm⟩
    rw [← finditer_inlineCode] at hspan
    exact h span hspan m hm g hg hgm

/-- A span that reaches into a block holds a place that is no inline code. -/
theorem apart_of_subset {text : Str} (h : ∀ i ∈ spanPlaces text, i ∈ inlinePlaces text) :
    Apart text := by
  intro span hspan m hm g hg hgm
  have hplaced := (flatten_finditer_sublist fence (placed text)).subset
    (List.mem_flatten.mpr ⟨m, hm, hgm⟩)
  obtain ⟨x, -, rfl⟩ := List.mem_map.mp hplaced
  have hin : x.2 ∈ spanPlaces text :=
    List.mem_filterMap.mpr ⟨_, List.mem_flatten.mpr ⟨span, hspan, hg⟩, rfl⟩
  have hfenced : x.2 ∈ fencedPlaces text :=
    List.mem_filterMap.mpr ⟨_, List.mem_flatten.mpr ⟨m, hm, hgm⟩, rfl⟩
  exact (List.nodup_append'.mp (nodup_fencedPlaces text)).2.2 hfenced
    ((inlinePlaces_sublist text).subset (h _ hin))

theorem counted_perm_iff (text : Str) : (counted text).Perm (codePlaces text) ↔ Apart text := by
  constructor
  · intro h
    have hspans := (List.perm_append_left_iff _).mp (h.trans (codePlaces_perm text))
    exact apart_of_subset fun i hi => hspans.subset hi
  · intro h
    rw [counted, spanPlaces_eq_of_apart h]
    exact (codePlaces_perm text).symm

theorem codeChars_eq_iff (text : Str) : codeChars text = (codePlaces text).length ↔
    (strays text).length = (missed text).length := by
  rw [← length_counted, counted, (codePlaces_perm text).length_eq, List.length_append,
    List.length_append, Nat.add_left_cancel_iff]
  exact length_eq_iff_of_nodup (nodup_spanPlaces text) (List.nodup_append'.mp (nodup_code text)).2.1

/-- The exemption is granted to texts that count enough. -/
theorem assess_code_rich {cfg : Settings} {sig : Signals} {text : Str}
    (h : (assess cfg sig text).2.1 = lit "code_rich") : cfg.minCodeChars ≤ codeChars text := by
  unfold assess at h
  dsimp only at h
  split_ifs at h with hempty hspam hcode
  · exact absurd h (by decide)
  · exact absurd (show lit "spam" = lit "code_rich" from h) (by decide)
  · exact hcode
  all_goals
    dsimp only at h
    exact absurd h (by decide)

/-- `code_chars` counts the places of code, each once, exactly when no inline span that it finds
reaches into a fenced block. Its number is right exactly when as many places are counted as
inline code by mistake as are missed. Where each place is counted once, the number is at most
the length of the text, and the gate exempts only texts with enough code. -/
theorem codeChars_iff (text : Str) : (counted text).length = codeChars text ∧
    ((counted text).Perm (codePlaces text) ↔ Apart text) ∧
    (codeChars text = (codePlaces text).length ↔ (strays text).length = (missed text).length) ∧
    (Apart text → codeChars text = (codePlaces text).length ∧ codeChars text ≤ text.length ∧
      ∀ cfg sig, (assess cfg sig text).2.1 = lit "code_rich" →
        cfg.minCodeChars ≤ (codePlaces text).length) := by
  refine ⟨length_counted text, counted_perm_iff text, codeChars_eq_iff text, fun h => ?_⟩
  have hcount : codeChars text = (codePlaces text).length :=
    (length_counted text).symm.trans ((counted_perm_iff text).mpr h).length_eq
  refine ⟨hcount, ?_, fun cfg sig hrich => hcount ▸ assess_code_rich hrich⟩
  rw [hcount]
  exact length_codePlaces_le text

/-- Spans in a fenced block are counted twice: here 19 characters of 17, of which 10 are code. -/
theorem codeChars_twice : (¬ ∀ text : Str, codeChars text = (codePlaces text).length) ∧
    ¬ ∀ text : Str, codeChars text ≤ text.length := by
  have hmore : ¬ codeChars (lit "```\n`x``x``x`\n```") ≤
      (lit "```\n`x``x``x`\n```").length := by
    decide
  refine ⟨fun hcounts => hmore ?_, fun hbounded => hmore (hbounded _)⟩
  rw [hcounts]
  exact length_codePlaces_le _

end WebSpider.Quality
