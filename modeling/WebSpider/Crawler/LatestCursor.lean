import WebSpider.Crawler.Cursor
import WebSpider.Crawler.TimeOrder

/-!
# The cursor as the latest time

`advanceCursor` keeps the greater of two texts. The cursor of a source is the
latest of the times it was called with, after every call of a sequence, exactly
when no call meets a cursor whose text does not compare like the time
(`cursorRight_iff`). A call with a whole second moves the cursor back from a
fraction of that second (`cursor_moves_back`).
-/

namespace WebSpider.Crawler

open Text

/-! ## The greatest text -/

/-- The time whose text is the greatest of those recorded for a source. -/
structure Newest (r : Redis) (sourceName : Str) (t : Time) : Prop where
  recorded : (sourceName, t) ∈ r.marks
  greatest : ∀ u, (sourceName, u) ∈ r.marks → format u ≤ format t

/-- The cursor of a source is the text of its newest time. -/
structure CursorOk (r : Redis) : Prop where
  nonzero : ∀ k t, (k, t) ∈ r.marks → t.isZero = false
  missing : ∀ k, r.cursor k = none → ∀ t, (k, t) ∉ r.marks
  newest : ∀ k v, r.cursor k = some v → ∃ t, v = format t ∧ Newest r k t

theorem cursorOk_initial : CursorOk .initial := by
  refine ⟨fun k t ht => ?_, fun k _ t ht => ?_, fun k v hv => ?_⟩
  · cases ht
  · cases ht
  · cases hv

theorem cursorOk_script {r : Redis} (h : CursorOk r) (sourceType : Str) {t : Time}
    (ht : t.isZero = false) : CursorOk (cursorScript sourceType t r) := by
  have hmem {k : Str} {u : Time} : (k, u) ∈ (cursorScript sourceType t r).marks ↔
      (k, u) ∈ r.marks ∨ (k = sourceType ∧ u = t) := by
    simp [cursorScript]
  have hother {k : Str} (hk : k ≠ sourceType) :
      (cursorScript sourceType t r).cursor k = r.cursor k := if_neg hk
  have hfirst (hnone : r.cursor sourceType = none) :
      (cursorScript sourceType t r).cursor sourceType = some (format t) := by
    simp [cursorScript, hnone]
  have hlater {cur : Str} (hcur : r.cursor sourceType = some cur) :
      (cursorScript sourceType t r).cursor sourceType =
        if cur < format t then some (format t) else some cur := by
    simp [cursorScript, hcur]
  refine ⟨fun k u hu => ?_, fun k hk u hu => ?_, fun k v hv => ?_⟩
  · rcases hmem.mp hu with hu | ⟨-, rfl⟩
    · exact h.nonzero k u hu
    · exact ht
  · by_cases hkey : k = sourceType
    · subst hkey
      cases hcur : r.cursor k with
      | none =>
        rw [hfirst hcur] at hk
        cases hk
      | some cur =>
        rw [hlater hcur] at hk
        split at hk <;> cases hk
    · rw [hother hkey] at hk
      rcases hmem.mp hu with hu | ⟨hkey', -⟩
      · exact h.missing k hk u hu
      · exact hkey hkey'
  · by_cases hkey : k = sourceType
    · subst hkey
      cases hcur : r.cursor k with
      | none =>
        rw [hfirst hcur] at hv
        cases hv
        refine ⟨t, rfl, hmem.mpr (Or.inr ⟨rfl, rfl⟩), fun u hu => ?_⟩
        rcases hmem.mp hu with hu | ⟨-, rfl⟩
        · exact (h.missing k hcur u hu).elim
        · exact le_rfl
      | some cur =>
        rw [hlater hcur] at hv
        obtain ⟨t', rfl, hnew⟩ := h.newest k cur hcur
        split at hv
        · rename_i hlt
          cases hv
          refine ⟨t, rfl, hmem.mpr (Or.inr ⟨rfl, rfl⟩), fun u hu => ?_⟩
          rcases hmem.mp hu with hu | ⟨-, rfl⟩
          · exact (hnew.greatest u hu).trans hlt.le
          · exact le_rfl
        · rename_i hle
          cases hv
          refine ⟨t', rfl, hmem.mpr (Or.inl hnew.recorded), fun u hu => ?_⟩
          rcases hmem.mp hu with hu | ⟨-, rfl⟩
          · exact hnew.greatest u hu
          · exact not_lt.mp hle
    · rw [hother hkey] at hv
      obtain ⟨t', ht', hnew⟩ := h.newest k v hv
      refine ⟨t', ht', hmem.mpr (Or.inl hnew.recorded), fun u hu => ?_⟩
      rcases hmem.mp hu with hu | ⟨hkey', -⟩
      · exact hnew.greatest u hu
      · exact (hkey hkey').elim

/-! ## The calls -/

/-- `advanceCursor` for the source type and the published time of an article. -/
def advanceCursor (sourceType : Str) (published : Time) (r : Redis) : Redis :=
  if published.isZero then r else cursorScript sourceType published r

/-- The last call of `Publish` is `advanceCursor`. -/
example (p : Producer) (a : ArticleRaw) (trimmed : Nat) (r : Redis) :
    publishCall p a .cursor .returns trimmed r =
      (.done true, advanceCursor a.sourceType a.published r) := rfl

/-- What the calls of all workers leave, in the order Redis runs their scripts. -/
def advances (calls : List (Str × Time)) : Redis :=
  calls.foldl (fun r call => advanceCursor call.1 call.2 r) .initial

/-- The times of the calls for a source; the zero time does not count. -/
def timesOf (sourceName : Str) (calls : List (Str × Time)) : List Time :=
  (calls.filter fun call => decide (call.1 = sourceName) && !call.2.isZero).map Prod.snd

/-- The latest of some times, if there are any. -/
def IsLatest (times : List Time) : Option Time → Prop
  | none => times = []
  | some t => t ∈ times ∧ ∀ u ∈ times, u.instant ≤ t.instant

/-- After each of the calls the cursor is the latest time so far, and it never
decreases. -/
structure CursorRight (sourceName : Str) (calls : List (Str × Time)) : Prop where
  latest : ∀ made, made <+: calls →
    IsLatest (timesOf sourceName made) (getCursor (advances made) sourceName)
  grows : ∀ made made', made <+: made' → made' <+: calls →
    ∀ t, getCursor (advances made) sourceName = some t →
      ∃ t', getCursor (advances made') sourceName = some t' ∧ t.instant ≤ t'.instant

/-- No call meets a latest time with which its own clashes. -/
def Apart (sourceName : Str) (calls : List (Str × Time)) : Prop :=
  ∀ made t, made ++ [(sourceName, t)] <+: calls → t.isZero = false →
    ∀ m, IsLatest (timesOf sourceName made) (some m) → ¬ Clash m t

/-! ## One call -/

theorem advances_concat (made : List (Str × Time)) (call : Str × Time) :
    advances (made ++ [call]) = advanceCursor call.1 call.2 (advances made) := by
  simp [advances]

theorem timesOf_append (sourceName : Str) (made more : List (Str × Time)) :
    timesOf sourceName (made ++ more) = timesOf sourceName made ++ timesOf sourceName more := by
  simp [timesOf]

/-- The calls that count for a source. -/
theorem timesOf_singleton (sourceName : Str) (call : Str × Time) :
    timesOf sourceName [call] =
      if call.1 = sourceName ∧ call.2.isZero = false then [call.2] else [] := by
  unfold timesOf
  by_cases hname : call.1 = sourceName
  · cases hzero : call.2.isZero <;> simp [hname, hzero]
  · simp [hname]

theorem cursorOk_advances (calls : List (Str × Time)) : CursorOk (advances calls) := by
  induction calls using List.reverseRecOn with
  | nil => exact cursorOk_initial
  | append_singleton made call ih =>
    rw [advances_concat, advanceCursor]
    cases hzero : call.2.isZero with
    | true => exact ih
    | false => exact cursorOk_script ih call.1 hzero

theorem cursor_eq {r : Redis} (h : CursorOk r) (sourceName : Str) :
    r.cursor sourceName = (getCursor r sourceName).map format := by
  unfold getCursor
  cases hcursor : r.cursor sourceName with
  | none => rfl
  | some v =>
    obtain ⟨t, rfl, -⟩ := h.newest sourceName v hcursor
    simp only [if_neg (format_ne_nil t), parseTime_format, Option.map_some]

/-- A call that does not count leaves the cursor. -/
theorem getCursor_other {sourceName : Str} {call : Str × Time}
    (h : ¬ (call.1 = sourceName ∧ call.2.isZero = false)) (r : Redis) :
    getCursor (advanceCursor call.1 call.2 r) sourceName = getCursor r sourceName := by
  unfold advanceCursor
  cases hzero : call.2.isZero with
  | true => rfl
  | false =>
    have hname : ¬ sourceName = call.1 := fun hsame => h ⟨hsame.symm, hzero⟩
    simp [getCursor, cursorScript, hname]

/-- A call that counts keeps the time with the greater text. -/
theorem getCursor_advance {r : Redis} (h : CursorOk r) (sourceName : Str) {t : Time}
    (ht : t.isZero = false) :
    getCursor (advanceCursor sourceName t r) sourceName =
      match getCursor r sourceName with
      | none => some t
      | some m => if format m < format t then some t else some m := by
  have hcursor := cursor_eq h sourceName
  have hadvance : advanceCursor sourceName t r = cursorScript sourceName t r := by
    simp [advanceCursor, ht]
  rw [hadvance, getCursor]
  cases hm : getCursor r sourceName with
  | none =>
    rw [hm] at hcursor
    simp [cursorScript, hcursor, format_ne_nil]
  | some m =>
    rw [hm] at hcursor
    by_cases hlt : format m < format t
    · simp [cursorScript, hcursor, hlt, format_ne_nil]
    · simp [cursorScript, hcursor, hlt, format_ne_nil]

theorem IsLatest.unique {times : List Time} {o o' : Option Time} (h : IsLatest times o)
    (h' : IsLatest times o') : o = o' := by
  cases o with
  | none =>
    obtain rfl : times = [] := h
    cases o' with
    | none => rfl
    | some t => cases h'.1
  | some t =>
    cases o' with
    | none =>
      obtain rfl : times = [] := h'
      cases h.1
    | some t' =>
      have hle := h.2 t' h'.1
      have hge := h'.2 t h.1
      rw [Time.instant_injective (Int.le_antisymm hge hle)]

/-- The greater text is that of the latest time exactly when the times do not
clash. -/
theorem isLatest_concat_iff {times : List Time} {m t : Time} (h : IsLatest times (some m)) :
    IsLatest (times ++ [t]) (if format m < format t then some t else some m) ↔ ¬ Clash m t := by
  rw [← format_lt_iff]
  by_cases hlt : format m < format t
  · rw [if_pos hlt]
    have hne : m.instant ≠ t.instant := fun hsame =>
      (lt_irrefl _) ((Time.instant_injective hsame) ▸ hlt)
    constructor
    · intro hlatest
      have := hlatest.2 m (List.mem_append_left _ h.1)
      exact iff_of_true hlt (by omega)
    · intro horder
      have hle := horder.mp hlt
      refine ⟨by simp, fun u hu => ?_⟩
      rcases List.mem_append.mp hu with hu | hu
      · have := h.2 u hu
        omega
      · obtain rfl := List.mem_singleton.mp hu
        exact Int.le_refl _
  · rw [if_neg hlt]
    constructor
    · intro hlatest
      have := hlatest.2 t (by simp)
      exact iff_of_false hlt (by omega)
    · intro horder
      have hle := mt horder.mpr hlt
      refine ⟨List.mem_append_left _ h.1, fun u hu => ?_⟩
      rcases List.mem_append.mp hu with hu | hu
      · exact h.2 u hu
      · rw [List.mem_singleton.mp hu]
        omega

/-! ## Sequences of calls -/

theorem latest_of_apart {sourceName : Str} {calls : List (Str × Time)}
    (hapart : Apart sourceName calls) {made : List (Str × Time)} (hmade : made <+: calls) :
    IsLatest (timesOf sourceName made) (getCursor (advances made) sourceName) := by
  induction made using List.reverseRecOn with
  | nil => exact rfl
  | append_singleton made call ih =>
    have hlatest := ih ((List.prefix_append made [call]).trans hmade)
    rw [advances_concat, timesOf_append, timesOf_singleton]
    by_cases hcounts : call.1 = sourceName ∧ call.2.isZero = false
    · obtain ⟨name, t⟩ := call
      obtain ⟨rfl, hzero⟩ := hcounts
      rw [if_pos ⟨rfl, hzero⟩, getCursor_advance (cursorOk_advances made) name hzero]
      cases hm : getCursor (advances made) name with
      | none =>
        rw [hm] at hlatest
        rw [show timesOf name made = [] from hlatest]
        simp [IsLatest]
      | some m =>
        rw [hm] at hlatest
        exact (isLatest_concat_iff hlatest).mpr (hapart made t hmade hzero m hlatest)
    · rw [if_neg hcounts, List.append_nil, getCursor_other hcounts]
      exact hlatest

/-- After each of a sequence of calls the cursor is the latest time, and it never
decreases, exactly when no call's time clashes with the latest before it. -/
theorem cursorRight_iff (sourceName : Str) (calls : List (Str × Time)) :
    CursorRight sourceName calls ↔ Apart sourceName calls := by
  constructor
  · intro hright made t hmade hzero m hm
    have hcursor : getCursor (advances made) sourceName = some m :=
      (hright.latest made ((List.prefix_append _ _).trans hmade)).unique hm
    have hlatest := hright.latest _ hmade
    rw [advances_concat, timesOf_append, timesOf_singleton, if_pos ⟨rfl, hzero⟩,
      getCursor_advance (cursorOk_advances made) sourceName hzero, hcursor] at hlatest
    exact (isLatest_concat_iff hm).mp hlatest
  · intro hapart
    refine ⟨fun made hmade => latest_of_apart hapart hmade, fun made made' hle hmade' t ht => ?_⟩
    have hlatest := latest_of_apart hapart (hle.trans hmade')
    have hlatest' := latest_of_apart hapart hmade'
    rw [ht] at hlatest
    obtain ⟨more, rfl⟩ := hle
    have hmem : t ∈ timesOf sourceName (made ++ more) := by
      rw [timesOf_append]
      exact List.mem_append_left _ hlatest.1
    cases ht' : getCursor (advances (made ++ more)) sourceName with
    | none =>
      rw [ht'] at hlatest'
      rw [show timesOf sourceName (made ++ more) = [] from hlatest'] at hmem
      cases hmem
    | some t' =>
      rw [ht'] at hlatest'
      exact ⟨t', rfl, hlatest'.2 t hmem⟩

/-- The cursor is the latest of the times it was advanced to exactly when none of
them clashes with the latest before it, as the texts of two times compare like
the times exactly when they do not clash. -/
theorem cursor_latest (sourceName : Str) (calls : List (Str × Time)) (t u : Time) :
    (CursorRight sourceName calls ↔ Apart sourceName calls) ∧
    ((format t < format u ↔ t.instant < u.instant) ↔ ¬ Clash t u) :=
  ⟨cursorRight_iff sourceName calls, format_lt_iff t u⟩

theorem noon_civil : IsCivil 2026 8 4 12 0 0 0 := by decide

/-- Noon, and half a second later. -/
def noon : Time := ⟨2026, 8, 4, 12, 0, 0, 0, noon_civil⟩

def noonAndHalf : Time := ⟨2026, 8, 4, 12, 0, 0, 500000000, by decide⟩

/-- The text of noon is the greater one: a call with it moves the cursor back. -/
theorem cursor_moves_back :
    ¬ CursorRight (lit "rss") [(lit "rss", noonAndHalf), (lit "rss", noon)] ∧
    ¬ (format noonAndHalf < format noon ↔ noonAndHalf.instant < noon.instant) := by
  have hcursor : getCursor (advances [(lit "rss", noonAndHalf), (lit "rss", noon)]) (lit "rss") =
      some noon := by decide +kernel
  have hlater : ¬ noonAndHalf.instant ≤ noon.instant := by decide
  refine ⟨fun hright => ?_, by decide +kernel⟩
  have hlatest := hright.latest _ List.prefix_rfl
  rw [hcursor] at hlatest
  exact hlater (hlatest.2 noonAndHalf (by decide +kernel))

end WebSpider.Crawler
