import WebSpider.Vectors.Grouping

/-!
# The ranges of the chunks

The loop of `_split_paragraphs` with the places of its buffer in the list of paragraphs:
each chunk is a range of the paragraphs (`splitParagraphs_ranges`). The ranges cover the
list in order, overlap in the longest tail that `overlap` allows, and bound the lengths of
the chunks (`ranges_cover`). A chunk starts after the one before it exactly when the buffer
was too heavy to be carried over as a whole (`ranges_increase_iff`).
-/

namespace WebSpider.Vectors

open Text

variable {α : Type} [Glyph α]

/-- The paragraphs from `start` on that are before `stop`. -/
structure Range where
  start : Nat
  stop : Nat
  deriving DecidableEq

def Range.of {β : Type} (r : Range) (ps : List β) : List β := (ps.take r.stop).drop r.start

/-- The loop from a buffer whose place is `start` to `stop`. -/
def rangesFrom (target overlap : Nat) :
    Nat → Nat → List (List α) → List (List α) → List Range
  | start, stop, buf, [] => if buf = [] then [] else [⟨start, stop⟩]
  | start, stop, buf, p :: ps =>
    if buf ≠ [] ∧ target < joinedLength (buf ++ [p]) then
      ⟨start, stop⟩ :: rangesFrom target overlap (stop - (carried overlap buf).length) (stop + 1)
        (carried overlap buf ++ [p]) ps
    else rangesFrom target overlap start (stop + 1) (buf ++ [p]) ps

/-- The ranges of the chunks of `_split_paragraphs`. -/
def ranges (target overlap : Nat) (ps : List (List α)) : List Range :=
  rangesFrom target overlap 0 0 [] ps

/-! ## What is carried over -/

omit [Glyph α] in
theorem cost_carryOver_le {overlap : Nat} (xs carry : List (List α)) (h : cost carry ≤ overlap) :
    cost (carryOver overlap xs carry (cost carry)) ≤ overlap := by
  induction xs generalizing carry with
  | nil => exact h
  | cons x xs ih =>
    rw [carryOver]
    split
    · exact h
    · have hcons := cost_cons x carry
      have hnext : cost carry + x.length + 2 = cost (x :: carry) := by omega
      rw [hnext]
      exact ih (x :: carry) (by omega)

omit [Glyph α] in
theorem cost_carried_le (overlap : Nat) (buf : List (List α)) :
    cost (carried overlap buf) ≤ overlap :=
  cost_carryOver_le buf.reverse [] (Nat.zero_le _)

omit [Glyph α] in
theorem suffix_carryOver (overlap : Nat) (xs carry : List (List α)) (n : Nat) :
    carry <:+ carryOver overlap xs carry n := by
  induction xs generalizing carry n with
  | nil => exact List.suffix_refl _
  | cons x xs ih =>
    rw [carryOver]
    split
    · exact List.suffix_refl _
    · exact (List.suffix_cons x carry).trans (ih _ _)

omit [Glyph α] in
/-- A tail that is light enough is carried over. -/
theorem suffix_carried {overlap : Nat} {xs ys : List (List α)} (h : cost ys ≤ overlap) :
    ys <:+ carried overlap (xs ++ ys) := by
  have hlight : 0 + cost ys.reverse ≤ overlap := by rwa [cost_reverse, Nat.zero_add]
  have hstep := carryOver_append ys.reverse xs.reverse [] 0 hlight
  rw [List.reverse_reverse, List.append_nil] at hstep
  rw [carried, List.reverse_append, hstep]
  exact suffix_carryOver _ _ _ _

omit [Glyph α] in
/-- The buffer is cut exactly when it is heavier than the overlap. -/
theorem length_carried_lt_iff {overlap : Nat} {buf : List (List α)} :
    (carried overlap buf).length < buf.length ↔ overlap < cost buf := by
  constructor
  · intro hlt
    by_contra hle
    rw [carried_all (by omega)] at hlt
    exact Nat.lt_irrefl _ hlt
  · intro hheavy
    apply Nat.lt_of_le_of_ne (carried_suffix overlap buf).length_le
    intro hsame
    have hall := (carried_suffix overlap buf).eq_of_length hsame
    have hle := cost_carried_le overlap buf
    rw [hall] at hle
    omega

/-! ## Lengths of chunks -/

theorem joinedLength_add_two {ps : List (List α)} (hne : ps ≠ []) :
    joinedLength ps + 2 = cost ps := by
  induction ps with
  | nil => exact (hne rfl).elim
  | cons p ps ih =>
    rw [cost_cons]
    by_cases hnil : ps = []
    · rw [hnil]
      rfl
    · have hcons := joinedLength_append (List.cons_ne_nil p []) hnil
      have hp : joinedLength [p] = p.length := rfl
      rw [List.singleton_append] at hcons
      rw [hcons, hp, ← ih hnil]
      omega

/-- A chunk is no longer than the target, or than its last paragraph and the overlap. -/
def Sized (target overlap : Nat) (grp : List (List α)) : Prop :=
  ∃ before p, grp = before ++ [p] ∧ joinedLength grp ≤ max target (overlap + p.length)

theorem sized_push {target overlap : Nat} {buf : List (List α)} {p : List α}
    (hfits : ¬ (buf ≠ [] ∧ target < joinedLength (buf ++ [p]))) :
    Sized target overlap (buf ++ [p]) := by
  refine ⟨buf, p, rfl, ?_⟩
  by_cases hnil : buf = []
  · have hp : joinedLength [p] = p.length := rfl
    rw [hnil, List.nil_append, hp]
    omega
  · have hle : ¬ target < joinedLength (buf ++ [p]) := fun hlt => hfits ⟨hnil, hlt⟩
    omega

theorem sized_carried (target overlap : Nat) (buf : List (List α)) (p : List α) :
    Sized target overlap (carried overlap buf ++ [p]) := by
  refine ⟨_, p, rfl, ?_⟩
  have hp : joinedLength [p] = p.length := rfl
  by_cases hnil : carried overlap buf = []
  · rw [hnil, List.nil_append, hp]
    omega
  · have hcost := cost_carried_le overlap buf
    rw [joinedLength_append hnil (List.cons_ne_nil _ _), joinedLength_add_two hnil, hp]
    omega

theorem sized_of_mem_groups {target overlap : Nat} {buf ps grp : List (List α)}
    (hbuf : buf ≠ [] → Sized target overlap buf) (h : grp ∈ groups target overlap buf ps) :
    Sized target overlap grp := by
  induction ps generalizing buf with
  | nil =>
    rw [groups] at h
    split at h
    · cases h
    · rename_i hne
      obtain rfl := List.mem_singleton.mp h
      exact hbuf hne
  | cons p ps ih =>
    rw [groups] at h
    split at h
    · rename_i hfull
      rcases List.mem_cons.mp h with rfl | h
      · exact hbuf hfull.1
      · exact ih (fun _ => sized_carried target overlap buf p) h
    · rename_i hfits
      exact ih (fun _ => sized_push hfits) h

/-! ## The loop in the list -/

/-- The buffer is a range of the paragraphs, and those to come follow it. -/
structure Window (ps : List (List α)) (start stop : Nat) (buf rest : List (List α)) : Prop where
  buf : Range.of ⟨start, stop⟩ ps = buf
  rest : ps.drop stop = rest
  start_le : start ≤ stop
  stop_le : stop ≤ ps.length

namespace Window

variable {ps buf rest : List (List α)} {start stop : Nat} {p : List α}

omit [Glyph α] in
theorem length (h : Window ps start stop buf rest) : buf.length = stop - start := by
  have hstop := h.stop_le
  rw [← h.buf, Range.of, List.length_drop, List.length_take]
  dsimp only
  omega

omit [Glyph α] in
theorem start_lt (h : Window ps start stop buf rest) (hne : buf ≠ []) : start < stop := by
  have hlength := h.length
  have hpos := List.length_pos_of_ne_nil hne
  omega

omit [Glyph α] in
theorem push (h : Window ps start stop buf (p :: rest)) :
    Window ps start (stop + 1) (buf ++ [p]) rest := by
  have hrest := h.rest
  have hlt : stop < ps.length := by
    by_contra hge
    rw [List.drop_eq_nil_of_le (by omega)] at hrest
    cases hrest
  rw [List.drop_eq_getElem_cons hlt] at hrest
  obtain ⟨rfl, htail⟩ := List.cons.inj hrest
  have hstart := h.start_le
  refine ⟨?_, htail, by omega, hlt⟩
  have hbuf := h.buf
  rw [Range.of] at hbuf ⊢
  dsimp only at hbuf ⊢
  rw [← List.take_append_getElem hlt, List.drop_append_of_le_length, hbuf]
  rw [List.length_take]
  omega

omit [Glyph α] in
/-- The tail that is carried over is at the end of the buffer. -/
theorem carry (h : Window ps start stop buf rest) (overlap : Nat) :
    Window ps (stop - (carried overlap buf).length) stop (carried overlap buf) rest := by
  obtain ⟨front, hfront⟩ := carried_suffix overlap buf
  have hlength := h.length
  have hstart := h.start_le
  have hbuf := h.buf
  rw [← hfront, List.length_append] at hlength
  refine ⟨?_, h.rest, Nat.sub_le _ _, h.stop_le⟩
  have hcut : stop - (carried overlap buf).length = start + front.length := by omega
  rw [Range.of] at hbuf ⊢
  dsimp only at hbuf ⊢
  rw [hcut, ← List.drop_drop, hbuf]
  nth_rewrite 1 [← hfront]
  exact List.drop_left

end Window

variable {ps buf rest : List (List α)} {start stop : Nat}

theorem rangesFrom_groups {target overlap : Nat} (h : Window ps start stop buf rest) :
    (rangesFrom target overlap start stop buf rest).map (Range.of · ps) =
      groups target overlap buf rest := by
  induction rest generalizing start stop buf with
  | nil =>
    rw [rangesFrom, groups]
    split
    · rfl
    · rw [List.map_singleton, h.buf]
  | cons p rest ih =>
    rw [rangesFrom, groups]
    split
    · rw [List.map_cons, h.buf, ih (h.carry overlap).push]
    · exact ih h.push

theorem rangesFrom_bounds {target overlap : Nat} (h : Window ps start stop buf rest) {r : Range}
    (hr : r ∈ rangesFrom target overlap start stop buf rest) :
    r.start < r.stop ∧ r.stop ≤ ps.length := by
  induction rest generalizing start stop buf with
  | nil =>
    rw [rangesFrom] at hr
    split at hr
    · cases hr
    · rename_i hne
      obtain rfl := List.mem_singleton.mp hr
      exact ⟨h.start_lt hne, h.stop_le⟩
  | cons p rest ih =>
    rw [rangesFrom] at hr
    split at hr
    · rename_i hfull
      rcases List.mem_cons.mp hr with rfl | hr
      · exact ⟨h.start_lt hfull.1, h.stop_le⟩
      · exact ih (h.carry overlap).push hr
    · exact ih h.push hr

/-- The next chunk starts where the buffer starts and does not end before it. -/
theorem rangesFrom_head (target overlap : Nat) (start stop : Nat) {buf : List (List α)}
    (hne : buf ≠ []) (rest : List (List α)) : ∃ r rs,
      rangesFrom target overlap start stop buf rest = r :: rs ∧ r.start = start ∧
        stop ≤ r.stop := by
  induction rest generalizing stop buf with
  | nil => exact ⟨_, [], by rw [rangesFrom, if_neg hne], rfl, Nat.le_refl _⟩
  | cons p rest ih =>
    rw [rangesFrom]
    split
    · exact ⟨_, _, rfl, rfl, Nat.le_refl _⟩
    · have hpush : buf ++ [p] ≠ [] := by simp
      obtain ⟨r, rs, heq, hstart, hstop⟩ := @ih (stop + 1) _ hpush
      exact ⟨r, rs, heq, hstart, by omega⟩

theorem rangesFrom_last {target overlap : Nat} (h : Window ps start stop buf rest)
    (hne : buf ≠ [] ∨ rest ≠ []) :
    ((rangesFrom target overlap start stop buf rest).getLast?).map Range.stop =
      some ps.length := by
  induction rest generalizing start stop buf with
  | nil =>
    have hbuf : buf ≠ [] := hne.resolve_right (fun h => h rfl)
    have hstop : ps.length ≤ stop := by
      have hrest := congrArg List.length h.rest
      rw [List.length_drop, List.length_nil] at hrest
      omega
    rw [rangesFrom, if_neg hbuf]
    exact congrArg some (Nat.le_antisymm h.stop_le hstop)
  | cons p rest ih =>
    rw [rangesFrom]
    split
    · have hpush : carried overlap buf ++ [p] ≠ [] := by simp
      obtain ⟨r, rs, heq, -⟩ := rangesFrom_head target overlap
        (stop - (carried overlap buf).length) (stop + 1) hpush rest
      have hlast := ih (h.carry overlap).push (Or.inl hpush)
      rw [heq] at hlast ⊢
      rwa [List.getLast?_cons_cons]
    · exact ih h.push (Or.inl (by simp))

/-- How a chunk follows another: it ends later, it starts at the latest where the other
ends, and what they share is the longest tail that `overlap` allows. -/
structure Follows (ps : List (List α)) (overlap : Nat) (r r' : Range) : Prop where
  stop_lt : r.stop < r'.stop
  start_le : r.start ≤ r'.start
  adjacent : r'.start ≤ r.stop
  shared : cost (Range.of ⟨r'.start, r.stop⟩ ps) ≤ overlap
  longest : ∀ i, r.start ≤ i → i < r'.start → overlap < cost (Range.of ⟨i, r.stop⟩ ps)

omit [Glyph α] in
theorem Window.follows (h : Window ps start stop buf rest) (overlap : Nat) {r : Range}
    (hstart : r.start = stop - (carried overlap buf).length) (hstop : stop < r.stop) :
    Follows ps overlap ⟨start, stop⟩ r := by
  have hlength := h.length
  have hsuffix := (carried_suffix overlap buf).length_le
  have hle := h.start_le
  refine ⟨hstop, ?_, ?_, ?_, fun i hi hlt => ?_⟩
  · change start ≤ r.start
    omega
  · change r.start ≤ stop
    omega
  · change cost (Range.of ⟨r.start, stop⟩ ps) ≤ overlap
    rw [hstart, (h.carry overlap).buf]
    exact cost_carried_le overlap buf
  · by_contra hlight
    have hi : start ≤ i := hi
    have hdrop : Range.of ⟨i, stop⟩ ps = buf.drop (i - start) := by
      rw [← h.buf, Range.of, Range.of, List.drop_drop]
      dsimp only
      congr 1
      omega
    change ¬ overlap < cost (Range.of ⟨i, stop⟩ ps) at hlight
    rw [hdrop] at hlight
    have htail := @suffix_carried _ overlap (buf.take (i - start)) (buf.drop (i - start)) (by omega)
    rw [List.take_append_drop] at htail
    have hlonger := htail.length_le
    rw [List.length_drop] at hlonger
    omega

theorem rangesFrom_chain {target overlap : Nat} (h : Window ps start stop buf rest) :
    (rangesFrom target overlap start stop buf rest).IsChain (Follows ps overlap) := by
  induction rest generalizing start stop buf with
  | nil =>
    rw [rangesFrom]
    split
    · exact .nil
    · exact .singleton _
  | cons p rest ih =>
    rw [rangesFrom]
    split
    · have hpush : carried overlap buf ++ [p] ≠ [] := by simp
      obtain ⟨r, rs, heq, hstart, hstop⟩ := rangesFrom_head target overlap
        (stop - (carried overlap buf).length) (stop + 1) hpush rest
      have htail := @ih _ _ _ (h.carry overlap).push
      rw [heq] at htail ⊢
      exact .cons_cons (h.follows overlap hstart (by omega)) htail
    · exact ih h.push

/-! ## The chunks -/

omit [Glyph α] in
theorem window_start (ps : List (List α)) : Window ps 0 0 [] ps :=
  ⟨rfl, rfl, Nat.le_refl _, Nat.zero_le _⟩

/-- The chunks are the joins of their ranges. -/
theorem splitParagraphs_ranges (target overlap : Nat) (hps : ∀ p ∈ ps, p ≠ []) :
    splitParagraphs ps target overlap =
      (ranges target overlap ps).map fun r => join blankLine (r.of ps) := by
  rw [splitParagraphs_eq target overlap hps, ← rangesFrom_groups (window_start ps), List.map_map]
  rfl

theorem ranges_head? (target overlap : Nat) (hne : ps ≠ []) :
    ((ranges target overlap ps).head?).map Range.start = some 0 := by
  obtain ⟨p, rest, rfl⟩ := List.exists_cons_of_ne_nil hne
  obtain ⟨r, rs, heq, hstart, -⟩ := rangesFrom_head target overlap 0 1 (List.cons_ne_nil p []) rest
  have hranges : ranges target overlap (p :: rest) = r :: rs := by
    rw [← heq, ranges, rangesFrom, if_neg fun h => h.1 rfl]
    rfl
  rw [hranges]
  exact congrArg some hstart

theorem sized_of_mem_ranges {target overlap : Nat} {r : Range}
    (hr : r ∈ ranges target overlap ps) : Sized target overlap (r.of ps) := by
  have hmem : r.of ps ∈ groups target overlap [] ps := by
    rw [← rangesFrom_groups (window_start ps)]
    exact List.mem_map_of_mem hr
  exact sized_of_mem_groups (fun hne => (hne rfl).elim) hmem

/-- The chunks are the joins of ranges that are not empty, cover the paragraphs in order,
follow each other and bound the lengths. -/
theorem ranges_cover (ps : List (List α)) (hps : ∀ p ∈ ps, p ≠ []) (target overlap : Nat) :
    splitParagraphs ps target overlap =
        (ranges target overlap ps).map (fun r => join blankLine (r.of ps)) ∧
      (∀ r ∈ ranges target overlap ps, r.start < r.stop ∧ r.stop ≤ ps.length ∧
        ∃ before p, r.of ps = before ++ [p] ∧
          (join blankLine (r.of ps)).length ≤ max target (overlap + p.length)) ∧
      (ps ≠ [] → ((ranges target overlap ps).head?).map Range.start = some 0 ∧
        ((ranges target overlap ps).getLast?).map Range.stop = some ps.length) ∧
      (ranges target overlap ps).IsChain (Follows ps overlap) := by
  refine ⟨splitParagraphs_ranges target overlap hps, fun r hr => ?_, fun hne => ?_,
    rangesFrom_chain (window_start ps)⟩
  · obtain ⟨hlt, hle⟩ := rangesFrom_bounds (window_start ps) hr
    exact ⟨hlt, hle, sized_of_mem_ranges hr⟩
  · exact ⟨ranges_head? target overlap hne, rangesFrom_last (window_start ps) (Or.inr hne)⟩

/-- Three paragraphs of which the second is carried over. -/
theorem ranges_cover_carried :
    splitParagraphs [lit "aaaa", lit "b", lit "cccc"] 8 3 = [lit "aaaa\n\nb", lit "b\n\ncccc"] ∧
      (ranges 8 3 [lit "aaaa", lit "b", lit "cccc"]).IsChain
        (Follows [lit "aaaa", lit "b", lit "cccc"] 3) :=
  ⟨(ranges_cover [lit "aaaa", lit "b", lit "cccc"] (by decide) 8 3).1.trans (by decide),
    (ranges_cover [lit "aaaa", lit "b", lit "cccc"] (by decide) 8 3).2.2.2⟩

/-! ## Chunks that start later -/

/-- Whenever a paragraph does not fit into the buffer of the loop, the buffer is too heavy
to be carried over as a whole. -/
def HeavyWhenFull (target overlap : Nat) (b : Buffer α) (ps : List (List α)) : Prop :=
  ∀ before p later, ps = before ++ p :: later →
    (before.foldl (addParagraph target overlap) b).buf ≠ [] →
    target < (before.foldl (addParagraph target overlap) b).bufLen + p.length + 2 →
    overlap < cost (before.foldl (addParagraph target overlap) b).buf

theorem heavyWhenFull_cons {target overlap : Nat} {b : Buffer α} {p : List α} :
    HeavyWhenFull target overlap b (p :: rest) ↔
      (b.buf ≠ [] → target < b.bufLen + p.length + 2 → overlap < cost b.buf) ∧
        HeavyWhenFull target overlap (addParagraph target overlap b p) rest := by
  constructor
  · intro h
    refine ⟨h [] p rest rfl, fun before q later heq => ?_⟩
    exact h (p :: before) q later (by rw [heq]; rfl)
  · rintro ⟨hfirst, hrest⟩ before q later heq
    cases before with
    | nil =>
      obtain ⟨rfl, rfl⟩ := List.cons.inj heq
      exact hfirst
    | cons p' before =>
      obtain ⟨rfl, htail⟩ := List.cons.inj heq
      exact hrest before q later htail

/-- Both ends are later. -/
def Later (r r' : Range) : Prop := r.start < r'.start ∧ r.stop < r'.stop

theorem rangesFrom_later_iff {target overlap : Nat} {b : Buffer α} (hb : Tracks b)
    (hrest : ∀ p ∈ rest, p ≠ []) (h : Window ps start stop b.buf rest) :
    (rangesFrom target overlap start stop b.buf rest).IsChain Later ↔
      HeavyWhenFull target overlap b rest := by
  induction rest generalizing start stop b with
  | nil =>
    refine iff_of_true ?_ fun before p later heq => ?_
    · rw [rangesFrom]
      split
      · exact .nil
      · exact .singleton _
    · exact absurd heq.symm (by simp)
  | cons p rest ih =>
    have hp := hrest p List.mem_cons_self
    have hrest' : ∀ q ∈ rest, q ≠ [] := fun q hq => hrest q (List.mem_cons_of_mem _ hq)
    rw [heavyWhenFull_cons, hb.addParagraph target overlap p, rangesFrom]
    split
    · rename_i hfull
      have hpush : carried overlap b.buf ++ [p] ≠ [] := by simp
      obtain ⟨r, rs, heq, hstart, hstop⟩ := rangesFrom_head target overlap
        (stop - (carried overlap b.buf).length) (stop + 1) hpush rest
      have hcarried : ∀ q ∈ carried overlap b.buf, q ≠ [] :=
        fun q hq => hb.nonempty q ((carried_suffix overlap b.buf).subset hq)
      have hnext : Tracks ⟨b.chunks ++ [join blankLine b.buf], carried overlap b.buf ++ [p],
          joinedLength (carried overlap b.buf ++ [p])⟩ := tracks_push hcarried hp
      have htail := ih hnext hrest' (h.carry overlap).push
      rw [← htail, heq, List.isChain_cons_cons]
      apply and_congr_left
      intro _
      have hlength := h.length
      have hle := h.start_le
      have hsuffix := (carried_suffix overlap b.buf).length_le
      have hlater : Later ⟨start, stop⟩ r ↔ (carried overlap b.buf).length < b.buf.length := by
        change start < r.start ∧ stop < r.stop ↔ _
        omega
      rw [hlater, length_carried_lt_iff]
      exact ⟨fun hheavy _ _ => hheavy,
        fun hheavy => hheavy hfull.1 ((hb.full_iff p).mpr hfull).2⟩
    · rename_i hfits
      have hnext : Tracks ⟨b.chunks, b.buf ++ [p], joinedLength (b.buf ++ [p])⟩ :=
        tracks_push hb.nonempty hp
      have htail := ih hnext hrest' h.push
      rw [htail, and_iff_right]
      exact fun hne hlong => (hfits ((hb.full_iff p).mp ⟨hne, hlong⟩)).elim

/-- The ranges of consecutive chunks both start and end later exactly when the loop never
finds the buffer full while it is light enough to be carried over as a whole. -/
theorem ranges_increase_iff (ps : List (List α)) (hps : ∀ p ∈ ps, p ≠ []) (target overlap : Nat) :
    (ranges target overlap ps).IsChain (fun r r' => r.start < r'.start ∧ r.stop < r'.stop) ↔
      ∀ before p later, ps = before ++ p :: later →
        (before.foldl (addParagraph target overlap) ⟨[], [], 0⟩).buf ≠ [] →
        target < (before.foldl (addParagraph target overlap) ⟨[], [], 0⟩).bufLen + p.length + 2 →
        overlap < cost (before.foldl (addParagraph target overlap) ⟨[], [], 0⟩).buf := by
  have hstart : Tracks (⟨[], [], 0⟩ : Buffer α) := ⟨rfl, nofun⟩
  exact rangesFrom_later_iff hstart hps (window_start ps)

theorem ranges_increase_iff_carried :
    (ranges 8 3 [lit "aaaa", lit "b", lit "cccc"]).IsChain
        (fun r r' => r.start < r'.start ∧ r.stop < r'.stop) ↔
      ∀ before p later, [lit "aaaa", lit "b", lit "cccc"] = before ++ p :: later →
        (before.foldl (addParagraph 8 3) ⟨[], [], 0⟩).buf ≠ [] →
        8 < (before.foldl (addParagraph 8 3) ⟨[], [], 0⟩).bufLen + p.length + 2 →
        3 < cost (before.foldl (addParagraph 8 3) ⟨[], [], 0⟩).buf :=
  ranges_increase_iff [lit "aaaa", lit "b", lit "cccc"] (by decide) 8 3

/-- A short paragraph before one that does not fit is a chunk and starts the next one. -/
theorem chunk_repeated : ¬ ∀ (ps : List Str) (target overlap : Nat), (∀ p ∈ ps, p ≠ []) →
    overlap < target →
    (ranges target overlap ps).IsChain fun r r' => r.start < r'.start ∧ r.stop < r'.stop := by
  intro hincreases
  have hranges : ranges 4 3 [lit "a", lit "bbbb"] = [⟨0, 1⟩, ⟨0, 2⟩] := by decide
  have hchain := hincreases [lit "a", lit "bbbb"] 4 3 (by decide) (by decide)
  rw [hranges, List.isChain_cons_cons] at hchain
  exact Nat.lt_irrefl 0 hchain.1.1

end WebSpider.Vectors
