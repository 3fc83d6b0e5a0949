import WebSpider.Vectors.Chunker
import WebSpider.Text.Paragraphs

/-!
# Groups of paragraphs

`_split_paragraphs` as a function on paragraphs: the groups whose joins are the chunks
(`splitParagraphs_eq`). Paragraphs that fit the target together are one group
(`groups_of_fits`). When they do not, every place between two paragraphs is cut for some
overlap (`exists_cut`).
-/

namespace WebSpider.Vectors

open Text

variable {α : Type} [Glyph α]

/-- The paragraphs that are carried over into the next group. -/
def carried (overlap : Nat) (buf : List (List α)) : List (List α) :=
  carryOver overlap buf.reverse [] 0

/-- The length of a chunk. -/
def joinedLength (ps : List (List α)) : Nat := (join blankLine ps).length

/-- The groups that are made from the buffer and the paragraphs to come. -/
def groups (target overlap : Nat) : List (List α) → List (List α) → List (List (List α))
  | buf, [] => if buf = [] then [] else [buf]
  | buf, p :: ps =>
    if buf ≠ [] ∧ target < joinedLength (buf ++ [p]) then
      buf :: groups target overlap (carried overlap buf ++ [p]) ps
    else groups target overlap (buf ++ [p]) ps

/-! ## Lengths -/

theorem joinedLength_append {xs ys : List (List α)} (hxs : xs ≠ []) (hys : ys ≠ []) :
    joinedLength (xs ++ ys) = joinedLength xs + 2 + joinedLength ys := by
  rw [joinedLength, join_append _ hxs hys, List.length_append, List.length_append]
  rfl

theorem joinedLength_eq (ps : List (List α)) :
    joinedLength ps = (ps.map List.length).sum + 2 * (ps.length - 1) := by
  induction ps with
  | nil => rfl
  | cons p ps ih =>
    cases ps with
    | nil => simp [joinedLength, join]
    | cons q ps =>
      have happend := joinedLength_append (List.cons_ne_nil p []) (List.cons_ne_nil q ps)
      rw [List.singleton_append] at happend
      have hp : joinedLength [p] = p.length := rfl
      rw [happend, ih, hp]
      simp only [List.map_cons, List.sum_cons, List.length_cons]
      omega

theorem joinedLength_le_append (xs ys : List (List α)) :
    joinedLength xs ≤ joinedLength (xs ++ ys) := by
  rw [joinedLength_eq, joinedLength_eq, List.map_append, List.sum_append, List.length_append]
  omega

theorem joinedLength_pos {ps : List (List α)} (hne : ps ≠ []) (hps : ∀ p ∈ ps, p ≠ []) :
    0 < joinedLength ps := by
  obtain ⟨p, ps, rfl⟩ := List.exists_cons_of_ne_nil hne
  have hp := List.length_pos_of_ne_nil (hps p List.mem_cons_self)
  rw [joinedLength_eq, List.map_cons, List.sum_cons]
  omega

/-! ## What is carried over -/

/-- What paragraphs count against the overlap. -/
def cost (ps : List (List α)) : Nat := (ps.map fun p => p.length + 2).sum

omit [Glyph α] in
theorem cost_append (xs ys : List (List α)) : cost (xs ++ ys) = cost xs + cost ys := by
  rw [cost, List.map_append, List.sum_append]
  rfl

omit [Glyph α] in
theorem cost_cons (p : List α) (ps : List (List α)) : cost (p :: ps) = p.length + 2 + cost ps := by
  rw [cost, List.map_cons, List.sum_cons]
  rfl

omit [Glyph α] in
@[simp] theorem cost_reverse (ps : List (List α)) : cost ps.reverse = cost ps := by
  rw [cost, List.map_reverse, List.sum_reverse]
  rfl

omit [Glyph α] in
theorem carryOver_append {overlap : Nat} (xs ys carry : List (List α)) (n : Nat)
    (h : n + cost xs ≤ overlap) :
    carryOver overlap (xs ++ ys) carry n =
      carryOver overlap ys (xs.reverse ++ carry) (n + cost xs) := by
  induction xs generalizing carry n with
  | nil => rfl
  | cons x xs ih =>
    rw [cost_cons] at h ⊢
    rw [List.cons_append, carryOver, if_neg (by omega), ih _ _ (by omega), List.reverse_cons,
      List.append_assoc, List.singleton_append]
    congr 1
    omega

omit [Glyph α] in
theorem carryOver_suffix (overlap : Nat) (xs carry : List (List α)) (n : Nat) :
    carryOver overlap xs carry n <:+ xs.reverse ++ carry := by
  induction xs generalizing carry n with
  | nil => exact List.suffix_refl _
  | cons x xs ih =>
    rw [carryOver, List.reverse_cons, List.append_assoc, List.singleton_append]
    split
    · exact (List.suffix_cons x carry).trans (List.suffix_append _ _)
    · exact ih _ _

omit [Glyph α] in
theorem carried_suffix (overlap : Nat) (buf : List (List α)) : carried overlap buf <:+ buf := by
  have hsuffix := carryOver_suffix overlap buf.reverse [] 0
  rwa [List.reverse_reverse, List.append_nil] at hsuffix

omit [Glyph α] in
theorem carried_all {overlap : Nat} {buf : List (List α)} (h : cost buf ≤ overlap) :
    carried overlap buf = buf := by
  have hlight : 0 + cost buf.reverse ≤ overlap := by rwa [cost_reverse, Nat.zero_add]
  have hall := carryOver_append buf.reverse [] [] 0 hlight
  rw [List.append_nil, List.append_nil, List.reverse_reverse] at hall
  exact hall

omit [Glyph α] in
/-- The overlap can be chosen so that any tail is carried over. -/
theorem carried_cost (xs ys : List (List α)) (hxs : xs ≠ []) :
    carried (cost ys) (xs ++ ys) = ys := by
  have hcost := cost_reverse ys
  obtain ⟨x, rest, hrev⟩ := List.exists_cons_of_ne_nil (List.reverse_ne_nil_iff.mpr hxs)
  rw [carried, List.reverse_append, carryOver_append _ _ _ _ (by omega), hrev, carryOver,
    if_pos (by omega), List.reverse_reverse, List.append_nil]

/-! ## The loop -/

/-- `buf_len` is the length of the buffer's chunk. -/
structure Tracks (b : Buffer α) : Prop where
  bufLen : b.bufLen = joinedLength b.buf
  nonempty : ∀ p ∈ b.buf, p ≠ []

theorem Tracks.emit {b : Buffer α} (h : Tracks b) (overlap : Nat) : Tracks (b.emit overlap) := by
  refine ⟨(joinedLength_eq _).symm, fun p hp => ?_⟩
  exact h.nonempty p ((carried_suffix overlap b.buf).subset hp)

theorem Tracks.bufLen_ne_zero {b : Buffer α} (h : Tracks b) : b.bufLen ≠ 0 ↔ b.buf ≠ [] := by
  rw [h.bufLen]
  constructor
  · rintro hlen hnil
    rw [hnil] at hlen
    exact hlen rfl
  · intro hne
    have hpos := joinedLength_pos hne h.nonempty
    omega

/-- The length of the buffer with one more paragraph. -/
theorem Tracks.push {b : Buffer α} (h : Tracks b) (para : List α) :
    b.bufLen + (para.length + if b.bufLen ≠ 0 then 2 else 0) = joinedLength (b.buf ++ [para]) := by
  by_cases hne : b.buf = []
  · have hzero : b.bufLen = 0 := by
      rw [h.bufLen, hne]
      rfl
    rw [hzero, hne, if_neg (by omega)]
    change 0 + (para.length + 0) = para.length
    omega
  · rw [if_pos (h.bufLen_ne_zero.mpr hne), joinedLength_append hne (List.cons_ne_nil _ _), h.bufLen]
    change _ = joinedLength b.buf + 2 + para.length
    omega

theorem Tracks.full_iff {b : Buffer α} (h : Tracks b) {target : Nat} (para : List α) :
    (b.buf ≠ [] ∧ target < b.bufLen + para.length + 2) ↔
      (b.buf ≠ [] ∧ target < joinedLength (b.buf ++ [para])) := by
  apply and_congr_right
  intro hne
  have hpara : joinedLength [para] = para.length := rfl
  rw [joinedLength_append hne (List.cons_ne_nil _ _), h.bufLen, hpara]
  omega

/-- One turn of the loop, by whether the buffer is full. -/
theorem Tracks.addParagraph {b : Buffer α} (h : Tracks b) (target overlap : Nat) (para : List α) :
    addParagraph target overlap b para =
      if b.buf ≠ [] ∧ target < joinedLength (b.buf ++ [para]) then
        ⟨b.chunks ++ [join blankLine b.buf], carried overlap b.buf ++ [para],
          joinedLength (carried overlap b.buf ++ [para])⟩
      else ⟨b.chunks, b.buf ++ [para], joinedLength (b.buf ++ [para])⟩ := by
  rw [Vectors.addParagraph]
  by_cases hfull : b.buf ≠ [] ∧ target < joinedLength (b.buf ++ [para])
  · rw [if_pos ((h.full_iff para).mpr hfull), if_pos hfull]
    have hlength := (h.emit overlap).push para
    rw [hlength]
    rfl
  · rw [if_neg (fun hfull' => hfull ((h.full_iff para).mp hfull')), if_neg hfull]
    rw [h.push para]

theorem tracks_push {chunks buf : List (List α)} (hbuf : ∀ p ∈ buf, p ≠ []) {para : List α}
    (hpara : para ≠ []) : Tracks ⟨chunks, buf ++ [para], joinedLength (buf ++ [para])⟩ := by
  refine ⟨rfl, fun p hp => ?_⟩
  rcases List.mem_append.mp hp with hp | hp
  · exact hbuf p hp
  · rwa [List.mem_singleton.mp hp]

theorem foldl_addParagraph (target overlap : Nat) {ps : List (List α)} (hps : ∀ p ∈ ps, p ≠ [])
    {b b' : Buffer α} (h : Tracks b) (hb' : b' = ps.foldl (addParagraph target overlap) b) :
    (if b'.buf = [] then b'.chunks else b'.chunks ++ [join blankLine b'.buf]) =
      b.chunks ++ (groups target overlap b.buf ps).map (join blankLine) := by
  induction ps generalizing b with
  | nil =>
    rw [hb', List.foldl_nil, groups]
    split
    · rw [List.map_nil, List.append_nil]
    · rfl
  | cons p ps ih =>
    have hp := hps p List.mem_cons_self
    have hps' : ∀ q ∈ ps, q ≠ [] := fun q hq => hps q (List.mem_cons_of_mem _ hq)
    rw [List.foldl_cons, h.addParagraph target overlap p] at hb'
    rw [groups]
    split at hb'
    · rename_i hfull
      have hcarried : ∀ q ∈ carried overlap b.buf, q ≠ [] :=
        fun q hq => h.nonempty q ((carried_suffix overlap b.buf).subset hq)
      rw [if_pos hfull, ih hps' (tracks_push hcarried hp) hb', List.map_cons]
      simp
    · rename_i hfits
      rw [if_neg hfits, ih hps' (tracks_push h.nonempty hp) hb']

/-- The chunks are the joins of the groups. -/
theorem splitParagraphs_eq (target overlap : Nat) {ps : List (List α)} (hps : ∀ p ∈ ps, p ≠ []) :
    splitParagraphs ps target overlap = (groups target overlap [] ps).map (join blankLine) :=
  foldl_addParagraph target overlap hps (b := ⟨[], [], 0⟩)
    ⟨rfl, fun _ hp => absurd hp List.not_mem_nil⟩ rfl

/-! ## What a group holds -/

omit [Glyph α] in
theorem subset_push {buf' buf ps : List (List α)} {p : List α} (h : buf' ⊆ buf) :
    buf' ++ [p] ++ ps ⊆ buf ++ p :: ps := by
  rw [List.append_assoc, List.singleton_append]
  exact List.append_subset.mpr ⟨List.Subset.trans h (List.subset_append_left _ _),
    List.subset_append_right _ _⟩

theorem mem_groups {target overlap : Nat} {buf ps grp : List (List α)}
    (h : grp ∈ groups target overlap buf ps) : grp ≠ [] ∧ grp ⊆ buf ++ ps := by
  induction ps generalizing buf with
  | nil =>
    rw [groups] at h
    split at h
    · cases h
    · rename_i hne
      obtain rfl := List.mem_singleton.mp h
      exact ⟨hne, List.subset_append_left _ _⟩
  | cons p ps ih =>
    rw [groups] at h
    split at h
    · rename_i hfull
      rcases List.mem_cons.mp h with rfl | h
      · exact ⟨hfull.1, List.subset_append_left _ _⟩
      · exact (ih h).imp_right fun hsub =>
          List.Subset.trans hsub (subset_push (carried_suffix overlap buf).subset)
    · exact (ih h).imp_right fun hsub =>
        List.Subset.trans hsub (subset_push (List.Subset.refl _))

/-- The buffer is the start of a group. -/
theorem exists_group_of_buffer (target overlap : Nat) {buf : List (List α)} (hbuf : buf ≠ [])
    (ps : List (List α)) :
    ∃ more, more <+: ps ∧ buf ++ more ∈ groups target overlap buf ps := by
  induction ps generalizing buf with
  | nil =>
    refine ⟨[], List.prefix_refl _, ?_⟩
    rw [groups, if_neg hbuf, List.append_nil]
    exact List.mem_cons_self
  | cons p ps ih =>
    rw [groups]
    split
    · exact ⟨[], List.nil_prefix, by rw [List.append_nil]; exact List.mem_cons_self⟩
    · have hne : buf ++ [p] ≠ [] := by simp
      obtain ⟨more, hmore, hmem⟩ := ih hne
      refine ⟨p :: more, (List.prefix_cons_inj p).mpr hmore, ?_⟩
      rwa [List.append_assoc, List.singleton_append] at hmem

/-- Every paragraph is in a group. -/
theorem exists_group_of_mem (target overlap : Nat) {buf ps : List (List α)} {p : List α}
    (hp : p ∈ buf ++ ps) : ∃ grp ∈ groups target overlap buf ps, p ∈ grp := by
  induction ps generalizing buf with
  | nil =>
    rw [List.append_nil] at hp
    refine ⟨buf, ?_, hp⟩
    rw [groups, if_neg (List.ne_nil_of_mem hp)]
    exact List.mem_cons_self
  | cons q ps ih =>
    rw [groups]
    split
    · rcases List.mem_append.mp hp with hp | hp
      · exact ⟨buf, List.mem_cons_self, hp⟩
      · have hp' : p ∈ carried overlap buf ++ [q] ++ ps := by
          rw [List.append_assoc, List.singleton_append]
          exact List.mem_append_right _ hp
        obtain ⟨grp, hgrp, hmem⟩ := ih hp'
        exact ⟨grp, List.mem_cons_of_mem _ hgrp, hmem⟩
    · apply ih
      rwa [List.append_assoc, List.singleton_append]

/-- The groups up to any one of them hold the paragraphs up to its last one. -/
theorem groups_upto {target overlap : Nat} {seen buf ps : List (List α)} (hbuf : buf <:+ seen)
    {before after : List (List (List α))} {grp : List (List α)}
    (h : groups target overlap buf ps = before ++ grp :: after) : ∃ new, new <+: ps ∧
      grp <:+ seen ++ new ∧ ∀ p ∈ buf ++ new, p ∈ grp ∨ ∃ grp' ∈ before, p ∈ grp' := by
  induction ps generalizing seen buf before with
  | nil =>
    rw [groups] at h
    split at h
    · simp at h
    · rcases List.cons_eq_append_iff.mp h with ⟨rfl, heq⟩ | ⟨before', rfl, heq⟩
      · obtain ⟨rfl, -⟩ := List.cons.inj heq
        refine ⟨[], List.nil_prefix, by rwa [List.append_nil], fun p hp => .inl ?_⟩
        rwa [List.append_nil] at hp
      · exact absurd heq.symm (by simp)
  | cons p ps ih =>
    rw [groups] at h
    split at h
    · rcases List.cons_eq_append_iff.mp h with ⟨rfl, heq⟩ | ⟨before', rfl, heq⟩
      · obtain ⟨rfl, -⟩ := List.cons.inj heq
        refine ⟨[], List.nil_prefix, by rwa [List.append_nil], fun q hq => .inl ?_⟩
        rwa [List.append_nil] at hq
      · have hcarried : carried overlap buf ++ [p] <:+ seen ++ [p] := by
          obtain ⟨u, rfl⟩ := (carried_suffix overlap buf).trans hbuf
          exact ⟨u, by simp⟩
        obtain ⟨new, hnew, hgrp, hall⟩ := ih hcarried heq
        refine ⟨p :: new, (List.prefix_cons_inj p).mpr hnew, by simpa using hgrp, fun q hq => ?_⟩
        rcases List.mem_append.mp hq with hq | hq
        · exact .inr ⟨buf, List.mem_cons_self, hq⟩
        · have hq' : q ∈ carried overlap buf ++ [p] ++ new := by
            rw [List.append_assoc, List.singleton_append]
            exact List.mem_append_right _ hq
          apply (hall q hq').imp_right
          rintro ⟨grp', hgrp', hmem⟩
          exact ⟨grp', List.mem_cons_of_mem _ hgrp', hmem⟩
    · have hpush : buf ++ [p] <:+ seen ++ [p] := by
        obtain ⟨u, rfl⟩ := hbuf
        exact ⟨u, by simp⟩
      obtain ⟨new, hnew, hgrp, hall⟩ := ih hpush h
      refine ⟨p :: new, (List.prefix_cons_inj p).mpr hnew, by simpa using hgrp, fun q hq => ?_⟩
      exact hall q (by simpa using hq)

theorem sublist_of_mem_groups {target overlap : Nat} {ps grp : List (List α)}
    (h : grp ∈ groups target overlap [] ps) : grp.Sublist ps := by
  obtain ⟨before, after, hgroups⟩ := List.append_of_mem h
  obtain ⟨new, hnew, hgrp, -⟩ := groups_upto (List.suffix_refl []) hgroups
  exact hgrp.sublist.trans hnew.sublist

/-! ## Where the cuts are -/

/-- Paragraphs that fit the target together stay in the buffer. -/
theorem groups_append {target : Nat} (overlap : Nat) (buf xs ys : List (List α))
    (h : joinedLength (buf ++ xs) ≤ target) :
    groups target overlap buf (xs ++ ys) = groups target overlap (buf ++ xs) ys := by
  induction xs generalizing buf with
  | nil => rw [List.append_nil, List.nil_append]
  | cons x xs ih =>
    have hsame : buf ++ [x] ++ xs = buf ++ x :: xs := by simp
    have hfits : ¬ (buf ≠ [] ∧ target < joinedLength (buf ++ [x])) := by
      have hle := joinedLength_le_append (buf ++ [x]) xs
      rw [hsame] at hle
      omega
    rw [List.cons_append, groups, if_neg hfits, ih _ (by rwa [hsame]), hsame]

theorem groups_of_fits {target : Nat} (overlap : Nat) {ps : List (List α)} (hne : ps ≠ [])
    (h : joinedLength ps ≤ target) : groups target overlap [] ps = [ps] := by
  have happend := groups_append overlap [] ps [] h
  rwa [List.append_nil, groups, if_neg (by simpa using hne), List.nil_append] at happend

/-- With an overlap that carries everything a group ends where the target is exceeded. -/
theorem mem_groups_of_carried {target overlap : Nat} {buf xs ys : List (List α)} {p : List α}
    (hcost : cost (buf ++ xs) ≤ overlap) (hne : buf ++ xs ≠ [])
    (h : target < joinedLength (buf ++ xs ++ [p])) :
    buf ++ xs ∈ groups target overlap buf (xs ++ p :: ys) := by
  induction xs generalizing buf with
  | nil =>
    rw [List.append_nil] at hne h ⊢
    rw [List.nil_append, groups, if_pos ⟨hne, h⟩]
    exact List.mem_cons_self
  | cons x xs ih =>
    have hsame : buf ++ x :: xs = buf ++ [x] ++ xs := by simp
    rw [hsame] at hcost hne h ⊢
    have hmem := ih hcost hne h
    rw [List.cons_append, groups]
    split
    · have hcarried : carried overlap buf = buf := by
        apply carried_all
        rw [cost_append, cost_append] at hcost
        omega
      rw [hcarried]
      exact List.mem_cons_of_mem _ hmem
    · exact hmem

/-- The place where the target is exceeded. -/
theorem exists_overflow {target : Nat} {xs ys : List (List α)} (hxs : joinedLength xs ≤ target)
    (h : target < joinedLength (xs ++ ys)) : ∃ ys₁ p ys₂, ys = ys₁ ++ p :: ys₂ ∧
      joinedLength (xs ++ ys₁) ≤ target ∧ target < joinedLength (xs ++ ys₁ ++ [p]) := by
  induction ys generalizing xs with
  | nil =>
    rw [List.append_nil] at h
    omega
  | cons y ys ih =>
    by_cases hy : target < joinedLength (xs ++ [y])
    · exact ⟨[], y, ys, rfl, by rwa [List.append_nil], by rwa [List.append_nil]⟩
    · have hsame : xs ++ y :: ys = xs ++ [y] ++ ys := by simp
      rw [hsame] at h
      obtain ⟨ys₁, p, ys₂, rfl, hle, hlt⟩ := ih (by omega) h
      refine ⟨y :: ys₁, p, ys₂, rfl, ?_, ?_⟩
      · rwa [List.append_assoc, List.singleton_append] at hle
      · rwa [List.append_assoc xs, List.singleton_append] at hlt

/-- When the paragraphs exceed the target, for some overlap a group ends or starts at any
place between them. -/
theorem exists_cut {target : Nat} {xs ys : List (List α)} (hxs : xs ≠ []) (hys : ys ≠ [])
    (h : target < joinedLength (xs ++ ys)) : ∃ overlap,
      xs ∈ groups target overlap [] (xs ++ ys) ∨
        ∃ grp, grp <+: ys ∧ grp ≠ [] ∧ grp ∈ groups target overlap [] (xs ++ ys) := by
  obtain ⟨y, ys, rfl⟩ := List.exists_cons_of_ne_nil hys
  by_cases hy : target < joinedLength (xs ++ [y])
  · have hcost : cost ([] ++ xs) ≤ cost xs := Nat.le_refl _
    exact ⟨cost xs, .inl (mem_groups_of_carried hcost hxs hy)⟩
  · have hsame : xs ++ y :: ys = xs ++ [y] ++ ys := by simp
    rw [hsame] at h ⊢
    obtain ⟨ys₁, p, ys₂, rfl, hle, hlt⟩ := exists_overflow (by omega) h
    -- The buffer is full at `p`, and carries over exactly what follows `xs`.
    refine ⟨cost (y :: ys₁), .inr ?_⟩
    have hne : xs ++ [y] ++ ys₁ ≠ [] := by simp
    have hcarried : carried (cost (y :: ys₁)) (xs ++ [y] ++ ys₁) = y :: ys₁ := by
      rw [List.append_assoc, List.singleton_append]
      exact carried_cost xs (y :: ys₁) hxs
    have hbuf : y :: ys₁ ++ [p] ≠ [] := by simp
    obtain ⟨more, hmore, hmem⟩ := exists_group_of_buffer target (cost (y :: ys₁)) hbuf ys₂
    refine ⟨y :: ys₁ ++ [p] ++ more, ?_, by simp, ?_⟩
    · obtain ⟨rest, rfl⟩ := hmore
      exact ⟨rest, by simp⟩
    · have hgroups := groups_append (cost (y :: ys₁)) [] (xs ++ [y] ++ ys₁) (p :: ys₂) hle
      rw [List.append_assoc] at hgroups
      rw [hgroups, List.nil_append, groups, if_pos ⟨hne, hlt⟩, hcarried]
      exact List.mem_cons_of_mem _ hmem

end WebSpider.Vectors
