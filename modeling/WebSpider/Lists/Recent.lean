import Mathlib.Data.List.Dedup
import Mathlib.Data.List.Induction
import Mathlib.Data.List.Nodup
import Mathlib.Data.List.Perm.Subperm

/-!
# Recency

A sequence of uses orders its keys by their last use. A cache that moves a used entry to
the front, puts a new one there and drops what is over its size holds the entries of the
most recent keys (`take_recent_of_mem`, `take_recent_of_not_mem`), and a key is one of the
`n` most recent exactly when fewer than `n` other keys have been used since
(`mem_take_recent`).
-/

namespace WebSpider.Lists

variable {κ β : Type} [DecidableEq κ]

/-- The keys by their last use, the latest first. -/
def recent (uses : List κ) : List κ := uses.foldl (fun ks k => k :: ks.erase k) []

theorem recent_concat (uses : List κ) (k : κ) :
    recent (uses ++ [k]) = k :: (recent uses).erase k := by
  simp [recent]

theorem nodup_recent (uses : List κ) : (recent uses).Nodup := by
  induction uses using List.reverseRecOn with
  | nil => exact List.nodup_nil
  | append_singleton uses k ih =>
    rw [recent_concat, List.nodup_cons]
    exact ⟨ih.not_mem_erase, ih.erase k⟩

theorem mem_recent {uses : List κ} {k : κ} : k ∈ recent uses ↔ k ∈ uses := by
  induction uses using List.reverseRecOn with
  | nil => exact Iff.rfl
  | append_singleton uses k' ih =>
    rw [recent_concat, List.mem_cons, (nodup_recent uses).mem_erase_iff, ih, List.mem_append,
      List.mem_singleton]
    by_cases hk : k = k'
    · simp [hk]
    · simp [hk]

/-! ## The most recent keys -/

/-- The keys used since the last use of a key come before it. -/
theorem recent_split (pre post : List κ) {k : κ} (hk : k ∉ post) :
    ∃ newer older, recent (pre ++ k :: post) = newer ++ k :: older ∧
      ∀ k', k' ∈ newer ↔ k' ∈ post := by
  induction post using List.reverseRecOn with
  | nil =>
    exact ⟨[], (recent pre).erase k, recent_concat pre k, fun k' => Iff.rfl⟩
  | append_singleton post k₀ ih =>
    rw [List.mem_append, not_or, List.mem_singleton] at hk
    obtain ⟨newer, older, hrecent, hmem⟩ := ih hk.1
    have hne : k ≠ k₀ := hk.2
    rw [← List.cons_append, ← List.append_assoc, recent_concat, hrecent]
    by_cases hk₀ : k₀ ∈ newer
    · refine ⟨k₀ :: newer.erase k₀, older, ?_, fun k' => ?_⟩
      · rw [List.erase_append_left _ hk₀]
        rfl
      · have hnodup : newer.Nodup := by
          have h := nodup_recent (pre ++ k :: post)
          rw [hrecent] at h
          exact (List.nodup_append.mp h).1
        rw [List.mem_cons, hnodup.mem_erase_iff, hmem, List.mem_append, List.mem_singleton]
        by_cases heq : k' = k₀
        · simp [heq]
        · simp [heq]
    · refine ⟨k₀ :: newer, older.erase k₀, ?_, fun k' => ?_⟩
      · rw [List.erase_append_right _ hk₀, List.erase_cons_tail (by simpa using hne)]
        rfl
      · rw [List.mem_cons, hmem, List.mem_append, List.mem_singleton]
        exact or_comm

/-- A key is among the `n` most recent when fewer than `n` others were used since. -/
theorem mem_take_recent {uses : List κ} {k : κ} {n : Nat} :
    k ∈ (recent uses).take n ↔
      ∃ pre post, uses = pre ++ k :: post ∧ k ∉ post ∧ post.dedup.length < n := by
  have hposition {pre post : List κ} (hk : k ∉ post) :
      k ∈ (recent (pre ++ k :: post)).take n ↔ post.dedup.length < n := by
    obtain ⟨newer, older, hrecent, hmem⟩ := recent_split pre post hk
    have hnodup := nodup_recent (pre ++ k :: post)
    rw [hrecent] at hnodup ⊢
    obtain ⟨hnewer, -, hdisjoint⟩ := List.nodup_append.mp hnodup
    have hperm : newer.Perm post.dedup := by
      rw [List.perm_ext_iff_of_nodup hnewer (List.nodup_dedup post)]
      intro k'
      rw [hmem, List.mem_dedup]
    have hnot : k ∉ newer := fun h => hk ((hmem k).mp h)
    rw [← hperm.length_eq, List.take_append, List.mem_append]
    constructor
    · rintro (h | h)
      · exact absurd (List.mem_of_mem_take h) hnot
      · by_contra hle
        rw [Nat.sub_eq_zero_of_le (by omega)] at h
        cases h
    · intro hlt
      right
      obtain ⟨m, hm⟩ := Nat.exists_eq_add_of_lt hlt
      rw [show n - newer.length = m + 1 by omega]
      exact List.mem_cons_self
  constructor
  · intro h
    have huse : k ∈ uses := mem_recent.mp (List.mem_of_mem_take h)
    obtain ⟨post, pre, hpost, hrev⟩ := List.eq_append_cons_of_mem (List.mem_reverse.mpr huse)
    have huses : uses = pre.reverse ++ k :: post.reverse := by
      have h := congrArg List.reverse hpost
      simpa using h
    have hnot : k ∉ post.reverse := by simpa using hrev
    refine ⟨pre.reverse, post.reverse, huses, hnot, ?_⟩
    rw [huses] at h
    exact (hposition hnot).mp h
  · rintro ⟨pre, post, rfl, hk, hlt⟩
    exact (hposition hk).mpr hlt

/-! ## The cache -/

/-- The entries with that of a key in front. -/
def refresh (k : κ) (b : β) (m : List (κ × β)) : List (κ × β) :=
  (k, b) :: m.filter fun e => decide (e.1 ≠ k)

/-- A new entry in front of those for which there is room. -/
def putNew (n : Nat) (k : κ) (b : β) (m : List (κ × β)) : List (κ × β) := ((k, b) :: m).take n

theorem keys_refresh {m : List (κ × β)} (h : (m.map Prod.fst).Nodup) (k : κ) (b : β) :
    (refresh k b m).map Prod.fst = k :: (m.map Prod.fst).erase k := by
  rw [refresh, List.map_cons, h.erase_eq_filter, List.filter_map]
  congr 2
  apply List.filter_congr
  intro e _
  simp [Bool.beq_eq_decide_eq, bne]

omit [DecidableEq κ] in
theorem keys_putNew (n : Nat) (k : κ) (b : β) (m : List (κ × β)) :
    (putNew n k b m).map Prod.fst = (k :: m.map Prod.fst).take n := by
  rw [putNew, List.map_take, List.map_cons]

theorem take_recent_of_mem {uses : List κ} {k : κ} {n : Nat} (h : k ∈ (recent uses).take n) :
    (recent (uses ++ [k])).take n = k :: ((recent uses).take n).erase k := by
  obtain ⟨m, rfl⟩ : ∃ m, n = m + 1 := by
    cases n with
    | zero => cases h
    | succ m => exact ⟨m, rfl⟩
  rw [recent_concat, List.take_succ_cons]
  congr 1
  -- Taking one key less after the key is gone is the same.
  obtain ⟨newer, older, hsplit, hnot⟩ := List.eq_append_cons_of_mem h
  have hrecent : recent uses = newer ++ k :: (older ++ (recent uses).drop (m + 1)) := by
    have happend := List.take_append_drop (m + 1) (recent uses)
    rw [hsplit, List.append_assoc] at happend
    exact happend.symm
  have hlength : newer.length + older.length + 1 = min (m + 1) (recent uses).length := by
    have hlen := congrArg List.length hsplit
    rw [List.length_take, List.length_append, List.length_cons] at hlen
    omega
  have herase : (recent uses).erase k = newer ++ (older ++ (recent uses).drop (m + 1)) := by
    conv_lhs => rw [hrecent]
    rw [List.erase_append_right _ hnot, List.erase_cons_head]
  rw [herase, hsplit, List.erase_append_right _ hnot, List.erase_cons_head, ← List.append_assoc]
  rcases Nat.le_total (m + 1) (recent uses).length with hfull | hshort
  · apply List.take_left'
    rw [List.length_append]
    omega
  · rw [List.drop_of_length_le hshort, List.append_nil]
    apply List.take_of_length_le
    rw [List.length_append]
    omega

theorem take_recent_of_not_mem {uses : List κ} {k : κ} {n : Nat}
    (h : k ∉ (recent uses).take n) :
    (recent (uses ++ [k])).take n = (k :: (recent uses).take n).take n := by
  cases n with
  | zero => rfl
  | succ m =>
    rw [recent_concat, List.take_succ_cons, List.take_succ_cons, List.take_take,
      Nat.min_eq_left (Nat.le_succ m)]
    congr 1
    have hnot : k ∉ (recent uses).take m := by
      intro hmem
      apply h
      exact List.mem_of_mem_take (i := m) (by rwa [List.take_take, Nat.min_eq_left (Nat.le_succ m)])
    have hsplit := List.take_append_drop m (recent uses)
    conv_lhs => rw [← hsplit]
    rw [List.erase_append_right _ hnot]
    rcases Nat.le_total m (recent uses).length with hfull | hshort
    · apply List.take_left'
      rw [List.length_take, Nat.min_eq_left hfull]
    · rw [List.drop_of_length_le hshort, List.erase_nil, List.append_nil, List.take_take,
        Nat.min_self]

end WebSpider.Lists
