import WebSpider.Text.Lines

/-!
# Trimming and partition

What `trimBy` does to a text whose ends are known, and `str.partition`: the text
before the first occurrence of a separator and the text after it.
-/

namespace WebSpider.Text

/-! ## Trimming -/

section Trim

variable {α : Type} {p : α → Bool}

/-- Every character of the text satisfies `p`. -/
abbrev AllOf (p : α → Bool) (s : List α) : Prop := ∀ c ∈ s, p c = true

theorem trimBy_append_left {lead : List α} (hlead : AllOf p lead) (s : List α) :
    trimBy p (lead ++ s) = trimBy p s := by
  rw [trimBy, List.dropWhile_append_of_pos hlead]
  rfl

theorem rdropWhile_append_right {trail : List α} (htrail : AllOf p trail) (s : List α) :
    (s ++ trail).rdropWhile p = s.rdropWhile p := by
  rw [List.rdropWhile, List.rdropWhile, List.reverse_append, List.dropWhile_append_of_pos]
  exact fun c hc => htrail c (List.mem_reverse.mp hc)

theorem trimBy_append_right {trail : List α} (htrail : AllOf p trail) (s : List α) :
    trimBy p (s ++ trail) = trimBy p s := by
  by_cases hs : AllOf p s
  · have hall : AllOf p (s ++ trail) := by
      intro c hc
      rcases List.mem_append.mp hc with hc | hc
      · exact hs c hc
      · exact htrail c hc
    rw [trimBy, trimBy, List.dropWhile_eq_nil_iff.mpr hall, List.dropWhile_eq_nil_iff.mpr hs]
  · have hne : (s.dropWhile p).isEmpty = false := by
      rw [List.isEmpty_eq_false_iff]
      exact fun h => hs (List.dropWhile_eq_nil_iff.mp h)
    rw [trimBy, List.dropWhile_append, hne]
    exact rdropWhile_append_right htrail _

/-- A text between characters that do not satisfy `p` is not changed. -/
theorem trimBy_of_ends {c d : α} {rest init : List α} {s : List α} (hhead : s = c :: rest)
    (hc : p c = false) (hlast : s = init ++ [d]) (hd : p d = false) : trimBy p s = s := by
  have hdrop : s.dropWhile p = s := by
    rw [hhead, List.dropWhile_cons_of_neg (by rw [hc]; exact Bool.false_ne_true)]
  rw [trimBy, hdrop, hlast]
  exact List.rdropWhile_concat_neg p init d (by rw [hd]; exact Bool.false_ne_true)

/-- A text is its trimmed core between characters that satisfy `p`. -/
theorem exists_trimBy (p : α → Bool) (s : List α) : ∃ lead trail, s = lead ++ trimBy p s ++ trail ∧
    AllOf p lead ∧ AllOf p trail := by
  refine ⟨s.takeWhile p, (s.dropWhile p).rtakeWhile p, ?_, fun c hc => ?_, fun c hc => ?_⟩
  · rw [trimBy, List.append_assoc, List.rdropWhile_append_rtakeWhile, List.takeWhile_append_dropWhile]
  · exact List.mem_takeWhile_imp hc
  · exact List.mem_rtakeWhile_imp hc

/-- The ends of what is left by trimming. -/
theorem trimBy_ends (p : α → Bool) {s : List α} (hne : trimBy p s ≠ []) :
    (∃ c rest, trimBy p s = c :: rest ∧ p c = false) ∧
      ∃ init d, trimBy p s = init ++ [d] ∧ p d = false := by
  constructor
  · obtain ⟨c, rest, hcons⟩ := List.exists_cons_of_ne_nil hne
    refine ⟨c, rest, hcons, ?_⟩
    obtain ⟨trail, htrail⟩ := List.rdropWhile_prefix p (l := s.dropWhile p)
    have hdrop : s.dropWhile p = c :: (rest ++ trail) := by
      rw [← htrail]
      exact congrArg (· ++ trail) hcons
    have hhead := List.head?_dropWhile_not p s
    rw [hdrop] at hhead
    simpa using hhead
  · refine ⟨_, _, (List.dropLast_append_getLast hne).symm, ?_⟩
    have hlast := List.rdropWhile_last_not p (s.dropWhile p) hne
    exact (Bool.not_eq_true _).mp hlast

theorem trimBy_idempotent (p : α → Bool) (s : List α) : trimBy p (trimBy p s) = trimBy p s := by
  by_cases hne : trimBy p s = []
  · rw [hne]
    rfl
  · obtain ⟨⟨c, rest, hhead, hc⟩, init, d, hlast, hd⟩ := trimBy_ends p hne
    exact trimBy_of_ends hhead hc hlast hd

/-- Trimming less first makes no difference. -/
theorem trimBy_trimBy {q : α → Bool} (h : ∀ c, q c = true → p c = true) (s : List α) :
    trimBy p (trimBy q s) = trimBy p s := by
  obtain ⟨lead, trail, hs, hlead, htrail⟩ := exists_trimBy q s
  have hs' : trimBy p s = trimBy p (lead ++ trimBy q s ++ trail) := congrArg _ hs
  rw [hs', trimBy_append_right fun c hc => h c (htrail c hc),
    trimBy_append_left fun c hc => h c (hlead c hc)]

theorem trimBy_eq_nil_iff {s : List α} : trimBy p s = [] ↔ AllOf p s := by
  constructor
  · intro h
    obtain ⟨lead, trail, hs, hlead, htrail⟩ := exists_trimBy p s
    rw [h, List.append_nil] at hs
    rw [hs]
    intro c hc
    rcases List.mem_append.mp hc with hc | hc
    · exact hlead c hc
    · exact htrail c hc
  · intro h
    rw [trimBy, List.dropWhile_eq_nil_iff.mpr h]
    rfl

/-- What is trimmed at the left ends before the first character not satisfying `p`. -/
theorem prefix_of_append_eq {lead t u w : List α} {c : α} (hlead : AllOf p lead)
    (hc : p c = false) (h : lead ++ t = u ++ c :: w) : ∃ u', u = lead ++ u' := by
  rcases List.append_eq_append_iff.mp h with ⟨u', hu, -⟩ | ⟨v, hlead', hv⟩
  · exact ⟨u', hu⟩
  · cases v with
    | nil => exact ⟨[], by rw [hlead', List.append_nil, List.append_nil]⟩
    | cons d v =>
      rw [List.cons_append] at hv
      obtain ⟨rfl, -⟩ := List.cons.inj hv
      have hd := hlead c (by rw [hlead']; exact List.mem_append_right _ List.mem_cons_self)
      rw [hc] at hd
      cases hd

/-- A part of the text between characters that do not satisfy `p` is kept whole. -/
theorem exists_trimBy_of_ends {c d : α} {s u y v rest init : List α} (hs : s = u ++ y ++ v)
    (hhead : y = c :: rest) (hc : p c = false) (hlast : y = init ++ [d]) (hd : p d = false) :
    ∃ u' v', trimBy p s = u' ++ y ++ v' ∧ u' <:+ u ∧ v' <+: v := by
  obtain ⟨lead, trail, hcore, hlead, htrail⟩ := exists_trimBy p s
  have heq : lead ++ (trimBy p s ++ trail) = u ++ c :: (rest ++ v) := by
    rw [← List.append_assoc, ← hcore, hs, hhead, List.append_assoc, List.cons_append]
  obtain ⟨u', rfl⟩ := prefix_of_append_eq hlead hc heq
  -- The same from the right, on the reversed texts.
  have heq' : trail.reverse ++ (trimBy p s).reverse ++ lead.reverse =
      v.reverse ++ d :: (init.reverse ++ (lead ++ u').reverse) := by
    have hrev : (lead ++ trimBy p s ++ trail).reverse = (lead ++ u' ++ (init ++ [d]) ++ v).reverse := by
      rw [← hcore, hs, hlast]
    simpa using hrev
  rw [List.append_assoc] at heq'
  obtain ⟨v', hv⟩ := prefix_of_append_eq (fun x hx => htrail x (List.mem_reverse.mp hx)) hd heq'
  have hv' : v = v'.reverse ++ trail := by
    rw [← List.reverse_reverse v, hv, List.reverse_append, List.reverse_reverse]
  refine ⟨u', v'.reverse, ?_, List.suffix_append _ _, hv' ▸ List.prefix_append _ _⟩
  rw [hcore, hv'] at hs
  have hsame : lead ++ (trimBy p s ++ trail) = lead ++ (u' ++ y ++ v'.reverse ++ trail) := by
    simpa using hs
  exact List.append_cancel_right (List.append_cancel_left hsame)

theorem length_trimBy_le (p : α → Bool) (s : List α) : (trimBy p s).length ≤ s.length := by
  obtain ⟨lead, trail, hs, -, -⟩ := exists_trimBy p s
  have hlength := congrArg List.length hs
  rw [List.length_append, List.length_append] at hlength
  omega

end Trim

/-! ## Partition -/

section Partition

variable {α : Type} [DecidableEq α]

/-- `text.partition(sep)`, when the separator occurs. -/
def partition (sep : List α) : List α → Option (List α × List α)
  | [] => if sep = [] then some ([], []) else none
  | c :: s =>
    if sep <+: c :: s then some ([], (c :: s).drop sep.length)
    else (partition sep s).map fun halves => (c :: halves.1, halves.2)

variable {sep : List α}

theorem partition_sound {s before rest : List α} (h : partition sep s = some (before, rest)) :
    s = before ++ sep ++ rest := by
  induction s generalizing before with
  | nil =>
    rw [partition] at h
    split at h
    · rename_i hsep
      cases h
      rw [hsep]
      rfl
    · cases h
  | cons c s ih =>
    rw [partition] at h
    split at h
    · rename_i hpre
      obtain ⟨u, hu⟩ := hpre
      cases h
      rw [← hu, List.drop_left]
      rfl
    · obtain ⟨⟨u, v⟩, huv, heq⟩ := Option.map_eq_some_iff.mp h
      cases heq
      rw [ih huv]
      rfl

theorem partition_eq_none {s : List α} : partition sep s = none ↔ ¬ sep <:+: s := by
  induction s with
  | nil =>
    rw [partition, List.infix_nil]
    split
    · rename_i h
      simp [h]
    · rename_i h
      simp [h]
  | cons c s ih =>
    rw [partition, List.infix_cons_iff]
    split
    · rename_i h
      simp [h]
    · rename_i h
      simp [h, ih]

/-- The first occurrence is after the text `u`, when none starts within it. -/
theorem partition_append {u v : List α}
    (h : ∀ u₁ u₂, u = u₁ ++ u₂ → u₂ ≠ [] → ¬ sep <+: u₂ ++ sep ++ v) :
    partition sep (u ++ sep ++ v) = some (u, v) := by
  induction u with
  | nil =>
    rw [List.nil_append]
    cases hs : sep ++ v with
    | nil =>
      obtain ⟨rfl, rfl⟩ := List.append_eq_nil_iff.mp hs
      rfl
    | cons c s =>
      rw [partition, if_pos ⟨v, hs⟩, ← hs, List.drop_left]
  | cons c u ih =>
    have hnot : ¬ sep <+: c :: (u ++ sep ++ v) := h [] (c :: u) rfl (List.cons_ne_nil _ _)
    rw [List.cons_append, List.cons_append, partition, if_neg hnot, ih]
    · rfl
    · exact fun u₁ u₂ hu hne => h (c :: u₁) u₂ (by rw [hu]; rfl) hne

/-- The first occurrence is no later than any other. -/
theorem partition_le {u v : List α} : ∃ u' v', partition sep (u ++ sep ++ v) = some (u', v') ∧
    u'.length ≤ u.length := by
  induction u with
  | nil =>
    rw [List.nil_append]
    cases hs : sep ++ v with
    | nil =>
      obtain ⟨rfl, rfl⟩ := List.append_eq_nil_iff.mp hs
      exact ⟨[], [], rfl, Nat.le_refl _⟩
    | cons c s =>
      rw [partition, if_pos ⟨v, hs⟩]
      exact ⟨[], _, rfl, Nat.le_refl _⟩
  | cons c u ih =>
    obtain ⟨u', v', heq, hle⟩ := ih
    rw [List.cons_append, List.cons_append, partition, heq]
    split
    · exact ⟨[], _, rfl, Nat.zero_le _⟩
    · exact ⟨c :: u', v', rfl, Nat.succ_le_succ hle⟩

end Partition

end WebSpider.Text
