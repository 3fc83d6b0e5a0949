import Mathlib.Data.List.Infix

/-!
# Outlines

The entries of an outline have levels. The parent of an entry is the nearest entry
before it with a smaller level, and its chain is its ancestors and itself. Entries
are listed nearest first, so the tail of a list is what precedes its head.

A reader that keeps a stack of titles and cuts it by the number of the level
(`stackAt`) has the chain exactly as long as every entry that is not deeper than the
one before it has an ancestor of each smaller level (`stackAt_eq_chain_iff`).
-/

namespace WebSpider.Lists

variable {β : Type}

/-- The ancestors of an entry of the given level after the given entries, outermost first. -/
def ancestors : List (Nat × β) → Nat → List β
  | [], _ => []
  | (m, title) :: before, level =>
    if m < level then ancestors before m ++ [title] else ancestors before level

/-- The ancestors of the last entry, and the entry. -/
def chain : List (Nat × β) → List β
  | [] => []
  | (level, title) :: before => ancestors before level ++ [title]

/-- The stack after the last entry: the stack before it is cut to one title fewer
than the level. -/
def stackAt : List (Nat × β) → List β
  | [] => []
  | (level, title) :: before => (stackAt before).take (level - 1) ++ [title]

/-- The last entry is deeper than the one before it, or has an ancestor of each
smaller level. -/
def Stepwise : List (Nat × β) → Prop
  | (level, _) :: (m, title) :: before =>
    level ≤ m → (ancestors ((m, title) :: before) level).length = level - 1
  | _ => True

/-! ## Ancestors -/

/-- The ancestors at a smaller level are among the first ones of those at a greater. -/
theorem ancestors_prefix (before : List (Nat × β)) {level m : Nat} (h : level ≤ m) :
    ancestors before level <+: ancestors before m := by
  induction before generalizing level m with
  | nil => exact List.prefix_refl _
  | cons entry before ih =>
    obtain ⟨k, title⟩ := entry
    rw [ancestors, ancestors]
    by_cases hlevel : k < level
    · rw [if_pos hlevel, if_pos (by omega)]
    · rw [if_neg hlevel]
      split
      · exact (ih (by omega)).trans (List.prefix_append _ _)
      · exact ih h

theorem length_ancestors_le {before : List (Nat × β)} (hpos : ∀ entry ∈ before, 1 ≤ entry.1)
    (level : Nat) : (ancestors before level).length ≤ level - 1 := by
  induction before generalizing level with
  | nil => exact Nat.zero_le _
  | cons entry before ih =>
    obtain ⟨k, title⟩ := entry
    have hk : 1 ≤ k := hpos _ List.mem_cons_self
    have hrest := fun level => ih (fun e he => hpos e (List.mem_cons_of_mem _ he)) level
    rw [ancestors]
    split
    · have hle := hrest k
      rw [List.length_append, List.length_singleton]
      omega
    · exact hrest level

/-- An entry deeper than the last one has it for its parent. -/
theorem ancestors_of_lt {m level : Nat} {title : β} {before : List (Nat × β)} (h : m < level) :
    ancestors ((m, title) :: before) level = chain ((m, title) :: before) := if_pos h

/-- The ancestors of an entry that is not deeper are some of those of the last one. -/
theorem ancestors_prefix_of_le {m level : Nat} (title : β) (before : List (Nat × β))
    (h : level ≤ m) : ancestors ((m, title) :: before) level <+: ancestors before m := by
  rw [ancestors, if_neg (by omega)]
  exact ancestors_prefix before h

/-- Entries between two of one level, none of them smaller, do not change the ancestors. -/
theorem ancestors_append {between : List (Nat × β)} {level : Nat}
    (h : ∀ entry ∈ between, level ≤ entry.1) (before : List (Nat × β)) :
    ancestors (between ++ before) level = ancestors before level := by
  induction between with
  | nil => rfl
  | cons entry between ih =>
    obtain ⟨k, title⟩ := entry
    have hk : level ≤ k := h _ List.mem_cons_self
    rw [List.cons_append, ancestors, if_neg (by omega)]
    exact ih fun e he => h e (List.mem_cons_of_mem _ he)

/-! ## The stack -/

/-- Where the stack is the chain, cutting it gives the ancestors exactly at a stepwise entry. -/
theorem take_chain_iff {before : List (Nat × β)} (hpos : ∀ entry ∈ before, 1 ≤ entry.1)
    (level : Nat) (title : β) : (chain before).take (level - 1) = ancestors before level ↔
      Stepwise ((level, title) :: before) := by
  cases before with
  | nil =>
    rw [chain, List.take_nil]
    exact ⟨fun _ => trivial, fun _ => rfl⟩
  | cons entry before =>
    obtain ⟨m, other⟩ := entry
    rw [Stepwise]
    by_cases hdeeper : m < level
    · have hlength := length_ancestors_le hpos level
      rw [ancestors_of_lt hdeeper] at hlength ⊢
      rw [List.take_of_length_le hlength]
      exact ⟨fun _ hle => absurd hle (by omega), fun _ => rfl⟩
    · have hle : level ≤ m := by omega
      have hprefix := ancestors_prefix_of_le other before hle
      have hlt : (ancestors ((m, other) :: before) level).length <
          (chain ((m, other) :: before)).length := by
        rw [chain, List.length_append, List.length_singleton]
        exact Nat.lt_succ_of_le hprefix.length_le
      have hprefix' : ancestors ((m, other) :: before) level <+: chain ((m, other) :: before) :=
        hprefix.trans (List.prefix_append _ _)
      constructor
      · intro heq _
        have hlength := congrArg List.length heq
        rw [List.length_take] at hlength
        omega
      · intro h
        rw [← h hle]
        exact (List.prefix_iff_eq_take.mp hprefix').symm

theorem stackAt_cons_iff {before : List (Nat × β)} (hpos : ∀ entry ∈ before, 1 ≤ entry.1)
    (hbefore : stackAt before = chain before) (level : Nat) (title : β) :
    stackAt ((level, title) :: before) = chain ((level, title) :: before) ↔
      Stepwise ((level, title) :: before) := by
  rw [stackAt, chain, hbefore, List.append_left_inj]
  exact take_chain_iff hpos level title

/-- The stack is the chain after every entry exactly when every entry is stepwise. -/
theorem stackAt_eq_chain_iff {entries : List (Nat × β)} (hpos : ∀ entry ∈ entries, 1 ≤ entry.1) :
    (∀ s, s <:+ entries → stackAt s = chain s) ↔ ∀ s, s <:+ entries → Stepwise s := by
  induction entries with
  | nil =>
    constructor
    · intro _ s hs
      rw [List.suffix_nil.mp hs]
      trivial
    · intro _ s hs
      rw [List.suffix_nil.mp hs]
      rfl
  | cons entry entries ih =>
    obtain ⟨level, title⟩ := entry
    have hpos' : ∀ e ∈ entries, 1 ≤ e.1 := fun e he => hpos e (List.mem_cons_of_mem _ he)
    have ih := ih hpos'
    have hcons : ∀ P : List (Nat × β) → Prop, (∀ s, s <:+ (level, title) :: entries → P s) ↔
        P ((level, title) :: entries) ∧ ∀ s, s <:+ entries → P s := by
      intro P
      simp only [List.suffix_cons_iff, forall_eq_or_imp]
    rw [hcons, hcons, ← ih]
    constructor
    · rintro ⟨hlast, hrest⟩
      exact ⟨(stackAt_cons_iff hpos' (hrest _ (List.suffix_refl _)) level title).mp hlast, hrest⟩
    · rintro ⟨hlast, hrest⟩
      exact ⟨(stackAt_cons_iff hpos' (hrest _ (List.suffix_refl _)) level title).mpr hlast, hrest⟩

end WebSpider.Lists
