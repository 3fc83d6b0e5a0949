/-!
# Attempts until one decides

A loop of attempts ends at the first one that decides, or when no attempts are left.
`firstDecision` names that attempt; a retry loop is right when it gives what its first
decision says, whatever failed before it.
-/

namespace WebSpider.Effects

variable {α : Type}

/-- The first of `left` attempts, from the number `start` on, that decides. -/
def firstDecision (decides : Nat → Option α) (start : Nat) : Nat → Option (Nat × α)
  | 0 => none
  | left + 1 =>
    match decides start with
    | some a => some (start, a)
    | none => firstDecision decides (start + 1) left

variable {decides : Nat → Option α}

theorem firstDecision_eq_none {start left : Nat} :
    firstDecision decides start left = none ↔
      ∀ k, start ≤ k → k < start + left → decides k = none := by
  induction left generalizing start with
  | zero => exact ⟨fun _ k hk hlt => by omega, fun _ => rfl⟩
  | succ left ih =>
    rw [firstDecision]
    cases hstart : decides start with
    | some a =>
      apply iff_of_false (by simp)
      intro h
      rw [h start (Nat.le_refl start) (by omega)] at hstart
      cases hstart
    | none =>
      rw [ih]
      constructor
      · intro h k hk hlt
        by_cases hsame : k = start
        · rw [hsame, hstart]
        · exact h k (by omega) (by omega)
      · exact fun h k hk hlt => h k (by omega) (by omega)

theorem firstDecision_eq_some {start left k : Nat} {a : α} :
    firstDecision decides start left = some (k, a) ↔
      (start ≤ k ∧ k < start + left) ∧ decides k = some a ∧
        ∀ j, start ≤ j → j < k → decides j = none := by
  induction left generalizing start with
  | zero =>
    constructor
    · intro h
      cases h
    · intro h
      omega
  | succ left ih =>
    rw [firstDecision]
    cases hstart : decides start with
    | some b =>
      constructor
      · intro h
        cases h
        exact ⟨⟨Nat.le_refl _, by omega⟩, hstart, fun j hj hlt => by omega⟩
      · rintro ⟨⟨hle, hlt⟩, hk, hbefore⟩
        by_cases hsame : k = start
        · subst hsame
          rw [hstart] at hk
          cases hk
          rfl
        · have hnone := hbefore start (Nat.le_refl start) (by omega)
          rw [hnone] at hstart
          cases hstart
    | none =>
      rw [ih]
      constructor
      · rintro ⟨⟨hle, hlt⟩, hk, hbefore⟩
        refine ⟨⟨by omega, by omega⟩, hk, fun j hj hjk => ?_⟩
        by_cases hsame : j = start
        · rw [hsame, hstart]
        · exact hbefore j (by omega) hjk
      · rintro ⟨⟨hle, hlt⟩, hk, hbefore⟩
        have hne : k ≠ start := by
          rintro rfl
          rw [hstart] at hk
          cases hk
        exact ⟨⟨by omega, by omega⟩, hk, fun j hj hjk => hbefore j (by omega) hjk⟩

end WebSpider.Effects
