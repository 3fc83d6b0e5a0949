import Mathlib.Algebra.BigOperators.Group.Multiset.Basic
import Mathlib.Algebra.Order.BigOperators.Group.Multiset
import Mathlib.Algebra.Order.Group.Abs
import Mathlib.Algebra.Order.Ring.Int

/-!
# Majorities

Each element of a multiset votes for or against; the margin is the sum of the votes. A
majority survives a change of the voters that is smaller than its margin
(`abs_margin_le_of_flip`).
-/

namespace WebSpider.Bits

variable {α : Type}

/-- A vote for or against. -/
def ballot (b : Bool) : ℤ := if b then 1 else -1

theorem abs_ballot (b : Bool) : |ballot b| = 1 := by
  cases b
  · rfl
  · rfl

/-- The votes for less the votes against. -/
def margin (p : α → Bool) (s : Multiset α) : ℤ := (s.map fun a => ballot (p a)).sum

theorem margin_add (p : α → Bool) (s t : Multiset α) :
    margin p (s + t) = margin p s + margin p t := by
  rw [margin, Multiset.map_add, Multiset.sum_add]
  rfl

theorem margin_cons (p : α → Bool) (a : α) (xs : List α) :
    margin p (a :: xs : List α) = ballot (p a) + margin p xs := by
  rw [margin, Multiset.map_coe, List.map_cons, Multiset.sum_coe, List.sum_cons]
  rfl

theorem abs_margin_le (p : α → Bool) (s : Multiset α) : |margin p s| ≤ s.card := by
  have hle : |margin p s| ≤ ((s.map fun a => ballot (p a)).map abs).sum :=
    Multiset.abs_sum_le_sum_abs
  have hones : (s.map fun a => ballot (p a)).map abs = s.map fun _ => (1 : ℤ) := by
    rw [Multiset.map_map]
    exact Multiset.map_congr rfl fun a _ => abs_ballot (p a)
  rw [hones, Multiset.map_const', Multiset.sum_replicate, nsmul_one] at hle
  exact hle

/-- Who wins changes only when the margin is at most the number of changes. A tie is
no majority. -/
theorem abs_margin_le_of_flip {p : α → Bool} {kept removed added : Multiset α}
    (h : ¬ (0 < margin p (kept + removed) ↔ 0 < margin p (kept + added))) :
    |margin p (kept + removed)| ≤ removed.card + added.card := by
  rw [margin_add, margin_add] at h
  have hremoved := abs_le.mp (abs_margin_le p removed)
  have hadded := abs_le.mp (abs_margin_le p added)
  rw [margin_add, abs_le]
  by_cases hpos : 0 < margin p kept + margin p removed
  · have hlost : ¬ 0 < margin p kept + margin p added := fun hwon => h (iff_of_true hpos hwon)
    omega
  · have hwon : 0 < margin p kept + margin p added := by
      by_contra hlost
      exact h (iff_of_false hpos hlost)
    omega

end WebSpider.Bits
