import Mathlib.Algebra.BigOperators.Group.Finset.Piecewise
import Mathlib.Algebra.Ring.Nat

/-!
# Amounts under keys

A list of entries adds an amount to each key (`amount`). A function on keys that is zero
outside a finite set has a sum (`SumsTo`), and adding the entries of a list to it adds their
total to the sum (`SumsTo.add`).
-/

namespace WebSpider.Lists

variable {κ ι : Type} [DecidableEq κ] [DecidableEq ι]

/-- What the entries add to a key. -/
def amount (entries : List (κ × Nat)) (k : κ) : Nat :=
  ((entries.filter fun e => decide (e.1 = k)).map Prod.snd).sum

/-- What the entries add in all. -/
def total (entries : List (κ × Nat)) : Nat := (entries.map Prod.snd).sum

@[simp] theorem amount_nil (k : κ) : amount [] k = 0 := rfl

omit [DecidableEq κ] in
@[simp] theorem total_nil : total ([] : List (κ × Nat)) = 0 := rfl

omit [DecidableEq κ] in
theorem total_cons (e : κ × Nat) (entries : List (κ × Nat)) :
    total (e :: entries) = e.2 + total entries := List.sum_cons

theorem amount_cons (e : κ × Nat) (entries : List (κ × Nat)) (k : κ) :
    amount (e :: entries) k = (if e.1 = k then e.2 else 0) + amount entries k := by
  rw [amount, List.filter_cons]
  by_cases hk : e.1 = k
  · rw [if_pos (decide_eq_true hk), if_pos hk, List.map_cons, List.sum_cons]
    rfl
  · rw [if_neg (by simpa using hk), if_neg hk, Nat.zero_add]
    rfl

theorem amount_append (entries entries' : List (κ × Nat)) (k : κ) :
    amount (entries ++ entries') k = amount entries k + amount entries' k := by
  rw [amount, List.filter_append, List.map_append, List.sum_append]
  rfl

theorem amount_eq_zero {entries : List (κ × Nat)} {k : κ} (h : k ∉ entries.map Prod.fst) :
    amount entries k = 0 := by
  have hnil : entries.filter (fun e => decide (e.1 = k)) = [] := by
    refine List.filter_eq_nil_iff.mpr fun e he hk => h ?_
    rw [← of_decide_eq_true hk]
    exact List.mem_map_of_mem he
  rw [amount, hnil]
  rfl

theorem amount_perm {entries entries' : List (κ × Nat)} (h : entries.Perm entries') (k : κ) :
    amount entries k = amount entries' k := ((h.filter _).map Prod.snd).sum_eq

omit [DecidableEq κ] in
theorem total_perm {entries entries' : List (κ × Nat)} (h : entries.Perm entries') :
    total entries = total entries' := (h.map Prod.snd).sum_eq

/-- Renaming the keys. -/
theorem amount_map {f : κ → ι} (hf : f.Injective) (entries : List (κ × Nat)) (k : κ) :
    amount (entries.map fun e => (f e.1, e.2)) (f k) = amount entries k := by
  induction entries with
  | nil => rfl
  | cons e entries ih =>
    rw [List.map_cons, amount_cons, amount_cons, ih]
    simp only [hf.eq_iff]

omit [DecidableEq κ] in
theorem amount_map_of_ne {f : κ → ι} {i : ι} (hf : ∀ k, f k ≠ i) (entries : List (κ × Nat)) :
    amount (entries.map fun e => (f e.1, e.2)) i = 0 := by
  apply amount_eq_zero
  intro hmem
  rw [List.map_map] at hmem
  obtain ⟨e, -, heq⟩ := List.mem_map.mp hmem
  exact hf e.1 heq

/-! ## Sums over keys -/

omit [DecidableEq κ] in
/-- The values of a function that is zero outside a finite set add up to `n`. -/
def SumsTo (f : κ → Nat) (n : Nat) : Prop :=
  ∃ keys : Finset κ, (∀ k, k ∉ keys → f k = 0) ∧ ∑ k ∈ keys, f k = n

theorem SumsTo.add_at {f : κ → Nat} {n : Nat} (h : SumsTo f n) (k : κ) (m : Nat) :
    SumsTo (fun k' => f k' + if k = k' then m else 0) (n + m) := by
  obtain ⟨keys, hzero, hsum⟩ := h
  refine ⟨insert k keys, fun k' hk' => ?_, ?_⟩
  · rw [Finset.mem_insert, not_or] at hk'
    change (f k' + if k = k' then m else 0) = 0
    rw [hzero k' hk'.2, if_neg (Ne.symm hk'.1)]
  · have hold : ∑ k' ∈ insert k keys, f k' = n := by
      rw [← hsum]
      exact Finset.sum_insert_of_eq_zero_if_notMem (hzero k)
    rw [Finset.sum_add_distrib, hold, Finset.sum_ite_eq, if_pos (Finset.mem_insert_self k keys)]

theorem SumsTo.add {f : κ → Nat} {n : Nat} (h : SumsTo f n) (entries : List (κ × Nat)) :
    SumsTo (fun k => f k + amount entries k) (n + total entries) := by
  induction entries generalizing f n with
  | nil => exact h
  | cons e entries ih =>
    have hrest := ih (h.add_at e.1 e.2)
    simp only [Nat.add_assoc] at hrest
    simp only [amount_cons, total_cons]
    exact hrest

end WebSpider.Lists
