import Mathlib.Data.List.Forall2
import Mathlib.Data.List.Nodup
import Mathlib.Data.List.Pairwise
import Mathlib.Order.Bounds.Defs
import Mathlib.Order.WellFounded

/-!
# Items in order

`[x, y]` is a sublist of a list when `x` stands before `y` in it. Where such a pair is in
the concatenation of lists (`pair_flatten`), in a part of a list (`pair_of_sublist`) and
on both sides of a place (`pair_before`). When what occurs of the later item always
follows an occurrence of the earlier one, the first occurrences are in order
(`exists_firsts`).
-/

namespace WebSpider.Lists

variable {α β : Type}

/-! ## Pairs -/

theorem left_mem {x y : α} {xs : List α} (h : [x, y].Sublist xs) : x ∈ xs :=
  h.subset List.mem_cons_self

theorem right_mem {x y : α} {xs : List α} (h : [x, y].Sublist xs) : y ∈ xs :=
  h.subset (List.mem_cons_of_mem x List.mem_cons_self)

/-- A pair in two lists put together: in one of them, or across. -/
theorem pair_append {x y : α} {xs ys : List α} (h : [x, y].Sublist (xs ++ ys)) :
    [x, y].Sublist xs ∨ (x ∈ xs ∧ y ∈ ys) ∨ [x, y].Sublist ys := by
  obtain ⟨l₁, l₂, heq, h₁, h₂⟩ := List.sublist_append_iff.mp h
  rcases List.cons_eq_append_iff.mp heq with ⟨-, rfl⟩ | ⟨l, rfl, heq'⟩
  · exact .inr (.inr h₂)
  · rcases List.cons_eq_append_iff.mp heq' with ⟨rfl, rfl⟩ | ⟨l', rfl, heq₂⟩
    · exact .inr (.inl ⟨List.singleton_sublist.mp h₁, List.singleton_sublist.mp h₂⟩)
    · obtain ⟨rfl, -⟩ := List.append_eq_nil_iff.mp heq₂.symm
      exact .inl h₁

/-- A pair in a concatenation is in one of the lists, or in two that are a pair. -/
theorem pair_flatten {x y : α} {lists : List (List α)} (h : [x, y].Sublist lists.flatten) :
    (∃ l ∈ lists, [x, y].Sublist l) ∨ ∃ l l', [l, l'].Sublist lists ∧ x ∈ l ∧ y ∈ l' := by
  induction lists with
  | nil => cases h
  | cons l lists ih =>
    rw [List.flatten_cons] at h
    rcases pair_append h with h | ⟨hx, hy⟩ | h
    · exact .inl ⟨l, List.mem_cons_self, h⟩
    · obtain ⟨l', hl', hy⟩ := List.mem_flatten.mp hy
      exact .inr ⟨l, l', (List.singleton_sublist.mpr hl').cons_cons l, hx, hy⟩
    · rcases ih h with ⟨l', hl', h⟩ | ⟨l', l₂, h, hx, hy⟩
      · exact .inl ⟨l', List.mem_cons_of_mem _ hl', h⟩
      · exact .inr ⟨l', l₂, h.cons l, hx, hy⟩

/-- In a list without repetitions the order of two items is that of any part that holds them. -/
theorem pair_of_sublist {x y : α} {xs ys : List α} (hsub : xs.Sublist ys) (hnodup : ys.Nodup)
    (h : [x, y].Sublist ys) (hx : x ∈ xs) (hy : y ∈ xs) : [x, y].Sublist xs := by
  induction hsub with
  | slnil => exact h
  | cons z hsub ih =>
    rename_i xs ys
    obtain ⟨hz, hnodup⟩ := List.nodup_cons.mp hnodup
    rcases List.sublist_cons_iff.mp h with h | ⟨rest, heq, -⟩
    · exact ih hnodup h hx hy
    · exact absurd (hsub.subset ((List.cons.inj heq).1 ▸ hx)) hz
  | cons_cons z hsub ih =>
    rename_i xs ys
    obtain ⟨hz, hnodup⟩ := List.nodup_cons.mp hnodup
    have hne : y ≠ z → y ∈ xs := fun hne => (List.mem_cons.mp hy).resolve_left hne
    rcases List.sublist_cons_iff.mp h with h | ⟨rest, heq, hrest⟩
    · have hx' : x ∈ xs := (List.mem_cons.mp hx).resolve_left fun hxz => hz (hxz ▸ left_mem h)
      exact (ih hnodup h hx' (hne fun hyz => hz (hyz ▸ right_mem h))).cons z
    · obtain ⟨rfl, rfl⟩ := List.cons.inj heq
      have hy' := hne fun hyz => hz (hyz ▸ List.singleton_sublist.mp hrest)
      exact (List.singleton_sublist.mpr hy').cons_cons x

/-- What stands before an item is before every place after which the item is not. -/
theorem pair_before {x y : α} {xs ys : List α} (h : [x, y].Sublist (xs ++ ys)) (hy : y ∉ ys) :
    [x, y].Sublist xs := by
  rcases pair_append h with h | ⟨-, hmem⟩ | h
  · exact h
  · exact absurd hmem hy
  · exact absurd (right_mem h) hy

/-! ## Concatenations without repetitions -/

/-- An item is in one of the lists. -/
theorem eq_of_mem_both {lists : List (List α)} (h : lists.flatten.Nodup) {xs ys : List α}
    (hxs : xs ∈ lists) (hys : ys ∈ lists) {x : α} (hx : x ∈ xs) (hy : x ∈ ys) : xs = ys := by
  by_contra hne
  have hpairwise := (List.nodup_flatten.mp h).2
  have : Std.Symm (List.Disjoint (α := α)) := ⟨fun _ _ h _ ha ha' => h ha' ha⟩
  exact hpairwise.forall hxs hys hne hx hy

theorem nodup_of_flatten {lists : List (List α)} (h : lists.flatten.Nodup)
    (hne : ∀ xs ∈ lists, xs ≠ []) : lists.Nodup := by
  refine (List.nodup_flatten.mp h).2.imp_of_mem fun {xs ys} hxs _ hdisjoint heq => ?_
  obtain ⟨x, rest, rfl⟩ := List.exists_cons_of_ne_nil (hne xs hxs)
  exact hdisjoint List.mem_cons_self (heq ▸ List.mem_cons_self)

/-! ## Places in a concatenation -/

theorem exists_part {f : α → List β} {xs : List α} {k : Nat} {b : β}
    (h : (xs.flatMap f)[k]? = some b) : ∃ before x after i, xs = before ++ x :: after ∧
      (f x)[i]? = some b ∧ k = (before.flatMap f).length + i := by
  induction xs generalizing k with
  | nil => cases h
  | cons x xs ih =>
    rw [List.flatMap_cons, List.getElem?_append] at h
    split at h
    · exact ⟨[], x, xs, k, rfl, h, by simp⟩
    · obtain ⟨before, x', after, i, rfl, hb, hk⟩ := ih h
      refine ⟨x :: before, x', after, i, rfl, hb, ?_⟩
      rw [List.flatMap_cons, List.length_append]
      omega

/-! ## First occurrences -/

/-- The first occurrences are in order when every occurrence of the later of two items has
one of the earlier before it. -/
theorem exists_firsts {ι : Type} [LinearOrder ι] [WellFoundedLT ι] {occurs : α → Set ι}
    {xs : List α} (hoccurs : ∀ x ∈ xs, (occurs x).Nonempty)
    (hbefore : ∀ x y, [x, y].Sublist xs → ∀ j ∈ occurs y, ∃ i ∈ occurs x, i < j) :
    ∃ places, List.Forall₂ (fun x i => IsLeast (occurs x) i) xs places ∧
      places.Pairwise (· < ·) := by
  induction xs with
  | nil => exact ⟨[], .nil, .nil⟩
  | cons x xs ih =>
    obtain ⟨places, hleast, hsorted⟩ := ih (fun y hy => hoccurs y (List.mem_cons_of_mem x hy))
      fun y z hpair => hbefore y z (hpair.cons x)
    have hx := hoccurs x List.mem_cons_self
    have hmin := wellFounded_lt.min_mem (occurs x) hx
    have hle : ∀ j ∈ occurs x, wellFounded_lt.min (occurs x) hx ≤ j := fun j hj =>
      not_lt.mp (wellFounded_lt.not_lt_min (occurs x) hj)
    refine ⟨wellFounded_lt.min (occurs x) hx :: places, .cons ⟨hmin, hle⟩ hleast,
      List.pairwise_cons.mpr ⟨fun j hj => ?_, hsorted⟩⟩
    obtain ⟨k, hk, rfl⟩ := List.getElem_of_mem hj
    have hlen := hleast.length_eq
    have hfirst := hleast.get (by omega) hk
    obtain ⟨i, hi, hlt⟩ := hbefore x xs[k] ((List.singleton_sublist.mpr
      (List.getElem_mem (by omega))).cons_cons x) places[k] hfirst.1
    exact (hle i hi).trans_lt hlt

end WebSpider.Lists
