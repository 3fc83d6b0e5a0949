/-!
# Consecutive pages of a list

Splitting a list into consecutive pages of a fixed size, the last one possibly
shorter, as bulk writers do.
-/

namespace WebSpider.Lists

variable {α : Type}

/-- The pages of a list; the first argument bounds their number. -/
def pagesAux (size : Nat) : Nat → List α → List (List α)
  | _, [] => []
  | 0, _ => []
  | k + 1, x :: xs => (x :: xs).take size :: pagesAux size k ((x :: xs).drop size)

def pages (size : Nat) (xs : List α) : List (List α) := pagesAux size xs.length xs

/-- The pages in order make up the list. -/
theorem flatten_pages {size : Nat} (hsize : 0 < size) (xs : List α) :
    (pages size xs).flatten = xs := by
  suffices haux : ∀ k (ys : List α), ys.length ≤ k → (pagesAux size k ys).flatten = ys from
    haux _ xs (Nat.le_refl _)
  intro k
  induction k with
  | zero =>
    intro ys hys
    obtain rfl : ys = [] := List.eq_nil_of_length_eq_zero (by omega)
    rfl
  | succ k ih =>
    intro ys hys
    cases ys with
    | nil => rfl
    | cons y ys =>
      have hdrop : ((y :: ys).drop size).length ≤ k := by
        rw [List.length_drop]
        omega
      rw [pagesAux, List.flatten_cons, ih _ hdrop, List.take_append_drop]

/-- The pages start at the multiples of the size. -/
theorem pages_eq_map {size : Nat} (hsize : 0 < size) (xs : List α) :
    pages size xs = (List.range ((xs.length + size - 1) / size)).map fun k =>
      (xs.drop (k * size)).take size := by
  suffices haux : ∀ n (ys : List α), ys.length ≤ n → pagesAux size n ys =
      (List.range ((ys.length + size - 1) / size)).map fun k => (ys.drop (k * size)).take size from
    haux _ xs (Nat.le_refl _)
  intro n
  induction n with
  | zero =>
    intro ys hys
    obtain rfl : ys = [] := List.eq_nil_of_length_eq_zero (by omega)
    rw [List.length_nil, Nat.zero_add, Nat.div_eq_of_lt (by omega)]
    rfl
  | succ n ih =>
    intro ys hys
    cases ys with
    | nil =>
      rw [List.length_nil, Nat.zero_add, Nat.div_eq_of_lt (by omega)]
      rfl
    | cons y ys =>
      have hlength : ((y :: ys).drop size).length = (y :: ys).length - size := List.length_drop
      have hpages : ((y :: ys).length + size - 1) / size =
          (((y :: ys).drop size).length + size - 1) / size + 1 := by
        have hdiv : ((y :: ys).length + size - 1) / size = ((y :: ys).length - 1) / size + 1 := by
          rw [← Nat.add_div_right _ hsize, List.length_cons]
          congr 1
          omega
        rw [hdiv, hlength]
        by_cases hlast : (y :: ys).length ≤ size
        · rw [Nat.div_eq_of_lt (by rw [List.length_cons] at hlast ⊢; omega),
            Nat.div_eq_of_lt (by omega)]
        · congr 2
          omega
      rw [pagesAux, ih _ (by rw [hlength]; omega), hpages, List.range_succ_eq_map, List.map_cons,
        List.map_map, Nat.zero_mul]
      refine congrArg _ (List.map_congr_left fun k _ => ?_)
      simp only [Function.comp_apply, Nat.succ_eq_add_one, Nat.add_mul, Nat.one_mul]
      rw [List.drop_drop, Nat.add_comm size]

/-- The pages but the last one make up the list up to a multiple of the size. -/
theorem exists_last_page {size : Nat} (hsize : 0 < size) {xs : List α} (hne : xs ≠ []) :
    ∃ before last, pages size xs = before ++ [last] ∧
      before.flatten = xs.take (size * ((xs.length - 1) / size)) := by
  suffices haux : ∀ k (ys : List α), ys.length ≤ k → ys ≠ [] → ∃ before last,
      pagesAux size k ys = before ++ [last] ∧
        before.flatten = ys.take (size * ((ys.length - 1) / size)) from
    haux _ xs (Nat.le_refl _) hne
  intro k
  induction k with
  | zero =>
    intro ys hys hne
    exact (hne (List.eq_nil_of_length_eq_zero (by omega))).elim
  | succ k ih =>
    intro ys hys hne
    obtain ⟨y, zs, rfl⟩ := List.exists_cons_of_ne_nil hne
    rw [pagesAux]
    by_cases hlast : (y :: zs).length ≤ size
    · have hzero : ((y :: zs).length - 1) / size = 0 :=
        Nat.div_eq_of_lt (by rw [List.length_cons] at hlast ⊢; omega)
      rw [List.drop_eq_nil_of_le hlast, hzero]
      exact ⟨[], (y :: zs).take size, by cases k <;> rfl, rfl⟩
    · have hlength : ((y :: zs).drop size).length = (y :: zs).length - size := List.length_drop
      obtain ⟨before, last, hpages, hflatten⟩ := ih ((y :: zs).drop size) (by omega)
        (List.ne_nil_of_length_pos (by omega))
      have hdiv : ((y :: zs).length - 1) / size =
          (((y :: zs).drop size).length - 1) / size + 1 := by
        rw [← Nat.add_div_right _ hsize, hlength]
        congr 1
        omega
      refine ⟨(y :: zs).take size :: before, last, by rw [hpages]; rfl, ?_⟩
      rw [List.flatten_cons, hflatten, hdiv, Nat.mul_succ, Nat.add_comm, List.take_add]

/-- Folding over the pages, each with the items of the page, is folding over the items. -/
theorem foldl_pages {β : Type} {size : Nat} (hsize : 0 < size) (f : β → α → β) (b : β)
    (xs : List α) : (pages size xs).foldl (fun acc page => page.foldl f acc) b = xs.foldl f b := by
  rw [← List.foldl_flatten, flatten_pages hsize]

end WebSpider.Lists
