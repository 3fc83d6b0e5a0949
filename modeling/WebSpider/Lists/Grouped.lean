import Mathlib.Algebra.BigOperators.Group.List.Basic
import Mathlib.Algebra.Order.Group.Int
import Mathlib.Algebra.Ring.Int.Defs
import Mathlib.Data.List.Nodup

/-!
# Dictionaries and groups

A dictionary is a list of keys with their values in the order of insertion, which
`upsert` changes at one key. Items are grouped by a key, and when the keys are listed
once each, the sums of the groups add up to the sum of all items (`sum_groups`).
-/

namespace WebSpider.Lists

variable {κ β α : Type} [DecidableEq κ]

/-- The value under a key is changed; a new key is added at the end. -/
def upsert (k : κ) (f : Option β → β) : List (κ × β) → List (κ × β)
  | [] => [(k, f none)]
  | (k', b) :: m => if k' = k then (k', f (some b)) :: m else (k', b) :: upsert k f m

/-- A key that is added to a list of keys unless it is there. -/
def addKey (ks : List κ) (k : κ) : List κ := if k ∈ ks then ks else ks ++ [k]

theorem lookup_upsert [BEq κ] [LawfulBEq κ] (k : κ) (f : Option β → β) (m : List (κ × β)) (k' : κ) :
    (upsert k f m).lookup k' = if k' = k then some (f (m.lookup k)) else m.lookup k' := by
  induction m with
  | nil =>
    rw [upsert, List.lookup_cons]
    by_cases hk : k' = k
    · simp [hk]
    · simp [hk, beq_false_of_ne hk]
  | cons e m ih =>
    obtain ⟨k₀, b⟩ := e
    rw [upsert]
    by_cases hk₀ : k₀ = k
    · subst hk₀
      rw [if_pos rfl, List.lookup_cons]
      by_cases hk : k' = k₀
      · simp [hk]
      · simp [hk, beq_false_of_ne hk, List.lookup_cons]
    · rw [if_neg hk₀, List.lookup_cons, ih, List.lookup_cons, List.lookup_cons]
      by_cases hk : k' = k
      · subst hk
        simp [beq_false_of_ne (Ne.symm hk₀)]
      · simp [hk]

theorem lookup_map [BEq κ] [LawfulBEq κ] (f : κ → β) (ks : List κ) (k : κ) :
    (ks.map fun k => (k, f k)).lookup k = if k ∈ ks then some (f k) else none := by
  induction ks with
  | nil => rfl
  | cons k' ks ih =>
    rw [List.map_cons, List.lookup_cons, ih]
    by_cases hk : k = k'
    · simp [hk]
    · simp [hk, beq_false_of_ne hk]

theorem keys_upsert (k : κ) (f : Option β → β) (m : List (κ × β)) :
    (upsert k f m).map Prod.fst = addKey (m.map Prod.fst) k := by
  unfold addKey
  induction m with
  | nil => rfl
  | cons e m ih =>
    obtain ⟨k₀, b⟩ := e
    rw [upsert]
    by_cases hk : k₀ = k
    · simp [hk]
    · rw [if_neg hk, List.map_cons, ih]
      have hiff : k ∈ ((k₀, b) :: m).map Prod.fst ↔ k ∈ m.map Prod.fst := by
        simp [Ne.symm hk]
      simp only [hiff]
      split <;> rfl

/-- A key is given a value that does not depend on the old one. -/
theorem mem_upsert_const {k : κ} {b : β} {m : List (κ × β)} (h : (m.map Prod.fst).Nodup)
    {e : κ × β} : e ∈ upsert k (fun _ => b) m ↔ e ∈ m ∧ e.1 ≠ k ∨ e = (k, b) := by
  induction m with
  | nil => simp [upsert]
  | cons e' m ih =>
    obtain ⟨k', b'⟩ := e'
    rw [List.map_cons, List.nodup_cons] at h
    rw [upsert]
    split
    · rename_i hk
      subst hk
      have hrest : ∀ x ∈ m, x.1 ≠ k' := fun x hx heq => h.1 (List.mem_map.mpr ⟨x, hx, heq⟩)
      rw [List.mem_cons, List.mem_cons, or_comm]
      refine or_congr_left ⟨fun hmem => ⟨Or.inr hmem, hrest e hmem⟩, ?_⟩
      rintro ⟨rfl | hmem, hne⟩
      · exact (hne rfl).elim
      · exact hmem
    · rename_i hk
      rw [List.mem_cons, List.mem_cons, ih h.2, ← or_assoc]
      apply or_congr_left
      constructor
      · rintro (rfl | ⟨hmem, hne⟩)
        · exact ⟨Or.inl rfl, hk⟩
        · exact ⟨Or.inr hmem, hne⟩
      · rintro ⟨rfl | hmem, hne⟩
        · exact Or.inl rfl
        · exact Or.inr ⟨hmem, hne⟩

theorem mem_addKey {ks : List κ} {k k' : κ} : k' ∈ addKey ks k ↔ k' ∈ ks ∨ k' = k := by
  unfold addKey
  split
  · rename_i hk
    constructor
    · exact Or.inl
    · rintro (h | rfl)
      · exact h
      · exact hk
  · simp

theorem nodup_addKey {ks : List κ} (h : ks.Nodup) (k : κ) : (addKey ks k).Nodup := by
  unfold addKey
  split
  · exact h
  · rename_i hk
    rw [List.nodup_append]
    refine ⟨h, List.nodup_singleton k, fun a ha b hb => ?_⟩
    obtain rfl := List.mem_singleton.mp hb
    rintro rfl
    exact hk ha

/-- All keys of a list, in the order in which they come first. -/
def distinct (ks : List κ) : List κ := ks.foldl addKey []

theorem mem_foldl_addKey {ks acc : List κ} {k : κ} :
    k ∈ ks.foldl addKey acc ↔ k ∈ acc ∨ k ∈ ks := by
  induction ks generalizing acc with
  | nil => simp
  | cons k' ks ih => rw [List.foldl_cons, ih, mem_addKey, List.mem_cons, or_assoc]

@[simp] theorem mem_distinct {ks : List κ} {k : κ} : k ∈ distinct ks ↔ k ∈ ks := by
  simp [distinct, mem_foldl_addKey]

theorem nodup_foldl_addKey {ks acc : List κ} (h : acc.Nodup) : (ks.foldl addKey acc).Nodup := by
  induction ks generalizing acc with
  | nil => exact h
  | cons k ks ih => exact ih (nodup_addKey h k)

theorem nodup_distinct (ks : List κ) : (distinct ks).Nodup := nodup_foldl_addKey List.nodup_nil

/-! ## Sums of groups -/

/-- The sum over the items of a group. -/
def groupSum (key : α → κ) (f : α → Int) (xs : List α) (k : κ) : Int :=
  ((xs.filter fun x => decide (key x = k)).map f).sum

theorem groupSum_cons (key : α → κ) (f : α → Int) (x : α) (xs : List α) (k : κ) :
    groupSum key f (x :: xs) k = (if key x = k then f x else 0) + groupSum key f xs k := by
  unfold groupSum
  by_cases hk : key x = k
  · rw [List.filter_cons_of_pos (by simpa using hk), List.map_cons, List.sum_cons, if_pos hk]
  · rw [List.filter_cons_of_neg (by simpa using hk), if_neg hk, Int.zero_add]

/-- Of the keys, one is that of an item. -/
theorem sum_indicator {ks : List κ} (hks : ks.Nodup) {k : κ} (hk : k ∈ ks) (n : Int) :
    (ks.map fun k' => if k = k' then n else 0).sum = n := by
  induction ks with
  | nil => cases hk
  | cons k' ks ih =>
    obtain ⟨hnot, hks⟩ := List.nodup_cons.mp hks
    rw [List.map_cons, List.sum_cons]
    rcases List.mem_cons.mp hk with rfl | hmem
    · have hzero : (ks.map fun k' => if k = k' then n else 0).sum = 0 := by
        apply List.sum_eq_zero
        intro m hm
        obtain ⟨k'', hk'', rfl⟩ := List.mem_map.mp hm
        apply if_neg
        rintro rfl
        exact hnot hk''
      rw [if_pos rfl, hzero, Int.add_zero]
    · have hne : k ≠ k' := by
        rintro rfl
        exact hnot hmem
      rw [if_neg hne, Int.zero_add, ih hks hmem]

theorem sum_groups {ks : List κ} (hks : ks.Nodup) (key : α → κ) (f : α → Int) {xs : List α}
    (hxs : ∀ x ∈ xs, key x ∈ ks) : (ks.map (groupSum key f xs)).sum = (xs.map f).sum := by
  induction xs with
  | nil =>
    apply List.sum_eq_zero
    intro m hm
    obtain ⟨k, -, rfl⟩ := List.mem_map.mp hm
    rfl
  | cons x xs ih =>
    have hrest := ih fun y hy => hxs y (List.mem_cons_of_mem _ hy)
    have hsplit : ks.map (groupSum key f (x :: xs)) =
        ks.map fun k => (if key x = k then f x else 0) + groupSum key f xs k := by
      apply List.map_congr_left
      exact fun k _ => groupSum_cons key f x xs k
    rw [hsplit, List.sum_map_add, sum_indicator hks (hxs x List.mem_cons_self), List.map_cons,
      List.sum_cons, hrest]

/-! ## The first of each key -/

/-- The items whose keys have not been seen. -/
def firsts (key : α → κ) : List κ → List α → List α
  | _, [] => []
  | seen, x :: xs =>
    if key x ∈ seen then firsts key seen xs else x :: firsts key (key x :: seen) xs

theorem firsts_sublist (key : α → κ) (seen : List κ) (xs : List α) :
    (firsts key seen xs).Sublist xs := by
  induction xs generalizing seen with
  | nil => exact List.Sublist.refl _
  | cons x xs ih =>
    rw [firsts]
    split
    · exact (ih seen).cons x
    · exact (ih _).cons_cons x

/-- In a list in strict order an item is kept when its key has not been seen, and no other
item with its key comes before it. -/
theorem mem_firsts {lt : α → α → Prop} (hasymm : ∀ x y, lt x y → ¬ lt y x) {key : α → κ}
    {seen : List κ} {xs : List α} (hxs : xs.Pairwise lt) {x : α} :
    x ∈ firsts key seen xs ↔
      x ∈ xs ∧ key x ∉ seen ∧ ∀ y ∈ xs, key y = key x → y = x ∨ lt x y := by
  induction xs generalizing seen with
  | nil => simp [firsts]
  | cons x' xs ih =>
    obtain ⟨hfirst, hxs⟩ := List.pairwise_cons.mp hxs
    rw [firsts]
    split
    · rename_i hseen
      rw [ih hxs]
      constructor
      · rintro ⟨hx, hnot, hall⟩
        refine ⟨List.mem_cons_of_mem _ hx, hnot, fun y hy hkey => ?_⟩
        rcases List.mem_cons.mp hy with rfl | hy
        · rw [hkey] at hseen
          exact (hnot hseen).elim
        · exact hall y hy hkey
      · rintro ⟨hx, hnot, hall⟩
        rcases List.mem_cons.mp hx with rfl | hx
        · exact (hnot hseen).elim
        · exact ⟨hx, hnot, fun y hy => hall y (List.mem_cons_of_mem _ hy)⟩
    · rename_i hseen
      rw [List.mem_cons, ih hxs]
      constructor
      · rintro (rfl | ⟨hx, hnot, hall⟩)
        · refine ⟨List.mem_cons_self, hseen, fun y hy hkey => ?_⟩
          rcases List.mem_cons.mp hy with rfl | hy
          · exact Or.inl rfl
          · exact Or.inr (hfirst y hy)
        · refine ⟨List.mem_cons_of_mem _ hx, fun h => hnot (List.mem_cons_of_mem _ h),
            fun y hy hkey => ?_⟩
          rcases List.mem_cons.mp hy with rfl | hy
          · exact (hnot (hkey ▸ List.mem_cons_self)).elim
          · exact hall y hy hkey
      · rintro ⟨hx, hnot, hall⟩
        rcases List.mem_cons.mp hx with rfl | hx
        · exact Or.inl rfl
        · refine Or.inr ⟨hx, fun hmem => ?_, fun y hy => hall y (List.mem_cons_of_mem _ hy)⟩
          rcases List.mem_cons.mp hmem with hkey | hmem
          · -- The first item has the key, and comes before this one.
            have hlt := hfirst x hx
            rcases hall x' List.mem_cons_self hkey.symm with rfl | hgt
            · exact hasymm _ _ hlt hlt
            · exact hasymm _ _ hlt hgt
          · exact hnot hmem

end WebSpider.Lists
