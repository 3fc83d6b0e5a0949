import Mathlib.Data.List.Basic

/-!
# Matches of a pattern

`re.finditer` and `re.sub`: the matches of a pattern in a text, leftmost first and without
overlap. The text is the matches and the characters between them (`perm_finditer`).
-/

namespace WebSpider.Text

/-- The length of the match at the start of a text, zero when there is none. -/
abbrev Pattern (α : Type) := List α → Nat

/-- A character outside the matches, or a match. -/
inductive Segment (α : Type) where
  | plain (g : α)
  | hit (m : List α)

variable {α β : Type}

def Segment.hit? : Segment α → Option (List α)
  | .plain _ => none
  | .hit m => some m

def Segment.replace (r : List α → List α) : Segment α → List α
  | .plain g => [g]
  | .hit m => r m

/-- The first argument counts the characters of the last match that are still ahead. -/
def piecesFrom (p : Pattern α) : Nat → List α → List (Segment α)
  | _, [] => []
  | ahead + 1, _ :: s => piecesFrom p ahead s
  | 0, g :: s =>
    match p (g :: s) with
    | 0 => .plain g :: piecesFrom p 0 s
    | n + 1 => .hit (g :: s.take n) :: piecesFrom p n s

def pieces (p : Pattern α) (s : List α) : List (Segment α) := piecesFrom p 0 s

/-- `re.finditer` -/
def finditer (p : Pattern α) (s : List α) : List (List α) := (pieces p s).filterMap Segment.hit?

/-- `re.sub` -/
def sub (p : Pattern α) (r : List α → List α) (s : List α) : List α :=
  (pieces p s).flatMap (Segment.replace r)

/-- The characters outside the matches. -/
def unmatched (p : Pattern α) (s : List α) : List α := sub p (fun _ => []) s

/-! ## One piece -/

theorem piecesFrom_eq (p : Pattern α) (n : Nat) (s : List α) :
    piecesFrom p n s = pieces p (s.drop n) := by
  induction s generalizing n with
  | nil => cases n <;> rfl
  | cons g s ih =>
    cases n with
    | zero => rfl
    | succ n =>
      rw [piecesFrom, List.drop_succ_cons]
      exact ih n

section

variable {p : Pattern α} {g : α} {s : List α} {n : Nat}

theorem pieces_plain (h : p (g :: s) = 0) : pieces p (g :: s) = .plain g :: pieces p s := by
  rw [pieces, piecesFrom, h]
  rfl

theorem pieces_hit (h : p (g :: s) = n + 1) :
    pieces p (g :: s) = .hit (g :: s.take n) :: pieces p (s.drop n) := by
  rw [pieces, piecesFrom, h, ← piecesFrom_eq]

theorem finditer_plain (h : p (g :: s) = 0) : finditer p (g :: s) = finditer p s := by
  rw [finditer, pieces_plain h]
  rfl

theorem finditer_hit (h : p (g :: s) = n + 1) :
    finditer p (g :: s) = (g :: s.take n) :: finditer p (s.drop n) := by
  rw [finditer, pieces_hit h]
  rfl

theorem sub_plain (h : p (g :: s) = 0) (r : List α → List α) :
    sub p r (g :: s) = g :: sub p r s := by
  rw [sub, pieces_plain h]
  rfl

theorem sub_hit (h : p (g :: s) = n + 1) (r : List α → List α) :
    sub p r (g :: s) = r (g :: s.take n) ++ sub p r (s.drop n) := by
  rw [sub, pieces_hit h]
  rfl

end

/-- Induction over the pieces of a text. -/
theorem pieces_induction (p : Pattern α) {motive : List α → Prop} (nil : motive [])
    (plain : ∀ g s, p (g :: s) = 0 → motive s → motive (g :: s))
    (hit : ∀ g s n, p (g :: s) = n + 1 → motive (s.drop n) → motive (g :: s)) (s : List α) :
    motive s := by
  generalize hn : s.length = n
  induction n using Nat.strongRecOn generalizing s with
  | ind n ih =>
    cases s with
    | nil => exact nil
    | cons g s =>
      rw [List.length_cons] at hn
      cases hp : p (g :: s) with
      | zero => exact plain g s hp (ih s.length (by omega) s rfl)
      | succ k =>
        refine hit g s k hp (ih (s.drop k).length ?_ _ rfl)
        rw [List.length_drop]
        omega

/-! ## All pieces -/

/-- A text is its matches and the rest. -/
theorem perm_finditer (p : Pattern α) (s : List α) :
    ((finditer p s).flatten ++ unmatched p s).Perm s := by
  induction s using pieces_induction p with
  | nil => exact List.Perm.refl _
  | plain g s hp ih =>
    rw [finditer_plain hp, unmatched, sub_plain hp]
    exact List.perm_middle.trans (ih.cons g)
  | hit g s n hp ih =>
    rw [finditer_hit hp, unmatched, sub_hit hp, List.nil_append, List.flatten_cons,
      List.append_assoc]
    apply (ih.append_left _).trans
    rw [List.cons_append, List.take_append_drop]

theorem flatten_finditer_sublist (p : Pattern α) (s : List α) :
    (finditer p s).flatten.Sublist s := by
  induction s using pieces_induction p with
  | nil => exact List.Sublist.refl _
  | plain g s hp ih =>
    rw [finditer_plain hp]
    exact ih.cons g
  | hit g s n hp ih =>
    have hsplit : g :: s = (g :: s.take n) ++ s.drop n := by
      rw [List.cons_append, List.take_append_drop]
    rw [finditer_hit hp, List.flatten_cons, hsplit]
    exact ih.append_left _

/-- What is read off the characters outside the matches is all that is read off the text where
the matches are replaced by characters without it. -/
theorem filterMap_sub (p : Pattern α) {r : List α → List α} {f : α → Option β}
    (hr : ∀ m, (r m).filterMap f = []) (s : List α) :
    (sub p r s).filterMap f = (unmatched p s).filterMap f := by
  induction s using pieces_induction p with
  | nil => rfl
  | plain g s hp ih =>
    rw [unmatched, sub_plain hp, sub_plain hp, List.filterMap_cons, List.filterMap_cons, ih]
    rfl
  | hit g s n hp ih =>
    rw [unmatched, sub_hit hp, sub_hit hp, List.nil_append, List.filterMap_append, hr,
      List.nil_append, ih]
    rfl

/-! ## Texts whose characters carry more -/

section Map

variable {p : Pattern α} {q : Pattern β} {f : α → β}

theorem finditer_map (h : ∀ s, q (s.map f) = p s) (s : List α) :
    finditer q (s.map f) = (finditer p s).map (List.map f) := by
  induction s using pieces_induction p with
  | nil => rfl
  | plain g s hp ih =>
    have hq : q (f g :: s.map f) = 0 := (h (g :: s)).trans hp
    rw [List.map_cons, finditer_plain hq, finditer_plain hp, ih]
  | hit g s n hp ih =>
    have hq : q (f g :: s.map f) = n + 1 := (h (g :: s)).trans hp
    rw [List.map_cons, finditer_hit hq, finditer_hit hp, ← List.map_drop, ih, ← List.map_take]
    rfl

theorem sub_map (h : ∀ s, q (s.map f) = p s) {r : List α → List α} {t : List β → List β}
    (hr : ∀ m, t (m.map f) = (r m).map f) (s : List α) : sub q t (s.map f) = (sub p r s).map f := by
  induction s using pieces_induction p with
  | nil => rfl
  | plain g s hp ih =>
    have hq : q (f g :: s.map f) = 0 := (h (g :: s)).trans hp
    rw [List.map_cons, sub_plain hq, sub_plain hp, ih, List.map_cons]
  | hit g s n hp ih =>
    have hq : q (f g :: s.map f) = n + 1 := (h (g :: s)).trans hp
    rw [List.map_cons, sub_hit hq, sub_hit hp, ← List.map_drop, ih, ← List.map_take,
      List.map_append]
    exact congrArg (· ++ _) (hr (g :: s.take n))

end Map

end WebSpider.Text
