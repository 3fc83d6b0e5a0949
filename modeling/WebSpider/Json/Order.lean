import WebSpider.Json.Value
import Mathlib.Data.List.Sort
import Mathlib.Data.Rat.Cast.Order

/-!
# Comparing JSON values

`==` and `<` of Python on what a JSON decoder builds, and the sort of a list by keys. Two
values that `<` does not compare make the sort raise. By different integers it is the
sorted list (`sortByKey_int`).
-/

namespace WebSpider.Json

open Text

/-- The value of a float, which NaN does not have. -/
abbrev Extended := WithBot (WithTop ℚ)

variable {F α : Type}

/-! ## Comparisons -/

def ofInt (n : Int) : Extended := ((n : ℚ) : WithTop ℚ)

/-- The value of a number; a boolean is one. -/
def numeric (val : F → Option Extended) : Value F → Option (Option Extended)
  | .bool b => some (some (ofInt b.toInt))
  | .int n => some (some (ofInt n))
  | .float x => some (val x)
  | _ => none

/-- A comparison of two numbers, which NaN never meets. -/
def compared (r : Extended → Extended → Bool) : Option Extended → Option Extended → Bool
  | some x, some y => r x y
  | _, _ => false

/-- A comparison of a number with a value, when that is a number as well. -/
def against (val : F → Option Extended) (r : Extended → Extended → Bool) (x : Option Extended)
    (w : Value F) : Option Bool := (numeric val w).map (compared r x)

def same (x y : Extended) : Bool := decide (x = y)

def below (x y : Extended) : Bool := decide (x < y)

def isNaN (val : F → Option Extended) : Value F → Bool
  | .float x => (val x).isNone
  | _ => false

mutual

/-- `v == w`. The decoder has one object for NaN, and containers take an object as equal to
itself. -/
def equal (val : F → Option Extended) : Value F → Value F → Bool
  | .null, w => match w with
    | .null => true
    | _ => false
  | .bool b, w => (against val same (some (ofInt b.toInt)) w).getD false
  | .int n, w => (against val same (some (ofInt n)) w).getD false
  | .float x, w => (against val same (val x) w).getD false
  | .str s, w => match w with
    | .str t => decide (s = t)
    | _ => false
  | .arr vs, w => match w with
    | .arr ws => equalList val vs ws
    | _ => false
  | .obj vs, w => match w with
    | .obj ws => decide (vs.length = ws.length) && equalFields val vs ws
    | _ => false

def equalList (val : F → Option Extended) : List (Value F) → List (Value F) → Bool
  | [], [] => true
  | v :: vs, w :: ws => (isNaN val v && isNaN val w || equal val v w) && equalList val vs ws
  | _, _ => false

/-- Every field has an equal one on the other side. -/
def equalFields (val : F → Option Extended) : List (Str × Value F) → List (Str × Value F) → Bool
  | [], _ => true
  | (k, v) :: vs, ws =>
    (match lookup k ws with
      | some w => isNaN val v && isNaN val w || equal val v w
      | none => false) && equalFields val vs ws

end

mutual

/-- `v < w`; no value is a `TypeError`. -/
def lessThan (val : F → Option Extended) : Value F → Value F → Option Bool
  | .bool b, w => against val below (some (ofInt b.toInt)) w
  | .int n, w => against val below (some (ofInt n)) w
  | .float x, w => against val below (val x) w
  | .str s, w => match w with
    | .str t => some (decide (s < t))
    | _ => none
  | .arr vs, w => match w with
    | .arr ws => lessList val vs ws
    | _ => none
  | .null, _ => none
  | .obj _, _ => none

/-- Lists are compared at the first place where they differ. -/
def lessList (val : F → Option Extended) : List (Value F) → List (Value F) → Option Bool
  | [], ws => some !ws.isEmpty
  | _ :: _, [] => some false
  | v :: vs, w :: ws =>
    if isNaN val v && isNaN val w || equal val v w then lessList val vs ws else lessThan val v w

end

theorem lessThan_int (val : F → Option Extended) (m n : Int) :
    lessThan val (.int m) (.int n) = some (decide (m < n)) := by
  simp [lessThan, against, numeric, compared, below, ofInt]

/-! ## Sorting -/

/-- No element of the list comes before an earlier one. -/
def inOrder (val : F → Option Extended) (x y : Value F × α) : Bool :=
  decide (lessThan val y.1 x.1 ≠ some true)

/-- The elements of `xs` after `xs.sort(key=...)`, each given with its key; no value is a
`TypeError`. Two keys that cannot be compared meet in any order of the comparisons, unless
there are lists with a NaN among the keys: with these, which come from no valid JSON text,
the sort may also end without having compared the two. -/
def sortByKey (val : F → Option Extended) (xs : List (Value F × α)) : Option (List α) :=
  if xs.length = 1 ∨ ∀ x ∈ xs, ∀ y ∈ xs, (lessThan val x.1 y.1).isSome = true then
    some ((xs.insertionSort fun x y => inOrder val x y = true).map Prod.snd)
  else none

/-- The integer of a key. -/
def keyOf (x : Value F × α) : Int × α :=
  match x.1 with
  | .int n => (n, x.2)
  | _ => (0, x.2)

/-- By different integers the sort gives the list that has them in order. -/
theorem sortByKey_int (val : F → Option Extended) {xs : List (Value F × α)} {zs : List (Int × α)}
    (hxs : xs.Perm (zs.map fun z => (.int z.1, z.2))) (hzs : zs.Pairwise fun z z' => z.1 < z'.1) :
    sortByKey val xs = some (zs.map Prod.snd) := by
  have hkeys {x : Value F × α} (hx : x ∈ xs) : x = (.int (keyOf x).1, (keyOf x).2) := by
    obtain ⟨z, -, rfl⟩ := List.mem_map.mp (hxs.mem_iff.mp hx)
    rfl
  have hless {x y : Value F × α} (hx : x ∈ xs) (hy : y ∈ xs) :
      lessThan val x.1 y.1 = some (decide ((keyOf x).1 < (keyOf y).1)) := by
    rw [hkeys hx, hkeys hy]
    exact lessThan_int val _ _
  have hmap : (xs.insertionSort fun x y => inOrder val x y = true).map keyOf =
      (xs.map keyOf).insertionSort fun z z' => z.1 ≤ z'.1 := by
    apply List.map_insertionSort _ _ keyOf xs
    intro x hx y hy
    rw [inOrder, hless hy hx]
    simp
  have hperm : (xs.map keyOf).Perm zs := by
    have h := hxs.map keyOf
    rw [List.map_map] at h
    exact h.trans (.of_eq (List.map_id zs))
  have hsorted : ((xs.map keyOf).insertionSort fun z z' => z.1 ≤ z'.1) = zs := by
    have : Std.Total fun z z' : Int × α => z.1 ≤ z'.1 := ⟨fun z z' => le_total z.1 z'.1⟩
    have : IsTrans (Int × α) fun z z' => z.1 ≤ z'.1 := ⟨fun _ _ _ => le_trans⟩
    have hall := (List.perm_insertionSort (fun z z' : Int × α => z.1 ≤ z'.1)
      (xs.map keyOf)).trans hperm
    have hnodup : (zs.map Prod.fst).Nodup :=
      List.pairwise_map.mpr (hzs.imp fun hlt => ne_of_lt hlt)
    refine List.Perm.eq_of_pairwise (fun z z' hz hz' hle hge => ?_)
      (List.pairwise_insertionSort _ _) (hzs.imp le_of_lt) hall
    exact List.inj_on_of_nodup_map hnodup (hall.mem_iff.mp hz) hz' (le_antisymm hle hge)
  have hsnd (ys : List (Value F × α)) : (ys.map keyOf).map Prod.snd = ys.map Prod.snd := by
    rw [List.map_map]
    apply List.map_congr_left
    intro y _
    obtain ⟨v, a⟩ := y
    cases v <;> rfl
  rw [sortByKey, if_pos (.inr fun x hx y hy => by rw [hless hx hy]; rfl), ← hsnd, hmap, hsorted]

end WebSpider.Json
