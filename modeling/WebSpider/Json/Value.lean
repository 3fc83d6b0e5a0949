import WebSpider.Text.Decimal
import Mathlib.Data.List.Nodup

/-!
# JSON values

The values a JSON decoder builds: integers are unbounded, a float is an
element of a type parameter, a string is a list of code points and an object
keeps its fields in the order of their first insertion.
-/

namespace WebSpider.Json

open Text

inductive Value (F : Type) where
  | null
  | bool (b : Bool)
  | int (n : Int)
  | float (x : F)
  | str (s : Str)
  | arr (xs : List (Value F))
  | obj (kvs : List (Str × Value F))

variable {F : Type}

/-! ## Decidable equality -/

section DecEq

variable [DecidableEq F]

mutual

def decEq : (a b : Value F) → Decidable (a = b)
  | .null, .null => isTrue rfl
  | .bool a, .bool b => decidable_of_iff (a = b) (by simp)
  | .int a, .int b => decidable_of_iff (a = b) (by simp)
  | .float a, .float b => decidable_of_iff (a = b) (by simp)
  | .str a, .str b => decidable_of_iff (a = b) (by simp)
  | .arr a, .arr b =>
    have := decEqList a b
    decidable_of_iff (a = b) (by simp)
  | .obj a, .obj b =>
    have := decEqFields a b
    decidable_of_iff (a = b) (by simp)
  | .null, .bool _ | .null, .int _ | .null, .float _ | .null, .str _ | .null, .arr _
  | .null, .obj _ | .bool _, .null | .bool _, .int _ | .bool _, .float _ | .bool _, .str _
  | .bool _, .arr _ | .bool _, .obj _ | .int _, .null | .int _, .bool _ | .int _, .float _
  | .int _, .str _ | .int _, .arr _ | .int _, .obj _ | .float _, .null | .float _, .bool _
  | .float _, .int _ | .float _, .str _ | .float _, .arr _ | .float _, .obj _ | .str _, .null
  | .str _, .bool _ | .str _, .int _ | .str _, .float _ | .str _, .arr _ | .str _, .obj _
  | .arr _, .null | .arr _, .bool _ | .arr _, .int _ | .arr _, .float _ | .arr _, .str _
  | .arr _, .obj _ | .obj _, .null | .obj _, .bool _ | .obj _, .int _ | .obj _, .float _
  | .obj _, .str _ | .obj _, .arr _ => isFalse nofun

def decEqList : (as bs : List (Value F)) → Decidable (as = bs)
  | [], [] => isTrue rfl
  | [], _ :: _ | _ :: _, [] => isFalse nofun
  | a :: as, b :: bs =>
    have := decEq a b
    have := decEqList as bs
    decidable_of_iff (a = b ∧ as = bs) (by simp)

def decEqFields : (as bs : List (Str × Value F)) → Decidable (as = bs)
  | [], [] => isTrue rfl
  | [], _ :: _ | _ :: _, [] => isFalse nofun
  | (k, a) :: as, (l, b) :: bs =>
    have := decEq a b
    have := decEqFields as bs
    decidable_of_iff (k = l ∧ a = b ∧ as = bs) (by simp [and_assoc])

end

instance : DecidableEq (Value F) := decEq

end DecEq

/-! ## Objects as dictionaries -/

/-- `d[k] = v`: an existing key keeps its place. -/
def setItem (d : List (Str × Value F)) (kv : Str × Value F) : List (Str × Value F) :=
  if kv.1 ∈ d.map Prod.fst then d.map fun e => if e.1 = kv.1 then kv else e else d ++ [kv]

/-- The dictionary of a list of pairs, the last value of a key winning. -/
def dictOf (kvs : List (Str × Value F)) : List (Str × Value F) := kvs.foldl setItem []

/-- The value of a key. -/
def lookup (k : Str) : List (Str × Value F) → Option (Value F)
  | [] => none
  | (l, v) :: d => if l = k then some v else lookup k d

theorem keys_setItem (d : List (Str × Value F)) (kv : Str × Value F) :
    (setItem d kv).map Prod.fst =
      if kv.1 ∈ d.map Prod.fst then d.map Prod.fst else d.map Prod.fst ++ [kv.1] := by
  unfold setItem
  split
  · rw [List.map_map]
    apply List.map_congr_left
    intro e _
    simp only [Function.comp]
    split
    · rename_i h
      exact h.symm
    · rfl
  · rw [List.map_append]
    rfl

theorem nodup_setItem {d : List (Str × Value F)} (hd : (d.map Prod.fst).Nodup)
    (kv : Str × Value F) : ((setItem d kv).map Prod.fst).Nodup := by
  rw [keys_setItem]
  split
  · exact hd
  · rename_i hk
    exact List.nodup_append.mpr ⟨hd, List.nodup_singleton _, by
      rintro a ha b hb rfl
      exact hk (List.mem_singleton.mp hb ▸ ha)⟩

theorem nodup_dictOf (kvs : List (Str × Value F)) : ((dictOf kvs).map Prod.fst).Nodup := by
  unfold dictOf
  suffices haux : ∀ d : List (Str × Value F), (d.map Prod.fst).Nodup →
      ((kvs.foldl setItem d).map Prod.fst).Nodup from haux [] List.nodup_nil
  induction kvs with
  | nil => exact fun _ hd => hd
  | cons kv kvs ih => exact fun d hd => ih _ (nodup_setItem hd kv)

theorem mem_setItem {d : List (Str × Value F)} {kv e : Str × Value F} (h : e ∈ setItem d kv) :
    e = kv ∨ e ∈ d := by
  unfold setItem at h
  split at h
  · obtain ⟨e', he', rfl⟩ := List.mem_map.mp h
    split
    · exact Or.inl rfl
    · exact Or.inr he'
  · rcases List.mem_append.mp h with h | h
    · exact Or.inr h
    · exact Or.inl (List.mem_singleton.mp h)

/-- Every field of the dictionary is one of the pairs. -/
theorem mem_dictOf {kvs : List (Str × Value F)} {e : Str × Value F} (h : e ∈ dictOf kvs) :
    e ∈ kvs := by
  unfold dictOf at h
  suffices haux : ∀ d : List (Str × Value F), e ∈ kvs.foldl setItem d → e ∈ d ∨ e ∈ kvs by
    rcases haux [] h with h | h
    · cases h
    · exact h
  clear h
  induction kvs with
  | nil => exact fun _ he => Or.inl he
  | cons kv kvs ih =>
    intro d he
    rcases ih _ he with he | he
    · rcases mem_setItem he with rfl | he
      · exact Or.inr List.mem_cons_self
      · exact Or.inl he
    · exact Or.inr (List.mem_cons_of_mem _ he)

/-- Pairs with distinct keys are their own dictionary. -/
theorem dictOf_eq_self {kvs : List (Str × Value F)} (h : (kvs.map Prod.fst).Nodup) :
    dictOf kvs = kvs := by
  unfold dictOf
  suffices haux : ∀ d : List (Str × Value F), ((d ++ kvs).map Prod.fst).Nodup →
      kvs.foldl setItem d = d ++ kvs from haux [] h
  clear h
  induction kvs with
  | nil => exact fun d _ => (List.append_nil d).symm
  | cons kv kvs ih =>
    intro d hd
    have hnot : kv.1 ∉ d.map Prod.fst := by
      rw [List.map_append, List.map_cons] at hd
      exact fun hmem => (List.nodup_append.mp hd).2.2 _ hmem _ List.mem_cons_self rfl
    have hset : setItem d kv = d ++ [kv] := by simp [setItem, hnot]
    rw [List.foldl_cons, hset, ih (d ++ [kv]) (by simpa using hd), List.append_assoc]
    rfl

end WebSpider.Json
