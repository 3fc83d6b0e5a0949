import WebSpider.Fetcher.FetchOne
import WebSpider.Floats.Literals
import Mathlib.Logic.Function.Basic

/-!
# Rates of single hosts

`parse_host_overrides` of `fetcher.py` reads the rates of single hosts, and
`_get_host_bucket` makes the bucket of a host with them. An entry is skipped when `float`
does not read its rate. What `float` reads includes zero, negative numbers, infinities and
NaN, and a text whose number is too large or too small for a `float`.
-/

namespace WebSpider.Overrides

open Text Floats
open Fetcher (Library Builtin hostBucket)

/-- `str.lower`, and the decimal digits outside ASCII. -/
structure Unicode where
  lower : Str → Str
  decimal : Nat → Option (Fin 10)

/-! ## The settings -/

/-- `str.rpartition` of a text that contains the separator. -/
def rpartition (sep : Nat) (s : Str) : Str × Str :=
  ((s.rdropWhile fun c => decide (c ≠ sep)).dropLast, s.rtakeWhile fun c => decide (c ≠ sep))

/-- The host and the rate of a part of the text. -/
def entry (u : Unicode) (part : Str) : Option (Str × Str) :=
  let part := strip part
  if part = [] ∨ 58 ∉ part then none
  else
    let (host, rate) := rpartition 58 part
    some (u.lower (strip host), rate)

def entries (u : Unicode) (spec : Str) : List (Str × Str) :=
  (spec.splitOn 44).filterMap (entry u)

/-- Store the rate of an entry, if `float` reads it. -/
def store (u : Unicode) (overrides : Str → Option Double) (e : Str × Str) : Str → Option Double :=
  match float u.decimal e.2 with
  | some qps => Function.update overrides e.1 (some qps)
  | none => overrides

/-- `parse_host_overrides` -/
def parseHostOverrides (u : Unicode) (spec : Str) : Str → Option Double :=
  (spec.splitOn 44).foldl (fun overrides part =>
    match entry u part with
    | none => overrides
    | some e => store u overrides e) fun _ => none

/-! ## What is stored -/

/-- The entry is read, and no later one for its host is. -/
def Effective (u : Unicode) (es : List (Str × Str)) (host rate : Str) : Prop :=
  literal u.decimal rate ≠ none ∧
    ∃ xs ys, es = xs ++ (host, rate) :: ys ∧ ∀ e ∈ ys, e.1 = host → literal u.decimal e.2 = none

variable {u : Unicode}

theorem parseHostOverrides_eq (u : Unicode) (spec : Str) :
    parseHostOverrides u spec = (entries u spec).foldl (store u) fun _ => none := by
  rw [parseHostOverrides, entries, List.foldl_filterMap]
  congr 1
  funext overrides part
  cases entry u part with
  | none => rfl
  | some e => rfl

theorem float_eq_none_iff {decimal : Nat → Option (Fin 10)} {text : Str} :
    float decimal text = none ↔ literal decimal text = none := Option.map_eq_none_iff

/-- A place in a longer list is the new one at the end, or one in the list. -/
theorem split_snoc {α : Type} {es xs ys : List α} {e a : α} (h : es ++ [e] = xs ++ a :: ys) :
    ys = [] ∧ a = e ∨ ∃ zs, ys = zs ++ [e] ∧ es = xs ++ a :: zs := by
  rcases List.eq_nil_or_concat ys with rfl | ⟨zs, last, rfl⟩
  · have hlast := (List.append_inj' h rfl).2
    exact Or.inl ⟨rfl, (List.singleton_inj.mp hlast).symm⟩
  · rw [List.concat_eq_append, ← List.cons_append, ← List.append_assoc] at h
    obtain ⟨hinit, hlast⟩ := List.append_inj' h rfl
    obtain rfl := List.singleton_inj.mp hlast
    exact Or.inr ⟨zs, List.concat_eq_append, hinit⟩

theorem effective_snoc_self {es : List (Str × Str)} {host rate rate' : Str}
    (hread : literal u.decimal rate' ≠ none) :
    Effective u (es ++ [(host, rate')]) host rate ↔ rate = rate' := by
  constructor
  · rintro ⟨-, xs, ys, hsplit, hlater⟩
    rcases split_snoc hsplit with ⟨-, hlast⟩ | ⟨zs, rfl, -⟩
    · exact (Prod.mk.inj hlast).2
    · exact absurd (hlater _ (List.mem_append_right _ List.mem_cons_self) rfl) hread
  · rintro rfl
    exact ⟨hread, es, [], rfl, by simp⟩

theorem effective_snoc_of_skip {es : List (Str × Str)} {e : Str × Str} {host rate : Str}
    (hskip : e.1 = host → literal u.decimal e.2 = none) :
    Effective u (es ++ [e]) host rate ↔ Effective u es host rate := by
  constructor
  · rintro ⟨hread, xs, ys, hsplit, hlater⟩
    rcases split_snoc hsplit with ⟨-, rfl⟩ | ⟨zs, rfl, hinit⟩
    · exact absurd (hskip rfl) hread
    · exact ⟨hread, xs, zs, hinit, fun e' he' => hlater e' (List.mem_append_left _ he')⟩
  · rintro ⟨hread, xs, ys, rfl, hlater⟩
    refine ⟨hread, xs, ys ++ [e], by simp, fun e' he' => ?_⟩
    rcases List.mem_append.mp he' with he' | he'
    · exact hlater e' he'
    · obtain rfl := List.mem_singleton.mp he'
      exact hskip

/-- A host has the rate of its last entry that is read. -/
theorem foldl_store_iff (es : List (Str × Str)) (host : Str) (qps : Double) :
    es.foldl (store u) (fun _ => none) host = some qps ↔
      ∃ rate, Effective u es host rate ∧ float u.decimal rate = some qps := by
  induction es using List.reverseRecOn with
  | nil =>
    apply iff_of_false (by simp)
    rintro ⟨rate, ⟨-, xs, ys, hsplit, -⟩, -⟩
    exact absurd (List.append_eq_nil_iff.mp hsplit.symm).2 (List.cons_ne_nil _ _)
  | append_singleton es e ih =>
    rw [List.foldl_append, List.foldl_cons, List.foldl_nil]
    cases hread : float u.decimal e.2 with
    | none =>
      have hskip : e.1 = host → literal u.decimal e.2 = none := fun _ => float_eq_none_iff.mp hread
      simp only [store, hread, effective_snoc_of_skip hskip]
      exact ih
    | some qps' =>
      have hne : literal u.decimal e.2 ≠ none := fun h => by
        rw [float_eq_none_iff.mpr h] at hread
        cases hread
      by_cases hhost : e.1 = host
      · obtain ⟨host', rate'⟩ := e
        obtain rfl : host' = host := hhost
        simp only [store, hread, Function.update_self, effective_snoc_self hne]
        simp only [exists_eq_left, hread]
      · have hskip : e.1 = host → literal u.decimal e.2 = none := fun h => absurd h hhost
        have hold : store u (es.foldl (store u) fun _ => none) e host =
            es.foldl (store u) (fun _ => none) host := by
          simp only [store, hread]
          exact Function.update_of_ne (Ne.symm hhost) _ _
        rw [hold, ih]
        simp only [effective_snoc_of_skip hskip]

theorem parseHostOverrides_iff (u : Unicode) (spec host : Str) (qps : Double) :
    parseHostOverrides u spec host = some qps ↔
      ∃ rate, Effective u (entries u spec) host rate ∧ float u.decimal rate = some qps := by
  rw [parseHostOverrides_eq]
  exact foldl_store_iff (entries u spec) host qps

/-- The rate of the entry is a positive number that a `float` can hold. -/
def Usable (u : Unicode) (rate : Str) : Prop := ∃ l, literal u.decimal rate = some l ∧ l.InRange

/-- All stored rates are positive and finite where all effective entries are usable. -/
theorem rates_iff (u : Unicode) (spec : Str) :
    (∀ host qps, parseHostOverrides u spec host = some qps → ∃ x, qps = .finite x ∧ 0 < x) ↔
      ∀ host rate, Effective u (entries u spec) host rate → Usable u rate := by
  constructor
  · intro h host rate heffective
    obtain ⟨l, hl⟩ := Option.ne_none_iff_exists'.mp heffective.1
    have hfloat : float u.decimal rate = some l.value := by rw [float, hl, Option.map_some]
    have hpos := h host l.value ((parseHostOverrides_iff u spec host _).mpr
      ⟨rate, heffective, hfloat⟩)
    exact ⟨l, hl, (value_pos_iff l).mp hpos⟩
  · intro h host qps hqps
    obtain ⟨rate, heffective, hfloat⟩ := (parseHostOverrides_iff u spec host qps).mp hqps
    obtain ⟨l, hl, hrange⟩ := h host rate heffective
    rw [float, hl, Option.map_some] at hfloat
    obtain rfl := Option.some.inj hfloat
    exact (value_pos_iff l).mpr hrange

end WebSpider.Overrides
