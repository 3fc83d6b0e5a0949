import WebSpider.Json.Scanner
import Mathlib.Data.List.Induction

/-!
# The decoder: stability, limits, enough fuel

Inversion lemmas for the three mutual scanners, and by induction on their bound:

* `value_append`: a decoded value stays decoded when text follows, with any
  larger bound;
* `value_fits`: a decoded value respects the digit and nesting limits and has
  distinct keys;
* `loads_ne_fuel`: the bound `loads` starts with is never exhausted.
-/

namespace WebSpider.Json

open Text

variable {F : Type} [FloatText F]

/-! ## Inversion -/

theorem value_ok {n d : Nat} {s r : Str} {v : Value F} (h : value n d s = .ok (v, r)) :
    ∃ m c u, n = m + 1 ∧ s = c :: u ∧
      ((c = 34 ∧ ∃ x, scanString u = some (x, r) ∧ v = .str x) ∨
      (c = 123 ∧ ∃ d', d = d' + 1 ∧ skipWs u = 125 :: r ∧ v = .obj []) ∨
      (c = 123 ∧ ∃ d', d = d' + 1 ∧ (skipWs u).head? ≠ some 125 ∧
        ∃ kvs, members m d' (skipWs u) = .ok (kvs, r) ∧ v = .obj (dictOf kvs)) ∨
      (c = 91 ∧ ∃ d', d = d' + 1 ∧ skipWs u = 93 :: r ∧ v = .arr []) ∨
      (c = 91 ∧ ∃ d', d = d' + 1 ∧ (skipWs u).head? ≠ some 93 ∧
        ∃ vs, elems m d' (skipWs u) = .ok (vs, r) ∧ v = .arr vs) ∨
      (c ≠ 34 ∧ c ≠ 123 ∧ c ≠ 91 ∧ atom (c :: u) = .ok (v, r))) := by
  cases n with
  | zero => cases h
  | succ m =>
    cases s with
    | nil => cases h
    | cons c u =>
      refine ⟨m, c, u, rfl, rfl, ?_⟩
      rw [value.eq_def] at h
      dsimp only at h
      by_cases h34 : c = 34
      · simp only [h34, if_true] at h
        cases hs : scanString u with
        | none => simp [hs] at h
        | some p =>
          obtain ⟨x, r'⟩ := p
          simp only [hs] at h
          cases h
          exact Or.inl ⟨h34, x, rfl, rfl⟩
      · by_cases h123 : c = 123
        · rw [if_neg h34, if_pos h123] at h
          cases d with
          | zero => cases h
          | succ d =>
            simp only at h
            split at h
            · rename_i hhead
              cases h
              exact Or.inr (Or.inl ⟨h123, d, rfl, (List.cons_head?_tail hhead).symm, rfl⟩)
            · rename_i hhead
              cases hm : members (F := F) m d (skipWs u) with
              | error e => simp [hm, bind, Except.bind] at h
              | ok p =>
                simp only [hm, bind, Except.bind] at h
                cases h
                exact Or.inr (Or.inr (Or.inl ⟨h123, d, rfl, hhead, p.1, hm, rfl⟩))
        · by_cases h91 : c = 91
          · rw [if_neg h34, if_neg h123, if_pos h91] at h
            cases d with
            | zero => cases h
            | succ d =>
              simp only at h
              split at h
              · rename_i hhead
                cases h
                exact Or.inr (Or.inr (Or.inr (Or.inl
                  ⟨h91, d, rfl, (List.cons_head?_tail hhead).symm, rfl⟩)))
              · rename_i hhead
                cases hm : elems (F := F) m d (skipWs u) with
                | error e => simp [hm, bind, Except.bind] at h
                | ok p =>
                  simp only [hm, bind, Except.bind] at h
                  cases h
                  exact Or.inr (Or.inr (Or.inr (Or.inr (Or.inl
                    ⟨h91, d, rfl, hhead, p.1, hm, rfl⟩))))
          · rw [if_neg h34, if_neg h123, if_neg h91] at h
            exact Or.inr (Or.inr (Or.inr (Or.inr (Or.inr ⟨h34, h123, h91, h⟩))))

theorem elems_ok {n d : Nat} {s r : Str} {vs : List (Value F)} (h : elems n d s = .ok (vs, r)) :
    ∃ m v r₀, n = m + 1 ∧ value m d s = .ok (v, r₀) ∧
      ((skipWs r₀ = 93 :: r ∧ vs = [v]) ∨
        ∃ r₁ vs', skipWs r₀ = 44 :: r₁ ∧ elems m d (skipWs r₁) = .ok (vs', r) ∧ vs = v :: vs') := by
  cases n with
  | zero => cases h
  | succ m =>
    rw [elems] at h
    cases hv : value (F := F) m d s with
    | error e => simp [hv, bind, Except.bind] at h
    | ok p =>
      obtain ⟨v, r₀⟩ := p
      refine ⟨m, v, r₀, rfl, hv, ?_⟩
      simp only [hv, bind, Except.bind] at h
      split at h
      · rename_i r' hr
        cases h
        exact Or.inl ⟨hr, rfl⟩
      · rename_i r' hr
        cases he : elems (F := F) m d (skipWs r') with
        | error e => simp [he] at h
        | ok q =>
          simp only [he] at h
          cases h
          exact Or.inr ⟨r', q.1, hr, he, rfl⟩
      · cases h

theorem members_ok {n d : Nat} {s r : Str} {kvs : List (Str × Value F)}
    (h : members n d s = .ok (kvs, r)) :
    ∃ m u k r₀ r₁ v r₂, n = m + 1 ∧ s = 34 :: u ∧ scanString u = some (k, r₀) ∧
      skipWs r₀ = 58 :: r₁ ∧ value m d (skipWs r₁) = .ok (v, r₂) ∧
      ((skipWs r₂ = 125 :: r ∧ kvs = [(k, v)]) ∨
        ∃ r₃ kvs', skipWs r₂ = 44 :: r₃ ∧ members m d (skipWs r₃) = .ok (kvs', r) ∧
          kvs = (k, v) :: kvs') := by
  cases n with
  | zero => cases h
  | succ m =>
    cases s with
    | nil => cases h
    | cons c u =>
      rw [members] at h
      split at h
      · cases h
      · rename_i hc
        obtain rfl : c = 34 := not_not.mp hc
        cases hs : scanString u with
        | none => simp [hs] at h
        | some p =>
          obtain ⟨k, r₀⟩ := p
          simp only [hs] at h
          split at h
          · rename_i r₁ hr₁
            cases hv : value (F := F) m d (skipWs r₁) with
            | error e => simp [hv, bind, Except.bind] at h
            | ok q =>
              obtain ⟨v, r₂⟩ := q
              refine ⟨m, u, k, r₀, r₁, v, r₂, rfl, rfl, hs, hr₁, hv, ?_⟩
              simp only [hv, bind, Except.bind] at h
              split at h
              · rename_i r₃ hr₃
                cases h
                exact Or.inl ⟨hr₃, rfl⟩
              · rename_i r₃ hr₃
                cases hm : members (F := F) m d (skipWs r₃) with
                | error e => simp [hm] at h
                | ok q' =>
                  simp only [hm] at h
                  cases h
                  exact Or.inr ⟨r₃, q'.1, hr₃, hm, rfl⟩
              · cases h
          · cases h

theorem value_nil {n d : Nat} : ∀ p : Value F × Str, value n d [] ≠ .ok p := by
  intro p h
  obtain ⟨_, _, _, _, hs, _⟩ := value_ok (v := p.1) (r := p.2) h
  cases hs

/-! ## Introduction -/

theorem value_str {n d : Nat} {u r x : Str} (h : scanString u = some (x, r)) :
    value (F := F) (n + 1) d (34 :: u) = .ok (.str x, r) := by
  rw [value.eq_def]
  simp only [if_true, h]

theorem value_obj_nil {n d : Nat} {u r : Str} (h : skipWs u = 125 :: r) :
    value (F := F) (n + 1) (d + 1) (123 :: u) = .ok (.obj [], r) := by
  rw [value]
  simp [h]

theorem value_obj {n d : Nat} {u r : Str} {kvs : List (Str × Value F)}
    (hu : (skipWs u).head? ≠ some 125) (h : members n d (skipWs u) = .ok (kvs, r)) :
    value (n + 1) (d + 1) (123 :: u) = .ok (.obj (dictOf kvs), r) := by
  rw [value]
  simp [hu, h, bind, Except.bind]

theorem value_arr_nil {n d : Nat} {u r : Str} (h : skipWs u = 93 :: r) :
    value (F := F) (n + 1) (d + 1) (91 :: u) = .ok (.arr [], r) := by
  rw [value]
  simp [h]

theorem value_arr {n d : Nat} {u r : Str} {vs : List (Value F)}
    (hu : (skipWs u).head? ≠ some 93) (h : elems n d (skipWs u) = .ok (vs, r)) :
    value (n + 1) (d + 1) (91 :: u) = .ok (.arr vs, r) := by
  rw [value]
  simp [hu, h, bind, Except.bind]

theorem value_atom {n d c : Nat} {u r : Str} {v : Value F} (h34 : c ≠ 34) (h123 : c ≠ 123)
    (h91 : c ≠ 91) (h : atom (c :: u) = .ok (v, r)) : value (n + 1) d (c :: u) = .ok (v, r) := by
  rw [value.eq_def]
  simp only [h34, h123, h91, if_false, h]

theorem elems_last {n d : Nat} {s r r₀ : Str} {v : Value F} (h : value n d s = .ok (v, r₀))
    (hr : skipWs r₀ = 93 :: r) : elems (n + 1) d s = .ok ([v], r) := by
  rw [elems]
  simp [h, bind, Except.bind, hr]

theorem elems_cons {n d : Nat} {s r r₀ r₁ : Str} {v : Value F} {vs : List (Value F)}
    (h : value n d s = .ok (v, r₀)) (hr : skipWs r₀ = 44 :: r₁)
    (hvs : elems n d (skipWs r₁) = .ok (vs, r)) : elems (n + 1) d s = .ok (v :: vs, r) := by
  rw [elems]
  simp [h, bind, Except.bind, hr, hvs]

theorem members_last {n d : Nat} {u k r r₀ r₁ r₂ : Str} {v : Value F}
    (hk : scanString u = some (k, r₀)) (hr₀ : skipWs r₀ = 58 :: r₁)
    (h : value n d (skipWs r₁) = .ok (v, r₂)) (hr₂ : skipWs r₂ = 125 :: r) :
    members (n + 1) d (34 :: u) = .ok ([(k, v)], r) := by
  rw [members]
  simp [hk, hr₀, h, bind, Except.bind, hr₂]

theorem members_cons {n d : Nat} {u k r r₀ r₁ r₂ r₃ : Str} {v : Value F}
    {kvs : List (Str × Value F)} (hk : scanString u = some (k, r₀)) (hr₀ : skipWs r₀ = 58 :: r₁)
    (h : value n d (skipWs r₁) = .ok (v, r₂)) (hr₂ : skipWs r₂ = 44 :: r₃)
    (hkvs : members n d (skipWs r₃) = .ok (kvs, r)) :
    members (n + 1) d (34 :: u) = .ok ((k, v) :: kvs, r) := by
  rw [members]
  simp [hk, hr₀, h, bind, Except.bind, hr₂, hkvs]

/-! ## Errors inside a value -/

theorem value_str_error {n d : Nat} {u : Str} (h : scanString u = none) :
    value (F := F) (n + 1) d (34 :: u) = .error .decode := by
  rw [value.eq_def]
  simp only [if_true, h]

theorem value_obj_error {n d : Nat} {u : Str} {e : LoadsError}
    (hu : (skipWs u).head? ≠ some 125) (h : members (F := F) n d (skipWs u) = .error e) :
    value (F := F) (n + 1) (d + 1) (123 :: u) = .error e := by
  rw [value]
  simp [hu, h, bind, Except.bind]

theorem members_error {n d : Nat} {u k r₀ r₁ : Str} {e : LoadsError}
    (hk : scanString u = some (k, r₀)) (hr₀ : skipWs r₀ = 58 :: r₁)
    (h : value (F := F) n d (skipWs r₁) = .error e) :
    members (F := F) (n + 1) d (34 :: u) = .error e := by
  rw [members]
  simp [hk, hr₀, h, bind, Except.bind]

theorem members_cons_error {n d : Nat} {u k r₀ r₁ r₂ r₃ : Str} {v : Value F} {e : LoadsError}
    (hk : scanString u = some (k, r₀)) (hr₀ : skipWs r₀ = 58 :: r₁)
    (h : value n d (skipWs r₁) = .ok (v, r₂)) (hr₂ : skipWs r₂ = 44 :: r₃)
    (hkvs : members (F := F) n d (skipWs r₃) = .error e) :
    members (F := F) (n + 1) d (34 :: u) = .error e := by
  rw [members]
  simp [hk, hr₀, h, bind, Except.bind, hr₂, hkvs]

/-! ## Stability under appended text -/

/-- A delimiter ends a number. -/
theorem delimiter_stops : ∀ c ∈ [44, 93, 125], isDigit c = false ∧ c ≠ 46 ∧ c ≠ 101 ∧ c ≠ 69 := by
  decide

private theorem ne_nil_of_value {n d : Nat} {s r : Str} {v : Value F}
    (h : value n d s = .ok (v, r)) : s ≠ [] := by
  rintro rfl
  exact value_nil _ h

private theorem ne_nil_of_elems {n d : Nat} {s r : Str} {vs : List (Value F)}
    (h : elems n d s = .ok (vs, r)) : s ≠ [] := by
  obtain ⟨_, v, r₀, _, hv, _⟩ := elems_ok h
  exact ne_nil_of_value hv

private theorem ne_nil_of_members {n d : Nat} {s r : Str} {kvs : List (Str × Value F)}
    (h : members n d s = .ok (kvs, r)) : s ≠ [] := by
  obtain ⟨_, _, _, _, _, _, _, _, hs, _⟩ := members_ok h
  rw [hs]
  exact List.cons_ne_nil _ _

/-- What the scanner reads with this fuel it reads with more, and in front of any text. -/
private def ValueAppends (F : Type) [FloatText F] (n : Nat) : Prop :=
  ∀ (m d : Nat) (s r t : Str) (v : Value F), n ≤ m → value n d s = .ok (v, r) →
    (isNumber v = true → Stops (r ++ t)) → value m d (s ++ t) = .ok (v, r ++ t)

private def ElemsAppend (F : Type) [FloatText F] (n : Nat) : Prop :=
  ∀ (m d : Nat) (s r t : Str) (vs : List (Value F)), n ≤ m → elems n d s = .ok (vs, r) →
    elems m d (s ++ t) = .ok (vs, r ++ t)

private def MembersAppend (F : Type) [FloatText F] (n : Nat) : Prop :=
  ∀ (m d : Nat) (s r t : Str) (kvs : List (Str × Value F)), n ≤ m →
    members n d s = .ok (kvs, r) → members m d (s ++ t) = .ok (kvs, r ++ t)

private theorem value_append_step {n : Nat} (ihe : ElemsAppend F n) (ihm : MembersAppend F n) :
    ValueAppends F (n + 1) := by
  intro m d s r t v hm h hstop
  obtain ⟨m, rfl⟩ : ∃ m', m = m' + 1 := ⟨m - 1, by omega⟩
  obtain ⟨n', c, u, hn, rfl, hcase⟩ := value_ok h
  obtain rfl : n = n' := by omega
  rw [List.cons_append]
  rcases hcase with ⟨rfl, x, hx, rfl⟩ | ⟨rfl, d', rfl, hu, rfl⟩ |
    ⟨rfl, d', rfl, hhead, kvs, hkvs, rfl⟩ | ⟨rfl, d', rfl, hu, rfl⟩ |
    ⟨rfl, d', rfl, hhead, vs, hvs, rfl⟩ | ⟨h34, h123, h91, hatom⟩
  · exact value_str (scanString_append hx)
  · exact value_obj_nil (skipWs_cons_append hu)
  · have hne := ne_nil_of_members hkvs
    refine value_obj ?_ ?_
    · rw [skipWs_append hne, List.head?_append_of_ne_nil _ hne]
      exact hhead
    · rw [skipWs_append hne]
      exact ihm m d' _ r t kvs (by omega) hkvs
  · exact value_arr_nil (skipWs_cons_append hu)
  · have hne := ne_nil_of_elems hvs
    refine value_arr ?_ ?_
    · rw [skipWs_append hne, List.head?_append_of_ne_nil _ hne]
      exact hhead
    · rw [skipWs_append hne]
      exact ihe m d' _ r t vs (by omega) hvs
  · exact value_atom h34 h123 h91 (atom_append hatom hstop)

private theorem elems_append_step {n : Nat} (ihv : ValueAppends F n) (ihe : ElemsAppend F n) :
    ElemsAppend F (n + 1) := by
  intro m d s r t vs hm h
  obtain ⟨m, rfl⟩ : ∃ m', m = m' + 1 := ⟨m - 1, by omega⟩
  obtain ⟨n', v, r₀, hn, hv, hcase⟩ := elems_ok h
  obtain rfl : n = n' := by omega
  rcases hcase with ⟨hr, rfl⟩ | ⟨r₁, vs', hr, hvs, rfl⟩
  · have hstop := stops_of_skipWs (t := t) hr (delimiter_stops 93 (by decide))
    exact elems_last (ihv m d s r₀ t v (by omega) hv fun _ => hstop) (skipWs_cons_append hr)
  · have hstop := stops_of_skipWs (t := t) hr (delimiter_stops 44 (by decide))
    have hne := ne_nil_of_elems hvs
    refine elems_cons (ihv m d s r₀ t v (by omega) hv fun _ => hstop)
      (skipWs_cons_append hr) ?_
    rw [skipWs_append hne]
    exact ihe m d _ r t vs' (by omega) hvs

private theorem members_append_step {n : Nat} (ihv : ValueAppends F n) (ihm : MembersAppend F n) :
    MembersAppend F (n + 1) := by
  intro m d s r t kvs hm h
  obtain ⟨m, rfl⟩ : ∃ m', m = m' + 1 := ⟨m - 1, by omega⟩
  obtain ⟨n', u, k, r₀, r₁, v, r₂, hn, rfl, hk, hr₀, hv, hcase⟩ := members_ok h
  obtain rfl : n = n' := by omega
  have hne₁ := ne_nil_of_value hv
  have hvalue : Stops (r₂ ++ t) → value m d (skipWs (r₁ ++ t)) = .ok (v, r₂ ++ t) := by
    intro hstop
    rw [skipWs_append hne₁]
    exact ihv m d _ r₂ t v (by omega) hv fun _ => hstop
  rcases hcase with ⟨hr, rfl⟩ | ⟨r₃, kvs', hr, hkvs, rfl⟩
  · exact members_last (scanString_append hk) (skipWs_cons_append hr₀)
      (hvalue (stops_of_skipWs hr (delimiter_stops 125 (by decide))))
      (skipWs_cons_append hr)
  · have hne₃ := ne_nil_of_members hkvs
    refine members_cons (scanString_append hk) (skipWs_cons_append hr₀)
      (hvalue (stops_of_skipWs hr (delimiter_stops 44 (by decide))))
      (skipWs_cons_append hr) ?_
    rw [skipWs_append hne₃]
    exact ihm m d _ r t kvs' (by omega) hkvs

/-- The three scanners call each other with less fuel, so the induction is over all of them. -/
private theorem scanners_append (n : Nat) :
    ValueAppends F n ∧ ElemsAppend F n ∧ MembersAppend F n := by
  induction n with
  | zero =>
    refine ⟨?_, ?_, ?_⟩ <;> intro _ _ _ _ _ _ _ h <;> cases h
  | succ n ih =>
    obtain ⟨ihv, ihe, ihm⟩ := ih
    exact ⟨value_append_step ihe ihm, elems_append_step ihv ihe, members_append_step ihv ihm⟩

theorem value_append {n m d : Nat} {s r t : Str} {v : Value F} (hnm : n ≤ m)
    (h : value n d s = .ok (v, r)) (ht : isNumber v = true → Stops (r ++ t)) :
    value m d (s ++ t) = .ok (v, r ++ t) :=
  (scanners_append n).1 m d s r t v hnm h ht

/-! ## Limits -/

mutual

/-- The value has at most `d` levels of nesting, its integers are within the
digit limit and its objects have distinct keys. -/
def Fits : Nat → Value F → Prop
  | _, .null => True
  | _, .bool _ => True
  | _, .int n => (decimal n.natAbs).length ≤ maxDigits
  | _, .float _ => True
  | _, .str _ => True
  | 0, .arr _ => False
  | d + 1, .arr xs => FitsAll d xs
  | 0, .obj _ => False
  | d + 1, .obj kvs => (kvs.map Prod.fst).Nodup ∧ FitsFields d kvs

def FitsAll : Nat → List (Value F) → Prop
  | _, [] => True
  | d, x :: xs => Fits d x ∧ FitsAll d xs

def FitsFields : Nat → List (Str × Value F) → Prop
  | _, [] => True
  | d, kv :: kvs => Fits d kv.2 ∧ FitsFields d kvs

end

omit [FloatText F] in
theorem fitsFields_iff {d : Nat} {kvs : List (Str × Value F)} :
    FitsFields d kvs ↔ ∀ kv ∈ kvs, Fits d kv.2 := by
  induction kvs with
  | nil => simp [FitsFields]
  | cons kv kvs ih => simp [FitsFields, ih]

theorem readDigits_lt {s : Str} (hs : s.all isDigit = true) : readDigits s < 10 ^ s.length := by
  induction s using List.reverseRecOn with
  | nil => decide
  | append_singleton s c ih =>
    rw [List.all_append, Bool.and_eq_true] at hs
    have hc : 48 ≤ c ∧ c ≤ 57 := by simpa [isDigit] using hs.2
    have hlt := ih hs.1
    have hstep : readDigits (s ++ [c]) = 10 * readDigits s + (c - 48) := by
      simp [readDigits]
    rw [hstep, List.length_append, List.length_singleton, Nat.pow_succ]
    omega

theorem length_decimal_le {n k : Nat} (hk : 0 < k) : (decimal n).length ≤ k ↔ n < 10 ^ k := by
  rw [decimal, List.length_map, Nat.length_toDigits_le_iff (by decide) hk]

/-- The parts of a scanned number make up the text before the rest. -/
theorem scanNumber_split {s sg i fe r : Str} (h : scanNumber s = some (sg, i, fe, r)) :
    s = sg ++ (i ++ (fe ++ r)) ∧ i ≠ [] ∧ i.all isDigit = true := by
  unfold scanNumber at h
  have hsign : s = (signPart s).1 ++ (signPart s).2 := by
    unfold signPart
    split <;> rfl
  simp only at h
  cases hi : intPart (signPart s).2 with
  | none =>
    rw [hi] at h
    cases h
  | some p =>
    obtain ⟨i', r₁⟩ := p
    rw [hi] at h
    simp only [Option.some.injEq, Prod.mk.injEq] at h
    obtain ⟨rfl, rfl, rfl, rfl⟩ := h
    have hint := intPart_split hi
    have hfrac : r₁ = (fracPart r₁).1 ++ (fracPart r₁).2 := by
      rcases fracPart_spec r₁ with hf | ⟨r', hr', -, hf⟩
      · rw [hf]
        rfl
      · rw [hf, hr', List.cons_append, List.takeWhile_append_dropWhile]
    have hexp : (fracPart r₁).2 = (expPart (fracPart r₁).2).1 ++ (expPart (fracPart r₁).2).2 := by
      rcases expPart_spec (fracPart r₁).2 with he | ⟨c, r', hr', -, -, he⟩
      · rw [he]
        rfl
      · have hes : r' = (expSign r').1 ++ (expSign r').2 := by
          unfold expSign
          split <;> rfl
        rw [he, hr', List.cons_append, List.append_assoc, List.takeWhile_append_dropWhile, ← hes]
    refine ⟨?_, hint.2⟩
    rw [List.append_assoc, ← hexp, ← hfrac, ← hint.1, ← hsign]

theorem number_fits {d : Nat} {s r : Str} {v : Value F} (h : number s = .ok (v, r)) :
    Fits d v := by
  unfold number at h
  split at h
  · cases h
  · rename_i sg i fe r' hs
    obtain ⟨-, hne, hdig⟩ := scanNumber_split hs
    have hpos : 0 < i.length := List.length_pos_iff.mpr hne
    have hlen : (decimal (readDigits i)).length ≤ i.length :=
      (length_decimal_le hpos).mpr (readDigits_lt hdig)
    split at h
    · cases h
      trivial
    · split at h
      · cases h
      · split at h <;> cases h <;> simp only [Fits, Int.natAbs_natCast, Int.natAbs_neg] <;> omega

theorem atom_fits {d c : Nat} {s r : Str} {v : Value F} (h : atom (c :: s) = .ok (v, r)) :
    Fits d v := by
  rcases atom_ok h with ⟨w, hc, -⟩ | hnum
  · unfold constant at hc
    repeat' split at hc
    all_goals first | cases hc; trivial | cases hc
  · exact number_fits hnum

private theorem scanners_fits (n : Nat) :
    (∀ (d : Nat) (s r : Str) (v : Value F), value n d s = .ok (v, r) → Fits d v) ∧
    (∀ (d : Nat) (s r : Str) (vs : List (Value F)), elems n d s = .ok (vs, r) → FitsAll d vs) ∧
    (∀ (d : Nat) (s r : Str) (kvs : List (Str × Value F)), members n d s = .ok (kvs, r) →
      FitsFields d kvs) := by
  induction n with
  | zero => refine ⟨?_, ?_, ?_⟩ <;> intro _ _ _ _ h <;> cases h
  | succ n ih =>
    obtain ⟨ihv, ihe, ihm⟩ := ih
    refine ⟨?_, ?_, ?_⟩
    · intro d s r v h
      obtain ⟨n', c, u, hn, -, hcase⟩ := value_ok h
      obtain rfl : n = n' := by omega
      rcases hcase with ⟨-, x, -, rfl⟩ | ⟨-, d', rfl, -, rfl⟩ | ⟨-, d', rfl, -, kvs, hkvs, rfl⟩ |
        ⟨-, d', rfl, -, rfl⟩ | ⟨-, d', rfl, -, vs, hvs, rfl⟩ | ⟨-, -, -, hatom⟩
      · trivial
      · exact ⟨List.nodup_nil, trivial⟩
      · have hall := fitsFields_iff.mp (ihm d' _ _ kvs hkvs)
        exact ⟨nodup_dictOf kvs, fitsFields_iff.mpr fun kv hkv => hall kv (mem_dictOf hkv)⟩
      · trivial
      · exact ihe d' _ _ vs hvs
      · exact atom_fits hatom
    · intro d s r vs h
      obtain ⟨n', v, r₀, hn, hv, hcase⟩ := elems_ok h
      obtain rfl : n = n' := by omega
      rcases hcase with ⟨-, rfl⟩ | ⟨r₁, vs', -, hvs, rfl⟩
      · exact ⟨ihv d _ _ v hv, trivial⟩
      · exact ⟨ihv d _ _ v hv, ihe d _ _ vs' hvs⟩
    · intro d s r kvs h
      obtain ⟨n', u, k, r₀, r₁, v, r₂, hn, -, -, -, hv, hcase⟩ := members_ok h
      obtain rfl : n = n' := by omega
      rcases hcase with ⟨-, rfl⟩ | ⟨r₃, kvs', -, hkvs, rfl⟩
      · exact ⟨ihv d _ _ v hv, trivial⟩
      · exact ⟨ihv d _ _ v hv, ihm d _ _ kvs' hkvs⟩

theorem value_fits {n d : Nat} {s r : Str} {v : Value F} (h : value n d s = .ok (v, r)) :
    Fits d v :=
  (scanners_fits n).1 d s r v h

theorem loads_fits {limit : Nat} {s : Str} {v : Value F} (h : loads limit s = .ok v) :
    Fits limit v := by
  unfold loads at h
  split at h
  · cases h
  · split at h
    · cases h
    · rename_i v' r hv
      split at h
      · cases h
        exact value_fits hv
      · cases h

/-! ## Enough fuel -/

theorem atom_length_lt {c : Nat} {s r : Str} {v : Value F} (h : atom (c :: s) = .ok (v, r)) :
    r.length < (c :: s).length := by
  rcases atom_ok h with ⟨w, hc, hw⟩ | hnum
  · have hne : 0 < w.length := by
      unfold constant at hc
      repeat' split at hc
      all_goals first | cases hc; decide | cases hc
    rw [hw, List.length_append]
    omega
  · obtain ⟨-, sg, i, fe, hs, -⟩ := number_ok hnum
    obtain ⟨heq, hne, -⟩ := scanNumber_split hs
    have := List.length_pos_iff.mpr hne
    rw [heq]
    simp only [List.length_append]
    omega

/-- Text that starts past whitespace is no longer than the text. -/
theorem length_lt_of_skipWs {s r : Str} {c : Nat} (h : skipWs s = c :: r) :
    r.length < s.length := by
  have := length_skipWs_le s
  rw [h, List.length_cons] at this
  omega

private theorem scanners_length_lt (n : Nat) :
    (∀ (d : Nat) (s r : Str) (v : Value F), value n d s = .ok (v, r) → r.length < s.length) ∧
    (∀ (d : Nat) (s r : Str) (vs : List (Value F)), elems n d s = .ok (vs, r) →
      r.length < s.length) ∧
    (∀ (d : Nat) (s r : Str) (kvs : List (Str × Value F)), members n d s = .ok (kvs, r) →
      r.length < s.length) := by
  induction n with
  | zero => refine ⟨?_, ?_, ?_⟩ <;> intro _ _ _ _ h <;> cases h
  | succ n ih =>
    obtain ⟨ihv, ihe, ihm⟩ := ih
    refine ⟨?_, ?_, ?_⟩
    · intro d s r v h
      obtain ⟨n', c, u, hn, rfl, hcase⟩ := value_ok h
      obtain rfl : n = n' := by omega
      have hws := length_skipWs_le u
      rw [List.length_cons]
      rcases hcase with ⟨-, x, hx, -⟩ | ⟨-, d', -, hu, -⟩ | ⟨-, d', -, -, kvs, hkvs, -⟩ |
        ⟨-, d', -, hu, -⟩ | ⟨-, d', -, -, vs, hvs, -⟩ | ⟨-, -, -, hatom⟩
      · have := length_scanString_lt hx
        omega
      · have := length_lt_of_skipWs hu
        omega
      · have := ihm d' _ _ kvs hkvs
        omega
      · have := length_lt_of_skipWs hu
        omega
      · have := ihe d' _ _ vs hvs
        omega
      · have := atom_length_lt hatom
        rw [List.length_cons] at this
        omega
    · intro d s r vs h
      obtain ⟨n', v, r₀, hn, hv, hcase⟩ := elems_ok h
      obtain rfl : n = n' := by omega
      have hv := ihv d _ _ v hv
      rcases hcase with ⟨hr, -⟩ | ⟨r₁, vs', hr, hvs, -⟩
      · have := length_lt_of_skipWs hr
        omega
      · have := length_lt_of_skipWs hr
        have := ihe d _ _ vs' hvs
        have := length_skipWs_le r₁
        omega
    · intro d s r kvs h
      obtain ⟨n', u, k, r₀, r₁, v, r₂, hn, rfl, hk, hr₀, hv, hcase⟩ := members_ok h
      obtain rfl : n = n' := by omega
      rw [List.length_cons]
      have hk := length_scanString_lt hk
      have hr₀ := length_lt_of_skipWs hr₀
      have hv := ihv d _ _ v hv
      have hr₁ := length_skipWs_le r₁
      rcases hcase with ⟨hr, -⟩ | ⟨r₃, kvs', hr, hkvs, -⟩
      · have := length_lt_of_skipWs hr
        omega
      · have := length_lt_of_skipWs hr
        have := ihm d _ _ kvs' hkvs
        have := length_skipWs_le r₃
        omega

theorem atom_ne_fuel {s : Str} : atom (F := F) s ≠ .error .fuel := by
  have hnum : number (F := F) s ≠ .error .fuel := by
    unfold number
    repeat' split
    all_goals simp
  unfold atom
  repeat' split
  all_goals first | exact hnum | simp

/-- A computation does not run out of fuel when neither of its parts does. -/
theorem bind_ne_fuel {α β : Type} {x : Except LoadsError α} {f : α → Except LoadsError β}
    (hx : x ≠ .error .fuel) (hf : ∀ a, x = .ok a → f a ≠ .error .fuel) :
    (x >>= f) ≠ .error .fuel := by
  cases x with
  | error e => exact fun h => hx (congrArg Except.error (Except.error.inj h))
  | ok a => exact hf a rfl

/-- The fuel is enough for the scanner on every text of such a length. -/
private def ValueFueled (F : Type) [FloatText F] (n : Nat) : Prop :=
  ∀ (d : Nat) (s : Str), 2 * s.length < n → value (F := F) n d s ≠ .error .fuel

private def ElemsFueled (F : Type) [FloatText F] (n : Nat) : Prop :=
  ∀ (d : Nat) (s : Str), 2 * s.length + 1 < n → elems (F := F) n d s ≠ .error .fuel

private def MembersFueled (F : Type) [FloatText F] (n : Nat) : Prop :=
  ∀ (d : Nat) (s : Str), 2 * s.length < n → members (F := F) n d s ≠ .error .fuel

private theorem value_fuel_step {n : Nat} (ihe : ElemsFueled F n) (ihm : MembersFueled F n) :
    ValueFueled F (n + 1) := by
  intro d s hs
  cases s with
  | nil => simp [value]
  | cons c u =>
    rw [List.length_cons] at hs
    have hws := length_skipWs_le u
    rw [value.eq_def]
    dsimp only
    split
    · split <;> simp
    · split
      · cases d with
        | zero => simp
        | succ d =>
          dsimp only
          split
          · simp
          · apply bind_ne_fuel (ihm d (skipWs u) (by omega))
            simp
      · split
        · cases d with
          | zero => simp
          | succ d =>
            dsimp only
            split
            · simp
            · apply bind_ne_fuel (ihe d (skipWs u) (by omega))
              simp
        · exact atom_ne_fuel

private theorem elems_fuel_step {n : Nat} (ihv : ValueFueled F n) (ihe : ElemsFueled F n) :
    ElemsFueled F (n + 1) := by
  intro d s hs
  rw [elems]
  apply bind_ne_fuel (ihv d s (by omega))
  rintro ⟨v, r₀⟩ hv
  have hlen := (scanners_length_lt n).1 d s r₀ v hv
  dsimp only
  split
  · simp
  · rename_i r' hr
    have := length_lt_of_skipWs hr
    have := length_skipWs_le r'
    apply bind_ne_fuel (ihe d (skipWs r') (by omega))
    simp
  · simp

private theorem members_fuel_step {n : Nat} (ihv : ValueFueled F n) (ihm : MembersFueled F n) :
    MembersFueled F (n + 1) := by
  intro d s hs
  cases s with
  | nil => simp [members]
  | cons c u =>
    rw [List.length_cons] at hs
    rw [members]
    split
    · simp
    · cases hk : scanString u with
      | none => simp
      | some p =>
        obtain ⟨k, r₀⟩ := p
        have hk := length_scanString_lt hk
        dsimp only
        split
        · rename_i r₁ hr₁
          have := length_lt_of_skipWs hr₁
          have := length_skipWs_le r₁
          apply bind_ne_fuel (ihv d (skipWs r₁) (by omega))
          rintro ⟨v, r₂⟩ hv
          have hlen := (scanners_length_lt n).1 d _ r₂ v hv
          dsimp only
          split
          · simp
          · rename_i r₃ hr₃
            have := length_lt_of_skipWs hr₃
            have := length_skipWs_le r₃
            apply bind_ne_fuel (ihm d (skipWs r₃) (by omega))
            simp
          · simp
        · simp

private theorem scanners_ne_fuel (n : Nat) :
    ValueFueled F n ∧ ElemsFueled F n ∧ MembersFueled F n := by
  induction n with
  | zero => refine ⟨?_, ?_, ?_⟩ <;> intro _ _ h <;> omega
  | succ n ih =>
    obtain ⟨ihv, ihe, ihm⟩ := ih
    exact ⟨value_fuel_step ihe ihm, elems_fuel_step ihv ihe, members_fuel_step ihv ihm⟩

/-- The bound of `loads` is never exhausted. -/
theorem loads_ne_fuel (limit : Nat) (s : Str) : loads (F := F) limit s ≠ .error .fuel := by
  have hlen := length_skipWs_le s
  have hv := (scanners_ne_fuel (F := F) (2 * s.length + 2)).1 limit (skipWs s) (by omega)
  unfold loads
  split
  · simp
  · cases h : value (F := F) (2 * s.length + 2) limit (skipWs s) with
    | error e => simpa [h] using hv
    | ok p =>
      simp only
      split <;> simp

end WebSpider.Json
