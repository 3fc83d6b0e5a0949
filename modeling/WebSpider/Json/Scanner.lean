import WebSpider.Json.Loads

/-!
# What the scanners accept

Each scanner gets one inversion lemma that lists what a success means, and the
later proofs use only these. Two facts follow by induction on the bound: a
success is stable when text is appended, unless the value is a number that the
appended text could prolong, and the values built respect the digit limit, the
nesting limit and the distinctness of keys.
-/

namespace WebSpider.Json

open Text

/-! ## Appending text -/

/-- The text does not go on with a character that could prolong a number. -/
def Stops (s : Str) : Prop :=
  ∀ c t, s = c :: t → isDigit c = false ∧ c ≠ 46 ∧ c ≠ 101 ∧ c ≠ 69

theorem stops_nil : Stops [] := fun _ _ h => nomatch h

theorem stops_cons {c : Nat} {s : Str} (hc : isDigit c = false ∧ c ≠ 46 ∧ c ≠ 101 ∧ c ≠ 69) :
    Stops (c :: s) := by
  intro c' t h
  obtain ⟨rfl, -⟩ := List.cons.inj h
  exact hc

theorem span_append {p : Nat → Bool} {s t : Str}
    (h : ∀ c u, s.dropWhile p ++ t = c :: u → p c = false) :
    (s ++ t).takeWhile p = s.takeWhile p ∧ (s ++ t).dropWhile p = s.dropWhile p ++ t := by
  have hsplit : s ++ t = s.takeWhile p ++ (s.dropWhile p ++ t) := by
    rw [← List.append_assoc, List.takeWhile_append_dropWhile]
  have hall : (s.takeWhile p).all p = true := List.all_takeWhile
  have hrun := span_run hall h
  rwa [← hsplit] at hrun

theorem skipWs_cons_append {s r t : Str} {c : Nat} (h : skipWs s = c :: r) :
    skipWs (s ++ t) = c :: (r ++ t) := by
  have hc : isWs c = false := by
    have := List.head?_dropWhile_not isWs s
    rw [show s.dropWhile isWs = c :: r from h] at this
    simpa using this
  have happ := (span_append (p := isWs) (s := s) (t := t) (by
    intro c' u hu
    rw [show s.dropWhile isWs = c :: r from h] at hu
    obtain ⟨rfl, -⟩ := List.cons.inj hu
    exact hc)).2
  rw [skipWs, happ, show s.dropWhile isWs = c :: r from h, List.cons_append]

theorem skipWs_append {s t : Str} (h : skipWs s ≠ []) : skipWs (s ++ t) = skipWs s ++ t := by
  cases hs : skipWs s with
  | nil => exact (h hs).elim
  | cons c r => rw [skipWs_cons_append hs, List.cons_append]

theorem skipWs_of_not_ws {c : Nat} {s : Str} (h : isWs c = false) : skipWs (c :: s) = c :: s := by
  simp [skipWs, h]

theorem length_skipWs_le (s : Str) : (skipWs s).length ≤ s.length :=
  (List.dropWhile_sublist _).length_le

/-- What whitespace and a delimiter follow cannot prolong a number. -/
theorem stops_of_skipWs {s r t : Str} {c : Nat} (h : skipWs s = c :: r)
    (hc : isDigit c = false ∧ c ≠ 46 ∧ c ≠ 101 ∧ c ≠ 69) : Stops (s ++ t) := by
  cases s with
  | nil => cases h
  | cons a s =>
    rw [List.cons_append]
    apply stops_cons
    by_cases ha : isWs a = true
    · have : a = 32 ∨ a = 9 ∨ a = 10 ∨ a = 13 := by simpa [isWs] using ha
      rcases this with rfl | rfl | rfl | rfl <;> decide
    · rw [skipWs_of_not_ws (by simpa using ha)] at h
      obtain ⟨rfl, -⟩ := List.cons.inj h
      exact hc

/-! ## Numbers -/

theorem signPart_append {s t : Str} (h : s ≠ []) :
    signPart (s ++ t) = ((signPart s).1, (signPart s).2 ++ t) := by
  cases s with
  | nil => exact (h rfl).elim
  | cons c r =>
    by_cases hc : c = 45
    · subst hc
      rfl
    · have hne : ∀ u, signPart (c :: u) = ([], c :: u) := by
        intro u
        unfold signPart
        split
        · rename_i heq
          exact (hc (List.cons.inj heq).1).elim
        · rfl
      rw [List.cons_append, hne, hne]
      rfl

theorem intPart_append {s i r t : Str} (h : intPart s = some (i, r))
    (hr : ∀ c u, r ++ t = c :: u → isDigit c = false) :
    intPart (s ++ t) = some (i, r ++ t) := by
  cases s with
  | nil => cases h
  | cons c s =>
    unfold intPart at h ⊢
    simp only [List.cons_append] at h ⊢
    split at h
    · rename_i hc
      obtain ⟨rfl, rfl⟩ : [48] = i ∧ s = r := by simpa using h
      rw [if_pos hc]
    · rename_i hc
      split at h
      · rename_i hd
        obtain ⟨rfl, rfl⟩ : c :: s.takeWhile isDigit = i ∧ s.dropWhile isDigit = r := by
          simpa using h
        obtain ⟨htake, hdrop⟩ := span_append hr
        rw [if_neg hc, if_pos hd, htake, hdrop]
      · cases h

theorem intPart_split {s i r : Str} (h : intPart s = some (i, r)) :
    s = i ++ r ∧ i ≠ [] ∧ i.all isDigit = true := by
  cases s with
  | nil => cases h
  | cons c u =>
    simp only [intPart] at h
    split at h
    · rename_i hc
      cases h
      exact ⟨by rw [hc]; rfl, by simp, by decide⟩
    · split at h
      · rename_i hd
        cases h
        refine ⟨?_, by simp, ?_⟩
        · rw [List.cons_append, List.takeWhile_append_dropWhile]
        · rw [List.all_cons, hd, List.all_takeWhile]
          rfl
      · cases h

/-- A fraction or exponent part that is present starts with its own mark. -/
theorem fracPart_spec (s : Str) :
    (fracPart s = ([], s)) ∨
      ∃ r, s = 46 :: r ∧ r.takeWhile isDigit ≠ [] ∧
        fracPart s = (46 :: r.takeWhile isDigit, r.dropWhile isDigit) := by
  unfold fracPart
  split
  · rename_i r
    split
    · exact Or.inl rfl
    · rename_i h
      exact Or.inr ⟨r, rfl, h, rfl⟩
  · exact Or.inl rfl

theorem fracPart_append {s t : Str}
    (h : ∀ c u, (fracPart s).2 ++ t = c :: u → isDigit c = false ∧ c ≠ 46) :
    fracPart (s ++ t) = ((fracPart s).1, (fracPart s).2 ++ t) := by
  rcases fracPart_spec s with hs | ⟨r, rfl, hne, hs⟩
  · rw [hs] at h ⊢
    rcases fracPart_spec (s ++ t) with hst | ⟨r, hr, -, -⟩
    · exact hst
    · exact ((h 46 r hr).2 rfl).elim
  · rw [hs] at h ⊢
    obtain ⟨htake, hdrop⟩ := span_append (p := isDigit) fun c u hu => (h c u hu).1
    rw [List.cons_append]
    unfold fracPart
    simp only [htake, hdrop, hne, if_false]

theorem expSign_append {s t : Str} (h : s ≠ []) :
    expSign (s ++ t) = ((expSign s).1, (expSign s).2 ++ t) := by
  cases s with
  | nil => exact (h rfl).elim
  | cons c r =>
    by_cases hp : c = 43
    · subst hp
      rfl
    · by_cases hm : c = 45
      · subst hm
        rfl
      · have hne : ∀ u, expSign (c :: u) = ([], c :: u) := by
          intro u
          unfold expSign
          split
          · rename_i heq
            exact (hp (List.cons.inj heq).1).elim
          · rename_i heq
            exact (hm (List.cons.inj heq).1).elim
          · rfl
        rw [List.cons_append, hne, hne]
        rfl

theorem expPart_spec (s : Str) :
    (expPart s = ([], s)) ∨
      ∃ c r, s = c :: r ∧ (c = 101 ∨ c = 69) ∧ (expSign r).2.takeWhile isDigit ≠ [] ∧
        expPart s = (c :: ((expSign r).1 ++ (expSign r).2.takeWhile isDigit),
          (expSign r).2.dropWhile isDigit) := by
  cases s with
  | nil => exact Or.inl rfl
  | cons c r =>
    by_cases hc : c = 101 ∨ c = 69
    · unfold expPart
      simp only [hc, if_true]
      split
      · exact Or.inl rfl
      · rename_i h
        exact Or.inr ⟨c, r, rfl, hc, h, rfl⟩
    · exact Or.inl (by simp only [expPart, hc, if_false])

theorem expPart_append {s t : Str} (h : Stops ((expPart s).2 ++ t)) :
    expPart (s ++ t) = ((expPart s).1, (expPart s).2 ++ t) := by
  rcases expPart_spec s with hs | ⟨c, r, rfl, hc, hne, hs⟩
  · rw [hs] at h ⊢
    rcases expPart_spec (s ++ t) with hst | ⟨c, r, hr, hc, -, -⟩
    · exact hst
    · have := h c r hr
      rcases hc with rfl | rfl
      · exact (this.2.2.1 rfl).elim
      · exact (this.2.2.2 rfl).elim
  · rw [hs] at h ⊢
    have hr : r ≠ [] := by
      rintro rfl
      exact hne rfl
    obtain ⟨htake, hdrop⟩ := span_append (p := isDigit) fun c u hu => (h c u hu).1
    rw [List.cons_append]
    unfold expPart
    simp only [expSign_append hr, hc, if_true, htake, hdrop, hne, if_false]

/-- A scanned number is not changed by text that cannot prolong it. -/
theorem scanNumber_append {s sg i fe r t : Str} (h : scanNumber s = some (sg, i, fe, r))
    (hr : Stops (r ++ t)) : scanNumber (s ++ t) = some (sg, i, fe, r ++ t) := by
  unfold scanNumber at h ⊢
  have hs : s ≠ [] := by
    rintro rfl
    cases h
  rw [signPart_append hs]
  simp only at h ⊢
  cases hi : intPart (signPart s).2 with
  | none =>
    rw [hi] at h
    cases h
  | some p =>
    obtain ⟨i', r₁⟩ := p
    rw [hi] at h
    simp only [Option.some.injEq, Prod.mk.injEq] at h
    obtain ⟨rfl, rfl, rfl, rfl⟩ := h
    -- each part leaves a rest that starts with the mark of a later part or with `r`
    have hexp := expPart_append hr
    have hfracHead : ∀ c u, (fracPart r₁).2 ++ t = c :: u → isDigit c = false ∧ c ≠ 46 := by
      intro c u hu
      rcases expPart_spec (fracPart r₁).2 with he | ⟨c', r', he, hc', -, -⟩
      · rw [he] at hr
        exact ⟨(hr c u hu).1, (hr c u hu).2.1⟩
      · rw [he, List.cons_append] at hu
        obtain ⟨rfl, -⟩ := List.cons.inj hu
        rcases hc' with rfl | rfl <;> decide
    have hfrac := fracPart_append hfracHead
    have hintHead : ∀ c u, r₁ ++ t = c :: u → isDigit c = false := by
      intro c u hu
      rcases fracPart_spec r₁ with hf | ⟨r', hf, -, -⟩
      · rw [hf] at hfracHead
        exact (hfracHead c u hu).1
      · rw [hf, List.cons_append] at hu
        obtain ⟨rfl, -⟩ := List.cons.inj hu
        decide
    rw [intPart_append hi hintHead]
    simp only [hfrac, hexp]

/-! ## Strings -/

theorem scanPieces_short {c x : Nat} (h : shortEscape c = some x) (r : Str) :
    scanPieces (92 :: c :: r) = (scanPieces r).map fun p => (.raw x :: p.1, p.2) := by
  have hc : c ≠ 117 := by
    rintro rfl
    cases h
  rw [scanPieces.eq_4 _ _ (fun _ _ _ _ _ hu _ => hc hu)]
  simp only [h]

theorem scanPieces_unit {a b c d u : Nat} (h : hex4 a b c d = some u) (r : Str) :
    scanPieces (92 :: 117 :: a :: b :: c :: d :: r) =
      (scanPieces r).map fun p => (.unit u :: p.1, p.2) := by
  simp only [scanPieces, h]

theorem scanPieces_raw {c : Nat} (h34 : c ≠ 34) (h92 : c ≠ 92) (h32 : 32 ≤ c) (r : Str) :
    scanPieces (c :: r) = (scanPieces r).map fun p => (.raw c :: p.1, p.2) := by
  rw [scanPieces.eq_5 _ _ h34 (fun _ _ _ _ _ h _ => h92 h) (fun _ _ h _ => h92 h)]
  rw [if_neg (by omega)]

/-- A scanned string is a nonempty prefix, whatever follows it. -/
theorem scanPieces_prefix {s r : Str} {ps : List Piece} (h : scanPieces s = some (ps, r)) :
    ∃ u, u ≠ [] ∧ s = u ++ r ∧ ∀ t, scanPieces (u ++ t) = some (ps, t) := by
  induction s using scanPieces.induct generalizing ps with
  | case1 => cases h
  | case2 s =>
    obtain ⟨rfl, rfl⟩ : [] = ps ∧ s = r := by simpa [scanPieces] using h
    exact ⟨[34], by simp, rfl, fun _ => rfl⟩
  | case3 a b c d s hu => simp [scanPieces, hu] at h
  | case4 a b c d s x hx ih =>
    rw [scanPieces_unit hx, Option.map_eq_some_iff] at h
    obtain ⟨⟨ps', r'⟩, hs, heq⟩ := h
    obtain ⟨rfl, rfl⟩ := Prod.mk.inj heq
    obtain ⟨u, -, rfl, hu⟩ := ih hs
    refine ⟨92 :: 117 :: a :: b :: c :: d :: u, by simp, rfl, fun t => ?_⟩
    simp only [List.cons_append, scanPieces_unit hx, hu, Option.map_some]
  | case5 c s hne hx => simp [scanPieces.eq_4 _ _ hne, hx] at h
  | case6 c s hne x hx ih =>
    rw [scanPieces_short hx, Option.map_eq_some_iff] at h
    obtain ⟨⟨ps', r'⟩, hs, heq⟩ := h
    obtain ⟨rfl, rfl⟩ := Prod.mk.inj heq
    obtain ⟨u, -, rfl, hu⟩ := ih hs
    refine ⟨92 :: c :: u, by simp, rfl, fun t => ?_⟩
    simp only [List.cons_append, scanPieces_short hx, hu, Option.map_some]
  | case7 c s h34 hu hx hc => simp [scanPieces.eq_5 _ _ h34 hu hx, hc] at h
  | case8 c s h34 h117 hx hc ih =>
    have hraw := scanPieces_raw (c := c) h34 (by omega) (by omega)
    rw [hraw, Option.map_eq_some_iff] at h
    obtain ⟨⟨ps', r'⟩, hs, heq⟩ := h
    obtain ⟨rfl, rfl⟩ := Prod.mk.inj heq
    obtain ⟨u, -, rfl, hu⟩ := ih hs
    refine ⟨c :: u, by simp, rfl, fun t => ?_⟩
    simp only [List.cons_append, hraw, hu, Option.map_some]

theorem scanString_prefix {s r x : Str} (h : scanString s = some (x, r)) :
    ∃ u, u ≠ [] ∧ s = u ++ r ∧ ∀ t, scanString (u ++ t) = some (x, t) := by
  obtain ⟨⟨ps, r'⟩, hs, heq⟩ := Option.map_eq_some_iff.mp h
  obtain ⟨rfl, rfl⟩ := Prod.mk.inj heq
  obtain ⟨u, hne, rfl, hu⟩ := scanPieces_prefix hs
  exact ⟨u, hne, rfl, fun t => by simp only [scanString, hu, Option.map_some]⟩

theorem scanString_append {s r x t : Str} (h : scanString s = some (x, r)) :
    scanString (s ++ t) = some (x, r ++ t) := by
  obtain ⟨u, -, rfl, hu⟩ := scanString_prefix h
  rw [List.append_assoc, hu]

theorem length_scanString_lt {s r x : Str} (h : scanString s = some (x, r)) :
    r.length < s.length := by
  obtain ⟨u, hne, rfl, -⟩ := scanString_prefix h
  have := List.length_pos_iff.mpr hne
  rw [List.length_append]
  omega

/-! ## Values -/

section Values

variable {F : Type} [FloatText F]

/-- Values whose text could be prolonged. -/
def isNumber : Value F → Bool
  | .int _ => true
  | .float _ => true
  | _ => false

theorem number_ok {s r : Str} {v : Value F} (h : number s = .ok (v, r)) :
    isNumber v = true ∧ ∃ sg i fe, scanNumber s = some (sg, i, fe, r) ∧
      ∀ t u, scanNumber t = some (sg, i, fe, u) → number t = .ok (v, u) := by
  unfold number at h
  cases hs : scanNumber s with
  | none => simp [hs] at h
  | some p =>
    obtain ⟨sg, i, fe, r'⟩ := p
    simp only [hs] at h
    have hrest : r' = r ∧ isNumber v = true := by
      split at h
      · cases h
        exact ⟨rfl, rfl⟩
      · split at h
        · cases h
        · split at h <;> cases h <;> exact ⟨rfl, rfl⟩
    obtain ⟨rfl, hv⟩ := hrest
    refine ⟨hv, sg, i, fe, rfl, fun t u ht => ?_⟩
    simp only [number, ht]
    split at h
    · rename_i hfe
      cases h
      rw [if_pos hfe]
    · rename_i hfe
      rw [if_neg hfe]
      split at h
      · cases h
      · rename_i hdig
        rw [if_neg hdig]
        split at h
        · rename_i hsg
          cases h
          rw [if_pos hsg]
        · rename_i hsg
          cases h
          rw [if_neg hsg]

theorem number_append {s r t : Str} {v : Value F} (h : number s = .ok (v, r))
    (ht : Stops (r ++ t)) : number (s ++ t) = .ok (v, r ++ t) := by
  obtain ⟨-, sg, i, fe, hs, hnum⟩ := number_ok h
  exact hnum _ _ (scanNumber_append hs ht)

/-- A number starts with a digit, or with a sign and a digit. -/
theorem scanNumber_head {c : Nat} {s : Str} {p : Str × Str × Str × Str}
    (h : scanNumber (c :: s) = some p) :
    isDigit c = true ∨ c = 45 ∧ ∃ d u, s = d :: u ∧ isDigit d = true := by
  have hint : ∀ u : Str, intPart u ≠ none → ∃ d u', u = d :: u' ∧ isDigit d = true := by
    intro u hu
    cases u with
    | nil => exact (hu rfl).elim
    | cons d u' =>
      refine ⟨d, u', rfl, ?_⟩
      by_contra hd
      have h48 : d ≠ 48 := by
        rintro rfl
        exact hd rfl
      exact hu (by simp only [intPart, h48, hd, if_false, Bool.false_eq_true])
  have hsome : intPart (signPart (c :: s)).2 ≠ none := by
    intro hnone
    unfold scanNumber at h
    simp only [hnone] at h
    cases h
  by_cases hc : c = 45
  · subst hc
    exact Or.inr ⟨rfl, hint s hsome⟩
  · have hsign : signPart (c :: s) = ([], c :: s) := by
      unfold signPart
      split
      · rename_i heq
        exact (hc (List.cons.inj heq).1).elim
      · rfl
    rw [hsign] at hsome
    obtain ⟨d, u, hdu, hd⟩ := hint _ hsome
    obtain ⟨rfl, -⟩ := List.cons.inj hdu
    exact Or.inl hd

/-- No constant is a prefix of a text that starts with a number. -/
theorem not_constant_of_number {c : Nat} {s t w : Str} {v : Value F}
    {p : Str × Str × Str × Str} (h : scanNumber (c :: s) = some p)
    (hc : constant c = some (w, v)) : ¬ w <+: (c :: s) ++ t := by
  rcases scanNumber_head h with hd | ⟨rfl, d, u, rfl, hd⟩
  · have hrange : 48 ≤ c ∧ c ≤ 57 := by simpa [isDigit] using hd
    unfold constant at hc
    repeat' split at hc
    all_goals first | omega | cases hc
  · obtain ⟨rfl, -⟩ : negInfText = w ∧ _ := by simpa [constant] using hc
    have hrange : 48 ≤ d ∧ d ≤ 57 := by simpa [isDigit] using hd
    rintro ⟨u', hu'⟩
    have h73 : (73 : Nat) = d := (List.cons.inj (List.cons.inj hu').2).1
    omega

/-- What the success of `atom` means. -/
theorem atom_ok {c : Nat} {s r : Str} {v : Value F} (h : atom (c :: s) = .ok (v, r)) :
    (∃ w, constant c = some (w, v) ∧ c :: s = w ++ r) ∨ number (c :: s) = .ok (v, r) := by
  unfold atom at h
  simp only [List.head?_cons, Option.bind_some] at h
  cases hc : constant (F := F) c with
  | none =>
    rw [hc] at h
    exact Or.inr h
  | some wv =>
    obtain ⟨w, v'⟩ := wv
    rw [hc] at h
    simp only at h
    split at h
    · rename_i hpre
      obtain ⟨u, hu⟩ := hpre
      rw [← hu, List.drop_left] at h
      obtain ⟨rfl, rfl⟩ : v' = v ∧ u = r := by simpa using h
      exact Or.inl ⟨w, rfl, hu.symm⟩
    · exact Or.inr h

theorem atom_append {c : Nat} {s r t : Str} {v : Value F} (h : atom (c :: s) = .ok (v, r))
    (ht : isNumber v = true → Stops (r ++ t)) :
    atom ((c :: s) ++ t) = .ok (v, r ++ t) := by
  rcases atom_ok h with ⟨w, hc, hw⟩ | hnum
  · have hpre : w <+: (c :: s) ++ t := ⟨r ++ t, by rw [hw, List.append_assoc]⟩
    have hdrop : ((c :: s) ++ t).drop w.length = r ++ t := by
      rw [hw, List.append_assoc, List.drop_left]
    rw [List.cons_append] at hpre hdrop ⊢
    simp only [atom, List.head?_cons, Option.bind_some, hc, hpre, if_true, hdrop]
  · obtain ⟨hv, sg, i, fe, hs, -⟩ := number_ok hnum
    have happ := number_append hnum (ht hv)
    rw [List.cons_append] at happ ⊢
    unfold atom
    simp only [List.head?_cons, Option.bind_some]
    cases hc : constant (F := F) c with
    | none => exact happ
    | some wv =>
      have hpre : ¬ wv.1 <+: c :: (s ++ t) := not_constant_of_number hs hc
      simp only [hpre, if_false]
      exact happ

end Values

end WebSpider.Json
