import WebSpider.Json.Dumps

/-!
# Strings and brackets of JSON text

A reader that knows about strings, escapes and the depth of the brackets only. A text
that decodes leaves it outside of strings with every bracket closed (`loads_closed`). A
part of an object leaves it within the object (`within_take`), and no beginning of another
object's text brings it out again (`Within.append`): so two objects, of which the first is
cut off, never make one text that decodes.
-/

namespace WebSpider.Json.Lexical

open Text

/-! ## The reader -/

inductive Mode where
  | out
  | str
  | esc
  deriving DecidableEq

/-- The characters outside of strings other than brackets and quotes. -/
def plain (c : Nat) : Bool := isWs c || isDigit c || (lit ":,+-.EINaefilnrstuy").contains c

/-- One character, with the number of brackets that are open. -/
def next : Mode × Nat → Nat → Option (Mode × Nat)
  | (.out, d), c =>
    if c = 34 then some (.str, d)
    else if c = 123 ∨ c = 91 then some (.out, d + 1)
    else if c = 125 ∨ c = 93 then
      match d with
      | 0 => none
      | d + 1 => some (.out, d)
    else if plain c then some (.out, d)
    else none
  | (.str, d), c =>
    if c = 34 then some (.out, d) else if c = 92 then some (.esc, d) else some (.str, d)
  | (.esc, d), c => if c = 117 ∨ (shortEscape c).isSome then some (.str, d) else none

def scan (a : Option (Mode × Nat)) (s : Str) : Option (Mode × Nat) :=
  s.foldl (fun a c => a.bind fun a => next a c) a

theorem scan_append (a : Option (Mode × Nat)) (s t : Str) :
    scan a (s ++ t) = scan (scan a s) t := List.foldl_append

theorem scan_none (s : Str) : scan none s = none := by
  induction s with
  | nil => rfl
  | cons c s ih => exact ih

theorem scan_cons (a : Mode × Nat) (c : Nat) (s : Str) :
    scan (some a) (c :: s) = scan (next a c) s := rfl

/-- More brackets around the text change nothing but the depth. -/
theorem next_shift {m m' : Mode} {d d' c : Nat} (h : next (m, d) c = some (m', d')) (k : Nat) :
    next (m, d + k) c = some (m', d' + k) := by
  cases m with
  | out =>
    unfold next at h ⊢
    dsimp only at h ⊢
    split at h
    · cases h
      rw [if_pos ‹_›]
    · rw [if_neg ‹_›]
      split at h
      · cases h
        rw [if_pos ‹_›, Nat.add_right_comm]
      · rw [if_neg ‹_›]
        split at h
        · rw [if_pos ‹_›]
          cases d with
          | zero => cases h
          | succ d =>
            cases h
            rw [Nat.add_right_comm]
        · rw [if_neg ‹_›]
          split at h
          · cases h
            rw [if_pos ‹_›]
          · cases h
  | str =>
    unfold next at h ⊢
    dsimp only at h ⊢
    split at h
    · cases h
      rw [if_pos ‹_›]
    · rw [if_neg ‹_›]
      split at h
      · cases h
        rw [if_pos ‹_›]
      · cases h
        rw [if_neg ‹_›]
  | esc =>
    unfold next at h ⊢
    dsimp only at h ⊢
    split at h
    · cases h
      rw [if_pos ‹_›]
    · cases h

theorem scan_shift {m m' : Mode} {d d' : Nat} {s : Str}
    (h : scan (some (m, d)) s = some (m', d')) (k : Nat) :
    scan (some (m, d + k)) s = some (m', d' + k) := by
  induction s generalizing m d with
  | nil =>
    cases h
    rfl
  | cons c s ih =>
    rw [scan_cons] at h ⊢
    cases hc : next (m, d) c with
    | none =>
      rw [hc, scan_none] at h
      cases h
    | some a =>
      rw [hc] at h
      rw [next_shift hc]
      exact ih h

/-! ## Texts that decode -/

/-- The text up to the rest takes the reader from one state to another. -/
def Reads (a : Mode × Nat) (s r : Str) (b : Mode × Nat) : Prop :=
  ∃ w, s = w ++ r ∧ scan (some a) w = some b

theorem Reads.refl (a : Mode × Nat) (s : Str) : Reads a s s a := ⟨[], rfl, rfl⟩

theorem Reads.trans {a b c : Mode × Nat} {s r u : Str} (h : Reads a s r b) (h' : Reads b r u c) :
    Reads a s u c := by
  obtain ⟨w, rfl, hw⟩ := h
  obtain ⟨w', rfl, hw'⟩ := h'
  exact ⟨w ++ w', (List.append_assoc _ _ _).symm, by rw [scan_append, hw, hw']⟩

theorem Reads.shift {m m' : Mode} {d d' : Nat} {s r : Str} (h : Reads (m, d) s r (m', d')) (k : Nat) :
    Reads (m, d + k) s r (m', d' + k) := by
  obtain ⟨w, hs, hw⟩ := h
  exact ⟨w, hs, scan_shift hw k⟩

theorem Reads.one {a b : Mode × Nat} {c : Nat} (h : next a c = some b) (s : Str) :
    Reads a (c :: s) s b := ⟨[c], rfl, h⟩

theorem plain_ne {c : Nat} (h : plain c = true) : c ≠ 34 ∧ c ≠ 123 ∧ c ≠ 91 ∧ c ≠ 125 ∧ c ≠ 93 := by
  refine ⟨?_, ?_, ?_, ?_, ?_⟩ <;> rintro rfl <;> revert h <;> decide

theorem next_plain {c : Nat} (h : plain c = true) (d : Nat) : next (.out, d) c = some (.out, d) := by
  obtain ⟨h34, h123, h91, h125, h93⟩ := plain_ne h
  simp [next, h34, h123, h91, h125, h93, h]

theorem reads_plain {w : Str} (h : ∀ c ∈ w, plain c = true) (d : Nat) (r : Str) :
    Reads (.out, d) (w ++ r) r (.out, d) := by
  induction w with
  | nil => exact Reads.refl _ _
  | cons c w ih =>
    apply (Reads.one (next_plain (h c List.mem_cons_self) d) (w ++ r)).trans
    exact ih fun c' hc' => h c' (List.mem_cons_of_mem _ hc')

theorem reads_skipWs (s : Str) (d : Nat) : Reads (.out, d) s (skipWs s) (.out, d) := by
  have hsplit := List.takeWhile_append_dropWhile (p := isWs) (l := s)
  have hplain : ∀ c ∈ s.takeWhile isWs, plain c = true := by
    intro c hc
    rw [plain, List.mem_takeWhile_imp hc]
    rfl
  have h := reads_plain hplain d (skipWs s)
  rwa [skipWs, hsplit] at h

/-- White space, and a character after it. -/
theorem reads_after_ws {s r : Str} {c : Nat} {d : Nat} {b : Mode × Nat} (h : skipWs s = c :: r)
    (hc : next (.out, d) c = some b) : Reads (.out, d) s r b := by
  have hskip := reads_skipWs s d
  rw [h] at hskip
  exact hskip.trans (Reads.one hc r)

/-! ## Numbers -/

/-- The characters of numbers. -/
def numeral (c : Nat) : Bool := isDigit c || (lit "+-.Ee").contains c

/-- The text up to the rest has characters of numbers only. -/
def Spans (s r : Str) : Prop := ∃ w, s = w ++ r ∧ ∀ c ∈ w, numeral c = true

theorem Spans.refl (s : Str) : Spans s s := ⟨[], rfl, fun _ h => nomatch h⟩

theorem Spans.trans {s r u : Str} (h : Spans s r) (h' : Spans r u) : Spans s u := by
  obtain ⟨w, rfl, hw⟩ := h
  obtain ⟨w', rfl, hw'⟩ := h'
  refine ⟨w ++ w', (List.append_assoc _ _ _).symm, fun c hc => ?_⟩
  rcases List.mem_append.mp hc with hc | hc
  · exact hw c hc
  · exact hw' c hc

theorem Spans.one {c : Nat} (h : numeral c = true) (s : Str) : Spans (c :: s) s := by
  refine ⟨[c], rfl, fun c' hc' => ?_⟩
  obtain rfl := List.mem_singleton.mp hc'
  exact h

theorem spans_digits (s : Str) : Spans s (s.dropWhile isDigit) := by
  refine ⟨s.takeWhile isDigit, List.takeWhile_append_dropWhile.symm, fun c hc => ?_⟩
  rw [numeral, List.mem_takeWhile_imp hc, Bool.true_or]

theorem spans_signPart (s : Str) : Spans s (signPart s).2 := by
  unfold signPart
  split
  · exact Spans.one (by decide) _
  · exact Spans.refl _

theorem spans_fracPart (s : Str) : Spans s (fracPart s).2 := by
  rcases fracPart_spec s with h | ⟨r, rfl, -, h⟩
  · rw [h]
    exact Spans.refl _
  · rw [h]
    exact (Spans.one (by decide) r).trans (spans_digits r)

theorem spans_expSign (s : Str) : Spans s (expSign s).2 := by
  unfold expSign
  split
  · exact Spans.one (by decide) _
  · exact Spans.one (by decide) _
  · exact Spans.refl _

theorem spans_expPart (s : Str) : Spans s (expPart s).2 := by
  rcases expPart_spec s with h | ⟨c, r, rfl, hc, -, h⟩
  · rw [h]
    exact Spans.refl _
  · rw [h]
    have hmark : numeral c = true := by
      rcases hc with rfl | rfl <;> decide
    exact ((Spans.one hmark r).trans (spans_expSign r)).trans (spans_digits _)

theorem spans_scanNumber {s sg i fe r : Str} (h : scanNumber s = some (sg, i, fe, r)) :
    Spans s r := by
  unfold scanNumber at h
  cases hi : intPart (signPart s).2 with
  | none => simp [hi] at h
  | some p =>
    obtain ⟨i', r₁⟩ := p
    simp only [hi, Option.some.injEq, Prod.mk.injEq] at h
    obtain ⟨-, -, -, rfl⟩ := h
    obtain ⟨hsplit, -, hdigits⟩ := intPart_split hi
    have hint : Spans (signPart s).2 r₁ := by
      refine ⟨i', hsplit, fun c hc => ?_⟩
      rw [numeral, List.all_eq_true.mp hdigits c hc, Bool.true_or]
    exact ((spans_signPart s).trans hint).trans ((spans_fracPart r₁).trans (spans_expPart _))

theorem plain_of_numeral {c : Nat} (h : numeral c = true) : plain c = true := by
  unfold numeral at h
  rcases Bool.or_eq_true_iff.mp h with hd | hc
  · rw [plain, hd, Bool.or_true, Bool.true_or]
  · have hall : ∀ c ∈ lit "+-.Ee", plain c = true := by decide
    exact hall c (List.contains_iff_mem.mp hc)

theorem reads_scanNumber {s sg i fe r : Str} (h : scanNumber s = some (sg, i, fe, r)) :
    Reads (.out, 0) s r (.out, 0) := by
  obtain ⟨w, rfl, hw⟩ := spans_scanNumber h
  exact reads_plain (fun c hc => plain_of_numeral (hw c hc)) 0 r

/-! ## Values -/

section Decoder

variable {F : Type} [FloatText F]

theorem reads_atom {c : Nat} {s r : Str} {v : Value F} (h : atom (c :: s) = .ok (v, r)) :
    Reads (.out, 0) (c :: s) r (.out, 0) := by
  rcases atom_ok h with ⟨w, hc, hw⟩ | hnum
  · rw [hw]
    apply reads_plain
    unfold constant at hc
    repeat' split at hc
    all_goals first | (cases hc; decide) | cases hc
  · obtain ⟨-, sg, i, fe, hs, -⟩ := number_ok hnum
    exact reads_scanNumber hs

theorem hexDigit_ne {c n : Nat} (h : hexDigit c = some n) : c ≠ 34 ∧ c ≠ 92 := by
  constructor
  · rintro rfl
    cases h
  · rintro rfl
    cases h

theorem next_str {c : Nat} (h : c ≠ 34 ∧ c ≠ 92) : next (.str, 0) c = some (.str, 0) := by
  simp [next, h.1, h.2]

theorem reads_hex4 {a b c d u : Nat} (h : hex4 a b c d = some u) (s : Str) :
    Reads (.str, 0) (a :: b :: c :: d :: s) s (.str, 0) := by
  simp only [hex4, bind, Option.bind_eq_some_iff] at h
  obtain ⟨a', ha, b', hb, c', hc, d', hd, -⟩ := h
  apply (Reads.one (next_str (hexDigit_ne ha)) _).trans
  apply (Reads.one (next_str (hexDigit_ne hb)) _).trans
  apply (Reads.one (next_str (hexDigit_ne hc)) _).trans
  exact Reads.one (next_str (hexDigit_ne hd)) _

/-- What is left of a string and its closing quote. -/
theorem reads_scanPieces {s r : Str} {ps : List Piece} (h : scanPieces s = some (ps, r)) :
    Reads (.str, 0) s r (.out, 0) := by
  induction s using scanPieces.induct generalizing ps with
  | case1 => cases h
  | case2 s =>
    obtain ⟨-, rfl⟩ : [] = ps ∧ s = r := by simpa [scanPieces] using h
    exact Reads.one rfl s
  | case3 a b c d s hu => simp [scanPieces, hu] at h
  | case4 a b c d s x hx ih =>
    rw [scanPieces_unit hx, Option.map_eq_some_iff] at h
    obtain ⟨⟨ps', r'⟩, hs, heq⟩ := h
    obtain ⟨-, rfl⟩ := Prod.mk.inj heq
    apply (Reads.one (b := (.esc, 0)) rfl _).trans
    apply (Reads.one (b := (.str, 0)) rfl _).trans
    exact (reads_hex4 hx s).trans (ih hs)
  | case5 c s hne hx => simp [scanPieces.eq_4 _ _ hne, hx] at h
  | case6 c s hne x hx ih =>
    rw [scanPieces_short hx, Option.map_eq_some_iff] at h
    obtain ⟨⟨ps', r'⟩, hs, heq⟩ := h
    obtain ⟨-, rfl⟩ := Prod.mk.inj heq
    apply (Reads.one (b := (.esc, 0)) rfl _).trans
    refine (Reads.one (b := (.str, 0)) ?_ s).trans (ih hs)
    rw [next, hx]
    simp
  | case7 c s h34 hu hx hc => simp [scanPieces.eq_5 _ _ h34 hu hx, hc] at h
  | case8 c s h34 h117 hx hc ih =>
    have hraw := scanPieces_raw (c := c) h34 (by omega) (by omega)
    rw [hraw, Option.map_eq_some_iff] at h
    obtain ⟨⟨ps', r'⟩, hs, heq⟩ := h
    obtain ⟨-, rfl⟩ := Prod.mk.inj heq
    exact (Reads.one (next_str ⟨h34, by omega⟩) s).trans (ih hs)

theorem reads_scanString {s r x : Str} (h : scanString s = some (x, r)) :
    Reads (.str, 0) s r (.out, 0) := by
  obtain ⟨⟨ps, r'⟩, hs, heq⟩ := Option.map_eq_some_iff.mp h
  obtain ⟨-, rfl⟩ := Prod.mk.inj heq
  exact reads_scanPieces hs

/-- A value leaves the reader where it was, and so do the elements and the fields up to
the bracket that closes them. -/
private theorem scanners_read (n : Nat) :
    (∀ (d : Nat) (s r : Str) (v : Value F), value n d s = .ok (v, r) →
      Reads (.out, 0) s r (.out, 0)) ∧
    (∀ (d : Nat) (s r : Str) (vs : List (Value F)), elems n d s = .ok (vs, r) →
      Reads (.out, 0) s (93 :: r) (.out, 0)) ∧
    (∀ (d : Nat) (s r : Str) (kvs : List (Str × Value F)), members n d s = .ok (kvs, r) →
      Reads (.out, 0) s (125 :: r) (.out, 0)) := by
  induction n with
  | zero => refine ⟨?_, ?_, ?_⟩ <;> intro _ _ _ _ h <;> cases h
  | succ n ih =>
    obtain ⟨ihv, ihe, ihm⟩ := ih
    refine ⟨?_, ?_, ?_⟩
    · intro d s r v h
      obtain ⟨n', c, u, hn, rfl, hcase⟩ := value_ok h
      obtain rfl : n = n' := by omega
      rcases hcase with ⟨rfl, x, hx, -⟩ | ⟨rfl, d', -, hu, -⟩ | ⟨rfl, d', -, -, kvs, hkvs, -⟩ |
        ⟨rfl, d', -, hu, -⟩ | ⟨rfl, d', -, -, vs, hvs, -⟩ | ⟨-, -, -, hatom⟩
      · exact (Reads.one rfl u).trans (reads_scanString hx)
      · exact (Reads.one rfl u).trans (reads_after_ws hu rfl)
      · apply (Reads.one (b := (.out, 1)) rfl u).trans
        have hfields := (reads_skipWs u 0).trans (ihm d' _ _ kvs hkvs)
        exact (hfields.shift 1).trans (Reads.one rfl r)
      · exact (Reads.one rfl u).trans (reads_after_ws hu rfl)
      · apply (Reads.one (b := (.out, 1)) rfl u).trans
        have helems := (reads_skipWs u 0).trans (ihe d' _ _ vs hvs)
        exact (helems.shift 1).trans (Reads.one rfl r)
      · exact reads_atom hatom
    · intro d s r vs h
      obtain ⟨n', v, r₀, hn, hv, hcase⟩ := elems_ok h
      obtain rfl : n = n' := by omega
      apply (ihv d _ _ v hv).trans
      rcases hcase with ⟨hr, -⟩ | ⟨r₁, vs', hr, hvs, -⟩
      · rw [← hr]
        exact reads_skipWs r₀ 0
      · apply (reads_after_ws hr (next_plain (by decide) 0)).trans
        exact (reads_skipWs r₁ 0).trans (ihe d _ _ vs' hvs)
    · intro d s r kvs h
      obtain ⟨n', u, k, r₀, r₁, v, r₂, hn, rfl, hk, hr₀, hv, hcase⟩ := members_ok h
      obtain rfl : n = n' := by omega
      apply (Reads.one (b := (.str, 0)) rfl u).trans
      apply (reads_scanString hk).trans
      apply (reads_after_ws hr₀ (next_plain (by decide) 0)).trans
      apply (reads_skipWs r₁ 0).trans
      apply (ihv d _ _ v hv).trans
      rcases hcase with ⟨hr, -⟩ | ⟨r₃, kvs', hr, hkvs, -⟩
      · rw [← hr]
        exact reads_skipWs r₂ 0
      · apply (reads_after_ws hr (next_plain (by decide) 0)).trans
        exact (reads_skipWs r₃ 0).trans (ihm d _ _ kvs' hkvs)

/-- The reader is outside of strings, and every bracket is closed. -/
def Closed (s : Str) : Prop := scan (some (.out, 0)) s = some (.out, 0)

theorem loads_closed {limit : Nat} {s : Str} {v : Value F} (h : loads limit s = .ok v) :
    Closed s := by
  unfold loads at h
  split at h
  · cases h
  · split at h
    · cases h
    · rename_i v' r hv
      split at h
      · rename_i hr
        have hvalue := (reads_skipWs s 0).trans ((scanners_read _).1 _ _ _ _ hv)
        have hrest := reads_skipWs r 0
        rw [hr] at hrest
        obtain ⟨w, hw, hscan⟩ := hvalue.trans hrest
        rw [List.append_nil] at hw
        rw [Closed, hw]
        exact hscan
      · cases h

theorem dumps_closed {limit : Nat} {v : Value F} (hv : Fits limit v) : Closed (dumps v) :=
  loads_closed (loads_dumps hv)

theorem fields_closed {limit : Nat} {kvs : List (Str × Value F)} (hv : Fits limit (.obj kvs)) :
    Closed (dumpFields kvs) := by
  have hdec := value_dumps_nil (n := (dumps (Value.obj kvs)).length) hv (Nat.le_refl _)
  cases kvs with
  | nil => rfl
  | cons kv kvs =>
    obtain ⟨n, c, u, -, hu, hcase⟩ := value_ok hdec
    obtain ⟨rfl, rfl⟩ : 123 = c ∧ dumpFields (kv :: kvs) ++ [125] = u := List.cons.inj hu
    obtain ⟨t, ht⟩ := dumpFields_head kv kvs [125]
    have hskip : skipWs (dumpFields (kv :: kvs) ++ [125]) = dumpFields (kv :: kvs) ++ [125] := by
      rw [ht]
      exact skipWs_of_not_ws (by decide)
    rw [hskip] at hcase
    rcases hcase with ⟨h, -⟩ | ⟨-, -, -, h, -⟩ | ⟨-, d', -, -, kvs', hkvs, -⟩ | ⟨h, -⟩ | ⟨h, -⟩ |
      ⟨-, h, -⟩
    · cases h
    · rw [ht] at h
      cases h
    · obtain ⟨w, hw, hscan⟩ := (scanners_read n).2.2 d' _ _ kvs' hkvs
      rw [List.append_cancel_right hw]
      exact hscan
    · cases h
    · cases h
    · exact (h rfl).elim

end Decoder

/-! ## Parts of objects -/

/-- Whatever follows, a bracket is still open, or the text is no JSON. -/
def Within (s : Str) : Prop := ∀ m d, scan (some (.out, 0)) s = some (m, d) → 0 < d

theorem Within.not_closed {s : Str} (h : Within s) : ¬ Closed s :=
  fun hclosed => Nat.lt_irrefl 0 (h .out 0 hclosed)

/-- The end of a line does not close a bracket. -/
theorem Within.newline {s : Str} (h : Within s) : Within (s ++ [10]) := by
  intro m d hscan
  rw [scan_append] at hscan
  cases hs : scan (some (.out, 0)) s with
  | none =>
    rw [hs] at hscan
    cases hscan
  | some a =>
    obtain ⟨m', d'⟩ := a
    have hpos := h m' d' hs
    rw [hs] at hscan
    cases m' with
    | out =>
      cases hscan
      exact hpos
    | str =>
      cases hscan
      exact hpos
    | esc => cases hscan

/-- Outside of strings the character is none of JSON; in a string it stands for itself. -/
def Foreign (c : Nat) : Prop := (∀ d, next (.out, d) c = none) ∧ escapeChar c = [c]

section Objects

variable {F : Type} [FloatText F] {limit : Nat} {kvs : List (Str × Value F)}

/-- A beginning of the text of an object. -/
def Begins (p : Str) (kvs : List (Str × Value F)) : Prop := p ≠ [] ∧ p <+: dumps (.obj kvs)

/-- What is cut off before its last character is within the object. -/
theorem within_of_begins (hv : Fits limit (.obj kvs)) {p : Str} (hp : Begins p kvs)
    (hcut : p ≠ dumps (.obj kvs)) : Within p := by
  obtain ⟨hne, u, hu⟩ := hp
  cases p with
  | nil => exact (hne rfl).elim
  | cons c p =>
    obtain ⟨rfl, htail⟩ : c = 123 ∧ p ++ u = dumpFields kvs ++ [125] := List.cons.inj hu
    have hlast : u ≠ [] := by
      rintro rfl
      rw [List.append_nil] at hu
      exact hcut hu
    obtain ⟨u', rfl⟩ : ∃ u', u = u' ++ [125] := by
      have hu' := List.dropLast_append_getLast hlast
      have hget : u.getLast hlast = 125 := by
        have := congrArg List.getLast? htail
        rw [List.getLast?_append_of_ne_nil _ hlast, List.getLast?_concat,
          List.getLast?_eq_some_getLast hlast] at this
        exact Option.some.inj this
      exact ⟨u.dropLast, by rw [← hu', hget]; simp⟩
    have hfields : dumpFields kvs = p ++ u' := by
      rw [← List.append_assoc] at htail
      exact (List.append_cancel_right htail).symm
    have hclosed := fields_closed hv
    rw [Closed, hfields, scan_append] at hclosed
    intro m d hscan
    cases hscan' : scan (some (.out, 0)) p with
    | none =>
      rw [hscan', scan_none] at hclosed
      cases hclosed
    | some a =>
      obtain ⟨m', d'⟩ := a
      have hshift := scan_shift hscan' 1
      change scan (some (.out, 1)) p = some (m, d) at hscan
      rw [Nat.zero_add, hscan] at hshift
      cases hshift
      exact Nat.succ_pos d'

/-- The beginning of an object with such a key leaves within what was within before. -/
theorem Within.append {s p k : Str} {c : Nat} {v : Value F} (h : Within s) (hc : Foreign c)
    (hv : Fits limit (.obj ((c :: k, v) :: kvs))) (hp : Begins p ((c :: k, v) :: kvs)) :
    Within (s ++ p) := by
  obtain ⟨hne, u, hu⟩ := hp
  intro m d hscan
  rw [scan_append] at hscan
  cases hs : scan (some (.out, 0)) s with
  | none =>
    rw [hs, scan_none] at hscan
    cases hscan
  | some a =>
    obtain ⟨m', d'⟩ := a
    have hpos := h m' d' hs
    rw [hs] at hscan
    obtain ⟨t, ht⟩ : ∃ t, dumps (Value.obj ((c :: k, v) :: kvs)) = 123 :: 34 :: c :: t := by
      have hkey : ∃ t, dumpStr (c :: k) = 34 :: c :: t := by
        refine ⟨k.flatMap escapeChar ++ [34], ?_⟩
        rw [dumpStr, List.flatMap_cons, hc.2]
        rfl
      obtain ⟨t, ht⟩ := hkey
      cases kvs with
      | nil => exact ⟨t ++ 58 :: 32 :: dumps v ++ [125], by simp [dumps, dumpFields, ht]⟩
      | cons kv kvs =>
        exact ⟨t ++ 58 :: 32 :: (dumps v ++ 44 :: 32 :: dumpFields (kv :: kvs)) ++ [125],
          by simp [dumps, dumpFields, ht]⟩
    cases m' with
    | out =>
      have hclosed := dumps_closed hv
      rw [Closed, ← hu, scan_append] at hclosed
      cases hscan' : scan (some (.out, 0)) p with
      | none =>
        rw [hscan', scan_none] at hclosed
        cases hclosed
      | some a =>
        obtain ⟨m'', d''⟩ := a
        have hshift := scan_shift hscan' d'
        rw [Nat.zero_add, hscan] at hshift
        cases hshift
        omega
    | str =>
      rw [ht] at hu
      -- The brace is in the string, the quote ends it, and the key is no JSON.
      cases p with
      | nil => exact (hne rfl).elim
      | cons x p =>
        obtain ⟨rfl, hquote⟩ := List.cons.inj hu
        cases p with
        | nil =>
          cases hscan
          exact hpos
        | cons y p =>
          obtain ⟨rfl, hkey⟩ := List.cons.inj hquote
          cases p with
          | nil =>
            cases hscan
            exact hpos
          | cons z p =>
            obtain ⟨rfl, -⟩ := List.cons.inj hkey
            change scan (next (.out, d') z) p = some (m, d) at hscan
            rw [hc.1 d', scan_none] at hscan
            cases hscan
    | esc =>
      rw [ht] at hu
      cases p with
      | nil => exact (hne rfl).elim
      | cons x p =>
        obtain ⟨rfl, -⟩ := List.cons.inj hu
        change scan none p = some (m, d) at hscan
        rw [scan_none] at hscan
        cases hscan

/-- A whole object with more than white space after it does not decode. -/
theorem loads_doubled (hv : Fits limit (.obj kvs)) {c : Nat} (hc : isWs c = false) (t : Str)
    (v : Value F) : loads limit (dumps (.obj kvs) ++ c :: t) ≠ .ok v := by
  intro h
  have hskip := skipWs_dumps (Value.obj kvs) (c :: t)
  have hval : value (2 * (dumps (Value.obj kvs) ++ c :: t).length + 2) limit
      (dumps (Value.obj kvs) ++ c :: t) = .ok (.obj kvs, c :: t) :=
    value_dumps hv (by rw [List.length_append]; omega) (fun hnum => nomatch hnum)
  unfold loads at h
  split at h
  · cases h
  · rw [hskip, hval] at h
    change (if skipWs (c :: t) = [] then _ else _) = _ at h
    rw [skipWs_of_not_ws hc, if_neg (List.cons_ne_nil _ _)] at h
    cases h

end Objects

end WebSpider.Json.Lexical
