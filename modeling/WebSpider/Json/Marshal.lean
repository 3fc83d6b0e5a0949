import WebSpider.Json.Dumps
import WebSpider.Text.Utf8

/-!
# JSON text written by Go

`goString`, `goArray` and `goObject` write JSON as `json.Marshal` of Go does: no spaces,
escapes also for the characters of HTML and the line separators, and bytes that are not
UTF-8 written as the replacement character. `Reads` says that the decoder reads a text as a
value wherever it stands. It is kept by the three writers, so a text that is written part
by part is read part by part.
-/

namespace WebSpider.Json

open Text

/-! ## Writing -/

/-- One character, or one byte that is none, inside a string. -/
def goEscape : Option Nat → Str
  | none => lit "\\ufffd"
  | some c =>
    if c = 34 ∨ c = 92 then [92, c]
    else if c = 8 then [92, 98]
    else if c = 12 then [92, 102]
    else if c = 10 then [92, 110]
    else if c = 13 then [92, 114]
    else if c = 9 then [92, 116]
    else if c < 32 ∨ c = 60 ∨ c = 62 ∨ c = 38 then
      [92, 117, 48, 48, hexLower (c / 16), hexLower (c % 16)]
    else if c = 0x2028 ∨ c = 0x2029 then [92, 117, 50, 48, 50, hexLower (c % 16)]
    else [c]

/-- The string of some bytes. -/
def goString (s : List Nat) : Str := 34 :: ((decoded s).flatMap goEscape ++ [34])

/-- Texts with commas between them. -/
def commaJoin : List Str → Str
  | [] => []
  | [t] => t
  | t :: u :: us => t ++ 44 :: commaJoin (u :: us)

/-- The array of written values. -/
def goArray (ts : List Str) : Str := 91 :: (commaJoin ts ++ [93])

/-- A key in bytes, with a written value. -/
def goField (field : List Nat × Str) : Str := goString field.1 ++ 58 :: field.2

/-- The object of written fields. -/
def goObject (fields : List (List Nat × Str)) : Str :=
  123 :: (commaJoin (fields.map goField) ++ [125])

/-! ## Strings -/

/-- The piece that is read for a character. -/
def goPiece : Option Nat → Piece
  | none => .unit replacement
  | some c =>
    if (c < 32 ∧ c ≠ 8 ∧ c ≠ 12 ∧ c ≠ 10 ∧ c ≠ 13 ∧ c ≠ 9) ∨ c = 60 ∨ c = 62 ∨ c = 38 ∨
      c = 0x2028 ∨ c = 0x2029 then .unit c
    else .raw c

theorem scanPieces_goEscape (o : Option Nat) (r : Str) :
    scanPieces (goEscape o ++ r) = (scanPieces r).map fun p => (goPiece o :: p.1, p.2) := by
  cases o with
  | none => exact scanPieces_unit (by decide) r
  | some c =>
    by_cases hshort : c = 34 ∨ c = 92 ∨ c = 8 ∨ c = 12 ∨ c = 10 ∨ c = 13 ∨ c = 9
    · rcases hshort with rfl | rfl | rfl | rfl | rfl | rfl | rfl <;>
        exact scanPieces_short (by decide) r
    · obtain ⟨h34, h92, h8, h12, h10, h13, h9⟩ : c ≠ 34 ∧ c ≠ 92 ∧ c ≠ 8 ∧ c ≠ 12 ∧ c ≠ 10 ∧
          c ≠ 13 ∧ c ≠ 9 := by omega
      by_cases hunit : c < 32 ∨ c = 60 ∨ c = 62 ∨ c = 38
      · have hescape : goEscape (some c) = [92, 117, 48, 48, hexLower (c / 16), hexLower (c % 16)] := by
          simp only [goEscape, h34, h92, h8, h12, h10, h13, h9, hunit, or_self, if_true, if_false]
        have hpiece : goPiece (some c) = .unit c := if_pos (by omega)
        have hhex : hex4 48 48 (hexLower (c / 16)) (hexLower (c % 16)) = some c := by
          unfold hex4
          rw [hexDigit_hexLower (by omega), hexDigit_hexLower (by omega),
            show hexDigit 48 = some 0 from by decide]
          exact congrArg some (by omega)
        rw [hescape, hpiece]
        exact scanPieces_unit hhex r
      · by_cases hline : c = 0x2028 ∨ c = 0x2029
        · rcases hline with rfl | rfl
          · exact scanPieces_unit (by decide) r
          · exact scanPieces_unit (by decide) r
        · have hescape : goEscape (some c) = [c] := by
            simp only [goEscape, h34, h92, h8, h12, h10, h13, h9, hunit, hline, or_self, if_false]
          have hpiece : goPiece (some c) = .raw c := if_neg (by omega)
          rw [hescape, hpiece]
          exact scanPieces_raw h34 h92 (by omega) r

theorem scanPieces_goString (os : List (Option Nat)) (r : Str) :
    scanPieces (os.flatMap goEscape ++ 34 :: r) = some (os.map goPiece, r) := by
  induction os with
  | nil => rfl
  | cons o os ih => simp [List.flatMap_cons, List.append_assoc, scanPieces_goEscape, ih]

/-- An escape that is no surrogate stands alone. -/
theorem joinUnits_unit {u : Nat} (hu : isHigh u = false) (ps : List Piece) :
    joinUnits (.unit u :: ps) = u :: joinUnits ps := by
  cases ps with
  | nil => rfl
  | cons p ps =>
    cases p with
    | raw a => rfl
    | unit a => rw [joinUnits, hu, Bool.false_and, if_neg (by simp)]

theorem joinUnits_goPiece (os : List (Option Nat)) :
    joinUnits (os.map goPiece) = os.map fun o => o.getD replacement := by
  induction os with
  | nil => rfl
  | cons o os ih =>
    rw [List.map_cons, List.map_cons, ← ih]
    cases o with
    | none => exact joinUnits_unit (by decide) _
    | some c =>
      rw [goPiece]
      split
      · rename_i hunit
        apply joinUnits_unit
        simp only [isHigh, decide_eq_false_iff_not]
        omega
      · rfl

/-- A written string is read as its text. -/
theorem scanString_goString (s : List Nat) (r : Str) :
    scanString ((decoded s).flatMap goEscape ++ 34 :: r) = some (runes s, r) := by
  rw [scanString, scanPieces_goString, Option.map_some, joinUnits_goPiece]
  rfl

/-! ## Reading -/

section Reads

variable {F : Type} [FloatText F]

/-- The decoder reads the text as the value, wherever it stands. -/
structure Reads (d : Nat) (t : Str) (v : Value F) : Prop where
  start : ∃ c u, t = c :: u ∧ isWs c = false ∧ c ≠ 93 ∧ c ≠ 125 ∧ c ≠ 0xFEFF
  value : ∀ n rest, 2 * t.length + 2 ≤ n → (isNumber v = true → Stops rest) →
    Json.value n d (t ++ rest) = .ok (v, rest)

variable {d : Nat} {t : Str} {v : Value F}

theorem Reads.skipWs (h : Reads d t v) (rest : Str) : skipWs (t ++ rest) = t ++ rest := by
  obtain ⟨c, u, rfl, hc, -⟩ := h.start
  exact skipWs_of_not_ws hc

theorem Reads.loads (h : Reads d t v) : loads d t = .ok v := by
  have hskip := h.skipWs []
  have hvalue := h.value (2 * t.length + 2) [] (Nat.le_refl _) fun _ => stops_nil
  rw [List.append_nil] at hskip hvalue
  have hhead : t.head? ≠ some 0xFEFF := by
    obtain ⟨c, u, rfl, -, -, -, hbom⟩ := h.start
    exact fun hc => hbom (Option.some.inj hc)
  rw [Json.loads, if_neg hhead, hskip, hvalue]
  rfl

theorem reads_string (d : Nat) (s : List Nat) : Reads d (goString s) (.str (runes s) : Value F) := by
  refine ⟨⟨34, _, rfl, by decide⟩, fun n rest hn _ => ?_⟩
  obtain ⟨n, rfl⟩ := Nat.exists_eq_add_of_le' (show 1 ≤ n by omega)
  rw [goString, List.cons_append, List.append_assoc]
  exact value_str (scanString_goString s rest)

theorem reads_null (d : Nat) : Reads d (lit "null") (.null : Value F) := by
  refine ⟨⟨110, _, rfl, by decide⟩, fun n rest hn _ => ?_⟩
  obtain ⟨n, rfl⟩ := Nat.exists_eq_add_of_le' (show 1 ≤ n by omega)
  exact value_atom (by decide) (by decide) (by decide) (atom_constant rfl rfl)

theorem reads_int (d : Nat) {n : Int} (hn : (decimal n.natAbs).length ≤ maxDigits) :
    Reads d (dumpInt n) (.int n : Value F) := by
  refine ⟨?_, fun m rest hm hstop => ?_⟩
  · obtain ⟨c, u, hc, hstart⟩ := dumps_head (F := F) (.int n)
    exact ⟨c, u, hc, hstart⟩
  · apply value_dumps (v := .int n)
    · cases d <;> exact hn
    · change (dumpInt n).length ≤ m
      omega
    · exact hstop

theorem commaJoin_cons (t : Str) (ts : List Str) :
    commaJoin (t :: ts) = t ++ (if ts = [] then [] else 44 :: commaJoin ts) := by
  cases ts with
  | nil => rw [if_pos rfl, List.append_nil]; rfl
  | cons u us => rfl

/-- A comma or a closing bracket stands after an element. -/
theorem elems_commaJoin {ts : List Str} {vs : List (Value F)}
    (h : List.Forall₂ (Reads d) ts vs) (hne : ts ≠ []) {n : Nat}
    (hn : 2 * (commaJoin ts).length + 3 ≤ n) (rest : Str) :
    elems n d (commaJoin ts ++ 93 :: rest) = .ok (vs, rest) := by
  induction h generalizing n with
  | nil => exact (hne rfl).elim
  | @cons t v ts vs hread hreads ih =>
    obtain ⟨n, rfl⟩ := Nat.exists_eq_add_of_le' (show 1 ≤ n by omega)
    rw [commaJoin_cons] at hn ⊢
    cases hreads with
    | nil =>
      rw [if_pos rfl, List.append_nil] at hn ⊢
      apply elems_last (hread.value n _ (by omega) fun _ => ?_) rfl
      exact stops_cons (delimiter_stops 93 (by decide))
    | @cons u w us ws hread' hreads' =>
      rw [if_neg (by simp), List.length_append, List.length_cons] at hn
      rw [if_neg (by simp), List.append_assoc]
      refine elems_cons (hread.value n _ (by omega) fun _ => ?_) rfl ?_
      · exact stops_cons (delimiter_stops 44 (by decide))
      · have hskip : Json.skipWs (commaJoin (u :: us) ++ 93 :: rest) =
            commaJoin (u :: us) ++ 93 :: rest := by
          rw [commaJoin_cons, List.append_assoc]
          exact hread'.skipWs _
        change elems n d (Json.skipWs (commaJoin (u :: us) ++ 93 :: rest)) = _
        rw [hskip]
        exact ih (by simp) (by omega)

theorem reads_array {ts : List Str} {vs : List (Value F)} (h : List.Forall₂ (Reads d) ts vs) :
    Reads (d + 1) (goArray ts) (.arr vs) := by
  refine ⟨⟨91, _, rfl, by decide⟩, fun n rest hn _ => ?_⟩
  obtain ⟨n, rfl⟩ := Nat.exists_eq_add_of_le' (show 1 ≤ n by omega)
  rw [goArray, List.length_cons, List.length_append] at hn
  rw [goArray, List.cons_append, List.append_assoc]
  cases h with
  | nil => exact value_arr_nil rfl
  | @cons t v ts vs hread hreads =>
    obtain ⟨c, u, hc, hws, h93, -⟩ := hread.start
    have hskip : Json.skipWs (commaJoin (t :: ts) ++ 93 :: rest) =
        commaJoin (t :: ts) ++ 93 :: rest := by
      rw [commaJoin_cons, List.append_assoc]
      exact hread.skipWs _
    change Json.value (n + 1) (d + 1) (91 :: (commaJoin (t :: ts) ++ 93 :: rest)) = _
    refine value_arr ?_ ?_
    · rw [hskip, commaJoin_cons, hc]
      exact fun hhead => h93 (Option.some.inj hhead)
    · rw [hskip]
      exact elems_commaJoin (.cons hread hreads) (by simp) (by omega) rest

/-- A written field is read as the key and the value. -/
def ReadsField (d : Nat) (field : List Nat × Str) (kv : Str × Value F) : Prop :=
  kv.1 = runes field.1 ∧ Reads d field.2 kv.2

theorem goField_append (field : List Nat × Str) (rest : Str) : goField field ++ rest =
    34 :: ((decoded field.1).flatMap goEscape ++ 34 :: (58 :: (field.2 ++ rest))) := by
  simp [goField, goString]

theorem members_commaJoin {fields : List (List Nat × Str)} {kvs : List (Str × Value F)}
    (h : List.Forall₂ (ReadsField d) fields kvs) (hne : fields ≠ []) {n : Nat}
    (hn : 2 * (commaJoin (fields.map goField)).length + 3 ≤ n) (rest : Str) :
    members n d (commaJoin (fields.map goField) ++ 125 :: rest) = .ok (kvs, rest) := by
  induction h generalizing n with
  | nil => exact (hne rfl).elim
  | @cons field kv fields kvs hread hreads ih =>
    obtain ⟨k, v⟩ := kv
    obtain ⟨rfl, hread⟩ : k = runes field.1 ∧ Reads d field.2 v := hread
    obtain ⟨n, rfl⟩ := Nat.exists_eq_add_of_le' (show 1 ≤ n by omega)
    have hlength : field.2.length < (goField field).length := by
      simp [goField, goString]
      omega
    rw [List.map_cons, commaJoin_cons] at hn ⊢
    cases hreads with
    | nil =>
      rw [List.map_nil, if_pos rfl, List.append_nil] at hn ⊢
      rw [goField_append]
      refine members_last (scanString_goString _ _) rfl ?_
        (show Json.skipWs (125 :: rest) = 125 :: rest from rfl)
      change Json.value n d (Json.skipWs (field.2 ++ 125 :: rest)) = _
      rw [hread.skipWs]
      apply hread.value n _ (by omega)
      intro _
      exact stops_cons (delimiter_stops 125 (by decide))
    | @cons field' kw fields kvs hread' hreads' =>
      rw [List.map_cons, if_neg (by simp), List.length_append, List.length_cons] at hn
      rw [List.map_cons, if_neg (by simp), List.append_assoc, goField_append]
      set others := commaJoin (goField field' :: fields.map goField) ++ 125 :: rest with hothers
      refine members_cons (scanString_goString _ _) rfl ?_
        (show Json.skipWs (44 :: others) = 44 :: others from rfl) ?_
      · change Json.value n d (Json.skipWs (field.2 ++ 44 :: others)) = _
        rw [hread.skipWs]
        apply hread.value n _ (by omega)
        intro _
        exact stops_cons (delimiter_stops 44 (by decide))
      · have hskip : Json.skipWs others = others := by
          rw [hothers, commaJoin_cons, List.append_assoc, goField_append]
          exact skipWs_of_not_ws (by decide)
        rw [hskip]
        exact ih (by simp) (by rw [List.map_cons]; omega)

theorem reads_object {fields : List (List Nat × Str)} {kvs : List (Str × Value F)}
    (h : List.Forall₂ (ReadsField d) fields kvs) (hkeys : (kvs.map Prod.fst).Nodup) :
    Reads (d + 1) (goObject fields) (.obj kvs) := by
  refine ⟨⟨123, _, rfl, by decide⟩, fun n rest hn _ => ?_⟩
  obtain ⟨n, rfl⟩ := Nat.exists_eq_add_of_le' (show 1 ≤ n by omega)
  rw [goObject, List.length_cons, List.length_append] at hn
  rw [goObject, List.cons_append, List.append_assoc]
  cases fields with
  | nil =>
    cases h
    exact value_obj_nil rfl
  | cons field fields =>
    have hhead : ∃ u, commaJoin ((field :: fields).map goField) ++ 125 :: rest = 34 :: u := by
      rw [List.map_cons, commaJoin_cons, List.append_assoc, goField_append]
      exact ⟨_, rfl⟩
    obtain ⟨u, hu⟩ := hhead
    have hskip : Json.skipWs (commaJoin ((field :: fields).map goField) ++ 125 :: rest) =
        commaJoin ((field :: fields).map goField) ++ 125 :: rest := by
      rw [hu]
      exact skipWs_of_not_ws (by decide)
    change Json.value (n + 1) (d + 1)
      (123 :: (commaJoin ((field :: fields).map goField) ++ 125 :: rest)) = _
    rw [← dictOf_eq_self hkeys]
    refine value_obj ?_ ?_
    · rw [hskip, hu]
      exact fun hhead => absurd (Option.some.inj hhead) (by decide)
    · rw [hskip]
      exact members_commaJoin h (by simp) (by omega) rest

end Reads

end WebSpider.Json
