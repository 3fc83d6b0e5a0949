import WebSpider.Json.Decoder

/-!
# Encoding JSON text, and the round trip

`dumps` writes a value as the encoder of the Python standard library does with
`ensure_ascii=False`: separators `", "` and `": "`, and escapes only for the
quote, the backslash and the control characters. Decoding what `dumps` wrote
gives the value back (`loads_dumps`), and no proper prefix of the text of an
object decodes to that object (`loads_take_ne`).
-/

namespace WebSpider.Json

open Text

/-! ## Text of a value -/

def hexLower (n : Nat) : Nat := if n < 10 then 48 + n else 87 + n

/-- A character inside a string literal. -/
def escapeChar (c : Nat) : Str :=
  if c = 34 then [92, 34]
  else if c = 92 then [92, 92]
  else if c = 10 then [92, 110]
  else if c = 13 then [92, 114]
  else if c = 9 then [92, 116]
  else if c = 12 then [92, 102]
  else if c = 8 then [92, 98]
  else if c < 32 then [92, 117, 48, 48, hexLower (c / 16), hexLower (c % 16)]
  else [c]

def dumpStr (s : Str) : Str := 34 :: (s.flatMap escapeChar ++ [34])

def dumpInt (n : Int) : Str := if n < 0 then 45 :: decimal n.natAbs else decimal n.natAbs

section Dumps

variable {F : Type} [FloatText F]

mutual

/-- `json.dumps(v, ensure_ascii=False)`. -/
def dumps : Value F → Str
  | .null => lit "null"
  | .bool true => lit "true"
  | .bool false => lit "false"
  | .int n => dumpInt n
  | .float x => FloatText.text x
  | .str s => dumpStr s
  | .arr xs => 91 :: (dumpElems xs ++ [93])
  | .obj kvs => 123 :: (dumpFields kvs ++ [125])

def dumpElems : List (Value F) → Str
  | [] => []
  | [x] => dumps x
  | x :: y :: ys => dumps x ++ 44 :: 32 :: dumpElems (y :: ys)

def dumpFields : List (Str × Value F) → Str
  | [] => []
  | [kv] => dumpStr kv.1 ++ 58 :: 32 :: dumps kv.2
  | kv :: kw :: kvs => dumpStr kv.1 ++ 58 :: 32 :: (dumps kv.2 ++ 44 :: 32 :: dumpFields (kw :: kvs))

end

end Dumps

/-! ## Strings -/

/-- The piece a character is written as. -/
def pieceOf (c : Nat) : Piece :=
  if c < 32 ∧ c ≠ 10 ∧ c ≠ 13 ∧ c ≠ 9 ∧ c ≠ 12 ∧ c ≠ 8 then .unit c else .raw c

theorem hexDigit_hexLower {n : Nat} (hn : n < 16) : hexDigit (hexLower n) = some n := by
  unfold hexDigit hexLower
  split
  · rw [if_pos (by omega)]
    exact congrArg some (by omega)
  · rw [if_neg (by omega), if_pos (by omega)]
    exact congrArg some (by omega)

theorem scanPieces_escapeChar (c : Nat) (r : Str) :
    scanPieces (escapeChar c ++ r) = (scanPieces r).map fun p => (pieceOf c :: p.1, p.2) := by
  by_cases hshort : c = 34 ∨ c = 92 ∨ c = 10 ∨ c = 13 ∨ c = 9 ∨ c = 12 ∨ c = 8
  · rcases hshort with rfl | rfl | rfl | rfl | rfl | rfl | rfl <;>
      exact scanPieces_short (by decide) r
  · obtain ⟨h34, h92, h10, h13, h9, h12, h8⟩ : c ≠ 34 ∧ c ≠ 92 ∧ c ≠ 10 ∧ c ≠ 13 ∧ c ≠ 9 ∧
        c ≠ 12 ∧ c ≠ 8 := by omega
    by_cases h32 : c < 32
    · have hesc : escapeChar c = [92, 117, 48, 48, hexLower (c / 16), hexLower (c % 16)] := by
        simp only [escapeChar, h34, h92, h10, h13, h9, h12, h8, h32, if_true, if_false]
      have hpiece : pieceOf c = .unit c := if_pos ⟨h32, h10, h13, h9, h12, h8⟩
      have h48 : hexDigit 48 = some 0 := by decide
      have hhex : hex4 48 48 (hexLower (c / 16)) (hexLower (c % 16)) = some c := by
        unfold hex4
        rw [hexDigit_hexLower (by omega), hexDigit_hexLower (by omega), h48]
        exact congrArg some (by omega)
      rw [hesc, hpiece]
      exact scanPieces_unit hhex r
    · have hesc : escapeChar c = [c] := by
        simp only [escapeChar, h34, h92, h10, h13, h9, h12, h8, h32, if_false]
      have hpiece : pieceOf c = .raw c := if_neg (by omega)
      rw [hesc, hpiece]
      exact scanPieces_raw h34 h92 (by omega) r

theorem scanPieces_dumpStr (s r : Str) :
    scanPieces (s.flatMap escapeChar ++ 34 :: r) = some (s.map pieceOf, r) := by
  induction s with
  | nil => rfl
  | cons c s ih => simp [List.flatMap_cons, List.append_assoc, scanPieces_escapeChar, ih]

theorem joinUnits_map_pieceOf (s : Str) : joinUnits (s.map pieceOf) = s := by
  induction s with
  | nil => rfl
  | cons c s ih =>
    rw [List.map_cons]
    by_cases hc : c < 32 ∧ c ≠ 10 ∧ c ≠ 13 ∧ c ≠ 9 ∧ c ≠ 12 ∧ c ≠ 8
    · have hhigh : isHigh c = false := by simp [isHigh]; omega
      rw [pieceOf, if_pos hc]
      cases hs : s.map pieceOf with
      | nil =>
        rw [hs] at ih
        rw [← ih]
        rfl
      | cons p ps =>
        rw [hs] at ih
        cases p with
        | raw a => rw [← ih]; rfl
        | unit a => rw [joinUnits, hhigh, Bool.false_and, if_neg (by simp), ih]
    · rw [pieceOf, if_neg hc, joinUnits, ih]

theorem dumpStr_append (s r : Str) :
    dumpStr s ++ r = 34 :: (s.flatMap escapeChar ++ 34 :: r) := by
  rw [dumpStr, List.cons_append, List.append_assoc]
  rfl

theorem scanString_dumpStr (s r : Str) :
    scanString (s.flatMap escapeChar ++ 34 :: r) = some (s, r) := by
  rw [scanString, scanPieces_dumpStr, Option.map_some, joinUnits_map_pieceOf]

/-! ## Numbers -/

theorem intPart_decimal (n : Nat) {rest : Str} (hrest : Stops rest) :
    intPart (decimal n ++ rest) = some (decimal n, rest) := by
  by_cases hn : n = 0
  · subst hn
    rw [decimal_zero]
    rfl
  · obtain ⟨c, t, hc, hlo, hhi⟩ := decimal_head_ne_zero (Nat.pos_of_ne_zero hn)
    have hall := all_isDigit_decimal n
    rw [hc, List.all_cons, Bool.and_eq_true] at hall
    obtain ⟨htake, hdrop⟩ := span_run hall.2 fun a u h => (hrest a u h).1
    rw [hc, List.cons_append, intPart, if_neg (by omega), if_pos hall.1, htake, hdrop]

theorem fracPart_of_stops {s : Str} (h : Stops s) : fracPart s = ([], s) := by
  unfold fracPart
  split
  · rename_i r
    exact ((h 46 r rfl).2.1 rfl).elim
  · rfl

theorem expPart_of_stops {s : Str} (h : Stops s) : expPart s = ([], s) := by
  cases s with
  | nil => rfl
  | cons c s =>
    obtain ⟨-, -, h101, h69⟩ := h c s rfl
    simp only [expPart, h101, h69, or_self, if_false]

theorem scanNumber_dumpInt (n : Int) {rest : Str} (hrest : Stops rest) :
    scanNumber (dumpInt n ++ rest) =
      some (if n < 0 then [45] else [], decimal n.natAbs, [], rest) := by
  have hint := intPart_decimal n.natAbs hrest
  unfold dumpInt
  by_cases hn : n < 0
  · simp only [hn, if_true, List.cons_append, scanNumber, signPart, hint,
      fracPart_of_stops hrest, expPart_of_stops hrest, List.append_nil]
  · have hsign : signPart (decimal n.natAbs ++ rest) = ([], decimal n.natAbs ++ rest) := by
      unfold signPart
      split
      · rename_i r heq
        have hmem : (45 : Nat) ∈ decimal n.natAbs := by
          cases hd : decimal n.natAbs with
          | nil => exact (decimal_ne_nil _ hd).elim
          | cons c t =>
            rw [hd] at heq
            rw [(List.cons.inj heq).1]
            exact List.mem_cons_self
        exact (notMem_decimal (by decide) _ hmem).elim
      · rfl
    simp only [hn, if_false, scanNumber, hsign, hint, fracPart_of_stops hrest,
      expPart_of_stops hrest, List.append_nil]

section RoundTrip

variable {F : Type} [FloatText F]

theorem number_dumpInt {n : Int} (hn : (decimal n.natAbs).length ≤ maxDigits) {rest : Str}
    (hrest : Stops rest) : number (F := F) (dumpInt n ++ rest) = .ok (.int n, rest) := by
  rw [number, scanNumber_dumpInt n hrest]
  by_cases hneg : n < 0
  · have hval : (-(readDigits (decimal n.natAbs) : Int)) = n := by
      rw [readDigits_decimal]
      omega
    simp only [hneg, if_true, ne_eq, not_true, if_false, Nat.not_lt.mpr hn, List.cons_ne_nil, hval]
  · have hval : (readDigits (decimal n.natAbs) : Int) = n := by
      rw [readDigits_decimal]
      omega
    simp only [hneg, if_false, ne_eq, not_true, Nat.not_lt.mpr hn, if_true, hval]

/-- A text that scans as a number is read by `atom` as that number. -/
theorem atom_of_number {s rest : Str} {v : Value F} {p : Str × Str × Str × Str}
    (hscan : scanNumber s = some p) (hnum : number s = .ok (v, rest)) :
    atom s = .ok (v, rest) := by
  cases s with
  | nil => cases hscan
  | cons c s =>
    unfold atom
    simp only [List.head?_cons, Option.bind_some]
    cases hc : constant (F := F) c with
    | none => exact hnum
    | some wv =>
      have hpre : ¬ wv.1 <+: c :: s := by
        have := not_constant_of_number (t := []) hscan hc
        rwa [List.append_nil] at this
      simp only [hpre, if_false]
      exact hnum

theorem atom_dumpInt {n : Int} (hn : (decimal n.natAbs).length ≤ maxDigits) {rest : Str}
    (hrest : Stops rest) : atom (F := F) (dumpInt n ++ rest) = .ok (.int n, rest) :=
  atom_of_number (scanNumber_dumpInt n hrest) (number_dumpInt hn hrest)

theorem atom_constant {w rest : Str} {c : Nat} {t : Str} {v : Value F} (hw : w = c :: t)
    (hc : constant c = some (w, v)) : atom (w ++ rest) = .ok (v, rest) := by
  have hpre : w <+: w ++ rest := List.prefix_append _ _
  have hdrop : (w ++ rest).drop w.length = rest := List.drop_left
  have hhead : (w ++ rest).head? = some c := by rw [hw]; rfl
  simp only [atom, hhead, Option.bind_some, hc, hpre, if_true, hdrop]

theorem atom_float (x : F) {rest : Str} (hrest : Stops rest) :
    atom (FloatText.text x ++ rest) = .ok (.float x, rest) := by
  have hx := FloatText.ofText_text x
  rcases FloatText.text_isFloat x with ht | ht | ht | ⟨sg, i, fe, hs, hfe⟩
  · rw [ht] at hx ⊢
    rw [← hx]
    exact atom_constant (c := 78) rfl rfl
  · rw [ht] at hx ⊢
    rw [← hx]
    exact atom_constant (c := 73) rfl rfl
  · rw [ht] at hx ⊢
    rw [← hx]
    exact atom_constant (c := 45) rfl rfl
  · have hscan := scanNumber_append (t := rest) hs hrest
    rw [List.nil_append] at hscan
    have htext : sg ++ i ++ fe = FloatText.text x := by
      have hsplit := (scanNumber_split hs).1
      rw [List.append_nil] at hsplit
      rw [hsplit, List.append_assoc]
    apply atom_of_number hscan
    simp only [number, hscan, ne_eq, hfe, not_false_eq_true, if_true, htext, hx]

theorem number_head_ne {c : Nat} {s : Str} {p : Str × Str × Str × Str}
    (h : scanNumber (c :: s) = some p) : c ≠ 34 ∧ c ≠ 123 ∧ c ≠ 91 := by
  rcases scanNumber_head h with hd | ⟨rfl, -⟩
  · have hrange : 48 ≤ c ∧ c ≤ 57 := by simpa [isDigit] using hd
    omega
  · decide

theorem float_head (x : F) :
    ∃ c t, FloatText.text x = c :: t ∧ c ≠ 34 ∧ c ≠ 123 ∧ c ≠ 91 := by
  rcases FloatText.text_isFloat x with ht | ht | ht | ⟨sg, i, fe, hs, -⟩
  · exact ⟨78, _, ht, by decide⟩
  · exact ⟨73, _, ht, by decide⟩
  · exact ⟨45, _, ht, by decide⟩
  · cases hx : FloatText.text x with
    | nil => rw [hx] at hs; cases hs
    | cons c t =>
      rw [hx] at hs
      exact ⟨c, t, rfl, number_head_ne hs⟩

/-! ## The round trip -/

/-- A printed value starts with a character that is neither a space nor a closing bracket. -/
theorem dumps_head (v : Value F) :
    ∃ c t, dumps v = c :: t ∧ isWs c = false ∧ c ≠ 93 ∧ c ≠ 125 ∧ c ≠ 0xFEFF := by
  have hdigit : ∀ c, isDigit c = true → isWs c = false ∧ c ≠ 93 ∧ c ≠ 125 ∧ c ≠ 0xFEFF := by
    intro c hc
    have hrange : 48 ≤ c ∧ c ≤ 57 := by simpa [isDigit] using hc
    refine ⟨?_, by omega, by omega, by omega⟩
    simp [isWs]
    omega
  have hnumber : ∀ (s : Str) p, scanNumber s = some p →
      ∃ c t, s = c :: t ∧ isWs c = false ∧ c ≠ 93 ∧ c ≠ 125 ∧ c ≠ 0xFEFF := by
    intro s p h
    cases s with
    | nil => cases h
    | cons c t =>
      refine ⟨c, t, rfl, ?_⟩
      rcases scanNumber_head h with hd | ⟨rfl, -⟩
      · exact hdigit c hd
      · decide
  cases v with
  | null => exact ⟨110, _, rfl, by decide⟩
  | bool b => cases b <;> exact ⟨_, _, rfl, by decide⟩
  | int n =>
    have h := scanNumber_dumpInt n stops_nil
    rw [List.append_nil] at h
    exact hnumber _ _ h
  | float x =>
    change ∃ c t, FloatText.text x = c :: t ∧ _
    rcases FloatText.text_isFloat x with ht | ht | ht | ⟨sg, i, fe, hs, -⟩
    · exact ⟨78, _, ht, by decide⟩
    · exact ⟨73, _, ht, by decide⟩
    · exact ⟨45, _, ht, by decide⟩
    · exact hnumber _ _ hs
  | str s => exact ⟨34, _, rfl, by decide⟩
  | arr xs => exact ⟨91, _, rfl, by decide⟩
  | obj kvs => exact ⟨123, _, rfl, by decide⟩

theorem skipWs_dumps (v : Value F) (rest : Str) : skipWs (dumps v ++ rest) = dumps v ++ rest := by
  obtain ⟨c, t, hv, hc, -⟩ := dumps_head v
  rw [hv, List.cons_append, skipWs_of_not_ws hc]

theorem length_dumps_pos (v : Value F) : 0 < (dumps v).length := by
  obtain ⟨c, t, hv, -⟩ := dumps_head v
  rw [hv]
  exact Nat.succ_pos _

theorem skipWs_space (s : Str) : skipWs (32 :: s) = skipWs s := rfl

theorem dumpElems_head (x : Value F) (xs : List (Value F)) (rest : Str) :
    ∃ t, dumpElems (x :: xs) ++ rest = dumps x ++ t := by
  cases xs with
  | nil => exact ⟨rest, rfl⟩
  | cons y ys => exact ⟨_, List.append_assoc _ _ _⟩

theorem dumpFields_head (kv : Str × Value F) (kvs : List (Str × Value F)) (rest : Str) :
    ∃ t, dumpFields (kv :: kvs) ++ rest = 34 :: t := by
  cases kvs with
  | nil => exact ⟨_, rfl⟩
  | cons kw kvs => exact ⟨_, rfl⟩

/-- With this fuel the scanner reads back every value that was written. -/
private def ReadsValue (F : Type) [FloatText F] (n : Nat) : Prop :=
  ∀ (d : Nat) (v : Value F) (rest : Str), Fits d v → (dumps v).length ≤ n →
    (isNumber v = true → Stops rest) → value n d (dumps v ++ rest) = .ok (v, rest)

private def ReadsElems (F : Type) [FloatText F] (n : Nat) : Prop :=
  ∀ (d : Nat) (x : Value F) (xs : List (Value F)) (rest : Str), FitsAll d (x :: xs) →
    (dumpElems (x :: xs)).length < n →
    elems n d (dumpElems (x :: xs) ++ 93 :: rest) = .ok (x :: xs, rest)

private def ReadsMembers (F : Type) [FloatText F] (n : Nat) : Prop :=
  ∀ (d : Nat) (kv : Str × Value F) (kvs : List (Str × Value F)) (rest : Str),
    FitsFields d (kv :: kvs) → (dumpFields (kv :: kvs)).length < n →
    members n d (dumpFields (kv :: kvs) ++ 125 :: rest) = .ok (kv :: kvs, rest)

private theorem value_step {n : Nat} (ihe : ReadsElems F n) (ihm : ReadsMembers F n) :
    ReadsValue F (n + 1) := by
  intro d v rest hv hn hstop
  cases v with
  | null => exact value_atom (by decide) (by decide) (by decide) (atom_constant rfl rfl)
  | bool b =>
    cases b
    · exact value_atom (by decide) (by decide) (by decide) (atom_constant rfl rfl)
    · exact value_atom (by decide) (by decide) (by decide) (atom_constant rfl rfl)
  | int m =>
    have hatom := atom_dumpInt (F := F) hv (hstop rfl)
    have hscan := scanNumber_dumpInt m (hstop rfl)
    change value (n + 1) d (dumpInt m ++ rest) = _
    cases hs : dumpInt m ++ rest with
    | nil => rw [hs] at hscan; cases hscan
    | cons c t =>
      rw [hs] at hatom hscan
      obtain ⟨h34, h123, h91⟩ := number_head_ne hscan
      exact value_atom h34 h123 h91 hatom
  | float x =>
    have hatom := atom_float x (hstop rfl)
    change value (n + 1) d (FloatText.text x ++ rest) = _
    obtain ⟨c, t, hc, h34, h123, h91⟩ := float_head x
    rw [hc, List.cons_append] at hatom ⊢
    exact value_atom h34 h123 h91 hatom
  | str s =>
    change value (n + 1) d (34 :: ((s.flatMap escapeChar ++ [34]) ++ rest)) = _
    rw [List.append_assoc]
    exact value_str (scanString_dumpStr s rest)
  | arr xs =>
    cases d with
    | zero => exact hv.elim
    | succ d =>
      change value (n + 1) (d + 1) (91 :: ((dumpElems xs ++ [93]) ++ rest)) = _
      rw [List.append_assoc]
      cases xs with
      | nil => exact value_arr_nil rfl
      | cons x xs =>
        obtain ⟨t, ht⟩ := dumpElems_head x xs ([93] ++ rest)
        obtain ⟨c, u, hc, -, h93, -⟩ := dumps_head x
        have hskip : skipWs (dumpElems (x :: xs) ++ ([93] ++ rest)) =
            dumpElems (x :: xs) ++ 93 :: rest := by
          rw [ht, skipWs_dumps, ← ht]
          rfl
        refine value_arr ?_ ?_
        · rw [ht, skipWs_dumps, hc]
          exact fun h => h93 (Option.some.inj h)
        · rw [hskip]
          apply ihe d x xs rest hv
          simp only [dumps, List.length_cons, List.length_append, List.length_nil] at hn
          omega
  | obj kvs =>
    cases d with
    | zero => exact hv.elim
    | succ d =>
      change value (n + 1) (d + 1) (123 :: ((dumpFields kvs ++ [125]) ++ rest)) = _
      rw [List.append_assoc]
      cases kvs with
      | nil => exact value_obj_nil rfl
      | cons kv kvs =>
        obtain ⟨t, ht⟩ := dumpFields_head kv kvs ([125] ++ rest)
        have hskip : skipWs (dumpFields (kv :: kvs) ++ ([125] ++ rest)) =
            dumpFields (kv :: kvs) ++ 125 :: rest := by
          rw [ht, skipWs_of_not_ws (by decide), ← ht]
          rfl
        obtain ⟨hnodup, hfits⟩ := hv
        have hdict : dictOf (kv :: kvs) = kv :: kvs := dictOf_eq_self hnodup
        rw [← hdict]
        nth_rewrite 1 [hdict]
        refine value_obj ?_ ?_
        · rw [ht, skipWs_of_not_ws (by decide)]
          exact fun h => absurd (Option.some.inj h) (by decide)
        · rw [hskip]
          apply ihm d kv kvs rest hfits
          simp only [dumps, List.length_cons, List.length_append, List.length_nil] at hn
          omega

private theorem elems_step {n : Nat} (ihv : ReadsValue F n) (ihe : ReadsElems F n) :
    ReadsElems F (n + 1) := by
  intro d x xs rest hxs hn
  cases xs with
  | nil =>
    refine elems_last (ihv d x (93 :: rest) hxs.1 ?_ fun _ => ?_) rfl
    · simp only [dumpElems] at hn
      omega
    · exact stops_cons (delimiter_stops 93 (by decide))
  | cons y ys =>
    simp only [dumpElems, List.length_cons, List.length_append] at hn
    rw [dumpElems, List.append_assoc]
    refine elems_cons (ihv d x _ hxs.1 (by omega) fun _ => ?_) rfl ?_
    · exact stops_cons (delimiter_stops 44 (by decide))
    · obtain ⟨t, ht⟩ := dumpElems_head y ys (93 :: rest)
      have := length_dumps_pos x
      change elems n d (skipWs (32 :: (dumpElems (y :: ys) ++ 93 :: rest))) = _
      rw [skipWs_space, ht, skipWs_dumps, ← ht]
      exact ihe d y ys rest hxs.2 (by omega)

private theorem members_step {n : Nat} (ihv : ReadsValue F n) (ihm : ReadsMembers F n) :
    ReadsMembers F (n + 1) := by
  intro d kv kvs rest hkvs hn
  obtain ⟨k, v⟩ := kv
  cases kvs with
  | nil =>
    simp only [dumpFields, dumpStr, List.length_cons, List.length_append] at hn
    change members (n + 1) d (34 :: (((k.flatMap escapeChar ++ [34]) ++ 58 :: 32 :: dumps v) ++
      125 :: rest)) = _
    rw [List.append_assoc, List.append_assoc]
    refine members_last (scanString_dumpStr k _) rfl ?_
      (show skipWs (125 :: rest) = 125 :: rest from rfl)
    change value n d (skipWs (32 :: (dumps v ++ 125 :: rest))) = _
    rw [skipWs_space, skipWs_dumps]
    apply ihv d v (125 :: rest) hkvs.1 (by omega)
    intro _
    exact stops_cons (delimiter_stops 125 (by decide))
  | cons kw kvs =>
    simp only [dumpFields, dumpStr, List.length_cons, List.length_append] at hn
    change members (n + 1) d (34 :: (((k.flatMap escapeChar ++ [34]) ++
      58 :: 32 :: (dumps v ++ 44 :: 32 :: dumpFields (kw :: kvs))) ++ 125 :: rest)) = _
    rw [List.append_assoc, List.append_assoc]
    obtain ⟨t, ht⟩ := dumpFields_head kw kvs (125 :: rest)
    have hsep : skipWs (44 :: 32 :: dumpFields (kw :: kvs) ++ 125 :: rest) =
        44 :: (32 :: dumpFields (kw :: kvs) ++ 125 :: rest) := rfl
    refine members_cons (scanString_dumpStr k _) rfl ?_ hsep ?_
    · change value n d (skipWs (32 :: ((dumps v ++ 44 :: 32 :: dumpFields (kw :: kvs)) ++
        125 :: rest))) = _
      rw [List.append_assoc, skipWs_space, skipWs_dumps]
      apply ihv d v _ hkvs.1 (by omega)
      intro _
      exact stops_cons (delimiter_stops 44 (by decide))
    · change members n d (skipWs (32 :: (dumpFields (kw :: kvs) ++ 125 :: rest))) = _
      rw [skipWs_space, ht, skipWs_of_not_ws (by decide), ← ht]
      exact ihm d kw kvs rest hkvs.2 (by omega)

/-- The three scanners call each other with less fuel, so the induction is over all of them. -/
private theorem scanners_dumps (n : Nat) :
    ReadsValue F n ∧ ReadsElems F n ∧ ReadsMembers F n := by
  induction n with
  | zero =>
    refine ⟨fun d v rest _ h _ => ?_, fun _ _ _ _ _ h => (Nat.not_lt_zero _ h).elim,
      fun _ _ _ _ _ h => (Nat.not_lt_zero _ h).elim⟩
    have := length_dumps_pos v
    omega
  | succ n ih =>
    obtain ⟨ihv, ihe, ihm⟩ := ih
    exact ⟨value_step ihe ihm, elems_step ihv ihe, members_step ihv ihm⟩

theorem value_dumps {n d : Nat} {v : Value F} {rest : Str} (hv : Fits d v)
    (hn : (dumps v).length ≤ n) (hstop : isNumber v = true → Stops rest) :
    value n d (dumps v ++ rest) = .ok (v, rest) :=
  (scanners_dumps n).1 d v rest hv hn hstop

theorem value_dumps_nil {n d : Nat} {v : Value F} (hv : Fits d v) (hn : (dumps v).length ≤ n) :
    value n d (dumps v) = .ok (v, []) := by
  have h := value_dumps hv hn fun _ => stops_nil
  rwa [List.append_nil] at h

/-- Decoding what was encoded gives the value back. -/
theorem loads_dumps {limit : Nat} {v : Value F} (hv : Fits limit v) :
    loads limit (dumps v) = .ok v := by
  obtain ⟨c, t, hc, -, -, -, hbom⟩ := dumps_head v
  have hskip := skipWs_dumps v []
  have hval := value_dumps_nil (n := 2 * (dumps v).length + 2) hv (by omega)
  rw [List.append_nil] at hskip
  have hhead : (dumps v).head? ≠ some 0xFEFF := by
    rw [hc]
    exact fun h => hbom (Option.some.inj h)
  rw [loads, if_neg hhead, hskip, hval]
  rfl

/-- No proper prefix of the text of an object decodes to the object. -/
theorem loads_take_ne {limit k : Nat} {kvs : List (Str × Value F)} (hv : Fits limit (.obj kvs))
    (hk : k < (dumps (.obj kvs)).length) :
    loads limit ((dumps (Value.obj kvs)).take k) ≠ .ok (.obj kvs) := by
  intro h
  have hsplit := List.take_append_drop k (dumps (Value.obj kvs))
  have hrest : (dumps (Value.obj kvs)).drop k ≠ [] := by
    intro hnil
    have := congrArg List.length hnil
    rw [List.length_drop, List.length_nil] at this
    omega
  -- the prefix keeps the opening brace, so it has no leading space
  have hskip : skipWs ((dumps (Value.obj kvs)).take k) = (dumps (Value.obj kvs)).take k := by
    cases k with
    | zero => rfl
    | succ k => exact skipWs_of_not_ws (by decide)
  unfold loads at h
  split at h
  · cases h
  · rw [hskip] at h
    split at h
    · cases h
    · rename_i v r hdec
      split at h
      · rename_i hr
        cases h
        set p := (dumps (Value.obj kvs)).take k with hp
        set u := (dumps (Value.obj kvs)).drop k with hu
        have hlong := value_append (m := 2 * (dumps (Value.obj kvs)).length + 2) (t := u)
          (by rw [hp, List.length_take]; omega) hdec (fun hnum => nomatch hnum)
        have hfull := value_dumps_nil (n := 2 * (dumps (Value.obj kvs)).length + 2) hv (by omega)
        rw [hsplit, hfull] at hlong
        have hnil : [] = r ++ u := congrArg Prod.snd (Except.ok.inj hlong)
        exact hrest (List.append_eq_nil_iff.mp hnil.symm).2
      · cases h

end RoundTrip

end WebSpider.Json
