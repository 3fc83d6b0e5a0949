import WebSpider.Text.Decimal

/-!
# Comma-separated values

The writer of Python's `csv` module with minimal quoting, and the reader of
`COPY ... (FORMAT csv)`: an empty field is written without quotes, and read as
`NULL`. All else is read back as it was written (`readRows_writeRows`).
-/

namespace WebSpider.Text.Csv

/-! ## Writing -/

/-- Does `QUOTE_MINIMAL` quote the field: a comma, a quote or a line end in it. -/
def needsQuotes (field : Str) : Bool :=
  field.any fun c => decide (c = 44 ∨ c = 34 ∨ c = 13 ∨ c = 10)

/-- Double the quotes of a field. -/
def doubled (field : Str) : Str := field.flatMap fun c => if c = 34 then [34, 34] else [c]

def writeField (field : Str) : Str :=
  if needsQuotes field then 34 :: doubled field ++ [34] else field

/-- The fields of a record with commas between them. -/
def writeFields : List Str → Str
  | [] => []
  | [field] => writeField field
  | field :: fields => writeField field ++ 44 :: writeFields fields

/-- `writer.writerow`. A record of one empty field is quoted, as a blank line is none. -/
def writeRow (row : List Str) : Str :=
  (if row = [[]] then [34, 34] else writeFields row) ++ [13, 10]

/-- `writer.writerows` -/
def writeRows (rows : List (List Str)) : Str := rows.flatMap writeRow

/-! ## Reading -/

/-- Where the reader is: outside quotes, inside, after a quote that was inside, or
after a carriage return. -/
inductive Mode where
  | outside
  | inside
  | afterQuote
  | afterReturn
  deriving DecidableEq

structure Reader where
  rows : List (List (Option Str))
  fields : List (Option Str)
  field : Str
  quoted : Bool
  mode : Mode
  deriving DecidableEq

def Reader.start : Reader := ⟨[], [], [], false, .outside⟩

namespace Reader

/-- The field is complete. One without quotes and characters is `NULL`. -/
def endField (r : Reader) : Reader :=
  { r with
    fields := r.fields ++ [if r.field = [] ∧ r.quoted = false then none else some r.field]
    field := []
    quoted := false }

def endRow (r : Reader) : Reader :=
  { r.endField with rows := r.rows ++ [r.endField.fields], fields := [], mode := .outside }

/-- A character outside quotes. -/
def plain (r : Reader) (c : Nat) : Option Reader :=
  if c = 44 then some { r.endField with mode := .outside }
  else if c = 34 then some { r with quoted := true, mode := .inside }
  else if c = 13 then some { r with mode := .afterReturn }
  else if c = 10 then none
  else some { r with field := r.field ++ [c], mode := .outside }

def read (r : Reader) (c : Nat) : Option Reader :=
  match r.mode with
  | .outside => r.plain c
  | .inside => some (if c = 34 then { r with mode := .afterQuote }
      else { r with field := r.field ++ [c] })
  | .afterQuote =>
    if c = 34 then some { r with field := r.field ++ [c], mode := .inside } else r.plain c
  | .afterReturn => if c = 10 then some r.endRow else none

end Reader

/-- The records of a text whose lines end with `\r\n`. -/
def readRows (text : Str) : Option (List (List (Option Str))) :=
  (text.foldlM Reader.read .start).bind fun r =>
    if r.mode = .outside ∧ r.fields = [] ∧ r.field = [] ∧ r.quoted = false then some r.rows
    else none

/-! ## The round trip -/

variable {r : Reader}

theorem foldlM_read_append (r : Reader) (s t : Str) :
    (s ++ t).foldlM Reader.read r = (s.foldlM Reader.read r).bind (t.foldlM Reader.read) :=
  List.foldlM_append

/-- Inside quotes a doubled field is read as the field. -/
theorem read_doubled (field : Str) (hmode : r.mode = .inside) :
    (doubled field).foldlM Reader.read r = some { r with field := r.field ++ field } := by
  induction field generalizing r with
  | nil =>
    rw [List.append_nil]
    rfl
  | cons c field ih =>
    have hhead : ((if c = 34 then [34, 34] else [c]) : Str).foldlM Reader.read r =
        some { r with field := r.field ++ [c] } := by
      obtain ⟨rows, fields, part, quoted, mode⟩ := r
      obtain rfl : mode = .inside := hmode
      by_cases hc : c = 34
      · subst hc
        rfl
      · simp [hc, Reader.read]
    have htail := @ih { r with field := r.field ++ [c] } hmode
    rw [doubled, List.flatMap_cons, foldlM_read_append, hhead, Option.bind_some]
    rw [doubled] at htail
    rw [htail, List.append_assoc, List.singleton_append]

theorem read_unquoted (field : Str) (hfield : needsQuotes field = false)
    (hmode : r.mode = .outside) :
    field.foldlM Reader.read r = some { r with field := r.field ++ field } := by
  induction field generalizing r with
  | nil =>
    rw [List.append_nil]
    rfl
  | cons c field ih =>
    rw [needsQuotes, List.any_cons, Bool.or_eq_false_iff] at hfield
    obtain ⟨hc, hfield⟩ := hfield
    have hc := of_decide_eq_false hc
    have hhead : Reader.read r c = some { r with field := r.field ++ [c] } := by
      simp only [Reader.read, hmode, Reader.plain]
      rw [if_neg (by omega), if_neg (by omega), if_neg (by omega), if_neg (by omega)]
    have htail := @ih { r with field := r.field ++ [c] } hfield hmode
    rw [List.foldlM_cons, hhead, Option.bind_eq_bind, Option.bind_some, htail, List.append_assoc,
      List.singleton_append]

/-- What is read back of a field. -/
def readBack (field : Str) : Option Str := if field = [] then none else some field

/-- A written field and what ends it are read as the field. -/
theorem read_field (field : Str) (hmode : r.mode = .outside) (hfield : r.field = [])
    (hquoted : r.quoted = false) {c : Nat} (hc : c ≠ 34) :
    ∃ r' : Reader, r'.rows = r.rows ∧ r'.fields = r.fields ∧
      (r'.mode = .outside ∨ r'.mode = .afterQuote) ∧
      r'.endField.fields = r.fields ++ [readBack field] ∧
      (writeField field ++ [c]).foldlM Reader.read r = r'.plain c := by
  unfold writeField
  by_cases hneeds : needsQuotes field = true
  · have hne : field ≠ [] := by
      intro h
      rw [h] at hneeds
      cases hneeds
    refine ⟨{ r with field := field, quoted := true, mode := .afterQuote }, rfl, rfl, Or.inr rfl,
      ?_, ?_⟩
    · simp [Reader.endField, readBack, hne]
    · rw [if_pos hneeds, foldlM_read_append, List.cons_append, List.foldlM_cons]
      have hopen : Reader.read r 34 = some { r with quoted := true, mode := .inside } := by
        simp [Reader.read, Reader.plain, hmode]
      have hbody := @read_doubled { r with quoted := true, mode := .inside } field rfl
      rw [hopen, Option.bind_eq_bind, Option.bind_some, foldlM_read_append, hbody]
      simp [Reader.read, hc, hfield]
  · have hneeds := Bool.not_eq_true _ ▸ hneeds
    refine ⟨{ r with field := field }, rfl, rfl, Or.inl hmode, ?_, ?_⟩
    · simp [Reader.endField, readBack, hquoted]
    · rw [hneeds, if_neg Bool.false_ne_true, foldlM_read_append, read_unquoted field hneeds hmode,
        hfield, List.nil_append]
      simp [Reader.read, hmode]

theorem read_fields {fields : List Str} (hne : fields ≠ []) (hmode : r.mode = .outside)
    (hfield : r.field = []) (hquoted : r.quoted = false) :
    (writeFields fields ++ [13, 10]).foldlM Reader.read r = some ⟨r.rows ++
      [r.fields ++ fields.map readBack], [], [], false, .outside⟩ := by
  induction fields generalizing r with
  | nil => exact (hne rfl).elim
  | cons field fields ih =>
    cases fields with
    | nil =>
      obtain ⟨r', hrows, -, -, hend, hread⟩ :=
        read_field field hmode hfield hquoted (show (13 : Nat) ≠ 34 by decide)
      have hsplit : writeField field ++ [13, 10] = (writeField field ++ [13]) ++ [10] := by simp
      have hreturn : r'.plain 13 = some { r' with mode := .afterReturn } := rfl
      rw [writeFields, hsplit, foldlM_read_append, hread, hreturn]
      have hfields : (Reader.endField { r' with mode := .afterReturn }).fields =
          r.fields ++ [readBack field] := hend
      have hrow : Reader.endRow { r' with mode := .afterReturn } =
          ⟨r.rows ++ [r.fields ++ [readBack field]], [], [], false, .outside⟩ := by
        rw [Reader.endRow, hfields, ← hrows]
        rfl
      exact congrArg some hrow
    | cons next fields =>
      obtain ⟨r', hrows, -, -, hend, hread⟩ :=
        read_field field hmode hfield hquoted (show (44 : Nat) ≠ 34 by decide)
      have hsplit : writeFields (field :: next :: fields) ++ [13, 10] =
          (writeField field ++ [44]) ++ (writeFields (next :: fields) ++ [13, 10]) := by
        simp [writeFields]
      have hcomma : r'.plain 44 = some { r'.endField with mode := .outside } := rfl
      have hrest := @ih { r'.endField with mode := .outside } (List.cons_ne_nil _ _) rfl rfl rfl
      rw [hsplit, foldlM_read_append, hread, hcomma, Option.bind_some, hrest]
      have hrows' : r'.endField.rows = r.rows := hrows
      simp only [hrows', hend, List.map_cons, List.append_assoc, List.singleton_append]

/-- Records are read back as written, with `NULL` for the empty fields, when each
has at least two fields. -/
theorem readRows_writeRows {rows : List (List Str)} (hrows : ∀ row ∈ rows, 2 ≤ row.length) :
    readRows (writeRows rows) = some (rows.map fun row => row.map readBack) := by
  suffices hread : ∀ r : Reader, r = ⟨r.rows, [], [], false, .outside⟩ →
      (writeRows rows).foldlM Reader.read r =
        some ⟨r.rows ++ rows.map (fun row => row.map readBack), [], [], false, .outside⟩ by
    rw [readRows, hread .start rfl]
    rfl
  induction rows with
  | nil =>
    intro r hr
    rw [List.map_nil, List.append_nil, ← hr]
    rfl
  | cons row rows ih =>
    intro r hr
    have hlength := hrows row List.mem_cons_self
    have hne : row ≠ [] := by
      intro h
      rw [h] at hlength
      exact absurd hlength (by decide)
    have hnot : row ≠ [[]] := by
      intro h
      rw [h] at hlength
      exact absurd hlength (by decide)
    have hhead := @read_fields r row hne (by rw [hr]) (by rw [hr]) (by rw [hr])
    have htail := ih (fun row' hrow' => hrows row' (List.mem_cons_of_mem _ hrow'))
      ⟨r.rows ++ [r.fields ++ row.map readBack], [], [], false, .outside⟩ rfl
    have hfields : r.fields = [] := by rw [hr]
    rw [writeRows, List.flatMap_cons, foldlM_read_append, writeRow, if_neg hnot, hhead,
      Option.bind_some]
    rw [writeRows] at htail
    rw [htail, hfields]
    simp

end WebSpider.Text.Csv
