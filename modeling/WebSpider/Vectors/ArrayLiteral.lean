import WebSpider.Text.Decimal

/-!
# Array literals

The encoder `_pg_array` of `import_pgvector.py`, and the decoder that Postgres
applies to a `text[]` literal whose elements are quoted. The encoder escapes
quotes but no backslashes, so a list is read back exactly when no element has one
(`readArray_pgArray_iff`): with one the literal is shorter than any literal of the list.
-/

namespace WebSpider.Vectors

open Text

/-- Escape the quotes of an element. -/
def escapeQuotes (v : Str) : Str := v.flatMap fun c => if c = 34 then [92, 34] else [c]

def quoteElement (v : Str) : Str := 34 :: escapeQuotes v ++ [34]

/-- The quoted elements with commas between them. -/
def quoteElements : List Str → Str
  | [] => []
  | [v] => quoteElement v
  | v :: vs => quoteElement v ++ 44 :: quoteElements vs

/-- `_pg_array` -/
def pgArray (values : List Str) : Str := 123 :: quoteElements values ++ [125]

theorem pgArray_ne_nil (values : List Str) : pgArray values ≠ [] := List.cons_ne_nil _ _

/-- Where the decoder is. After the opening brace the array may end at once; after
a comma an element must follow. -/
inductive ArrayMode where
  | start
  | opened
  | comma
  | inside
  | escaped
  | after
  | closed
  deriving DecidableEq

structure ArrayReader where
  elements : List Str
  element : Str
  mode : ArrayMode
  deriving DecidableEq

def ArrayReader.read (r : ArrayReader) (c : Nat) : Option ArrayReader :=
  match r.mode with
  | .start => if c = 123 then some { r with mode := .opened } else none
  | .opened =>
    if c = 34 then some { r with mode := .inside }
    else if c = 125 then some { r with mode := .closed }
    else none
  | .comma => if c = 34 then some { r with mode := .inside } else none
  | .inside =>
    if c = 92 then some { r with mode := .escaped }
    else if c = 34 then some ⟨r.elements ++ [r.element], [], .after⟩
    else some { r with element := r.element ++ [c] }
  | .escaped => some { r with element := r.element ++ [c], mode := .inside }
  | .after =>
    if c = 44 then some { r with mode := .comma }
    else if c = 125 then some { r with mode := .closed }
    else none
  | .closed => none

/-- Decode a literal with quoted elements. -/
def readArray (s : Str) : Option (List Str) :=
  (s.foldlM ArrayReader.read ⟨[], [], .start⟩).bind fun r =>
    if r.mode = .closed then some r.elements else none

/-! ## The round trip -/

variable {r : ArrayReader}

theorem read_escapeQuotes (v : Str) (hv : 92 ∉ v) (hmode : r.mode = .inside) :
    (escapeQuotes v).foldlM ArrayReader.read r = some { r with element := r.element ++ v } := by
  induction v generalizing r with
  | nil =>
    rw [List.append_nil]
    rfl
  | cons c v ih =>
    have hc : c ≠ 92 := fun h => hv (h ▸ List.mem_cons_self)
    have hhead : ((if c = 34 then [92, 34] else [c]) : Str).foldlM ArrayReader.read r =
        some { r with element := r.element ++ [c] } := by
      obtain ⟨elements, element, mode⟩ := r
      obtain rfl : mode = .inside := hmode
      by_cases hquote : c = 34
      · subst hquote
        rfl
      · simp [hquote, hc, ArrayReader.read]
    have htail := @ih { r with element := r.element ++ [c] } (fun h => hv (List.mem_cons_of_mem _ h))
      hmode
    rw [escapeQuotes] at htail
    rw [escapeQuotes, List.flatMap_cons, List.foldlM_append, hhead]
    exact htail.trans (by rw [List.append_assoc, List.singleton_append])

theorem read_quoteElement (v : Str) (hv : 92 ∉ v) (helement : r.element = [])
    (hmode : r.mode = .opened ∨ r.mode = .comma) :
    (quoteElement v).foldlM ArrayReader.read r = some ⟨r.elements ++ [v], [], .after⟩ := by
  have hopen : r.read 34 = some { r with mode := .inside } := by
    rcases hmode with h | h
    · simp [ArrayReader.read, h]
    · simp [ArrayReader.read, h]
  rw [quoteElement, List.cons_append, List.foldlM_cons, hopen, Option.bind_eq_bind,
    Option.bind_some, List.foldlM_append, read_escapeQuotes v hv rfl, helement]
  rfl

theorem read_quoteElements {values : List Str} (hne : values ≠ []) (hvalues : ∀ v ∈ values, 92 ∉ v)
    (helement : r.element = []) (hmode : r.mode = .opened ∨ r.mode = .comma) :
    (quoteElements values).foldlM ArrayReader.read r =
      some ⟨r.elements ++ values, [], .after⟩ := by
  induction values generalizing r with
  | nil => exact (hne rfl).elim
  | cons v vs ih =>
    have hv := hvalues v List.mem_cons_self
    cases vs with
    | nil => exact read_quoteElement v hv helement hmode
    | cons w ws =>
      have hrest := @ih ⟨r.elements ++ [v], [], .comma⟩ (List.cons_ne_nil _ _)
        (fun u hu => hvalues u (List.mem_cons_of_mem _ hu)) rfl (Or.inr rfl)
      rw [quoteElements, List.foldlM_append, read_quoteElement v hv helement hmode]
      · exact hrest.trans (by rw [List.append_assoc, List.singleton_append])
      · exact List.cons_ne_nil _ _

/-- A list without backslashes is read back. -/
theorem readArray_pgArray {values : List Str} (hvalues : ∀ v ∈ values, 92 ∉ v) :
    readArray (pgArray values) = some values := by
  by_cases hne : values = []
  · rw [hne]
    rfl
  · have hopen : ArrayReader.read ⟨[], [], .start⟩ 123 = some ⟨[], [], .opened⟩ := rfl
    have helements := @read_quoteElements ⟨[], [], .opened⟩ values hne hvalues rfl (Or.inl rfl)
    have hread : (pgArray values).foldlM ArrayReader.read ⟨[], [], .start⟩ =
        some ⟨values, [], .closed⟩ := by
      rw [pgArray, List.cons_append, List.foldlM_cons, hopen, Option.bind_eq_bind,
        Option.bind_some, List.foldlM_append, helements]
      rfl
    rw [readArray, hread]
    rfl

/-! ## Literals that are too short -/

/-- How many characters of an element a literal has to escape. -/
def specials (v : Str) : Nat := v.count 34 + v.count 92

/-- What the elements take in a literal, each with its quotes and what follows it. -/
def elementsLength (values : List Str) : Nat := (values.map fun v => v.length + specials v + 3).sum

/-- What the mode adds to the length of what was read. -/
def ArrayMode.offset : ArrayMode → Nat
  | .start => 0
  | .opened => 1
  | .comma => 1
  | .inside => 2
  | .escaped => 3
  | .after => 0
  | .closed => 1

/-- A lower bound on the number of characters read so far. -/
def ArrayReader.least (r : ArrayReader) : Nat :=
  r.mode.offset + elementsLength r.elements + (r.element.length + specials r.element)

theorem specials_snoc (v : Str) (c : Nat) :
    specials v ≤ specials (v ++ [c]) ∧ specials (v ++ [c]) ≤ specials v + 1 ∧
      (c ≠ 34 → c ≠ 92 → specials (v ++ [c]) = specials v) := by
  simp only [specials, List.count_append, List.count_singleton, beq_iff_eq]
  split
  · subst_vars
    simp
    omega
  · split
    · omega
    · exact ⟨by omega, by omega, fun _ _ => rfl⟩

theorem elementsLength_snoc (values : List Str) (v : Str) :
    elementsLength (values ++ [v]) = elementsLength values + (v.length + specials v + 3) := by
  simp [elementsLength]

/-- A character read adds at most one to the bound. -/
theorem least_read {r' : ArrayReader} {c : Nat} (h : r.read c = some r') :
    r'.least ≤ r.least + 1 := by
  obtain ⟨elements, element, mode⟩ := r
  obtain ⟨-, hspecials, hplain⟩ := specials_snoc element c
  have hlength : (element ++ [c]).length = element.length + 1 := List.length_append
  simp only [ArrayReader.read] at h
  cases mode with
  | start =>
    rw [Option.ite_none_right_eq_some] at h
    obtain ⟨-, h⟩ := h
    cases h
    simp only [ArrayReader.least, ArrayMode.offset]
    omega
  | opened =>
    dsimp only at h
    split at h
    · cases h
      simp only [ArrayReader.least, ArrayMode.offset]
      omega
    · rw [Option.ite_none_right_eq_some] at h
      obtain ⟨-, h⟩ := h
      cases h
      simp only [ArrayReader.least, ArrayMode.offset]
      omega
  | comma =>
    rw [Option.ite_none_right_eq_some] at h
    obtain ⟨-, h⟩ := h
    cases h
    simp only [ArrayReader.least, ArrayMode.offset]
    omega
  | inside =>
    dsimp only at h
    split at h
    · cases h
      simp only [ArrayReader.least, ArrayMode.offset]
      omega
    · rename_i hbackslash
      split at h
      · cases h
        simp only [ArrayReader.least, ArrayMode.offset, elementsLength_snoc]
        simp only [specials, List.count_nil, List.length_nil]
        omega
      · rename_i hquote
        cases h
        simp only [ArrayReader.least, ArrayMode.offset, hlength, hplain hquote hbackslash]
        omega
  | escaped =>
    cases h
    simp only [ArrayReader.least, ArrayMode.offset, hlength]
    omega
  | after =>
    dsimp only at h
    split at h
    · cases h
      simp only [ArrayReader.least, ArrayMode.offset]
      omega
    · rw [Option.ite_none_right_eq_some] at h
      obtain ⟨-, h⟩ := h
      cases h
      simp only [ArrayReader.least, ArrayMode.offset]
      omega
  | closed => cases h

theorem least_foldlM {s : Str} {r' : ArrayReader} (h : s.foldlM ArrayReader.read r = some r') :
    r'.least ≤ r.least + s.length := by
  induction s generalizing r with
  | nil =>
    cases h
    exact Nat.le_refl _
  | cons c s ih =>
    rw [List.foldlM_cons] at h
    obtain ⟨r₁, hread, hrest⟩ := Option.bind_eq_some_iff.mp h
    have hstep := least_read hread
    have hle := ih hrest
    rw [List.length_cons]
    omega

theorem length_escapeQuotes (v : Str) : (escapeQuotes v).length = v.length + v.count 34 := by
  induction v with
  | nil => rfl
  | cons c v ih =>
    rw [escapeQuotes] at ih
    rw [escapeQuotes, List.flatMap_cons, List.length_append, ih, List.count_cons, List.length_cons]
    by_cases hc : c = 34
    · simp only [hc, if_true, beq_self_eq_true, List.length_cons, List.length_nil]
      omega
    · simp only [hc, if_false, beq_iff_eq, List.length_cons, List.length_nil]
      omega

theorem length_quoteElements {values : List Str} (hne : values ≠ []) :
    (quoteElements values).length + 1 = (values.map fun v => v.length + v.count 34 + 3).sum := by
  induction values with
  | nil => exact (hne rfl).elim
  | cons v vs ih =>
    have hquote : (quoteElement v).length = v.length + v.count 34 + 2 := by
      simp only [quoteElement, List.cons_append, List.length_cons, List.length_append,
        length_escapeQuotes, List.length_nil]
    cases vs with
    | nil =>
      rw [quoteElements, hquote]
      rfl
    | cons w ws =>
      have htail := ih (List.cons_ne_nil w ws)
      rw [List.map_cons, List.sum_cons, ← htail, quoteElements, List.length_append, hquote,
        List.length_cons]
      · omega
      · exact List.cons_ne_nil w ws

/-- What the literal lacks to be a literal of the list: the backslashes. -/
theorem elementsLength_eq (values : List Str) : elementsLength values =
    (values.map fun v => v.length + v.count 34 + 3).sum + (values.map (List.count 92)).sum := by
  induction values with
  | nil => rfl
  | cons v vs ih =>
    have hcons : elementsLength (v :: vs) = v.length + specials v + 3 + elementsLength vs := rfl
    rw [hcons, ih, List.map_cons, List.sum_cons, List.map_cons, List.sum_cons, specials]
    omega

theorem backslash_free_of_readArray {values : List Str}
    (h : readArray (pgArray values) = some values) : ∀ v ∈ values, 92 ∉ v := by
  intro v hv
  obtain ⟨r, hread, hclosed⟩ := Option.bind_eq_some_iff.mp h
  rw [Option.ite_none_right_eq_some] at hclosed
  obtain ⟨hmode, helements⟩ := hclosed
  have hleast := least_foldlM hread
  have helements : r.elements = values := Option.some.inj helements
  have hlength := length_quoteElements (List.ne_nil_of_mem hv)
  have hzero : (values.map (List.count 92)).sum = 0 := by
    simp only [ArrayReader.least, hmode, helements, ArrayMode.offset, elementsLength_eq, pgArray,
      List.cons_append, List.length_cons, List.length_append] at hleast
    simp only [specials, List.map_nil, List.sum_nil, List.count_nil,
      List.length_nil] at hleast
    omega
  rw [List.sum_eq_zero_iff_forall_eq_nat] at hzero
  exact List.count_eq_zero.mp (hzero _ (List.mem_map_of_mem hv))

/-- A list is read back exactly when no element has a backslash. -/
theorem readArray_pgArray_iff {values : List Str} :
    readArray (pgArray values) = some values ↔ ∀ v ∈ values, 92 ∉ v :=
  ⟨backslash_free_of_readArray, readArray_pgArray⟩

end WebSpider.Vectors
