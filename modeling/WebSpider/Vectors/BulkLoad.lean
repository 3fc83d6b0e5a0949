import WebSpider.Vectors.Import

/-!
# The bulk path loads what it is given

`copy_initial` on rows whose texts `COPY` reads as they are: no text is empty or
has a zero character, no element of an array has a backslash, the integers fit
their columns. Then the table has one record for each row, with its fields
(`copyInitial_loads`), whatever the number of rows is.
-/

namespace WebSpider.Vectors

open Text WebSpider.Lists

variable {F V T R W : Type}

/-! ## One row -/

theorem readInt_intText {bits : Nat} {n : Int} (hlo : -(2 ^ (bits - 1)) ≤ n)
    (hhi : n < 2 ^ (bits - 1)) : readInt bits (intText n) = some n := by
  have hrange : (some n).filter (fun m => decide (-(2 ^ (bits - 1)) ≤ m ∧ m < 2 ^ (bits - 1))) =
      some n := by
    rw [Option.filter_some, if_pos (decide_eq_true ⟨hlo, hhi⟩)]
  unfold readInt intText
  by_cases hn : n < 0
  · rw [if_pos hn]
    simp only [readDecimal_decimal, Option.map_some]
    rw [show -((n.natAbs : Nat) : Int) = n by omega]
    exact hrange
  · rw [if_neg hn]
    obtain ⟨c, rest, hdecimal⟩ := List.exists_cons_of_ne_nil (decimal_ne_nil n.natAbs)
    have hc : c ≠ 45 := by
      intro h
      have hdigit : isDigit c = true := isDigit_of_mem_decimal (hdecimal ▸ List.mem_cons_self)
      rw [h] at hdigit
      cases hdigit
    have hread : readDecimal (c :: rest) = some n.natAbs := by
      rw [← hdecimal]
      exact readDecimal_decimal _
    rw [hdecimal]
    split
    · rename_i heq
      exact (hc (List.cons.inj heq).1).elim
    · rw [hread, Option.map_some, show Int.ofNat n.natAbs = n from Int.natAbs_of_nonneg (by omega)]
      exact hrange

/-- A text that `COPY` reads as it is. -/
def PlainText (s : Str) : Prop := s ≠ [] ∧ 0 ∉ s

def InRange (bits : Nat) (n : Int) : Prop := -(2 ^ (bits - 1)) ≤ n ∧ n < 2 ^ (bits - 1)

/-- The elements of an array that is read back. -/
def PlainElements (vs : List Str) : Prop := ∀ v ∈ vs, 92 ∉ v ∧ 0 ∉ v

/-- A row that `COPY` reads as it is. -/
structure Plain (pg : Postgres F V T R W) (x : Str × Chunk F × V) : Prop where
  chunkId : PlainText x.1
  articleId : ∀ n, x.2.1.articleId = some n → InRange 64 n
  url : PlainText x.2.1.url
  title : ∀ s, x.2.1.title = some s → PlainText s
  headingPath : PlainElements (x.2.1.headingPath.getD [])
  chunkIndex : ∀ n, x.2.1.chunkIndex = some n → InRange 32 n
  nChunks : ∀ n, x.2.1.nChunks = some n → InRange 32 n
  text : PlainText x.2.1.text
  tags : PlainElements (x.2.1.tags.getD [])
  sourceType : ∀ s, x.2.1.sourceType = some s → PlainText s
  language : ∀ s, x.2.1.language = some s → PlainText s
  publishedAt : ∀ s, x.2.1.publishedAt = some s → s ≠ [] ∧ (pg.readTimestamp s).isSome = true
  qualityScore : ∀ y, x.2.1.qualityScore = some y →
    pg.floatText y ≠ [] ∧ (pg.readReal (pg.floatText y)).isSome = true
  embedding : pg.vectorLiteral x.2.2 ≠ [] ∧ (pg.readVector (pg.vectorLiteral x.2.2)).isSome = true

theorem csvField_str (pg : Postgres F V T R W) (s : Str) : csvField pg (.str s) = s := rfl

theorem csvField_list (pg : Postgres F V T R W) (vs : List Str) :
    csvField pg (.list vs) = pgArray vs := rfl

/-- What `COPY` makes of a written field. -/
def copied (field : Str) : Literal := ((Csv.readBack field).map Literal.text).getD .null

theorem copied_of_ne {field : Str} (h : field ≠ []) : copied field = .text field := by
  rw [copied, Csv.readBack, if_neg h]
  rfl

theorem readText_of_plain {s : Str} (h : PlainText s) : readText s = some s := if_neg h.2

theorem required_copied {s : Str} (h : PlainText s) :
    (copied s).required readText = some s := by
  rw [copied_of_ne h.1, Literal.required, Literal.column, readText_of_plain h]
  rfl

/-- A nullable field whose values `csvField` writes by `f` and the column reads by `input`. -/
theorem column_copied {α β : Type} (pg : Postgres F V T R W) (input : Str → Option β)
    (value : α → PyValue F) {field : Option α}
    (h : ∀ a, field = some a → csvField pg (value a) ≠ [] ∧
      (input (csvField pg (value a))).isSome = true) :
    ∃ b, (copied (csvField pg ((field.map value).getD .none))).column input = some b ∧
      b.map some = field.map fun a => input (csvField pg (value a)) := by
  cases field with
  | none => exact ⟨none, rfl, rfl⟩
  | some a =>
    obtain ⟨hne, hsome⟩ := h a rfl
    obtain ⟨b, hb⟩ := Option.isSome_iff_exists.mp hsome
    refine ⟨some b, ?_, ?_⟩
    · rw [Option.map_some, Option.getD_some, copied_of_ne hne, Literal.column, hb]
      rfl
    · rw [Option.map_some, Option.map_some, hb]

/-- The same, for a column that reads back the value itself. -/
theorem column_copied_eq {α : Type} (pg : Postgres F V T R W) {input : Str → Option α}
    {value : α → PyValue F} {field : Option α}
    (h : ∀ a, field = some a → csvField pg (value a) ≠ [] ∧
      input (csvField pg (value a)) = some a) :
    (copied (csvField pg ((field.map value).getD .none))).column input = some field := by
  obtain ⟨b, hb, heq⟩ := column_copied pg input value fun a ha =>
    ⟨(h a ha).1, by rw [(h a ha).2]; rfl⟩
  rw [hb]
  cases field with
  | none =>
    rw [Option.map_none, Option.map_eq_none_iff] at heq
    rw [heq]
  | some a =>
    rw [Option.map_some, (h a rfl).2] at heq
    obtain ⟨a', rfl, ha'⟩ := Option.map_eq_some_iff.mp heq
    rw [Option.some.inj ha']

theorem mapM_readText {vs : List Str} (h : PlainElements vs) : vs.mapM readText = some vs := by
  induction vs with
  | nil => rfl
  | cons v vs ih =>
    have hv : readText v = some v := if_neg (h v List.mem_cons_self).2
    rw [List.mapM_cons, hv, ih fun w hw => h w (List.mem_cons_of_mem _ hw)]
    rfl

theorem texts_copied {vs : List Str} (h : PlainElements vs) :
    (copied (pgArray vs)).texts = some (some vs) := by
  have hread : readArray (pgArray vs) = some vs := readArray_pgArray fun v hv => (h v hv).1
  rw [copied_of_ne (pgArray_ne_nil vs), Literal.texts, hread, Option.bind_some, mapM_readText h]
  rfl

theorem intText_ne_nil (n : Int) : intText n ≠ [] := by
  unfold intText
  split
  · exact List.cons_ne_nil _ _
  · exact decimal_ne_nil _

/-- The parameter tuple of a row. -/
def rowOf (pg : Postgres F V T R W) (x : Str × Chunk F × V) : List (PyValue F) :=
  (rowValues pg x.1 x.2.2 fun _ => some x.2.1).getD []

theorem rowValues_eq {pg : Postgres F V T R W} {chunks : Str → Option (Chunk F)} {id : Str} {v : V}
    {c : Chunk F} (h : chunks id = some c) : rowValues pg id v chunks = some (rowOf pg (id, c, v)) := by
  rw [rowValues, h]
  rfl

/-- A plain row is read as a record that carries it. -/
theorem readRecord_plain {pg : Postgres F V T R W} {x : Str × Chunk F × V} (hx : Plain pg x) :
    ∃ r, readRecord pg ((rowOf pg x).map fun value => copied (csvField pg value)) = some r ∧
      Carries pg x r := by
  obtain ⟨id, c, v⟩ := x
  have hint : ∀ bits (field : Option Int), (∀ n, field = some n → InRange bits n) →
      (copied (csvField pg ((field.map .int).getD .none))).column (readInt bits) = some field :=
    fun bits field h => column_copied_eq pg fun n hn =>
      ⟨intText_ne_nil n, readInt_intText (h n hn).1 (h n hn).2⟩
  have htext : ∀ field : Option Str, (∀ s, field = some s → PlainText s) →
      (copied (csvField pg ((field.map .str).getD .none))).column readText = some field :=
    fun field h => column_copied_eq pg fun s hs => ⟨(h s hs).1, readText_of_plain (h s hs)⟩
  obtain ⟨published, hpublished, hpublishedEq⟩ :=
    column_copied pg pg.readTimestamp PyValue.str hx.publishedAt
  obtain ⟨score, hscore, hscoreEq⟩ :=
    column_copied pg pg.readReal PyValue.float hx.qualityScore
  obtain ⟨embedding, hembedding⟩ := Option.isSome_iff_exists.mp hx.embedding.2
  have hvector : (copied (pg.vectorLiteral v)).column pg.readVector = some (some embedding) := by
    rw [copied_of_ne hx.embedding.1, Literal.column, hembedding]
    rfl
  refine ⟨⟨id, c.articleId, c.url, c.title, some (c.headingPath.getD []), c.chunkIndex, c.nChunks,
    c.text, some (c.tags.getD []), c.sourceType, c.language, published, score, some embedding⟩,
    ?_, ⟨rfl, rfl, rfl, rfl, rfl, rfl, rfl, rfl, rfl, rfl, rfl, hpublishedEq, hscoreEq, ?_⟩⟩
  · simp only [rowOf, rowValues, Option.map_some, Option.getD_some, List.map_cons, List.map_nil,
      readRecord, csvField_str, csvField_list, hint 64 _ hx.articleId, hint 32 _ hx.chunkIndex, hint 32 _ hx.nChunks,
      htext _ hx.title, htext _ hx.sourceType, htext _ hx.language, required_copied hx.chunkId,
      required_copied hx.url, required_copied hx.text, texts_copied hx.headingPath,
      texts_copied hx.tags, hpublished, hscore, hvector, Option.bind_eq_bind, Option.bind_some]
  · exact congrArg some hembedding.symm

/-! ## One batch -/

variable {cfg : ImportConfig} {pg : Postgres F V T R W} {chunks : Str → Option (Chunk F)}

theorem keys_of_carries {xs : List (Str × Chunk F × V)} {records : List (Record T R W)}
    (h : List.Forall₂ (Carries pg) xs records) :
    records.map Record.chunkId = xs.map Prod.fst := by
  induction h with
  | nil => rfl
  | cons hx _ ih => rw [List.map_cons, List.map_cons, hx.chunkId, ih]

theorem mapM_readRecord {xs : List (Str × Chunk F × V)} (hxs : ∀ x ∈ xs, Plain pg x) :
    ∃ records, (xs.map fun x => (rowOf pg x).map fun value => Csv.readBack (csvField pg value)).mapM
        (fun fields => readRecord pg (fields.map fun field => (field.map Literal.text).getD .null)) =
          some records ∧ List.Forall₂ (Carries pg) xs records := by
  induction xs with
  | nil => exact ⟨[], rfl, .nil⟩
  | cons x xs ih =>
    obtain ⟨r, hread, hcarries⟩ := readRecord_plain (hxs x List.mem_cons_self)
    obtain ⟨records, hrecords, hall⟩ := ih fun y hy => hxs y (List.mem_cons_of_mem _ hy)
    refine ⟨r :: records, ?_, .cons hcarries hall⟩
    have hhead : readRecord pg (((rowOf pg x).map fun value =>
        Csv.readBack (csvField pg value)).map fun field => (field.map Literal.text).getD .null) =
          some r := by
      rw [List.map_map]
      exact hread
    rw [List.map_cons, List.mapM_cons, hhead, hrecords]
    rfl

/-- Records with new keys are appended. -/
theorem foldlM_copyRecord (records table : List (Record T R W))
    (hkeys : (table.map Record.chunkId ++ records.map Record.chunkId).Nodup) :
    records.foldlM copyRecord table = some (table ++ records) := by
  induction records generalizing table with
  | nil => rw [List.append_nil]; rfl
  | cons r records ih =>
    have hnew : r.chunkId ∉ table.map Record.chunkId := by
      intro hmem
      exact (List.nodup_append.mp hkeys).2.2 _ hmem _ List.mem_cons_self rfl
    rw [List.foldlM_cons, copyRecord, if_neg hnew, Option.bind_eq_bind, Option.bind_some, ih]
    · rw [List.append_assoc, List.singleton_append]
    · rw [List.map_append, List.append_assoc]
      exact hkeys

/-- `COPY` splits the buffer into the fields that were written. -/
theorem readRows_rows (pg : Postgres F V T R W) (xs : List (Str × Chunk F × V)) :
    Csv.readRows (Csv.writeRows ((xs.map (rowOf pg)).map fun row => row.map (csvField pg))) =
      some (xs.map fun x => (rowOf pg x).map fun value => Csv.readBack (csvField pg value)) := by
  rw [Csv.readRows_writeRows]
  · simp only [List.map_map, Function.comp_def]
  · intro row hrow
    rw [List.map_map] at hrow
    obtain ⟨x, -, rfl⟩ := List.mem_map.mp hrow
    simp [rowOf, rowValues]

theorem copyRows_plain {xs : List (Str × Chunk F × V)} {table : List (Record T R W)}
    (hxs : ∀ x ∈ xs, Plain pg x)
    (hkeys : (table.map Record.chunkId ++ xs.map Prod.fst).Nodup) :
    ∃ records, copyRows pg table (xs.map (rowOf pg)) = some (table ++ records) ∧
      List.Forall₂ (Carries pg) xs records := by
  obtain ⟨records, hrecords, hall⟩ := mapM_readRecord hxs
  refine ⟨records, ?_, hall⟩
  rw [copyRows, readRows_rows, Option.bind_eq_bind, Option.bind_some, hrecords, Option.bind_eq_bind,
    Option.bind_some]
  apply foldlM_copyRecord records table
  rw [keys_of_carries hall]
  exact hkeys

/-! ## The loop -/

/-- The rows that some pairs stand for. -/
def rowsOf (chunks : Str → Option (Chunk F)) (pairs : List (Str × V)) :
    List (Str × Chunk F × V) :=
  pairs.filterMap fun pair => (chunks pair.1).map fun c => (pair.1, c, pair.2)

theorem rowsOf_cons_none {pair : Str × V} (h : chunks pair.1 = none) (pairs : List (Str × V)) :
    rowsOf chunks (pair :: pairs) = rowsOf chunks pairs := by
  rw [rowsOf, List.filterMap_cons, h]
  rfl

theorem rowsOf_cons_some {pair : Str × V} {c : Chunk F} (h : chunks pair.1 = some c)
    (pairs : List (Str × V)) :
    rowsOf chunks (pair :: pairs) = (pair.1, c, pair.2) :: rowsOf chunks pairs := by
  rw [rowsOf, List.filterMap_cons, h]
  rfl

/-- The state of the loop: the rows in the table, and those that wait in the batch. -/
structure Loading (pg : Postgres F V T R W) (loaded waiting : List (Str × Chunk F × V))
    (w : Writing F T R W) : Prop where
  table : List.Forall₂ (Carries pg) loaded w.table
  batch : w.batch = waiting.map (rowOf pg)
  count : w.count = (loaded ++ waiting).length

/-- Writing the batch loads the rows that wait. -/
theorem Loading.copyRows {loaded waiting : List (Str × Chunk F × V)} {w : Writing F T R W}
    (h : Loading pg loaded waiting w) (hplain : ∀ x ∈ waiting, Plain pg x)
    (hkeys : ((loaded ++ waiting).map Prod.fst).Nodup) :
    ∃ table, copyRows pg w.table w.batch = some table ∧
      List.Forall₂ (Carries pg) (loaded ++ waiting) table := by
  obtain ⟨records, hcopy, hall⟩ := @copyRows_plain _ _ _ _ _ pg waiting w.table hplain (by
    rw [keys_of_carries h.table, ← List.map_append]
    exact hkeys)
  exact ⟨_, by rw [h.batch]; exact hcopy, List.rel_append h.table hall⟩

theorem copyPairs_plain (pairs : List (Str × V)) {loaded waiting : List (Str × Chunk F × V)}
    {w : Writing F T R W} (h : Loading pg loaded waiting w)
    (hplain : ∀ x ∈ waiting ++ rowsOf chunks pairs, Plain pg x)
    (hkeys : ((loaded ++ waiting ++ rowsOf chunks pairs).map Prod.fst).Nodup) :
    ∃ w' loaded' waiting', pairs.foldlM (copyPair cfg pg chunks) w = some w' ∧
      Loading pg loaded' waiting' w' ∧ (∀ x ∈ waiting', Plain pg x) ∧
      loaded' ++ waiting' = loaded ++ waiting ++ rowsOf chunks pairs := by
  induction pairs generalizing loaded waiting w with
  | nil =>
    refine ⟨w, loaded, waiting, rfl, h, fun x hx => hplain x (List.mem_append_left _ hx), ?_⟩
    exact (List.append_nil _).symm
  | cons pair pairs ih =>
    rw [List.foldlM_cons]
    cases hc : chunks pair.1 with
    | none =>
      have hskip : copyPair cfg pg chunks w pair = some w := by
        rw [copyPair, rowValues, hc]
        rfl
      rw [rowsOf_cons_none hc] at hplain hkeys ⊢
      rw [hskip, Option.bind_eq_bind, Option.bind_some]
      exact ih h hplain hkeys
    | some c =>
      rw [rowsOf_cons_some hc] at hplain hkeys ⊢
      have hshift : loaded ++ waiting ++ (pair.1, c, pair.2) :: rowsOf chunks pairs =
          loaded ++ (waiting ++ [(pair.1, c, pair.2)]) ++ rowsOf chunks pairs := by simp
      have hnext : Loading pg loaded (waiting ++ [(pair.1, c, pair.2)])
          ⟨w.table, w.batch ++ [rowOf pg (pair.1, c, pair.2)], w.count + 1⟩ :=
        ⟨h.table, by rw [h.batch, List.map_append]; rfl, by rw [h.count]; simp; omega⟩
      have hplain' : ∀ x ∈ waiting ++ [(pair.1, c, pair.2)], Plain pg x := by
        intro x hx
        apply hplain x
        rcases List.mem_append.mp hx with hx | hx
        · exact List.mem_append_left _ hx
        · exact List.mem_append_right _ (List.mem_singleton.mp hx ▸ List.mem_cons_self)
      rw [hshift] at hkeys ⊢
      simp only [copyPair, rowValues_eq hc]
      split
      · have hkeys' : ((loaded ++ (waiting ++ [(pair.1, c, pair.2)])).map Prod.fst).Nodup := by
          rw [List.map_append] at hkeys
          exact (List.nodup_append.mp hkeys).1
        obtain ⟨table, hcopy, hall⟩ := hnext.copyRows hplain' hkeys'
        rw [hcopy, Option.map_some, Option.bind_eq_bind, Option.bind_some]
        obtain ⟨w', loaded', waiting', hfold, hload, hpl, heq⟩ := @ih _ []
          ⟨table, [], w.count + 1⟩ ⟨hall, rfl, by rw [hnext.count, List.append_nil]⟩
          (fun x hx => hplain x (List.mem_append_right _ (List.mem_cons_of_mem _ hx)))
          (by rw [List.append_nil]; exact hkeys)
        exact ⟨w', loaded', waiting', hfold, hload, hpl, by rw [heq, List.append_nil]⟩
      · rw [Option.bind_eq_bind, Option.bind_some]
        refine ih hnext (fun x hx => ?_) hkeys
        rcases List.mem_append.mp hx with hx | hx
        · exact hplain' x hx
        · exact hplain x (List.mem_append_right _ (List.mem_cons_of_mem _ hx))

/-- On an empty table the bulk path loads plain rows with distinct ids: one record
for each, and their number is returned. -/
theorem copyInitial_loads (cfg : ImportConfig) {ids : List Str} {vectors : List V}
    (hplain : ∀ x ∈ importRows ids vectors chunks, Plain pg x)
    (hkeys : ((importRows ids vectors chunks).map Prod.fst).Nodup) :
    ∃ table, copyInitial cfg pg ids vectors chunks [] =
        some (table, (importRows ids vectors chunks).length) ∧
      List.Forall₂ (Carries pg) (importRows ids vectors chunks) table := by
  obtain ⟨w, loaded, waiting, hfold, hload, hwaiting, heq⟩ := @copyPairs_plain _ _ _ _ _ cfg pg
    chunks (ids.zip vectors) [] [] ⟨[], [], 0⟩ ⟨.nil, rfl, rfl⟩ hplain hkeys
  have heq : loaded ++ waiting = importRows ids vectors chunks := heq
  rw [← heq] at hkeys ⊢
  rw [copyInitial, hfold, Option.bind_eq_bind, Option.bind_some]
  by_cases hbatch : w.batch = []
  · have hnone : waiting = [] := by
      rw [hload.batch] at hbatch
      exact List.map_eq_nil_iff.mp hbatch
    rw [if_pos hbatch, hload.count, hnone, List.append_nil]
    exact ⟨w.table, rfl, hload.table⟩
  · obtain ⟨table, hcopy, hall⟩ := hload.copyRows hwaiting hkeys
    rw [if_neg hbatch, hcopy, Option.map_some, hload.count]
    exact ⟨table, rfl, hall⟩

end WebSpider.Vectors
