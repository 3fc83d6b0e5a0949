import WebSpider.Vectors.BulkLoad

/-!
# The arrays that the bulk path loads

Whatever `copy_initial` loads, each record is what Postgres reads from the fields of one
row (`copyInitial_read`). So the heading paths and the tags in the table are those of the
chunks exactly when none of them has a backslash (`arrays_loaded_iff`).
-/

namespace WebSpider.Vectors

open Text Json WebSpider.Lists

variable {F V T R W : Type} {cfg : ImportConfig} {pg : Postgres F V T R W}
  {chunks : Str → Option (Chunk F)}

/-- The record that `COPY` makes of the fields of a row. -/
def ReadFrom (pg : Postgres F V T R W) (x : Str × Chunk F × V) (r : Record T R W) : Prop :=
  readRecord pg ((rowOf pg x).map fun value => copied (csvField pg value)) = some r

theorem mapM_readText_eq {vs ws : List Str} (h : vs.mapM readText = some ws) : ws = vs := by
  induction vs generalizing ws with
  | nil =>
    cases h
    rfl
  | cons v vs ih =>
    rw [List.mapM_cons] at h
    obtain ⟨w, hw, h⟩ := Option.bind_eq_some_iff.mp h
    obtain ⟨ws', hws, h⟩ := Option.bind_eq_some_iff.mp h
    cases h
    rw [readText, Option.ite_none_left_eq_some] at hw
    rw [Option.some.inj hw.2, ih hws]

theorem texts_copied_eq {vs : List Str} {field : Option (List Str)}
    (h : (copied (pgArray vs)).texts = some field) :
    ∃ ws, readArray (pgArray vs) = some ws ∧ field = some ws := by
  rw [copied_of_ne (pgArray_ne_nil vs), Literal.texts] at h
  obtain ⟨ws, hws, rfl⟩ := Option.map_eq_some_iff.mp h
  obtain ⟨us, hus, hread⟩ := Option.bind_eq_some_iff.mp hws
  exact ⟨us, hus, congrArg some (mapM_readText_eq hread)⟩

/-- The columns of arrays are those at the places 5 and 9. -/
theorem readRecord_arrays {r : Record T R W} {chunkId articleId url title headingPath chunkIndex
    nChunks text tags sourceType language publishedAt qualityScore embedding : Literal}
    (h : readRecord pg [chunkId, articleId, url, title, headingPath, chunkIndex, nChunks, text,
      tags, sourceType, language, publishedAt, qualityScore, embedding] = some r) :
    headingPath.texts = some r.headingPath ∧ tags.texts = some r.tags := by
  obtain ⟨_, -, h⟩ := Option.bind_eq_some_iff.mp h
  obtain ⟨_, -, h⟩ := Option.bind_eq_some_iff.mp h
  obtain ⟨_, -, h⟩ := Option.bind_eq_some_iff.mp h
  obtain ⟨_, -, h⟩ := Option.bind_eq_some_iff.mp h
  obtain ⟨path, hpath, h⟩ := Option.bind_eq_some_iff.mp h
  obtain ⟨_, -, h⟩ := Option.bind_eq_some_iff.mp h
  obtain ⟨_, -, h⟩ := Option.bind_eq_some_iff.mp h
  obtain ⟨_, -, h⟩ := Option.bind_eq_some_iff.mp h
  obtain ⟨labels, hlabels, h⟩ := Option.bind_eq_some_iff.mp h
  obtain ⟨_, -, h⟩ := Option.bind_eq_some_iff.mp h
  obtain ⟨_, -, h⟩ := Option.bind_eq_some_iff.mp h
  obtain ⟨_, -, h⟩ := Option.bind_eq_some_iff.mp h
  obtain ⟨_, -, h⟩ := Option.bind_eq_some_iff.mp h
  obtain ⟨_, -, h⟩ := Option.bind_eq_some_iff.mp h
  cases h
  exact ⟨hpath, hlabels⟩

/-- The arrays of a record are what the decoder makes of the literals. -/
theorem ReadFrom.arrays {x : Str × Chunk F × V} {r : Record T R W} (h : ReadFrom pg x r) :
    (∃ path, readArray (pgArray (x.2.1.headingPath.getD [])) = some path ∧
      r.headingPath = some path) ∧
    ∃ tags, readArray (pgArray (x.2.1.tags.getD [])) = some tags ∧ r.tags = some tags := by
  obtain ⟨hpath, htags⟩ := readRecord_arrays h
  exact ⟨texts_copied_eq hpath, texts_copied_eq htags⟩

/-! ## One batch -/

theorem mapM_readRecord_eq {xs : List (Str × Chunk F × V)} {records : List (Record T R W)}
    (h : (xs.map fun x => (rowOf pg x).map fun value => Csv.readBack (csvField pg value)).mapM
      (fun fields => readRecord pg (fields.map fun field => (field.map Literal.text).getD .null)) =
        some records) : List.Forall₂ (ReadFrom pg) xs records := by
  induction xs generalizing records with
  | nil =>
    cases h
    exact .nil
  | cons x xs ih =>
    rw [List.map_cons, List.mapM_cons] at h
    obtain ⟨r, hr, h⟩ := Option.bind_eq_some_iff.mp h
    obtain ⟨rest, hrest, h⟩ := Option.bind_eq_some_iff.mp h
    cases h
    rw [List.map_map] at hr
    exact .cons hr (ih hrest)

/-- `COPY` only appends. -/
theorem foldlM_copyRecord_eq {records table table' : List (Record T R W)}
    (h : records.foldlM copyRecord table = some table') : table' = table ++ records := by
  induction records generalizing table with
  | nil =>
    cases h
    exact (List.append_nil _).symm
  | cons r records ih =>
    rw [List.foldlM_cons] at h
    obtain ⟨u, hu, h⟩ := Option.bind_eq_some_iff.mp h
    rw [copyRecord, Option.ite_none_left_eq_some] at hu
    obtain rfl := Option.some.inj hu.2
    rw [ih h, List.append_assoc, List.singleton_append]

theorem copyRows_read {xs : List (Str × Chunk F × V)} {table table' : List (Record T R W)}
    (h : copyRows pg table (xs.map (rowOf pg)) = some table') :
    ∃ records, table' = table ++ records ∧ List.Forall₂ (ReadFrom pg) xs records := by
  rw [copyRows, readRows_rows, Option.bind_eq_bind, Option.bind_some] at h
  obtain ⟨records, hrecords, hfold⟩ := Option.bind_eq_some_iff.mp h
  exact ⟨records, foldlM_copyRecord_eq hfold, mapM_readRecord_eq hrecords⟩

/-! ## The loop -/

/-- The state of the loop on a table: the rows that were read into it, and those that wait
in the batch. -/
structure Reading (pg : Postgres F V T R W) (table : List (Record T R W))
    (rows waiting : List (Str × Chunk F × V)) (w : Writing F T R W) : Prop where
  table : ∃ records, w.table = table ++ records ∧ List.Forall₂ (ReadFrom pg) rows records
  batch : w.batch = waiting.map (rowOf pg)

/-- Writing the batch reads the rows that wait. -/
theorem Reading.copyRows {table table' : List (Record T R W)}
    {rows waiting : List (Str × Chunk F × V)} {w : Writing F T R W}
    (h : Reading pg table rows waiting w) (hcopy : copyRows pg w.table w.batch = some table') :
    ∃ records, table' = table ++ records ∧
      List.Forall₂ (ReadFrom pg) (rows ++ waiting) records := by
  obtain ⟨records, htable, hrows⟩ := h.table
  rw [h.batch, htable] at hcopy
  obtain ⟨more, rfl, hmore⟩ := copyRows_read hcopy
  exact ⟨records ++ more, List.append_assoc _ _ _, List.rel_append hrows hmore⟩

theorem copyPairs_read (pairs : List (Str × V)) {table : List (Record T R W)}
    {rows waiting : List (Str × Chunk F × V)} {w w' : Writing F T R W}
    (h : Reading pg table rows waiting w)
    (hfold : pairs.foldlM (copyPair cfg pg chunks) w = some w') :
    ∃ rows' waiting', Reading pg table rows' waiting' w' ∧
      rows' ++ waiting' = rows ++ waiting ++ rowsOf chunks pairs := by
  induction pairs generalizing rows waiting w with
  | nil =>
    cases hfold
    exact ⟨rows, waiting, h, (List.append_nil _).symm⟩
  | cons pair pairs ih =>
    rw [List.foldlM_cons] at hfold
    obtain ⟨u, hu, hfold⟩ := Option.bind_eq_some_iff.mp hfold
    cases hc : chunks pair.1 with
    | none =>
      rw [rowsOf_cons_none hc]
      rw [copyPair, rowValues, hc] at hu
      cases hu
      exact ih h hfold
    | some c =>
      rw [rowsOf_cons_some hc]
      rw [copyPair, rowValues_eq hc] at hu
      have hnext : Reading pg table rows (waiting ++ [(pair.1, c, pair.2)])
          ⟨w.table, w.batch ++ [rowOf pg (pair.1, c, pair.2)], w.count + 1⟩ :=
        ⟨h.table, by rw [h.batch, List.map_append]; rfl⟩
      dsimp only at hu
      split at hu
      · obtain ⟨table', hcopy, rfl⟩ := Option.map_eq_some_iff.mp hu
        have hempty : Reading pg table (rows ++ (waiting ++ [(pair.1, c, pair.2)])) []
            ⟨table', [], w.count + 1⟩ := ⟨hnext.copyRows hcopy, rfl⟩
        obtain ⟨rows', waiting', hread, heq⟩ := ih hempty hfold
        exact ⟨rows', waiting', hread, by rw [heq]; simp⟩
      · cases hu
        obtain ⟨rows', waiting', hread, heq⟩ := ih hnext hfold
        exact ⟨rows', waiting', hread, by rw [heq]; simp⟩

/-- When `copy_initial` returns, the table has got one record for each row, in order, as
Postgres reads its fields. -/
theorem copyInitial_read {ids : List Str} {vectors : List V} {table table' : List (Record T R W)}
    {n : Nat} (h : copyInitial cfg pg ids vectors chunks table = some (table', n)) :
    ∃ records, table' = table ++ records ∧
      List.Forall₂ (ReadFrom pg) (importRows ids vectors chunks) records := by
  obtain ⟨w, hfold, h⟩ := Option.bind_eq_some_iff.mp h
  have hstart : Reading pg table [] [] ⟨table, [], 0⟩ := ⟨⟨[], (List.append_nil _).symm, .nil⟩, rfl⟩
  obtain ⟨rows, waiting, hread, heq⟩ := copyPairs_read (ids.zip vectors) hstart hfold
  have heq : rows ++ waiting = importRows ids vectors chunks := heq
  rw [← heq]
  split at h
  · rename_i hbatch
    cases h
    rw [hread.batch, List.map_eq_nil_iff] at hbatch
    rw [hbatch, List.append_nil]
    exact hread.table
  · obtain ⟨table₁, hcopy, h⟩ := Option.map_eq_some_iff.mp h
    cases h
    exact hread.copyRows hcopy

/-! ## The arrays -/

/-- The arrays of the record are those of the chunk. -/
def ArraysKept (x : Str × Chunk F × V) (r : Record T R W) : Prop :=
  r.headingPath = some (x.2.1.headingPath.getD []) ∧ r.tags = some (x.2.1.tags.getD [])

theorem ReadFrom.arraysKept_iff {x : Str × Chunk F × V} {r : Record T R W}
    (h : ReadFrom pg x r) :
    ArraysKept x r ↔ ∀ v ∈ x.2.1.headingPath.getD [] ++ x.2.1.tags.getD [], 92 ∉ v := by
  obtain ⟨⟨path, hpath, hheading⟩, tags, htags, hrtags⟩ := h.arrays
  have hkept (vs ws : List Str) (hread : readArray (pgArray vs) = some ws) :
      some ws = some vs ↔ ∀ v ∈ vs, 92 ∉ v := by
    rw [← readArray_pgArray_iff, hread]
  rw [ArraysKept, hheading, hrtags, hkept _ _ hpath, hkept _ _ htags, List.forall_mem_append]

theorem forall₂_arraysKept_iff {xs : List (Str × Chunk F × V)} {records : List (Record T R W)}
    (h : List.Forall₂ (ReadFrom pg) xs records) :
    List.Forall₂ ArraysKept xs records ↔
      ∀ x ∈ xs, ∀ v ∈ x.2.1.headingPath.getD [] ++ x.2.1.tags.getD [], 92 ∉ v := by
  induction h with
  | nil => exact iff_of_true .nil (List.forall_mem_nil _)
  | cons hx _ ih => rw [List.forall₂_cons, hx.arraysKept_iff, ih, List.forall_mem_cons]

/-- The decoder gives back exactly the lists without backslashes, so the arrays loaded by
`copy_initial` are those of the chunks exactly when these have none. -/
theorem arrays_loaded_iff (values : List Str) :
    (readArray (pgArray values) = some values ↔ ∀ v ∈ values, 92 ∉ v) ∧
    ∀ (cfg : ImportConfig) (pg : Postgres F V T R W) (chunks : Str → Option (Chunk F))
      (ids : List Str) (vectors : List V) (table table' : List (Record T R W)) (n : Nat),
      copyInitial cfg pg ids vectors chunks table = some (table', n) →
      ∃ records, table' = table ++ records ∧
        (List.Forall₂ ArraysKept (importRows ids vectors chunks) records ↔
          ∀ x ∈ importRows ids vectors chunks,
            ∀ v ∈ x.2.1.headingPath.getD [] ++ x.2.1.tags.getD [], 92 ∉ v) := by
  refine ⟨readArray_pgArray_iff, fun cfg pg chunks ids vectors table table' n h => ?_⟩
  obtain ⟨records, htable, hread⟩ := copyInitial_read h
  exact ⟨records, htable, forall₂_arraysKept_iff hread⟩

/-- A chunk with one tag. -/
def taggedChunk (id tag : Str) : Chunk TextFloat where
  chunkId := id
  articleId := some 1
  url := lit "https://dev.to/a/1"
  title := none
  headingPath := none
  chunkIndex := some 0
  nChunks := some 1
  text := lit "Text"
  tags := some [tag]
  sourceType := some (lit "devto")
  language := some (lit "en")
  publishedAt := none
  qualityScore := none

/-- Two chunks, of which the second has that tag. -/
def taggedChunks (tag id : Str) : Option (Chunk TextFloat) :=
  some (taggedChunk id (if id = lit "a_0" then lit "go" else tag))

/-- What is loaded of them. -/
def loadedTags (tag : Str) : Option (List (Record Str Str Str) × Nat) :=
  copyInitial .standard samplePostgres [lit "a_0", lit "b_0"] [lit "[0.25]", lit "[0.5]"]
    (taggedChunks tag) []

def taggedRows (tag : Str) : List (Str × Chunk TextFloat × Str) :=
  importRows [lit "a_0", lit "b_0"] [lit "[0.25]", lit "[0.5]"] (taggedChunks tag)

theorem arrays_loaded_iff_tagged :
    (∃ table n, loadedTags (lit "rust") = some (table, n) ∧
      List.Forall₂ ArraysKept (taggedRows (lit "rust")) table) ∧
    ∃ table n, loadedTags (lit "C:\\tmp") = some (table, n) ∧
      ¬ List.Forall₂ ArraysKept (taggedRows (lit "C:\\tmp")) table := by
  have hloads (tag : Str) (table : List (Record Str Str Str)) (n : Nat)
      (h : loadedTags tag = some (table, n)) : List.Forall₂ ArraysKept (taggedRows tag) table ↔
        ∀ x ∈ taggedRows tag, ∀ v ∈ x.2.1.headingPath.getD [] ++ x.2.1.tags.getD [], 92 ∉ v := by
    obtain ⟨records, rfl, hiff⟩ :=
      (arrays_loaded_iff (F := TextFloat) []).2 _ _ _ _ _ _ _ _ h
    exact hiff
  have hrust : (loadedTags (lit "rust")).isSome := by decide +kernel
  have hpath : (loadedTags (lit "C:\\tmp")).isSome := by decide +kernel
  obtain ⟨⟨table, n⟩, h⟩ := Option.isSome_iff_exists.mp hrust
  obtain ⟨⟨table', n'⟩, h'⟩ := Option.isSome_iff_exists.mp hpath
  refine ⟨⟨table, n, h, (hloads _ _ _ h).mpr (by decide +kernel)⟩, table', n', h', fun hkept => ?_⟩
  exact absurd ((hloads _ _ _ h').mp hkept) (by decide +kernel)

/-- A path of Windows loses its backslash. -/
theorem pgArray_drops_backslash : readArray (pgArray [lit "C:\\tmp"]) = some [lit "C:tmp"] ∧
    ¬ ∀ values : List Str, readArray (pgArray values) = some values := by
  have hread : readArray (pgArray [lit "C:\\tmp"]) = some [lit "C:tmp"] := by decide
  refine ⟨hread, fun hloads => ?_⟩
  rw [hloads [lit "C:\\tmp"]] at hread
  exact absurd hread (by decide)

end WebSpider.Vectors
