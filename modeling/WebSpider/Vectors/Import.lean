import WebSpider.Vectors.ArrayLiteral
import WebSpider.Vectors.Join
import WebSpider.Text.Csv

/-!
# The import

`import_pgvector.py`: the two ways into `article_chunks`. `copy_initial` writes the
rows as CSV with array literals and lets `COPY` read them. `upsert_incremental`
passes the rows as parameters; it adds the vector to rows that have it already,
so a row has one value more than the template has placeholders, and
`execute_values` raises (`imports_agree_iff`).
-/

namespace WebSpider.Vectors

open Text Json WebSpider.Lists

variable {F V T R W : Type}

/-! ## Python values and columns -/

/-- A value of a parameter tuple. -/
inductive PyValue (F : Type) where
  | none
  | int (n : Int)
  | str (s : Str)
  | float (x : F)
  | list (vs : List Str)
  deriving DecidableEq

/-- The formatting of floats and vectors, and the input functions of the column
types `timestamptz`, `real` and `vector`. -/
structure Postgres (F V T R W : Type) where
  /-- `repr(x)` -/
  floatText : F → Str
  /-- `_vector_literal` -/
  vectorLiteral : V → Str
  readTimestamp : Str → Option T
  readReal : Str → Option R
  readVector : Str → Option W

/-- `str(n)` -/
def intText (n : Int) : Str := if n < 0 then 45 :: decimal n.natAbs else decimal n.natAbs

/-- A row of `article_chunks`. -/
structure Record (T R W : Type) where
  chunkId : Str
  articleId : Option Int
  url : Str
  title : Option Str
  headingPath : Option (List Str)
  chunkIndex : Option Int
  nChunks : Option Int
  text : Str
  tags : Option (List Str)
  sourceType : Option Str
  language : Option Str
  publishedAt : Option T
  qualityScore : Option R
  embedding : Option W
  deriving DecidableEq

/-- `_row_values`: nothing for an id that is not in the chunk map. -/
def rowValues (pg : Postgres F V T R W) (chunkId : Str) (vec : V)
    (chunks : Str → Option (Chunk F)) : Option (List (PyValue F)) :=
  (chunks chunkId).map fun c =>
    [.str chunkId, (c.articleId.map .int).getD .none, .str c.url, (c.title.map .str).getD .none,
      .list (c.headingPath.getD []), (c.chunkIndex.map .int).getD .none,
      (c.nChunks.map .int).getD .none, .str c.text, .list (c.tags.getD []),
      (c.sourceType.map .str).getD .none, (c.language.map .str).getD .none,
      (c.publishedAt.map .str).getD .none, (c.qualityScore.map .float).getD .none,
      .str (pg.vectorLiteral vec)]

/-- What reaches an input function: nothing, a text, or an array of texts. -/
inductive Literal where
  | null
  | text (s : Str)
  | array (vs : List Str)

/-- Postgres has no texts with a zero character. -/
def readText (s : Str) : Option Str := if 0 ∈ s then none else some s

/-- A decimal integer within the bounds of a type of this many bits. -/
def readInt (bits : Nat) (s : Str) : Option Int :=
  let value := match s with
    | 45 :: digits => (readDecimal digits).map fun n : Nat => -(n : Int)
    | digits => (readDecimal digits).map Int.ofNat
  value.filter fun n => decide (-(2 ^ (bits - 1)) ≤ n ∧ n < 2 ^ (bits - 1))

namespace Literal

/-- A nullable column whose type has this input function. -/
def column {α : Type} (input : Str → Option α) : Literal → Option (Option α)
  | .null => some none
  | .text s => (input s).map some
  | .array _ => none

def required {α : Type} (input : Str → Option α) (l : Literal) : Option α :=
  (l.column input).join

/-- A column of type `text[]`. -/
def texts : Literal → Option (Option (List Str))
  | .null => some none
  | .text s => ((readArray s).bind (·.mapM readText)).map some
  | .array vs => (vs.mapM readText).map some

end Literal

/-- The row made of the literals of the fourteen columns. -/
def readRecord (pg : Postgres F V T R W) : List Literal → Option (Record T R W)
  | [chunkId, articleId, url, title, headingPath, chunkIndex, nChunks, text, tags, sourceType,
      language, publishedAt, qualityScore, embedding] => do
    let chunkId ← chunkId.required readText
    let articleId ← articleId.column (readInt 64)
    let url ← url.required readText
    let title ← title.column readText
    let headingPath ← headingPath.texts
    let chunkIndex ← chunkIndex.column (readInt 32)
    let nChunks ← nChunks.column (readInt 32)
    let text ← text.required readText
    let tags ← tags.texts
    let sourceType ← sourceType.column readText
    let language ← language.column readText
    let publishedAt ← publishedAt.column pg.readTimestamp
    let qualityScore ← qualityScore.column pg.readReal
    let embedding ← embedding.column pg.readVector
    some ⟨chunkId, articleId, url, title, headingPath, chunkIndex, nChunks, text, tags,
      sourceType, language, publishedAt, qualityScore, embedding⟩
  | _ => none

/-! ## The bulk path -/

/-- `COMMIT_ROWS`, `BATCH_ROWS`, and the `page_size` of `execute_values`. -/
structure ImportConfig where
  commitRows : Nat
  batchRows : Nat
  pageSize : Nat
  commitRows_pos : 0 < commitRows
  batchRows_pos : 0 < batchRows
  pageSize_pos : 0 < pageSize

/-- The field that `csv.writer` writes for a value; `copy_initial` has replaced the
lists by array literals. -/
def csvField (pg : Postgres F V T R W) : PyValue F → Str
  | .none => []
  | .int n => intText n
  | .str s => s
  | .float x => pg.floatText x
  | .list vs => pgArray vs

/-- `COPY` into the table, which fails on a primary key that is there already. -/
def copyRecord (table : List (Record T R W)) (r : Record T R W) : Option (List (Record T R W)) :=
  if r.chunkId ∈ table.map Record.chunkId then none else some (table ++ [r])

/-- `_copy_rows` -/
def copyRows (pg : Postgres F V T R W) (table : List (Record T R W))
    (batch : List (List (PyValue F))) : Option (List (Record T R W)) := do
  let lines ← Csv.readRows (Csv.writeRows (batch.map fun row => row.map (csvField pg)))
  let records ← lines.mapM fun fields =>
    readRecord pg (fields.map fun field => (field.map Literal.text).getD .null)
  records.foldlM copyRecord table

/-- The table, the rows waiting to be written and the number returned in the end. -/
structure Writing (F T R W : Type) where
  table : List (Record T R W)
  batch : List (List (PyValue F))
  count : Nat

def copyPair (cfg : ImportConfig) (pg : Postgres F V T R W) (chunks : Str → Option (Chunk F))
    (w : Writing F T R W) (pair : Str × V) : Option (Writing F T R W) :=
  match rowValues pg pair.1 pair.2 chunks with
  | none => some w
  | some row =>
    let batch := w.batch ++ [row]
    if cfg.commitRows ≤ batch.length then
      (copyRows pg w.table batch).map fun table => ⟨table, [], w.count + 1⟩
    else some ⟨w.table, batch, w.count + 1⟩

/-- `copy_initial`: the table and the number of rows, unless it raises. -/
def copyInitial (cfg : ImportConfig) (pg : Postgres F V T R W) (ids : List Str) (vectors : List V)
    (chunks : Str → Option (Chunk F)) (table : List (Record T R W)) :
    Option (List (Record T R W) × Nat) := do
  let w ← (ids.zip vectors).foldlM (copyPair cfg pg chunks) ⟨table, [], 0⟩
  if w.batch = [] then some (w.table, w.count)
  else (copyRows pg w.table w.batch).map fun table => (table, w.count)

/-! ## The incremental path -/

/-- The number of placeholders in the template of `upsert_incremental`. -/
def placeholders : Nat := 14

/-- The literal of a parameter. -/
def adapt (pg : Postgres F V T R W) : PyValue F → Literal
  | .none => .null
  | .int n => .text (intText n)
  | .str s => .text s
  | .float x => .text (pg.floatText x)
  | .list vs => .array vs

/-- `INSERT ... ON CONFLICT (chunk_id) DO UPDATE` of one row. -/
def upsertRecord (table : List (Record T R W)) (r : Record T R W) : List (Record T R W) :=
  if r.chunkId ∈ table.map Record.chunkId then
    table.map fun old => if old.chunkId = r.chunkId then
      { old with text := r.text, headingPath := r.headingPath, embedding := r.embedding }
    else old
  else table ++ [r]

/-- One statement of `execute_values`. It raises when a row has not as many values
as there are placeholders, and when one key comes twice. -/
def upsertPage (pg : Postgres F V T R W) (table : List (Record T R W))
    (page : List (List (PyValue F))) : Option (List (Record T R W)) :=
  if ∀ row ∈ page, row.length = placeholders then
    (page.mapM fun row => readRecord pg (row.map (adapt pg))).bind fun records =>
      if (records.map Record.chunkId).Nodup then some (records.foldl upsertRecord table) else none
  else none

/-- `execute_values` -/
def executeValues (cfg : ImportConfig) (pg : Postgres F V T R W) (table : List (Record T R W))
    (rows : List (List (PyValue F))) : Option (List (Record T R W)) :=
  (pages cfg.pageSize rows).foldlM (upsertPage pg) table

def upsertPair (cfg : ImportConfig) (pg : Postgres F V T R W) (chunks : Str → Option (Chunk F))
    (w : Writing F T R W) (pair : Str × V) : Option (Writing F T R W) :=
  match rowValues pg pair.1 pair.2 chunks with
  | none => some w
  | some row =>
    let pending := w.batch ++ [row ++ [.str (pg.vectorLiteral pair.2)]]
    if cfg.batchRows ≤ pending.length then
      (executeValues cfg pg w.table pending).map fun table =>
        ⟨table, [], w.count + pending.length⟩
    else some ⟨w.table, pending, w.count⟩

/-- `upsert_incremental` -/
def upsertIncremental (cfg : ImportConfig) (pg : Postgres F V T R W) (ids : List Str)
    (vectors : List V) (chunks : Str → Option (Chunk F)) (table : List (Record T R W)) :
    Option (List (Record T R W) × Nat) := do
  let w ← (ids.zip vectors).foldlM (upsertPair cfg pg chunks) ⟨table, [], 0⟩
  if w.batch = [] then some (w.table, w.count)
  else (executeValues cfg pg w.table w.batch).map fun table => (table, w.count + w.batch.length)

/-! ## The two paths compared -/

/-- The ids of the list that are in the chunk map, each with its chunk and vector. -/
def importRows (ids : List Str) (vectors : List V) (chunks : Str → Option (Chunk F)) :
    List (Str × Chunk F × V) :=
  (ids.zip vectors).filterMap fun pair => (chunks pair.1).map fun c => (pair.1, c, pair.2)

/-- The record carries the fields of the chunk and the vector. -/
structure Carries (pg : Postgres F V T R W) (x : Str × Chunk F × V) (r : Record T R W) : Prop where
  chunkId : r.chunkId = x.1
  articleId : r.articleId = x.2.1.articleId
  url : r.url = x.2.1.url
  title : r.title = x.2.1.title
  headingPath : r.headingPath = some (x.2.1.headingPath.getD [])
  chunkIndex : r.chunkIndex = x.2.1.chunkIndex
  nChunks : r.nChunks = x.2.1.nChunks
  text : r.text = x.2.1.text
  tags : r.tags = some (x.2.1.tags.getD [])
  sourceType : r.sourceType = x.2.1.sourceType
  language : r.language = x.2.1.language
  publishedAt : r.publishedAt.map some = x.2.1.publishedAt.map pg.readTimestamp
  qualityScore : r.qualityScore.map some =
    x.2.1.qualityScore.map fun y => pg.readReal (pg.floatText y)
  embedding : r.embedding.map some = some (pg.readVector (pg.vectorLiteral x.2.2))

/-- Both paths complete on an empty table, return the number of rows to import, and
leave the same records, one for each of these rows. -/
def ImportsAgree (cfg : ImportConfig) (pg : Postgres F V T R W) (chunks : Str → Option (Chunk F))
    (ids : List Str) (vectors : List V) : Prop :=
  ∃ table table', copyInitial cfg pg ids vectors chunks [] =
      some (table, (importRows ids vectors chunks).length) ∧
    upsertIncremental cfg pg ids vectors chunks [] =
      some (table', (importRows ids vectors chunks).length) ∧
    table.Perm table' ∧ List.Forall₂ (Carries pg) (importRows ids vectors chunks) table

variable {cfg : ImportConfig} {pg : Postgres F V T R W} {chunks : Str → Option (Chunk F)}

theorem length_rowValues {id : Str} {v : V} {row : List (PyValue F)}
    (h : rowValues pg id v chunks = some row) : row.length = placeholders := by
  obtain ⟨c, -, rfl⟩ := Option.map_eq_some_iff.mp h
  rfl

/-- The rows of the incremental path have one value too many. -/
def TooLong (row : List (PyValue F)) : Prop := row.length = placeholders + 1

theorem upsertPage_tooLong {table : List (Record T R W)} {page : List (List (PyValue F))}
    {row : List (PyValue F)} (hrow : row ∈ page) (hlong : TooLong row) :
    upsertPage pg table page = none := by
  apply if_neg
  intro h
  have hlength := h row hrow
  rw [hlong] at hlength
  exact absurd hlength (by decide)

theorem foldlM_upsertPage_none {ps : List (List (List (PyValue F)))} {page : List (List (PyValue F))}
    (hpage : page ∈ ps) {row : List (PyValue F)} (hrow : row ∈ page) (hlong : TooLong row)
    (table : List (Record T R W)) : ps.foldlM (upsertPage pg) table = none := by
  induction ps generalizing table with
  | nil => cases hpage
  | cons q qs ih =>
    rw [List.foldlM_cons]
    rcases List.mem_cons.mp hpage with rfl | hpage
    · rw [upsertPage_tooLong hrow hlong]
      rfl
    · cases upsertPage pg table q with
      | none => rfl
      | some table' => exact ih hpage table'

/-- `execute_values` raises on any rows of the incremental path. -/
theorem executeValues_tooLong {rows : List (List (PyValue F))} (hne : rows ≠ [])
    (hlong : ∀ row ∈ rows, TooLong row) (table : List (Record T R W)) :
    executeValues cfg pg table rows = none := by
  obtain ⟨row, hrow⟩ := List.exists_mem_of_ne_nil rows hne
  have hmem := hrow
  rw [← flatten_pages cfg.pageSize_pos rows] at hmem
  obtain ⟨page, hpage, hmem⟩ := List.mem_flatten.mp hmem
  exact foldlM_upsertPage_none hpage hmem (hlong row hrow) table

/-- The state of the incremental path while nothing was written: its rows are too
long, and there is one as soon as an id was in the map. -/
theorem upsertPairs_tooLong (pairs : List (Str × V)) {w w' : Writing F T R W}
    (hlong : ∀ row ∈ w.batch, TooLong row)
    (hfold : pairs.foldlM (upsertPair cfg pg chunks) w = some w') :
    (∀ row ∈ w'.batch, TooLong row) ∧
      ((w.batch ≠ [] ∨ ∃ x ∈ pairs, chunks x.1 ≠ none) → w'.batch ≠ []) := by
  induction pairs generalizing w with
  | nil =>
    cases hfold
    refine ⟨hlong, fun h => ?_⟩
    rcases h with h | ⟨x, hx, -⟩
    · exact h
    · cases hx
  | cons pair pairs ih =>
    rw [List.foldlM_cons] at hfold
    obtain ⟨u, hu, hfold⟩ := Option.bind_eq_some_iff.mp hfold
    unfold upsertPair at hu
    split at hu
    · rename_i hrow
      obtain rfl := Option.some.inj hu
      obtain ⟨hlong', hne⟩ := ih hlong hfold
      have hnone : chunks pair.1 = none := Option.map_eq_none_iff.mp hrow
      refine ⟨hlong', fun h => hne ?_⟩
      rcases h with h | ⟨x, hx, hsome⟩
      · exact Or.inl h
      · rcases List.mem_cons.mp hx with rfl | hx
        · exact (hsome hnone).elim
        · exact Or.inr ⟨x, hx, hsome⟩
    · rename_i row hrow
      have hpending : ∀ row' ∈ w.batch ++ [row ++ [.str (pg.vectorLiteral pair.2)]],
          TooLong row' := by
        intro row' hrow'
        rcases List.mem_append.mp hrow' with hrow' | hrow'
        · exact hlong row' hrow'
        · obtain rfl := List.mem_singleton.mp hrow'
          rw [TooLong, List.length_append, length_rowValues hrow]
          rfl
      have hne : w.batch ++ [row ++ [.str (pg.vectorLiteral pair.2)]] ≠ [] := by simp
      simp only [executeValues_tooLong hne hpending] at hu
      split at hu
      · cases hu
      · obtain rfl := Option.some.inj hu
        obtain ⟨hlong', hne'⟩ := ih hpending hfold
        exact ⟨hlong', fun _ => hne' (Or.inl hne)⟩

/-- The incremental path raises as soon as there is a row to import. -/
theorem upsertIncremental_raises {ids : List Str} {vectors : List V}
    (h : ∃ x ∈ ids.zip vectors, chunks x.1 ≠ none) (table : List (Record T R W)) :
    upsertIncremental cfg pg ids vectors chunks table = none := by
  apply Option.eq_none_iff_forall_ne_some.mpr
  intro result hresult
  obtain ⟨w, hfold, hresult⟩ := Option.bind_eq_some_iff.mp hresult
  obtain ⟨hlong, hne⟩ := upsertPairs_tooLong (ids.zip vectors) (by simp) hfold
  have hne := hne (Or.inr h)
  rw [if_neg hne, executeValues_tooLong hne hlong] at hresult
  cases hresult

theorem foldlM_skips {f : Writing F T R W → Str × V → Option (Writing F T R W)}
    {pairs : List (Str × V)} {w : Writing F T R W} (h : ∀ x ∈ pairs, f w x = some w) :
    pairs.foldlM f w = some w := by
  induction pairs with
  | nil => rfl
  | cons x pairs ih =>
    rw [List.foldlM_cons, h x List.mem_cons_self, Option.bind_eq_bind, Option.bind_some]
    exact ih fun y hy => h y (List.mem_cons_of_mem _ hy)

/-- The two paths agree exactly when there is nothing to import. -/
theorem imports_agree_iff (cfg : ImportConfig) (pg : Postgres F V T R W)
    (chunks : Str → Option (Chunk F)) (ids : List Str) (vectors : List V) :
    ImportsAgree cfg pg chunks ids vectors ↔ ∀ x ∈ ids.zip vectors, chunks x.1 = none := by
  constructor
  · rintro ⟨table, table', -, hupsert, -⟩ x hx
    apply Option.eq_none_iff_forall_ne_some.mpr
    intro c hc
    rw [upsertIncremental_raises ⟨x, hx, by rw [hc]; exact Option.some_ne_none c⟩] at hupsert
    cases hupsert
  · intro h
    have hrow : ∀ x ∈ ids.zip vectors, rowValues pg x.1 x.2 chunks = none :=
      fun x hx => Option.map_eq_none_iff.mpr (h x hx)
    have hrows : importRows ids vectors chunks = [] :=
      List.filterMap_eq_nil_iff.mpr fun x hx => Option.map_eq_none_iff.mpr (h x hx)
    have hcopy : (ids.zip vectors).foldlM (copyPair cfg pg chunks) ⟨[], [], 0⟩ =
        some ⟨[], [], 0⟩ := foldlM_skips fun x hx => by rw [copyPair, hrow x hx]
    have hupsert : (ids.zip vectors).foldlM (upsertPair cfg pg chunks) ⟨[], [], 0⟩ =
        some ⟨[], [], 0⟩ := foldlM_skips fun x hx => by rw [upsertPair, hrow x hx]
    refine ⟨[], [], ?_, ?_, List.Perm.refl _, by rw [hrows]; exact .nil⟩
    · rw [copyInitial, hcopy, hrows]
      rfl
    · rw [upsertIncremental, hupsert, hrows]
      rfl

/-! ## One chunk -/

/-- The defaults of `import_pgvector` and of `execute_values`. -/
def ImportConfig.standard : ImportConfig where
  commitRows := 10000
  batchRows := 200
  pageSize := 100
  commitRows_pos := by decide
  batchRows_pos := by decide
  pageSize_pos := by decide

/-- Times, floats and vectors as the texts they are read from. -/
def samplePostgres : Postgres TextFloat Str Str Str Str :=
  ⟨TextFloat.val, id, some, some, some⟩

/-- The chunk of an article with a short text. -/
def sampleChunks : List (Chunk TextFloat) :=
  articleToChunks sampleHash .standard (shortArticle 1 "https://dev.to/a/1")

/-- With one id in the chunk map the incremental path raises. -/
theorem extra_value_raises :
    ¬ ∀ (chunks : Str → Option (Chunk TextFloat)) (ids vectors : List Str), ids.Nodup →
      ids.length = vectors.length →
      ImportsAgree .standard samplePostgres chunks ids vectors := by
  intro hagrees
  have hmap : (chunkMap sampleChunks (lit "727e190f36b3f659_0")).isSome = true := by
    decide +kernel
  obtain ⟨c, hc⟩ := Option.isSome_iff_exists.mp hmap
  obtain ⟨_, _, -, hupsert, -⟩ := hagrees (chunkMap sampleChunks) [lit "727e190f36b3f659_0"]
    [lit "[0.25,0.5]"] (List.nodup_singleton _) rfl
  rw [upsertIncremental_raises ⟨(lit "727e190f36b3f659_0", lit "[0.25,0.5]"),
    List.mem_cons_self, by rw [hc]; exact Option.some_ne_none c⟩] at hupsert
  cases hupsert

end WebSpider.Vectors
