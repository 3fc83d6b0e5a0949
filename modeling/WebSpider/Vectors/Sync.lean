import WebSpider.Vectors.Import

/-!
# The incremental sync

`sync_vectors.py` takes the greatest article id in `article_chunks` for all that
was ingested, and exports the articles above it. But the embedding leaves out the
batches whose requests fail, and the import commits in slices, so a newer article
may get in before an older one; then no run exports the older one again
(`skipped_batch_is_lost`). `covered_iff` says exactly when every chunk stays
within reach. The import is taken to write the rows it is given.
-/

namespace WebSpider.Vectors.Sync

open Text Json WebSpider.Lists Effects

variable {F V : Type}

/-- The sizes of the batches of the embedding and of the slices the import commits. -/
structure Sizes where
  embed : EmbedConfig
  load : ImportConfig

/-- The articles, the rows of `article_chunks` as chunks with their vectors, and
the archive. -/
structure State (F V : Type) where
  articles : List (Article F)
  table : List (Chunk F × V)
  archive : Archive V

def State.initial : State F V := ⟨[], [], []⟩

/-- A run of `main`: the flag, whether the query for the greatest id raises, the
answers of the API, where the embedding is killed, and how many slices are
committed before the import is. -/
structure Run (V : Type) where
  initial : Bool
  queryFails : Bool
  api : Api V
  killed : Option Nat
  commits : Option Nat

inductive Event (F V : Type) where
  | insert (a : Article F)
  | sync (r : Run V)

def keys (rows : List (Chunk F × V)) : List Str := rows.map fun row => row.1.chunkId

/-- `_max_ingested_article_id`, when the query returns. -/
def maxIngested (table : List (Chunk F × V)) : Int :=
  (table.filterMap fun row => row.1.articleId).max?.getD 0

/-- Write a row: a new one is inserted, else its text, path and vector are replaced. -/
def writeRow (table : List (Chunk F × V)) (row : Chunk F × V) : List (Chunk F × V) :=
  if row.1.chunkId ∈ keys table then
    table.map fun old => if old.1.chunkId = row.1.chunkId then
      ({ old.1 with text := row.1.text, headingPath := row.1.headingPath }, row.2)
    else old
  else table ++ [row]

/-- The vectors of the archive whose ids are in the chunk map, with their chunks. -/
def joined (items : List (Chunk F)) (archive : Archive V) : List (Chunk F × V) :=
  archive.filterMap fun x => (chunkMap items x.1).map fun c => (c, x.2)

/-- The rows of the slices that are committed. -/
def slices (cfg : ImportConfig) (initial : Bool) (commits : Option Nat)
    (rows : List (Chunk F × V)) : List (Chunk F × V) :=
  let all := pages (if initial then cfg.commitRows else cfg.batchRows) rows
  match commits with
  | none => all.flatten
  | some n => (all.take n).flatten

variable (sha256 : Str → Str) (sizes : Sizes)

/-- `last_id` -/
def lastId (s : State F V) (r : Run V) : Int :=
  if r.initial ∨ r.queryFails then 0 else maxIngested s.table

/-- `export_new_chunks` -/
def newChunks (s : State F V) (r : Run V) : List (Chunk F) :=
  chunksSince sha256 .standard (lastId s r) s.articles

/-- `main` -/
def main (s : State F V) (r : Run V) : State F V :=
  let items := newChunks sha256 s r
  if items = [] then s
  else
    let e := embedRun sizes.embed r.api.reply s.archive items r.killed
    if e.finished then { s with
      table := (slices sizes.load r.initial r.commits (joined items e.archive)).foldl writeRow s.table
      archive := e.archive }
    else { s with archive := e.archive }

def step (s : State F V) : Event F V → Option (State F V)
  | .insert a => if Inserts s.articles a then some { s with articles := s.articles ++ [a] } else none
  | .sync r => some (main sha256 sizes s r)

/-! ## The property and the condition -/

/-- Every chunk of every article with content is in the table, or of an article
that the next run exports. -/
def Covered (s : State F V) : Prop :=
  ∀ a ∈ s.articles, a.content.isSome = true → ∀ c ∈ articleToChunks sha256 .standard a,
    c.chunkId ∈ keys s.table ∨ maxIngested s.table < a.id

def AlwaysCovered (es : List (Event F V)) : Prop :=
  ∀ bs e cs t, es = bs ++ e :: cs → run (step sha256 sizes) .initial (bs ++ [e]) = some t →
    Covered sha256 t

/-- The vectors the import finds: those of the archive, then those the API returns
for the chunks without one. -/
def supply (s : State F V) (r : Run V) : Archive V :=
  s.archive ++ (obtained sizes.embed r.api (todoOf s.archive (newChunks sha256 s r))).map entry

/-- The rows a run commits: none when the embedding is killed. -/
def committed (s : State F V) (r : Run V) : List (Chunk F × V) :=
  match r.killed with
  | some _ => []
  | none => slices sizes.load r.initial r.commits (joined (newChunks sha256 s r) (supply sha256 sizes s r))

/-- Of the exported chunks that are not in the table, those that are not committed
are of articles newer than the articles of those that are. -/
def InOrder (s : State F V) : Event F V → Prop
  | .insert _ => True
  | .sync r => ∀ c ∈ newChunks sha256 s r, c.chunkId ∉ keys s.table →
      c.chunkId ∉ keys (committed sha256 sizes s r) →
      ∀ d ∈ committed sha256 sizes s r, d.1.chunkId ∉ keys s.table →
      ∀ m n, c.articleId = some m → d.1.articleId = some n → n < m

variable {sha256 sizes}

/-! ## The greatest id -/

theorem le_maxIngested {table : List (Chunk F × V)} {row : Chunk F × V} {n : Int}
    (hrow : row ∈ table) (hn : row.1.articleId = some n) : n ≤ maxIngested table := by
  have hmem : n ∈ table.filterMap fun row => row.1.articleId :=
    List.mem_filterMap.mpr ⟨row, hrow, hn⟩
  obtain ⟨m, hm⟩ := Option.isSome_iff_exists.mp (List.isSome_max?_of_mem hmem)
  rw [maxIngested, hm, Option.getD_some]
  exact (List.max?_eq_some_iff.mp hm).2 n hmem

/-- The greatest id is below a bound of the ids, if that is positive. -/
theorem maxIngested_lt {table : List (Chunk F × V)} {m : Int} (hm : 0 < m)
    (h : ∀ row ∈ table, ∀ n, row.1.articleId = some n → n < m) : maxIngested table < m := by
  rw [maxIngested]
  cases hmax : (table.filterMap fun row => row.1.articleId).max? with
  | none => exact hm
  | some k =>
    obtain ⟨row, hrow, hk⟩ := List.mem_filterMap.mp (List.max?_eq_some_iff.mp hmax).1
    exact h row hrow k hk

/-! ## Writing rows -/

theorem keys_writeRow (table : List (Chunk F × V)) (row : Chunk F × V) (id : Str) :
    id ∈ keys (writeRow table row) ↔ id ∈ keys table ∨ id = row.1.chunkId := by
  unfold writeRow
  split
  · rename_i hmem
    have hkeys : keys (table.map fun old => if old.1.chunkId = row.1.chunkId then
        ({ old.1 with text := row.1.text, headingPath := row.1.headingPath }, row.2)
        else old) = keys table := by
      rw [keys, keys, List.map_map]
      apply List.map_congr_left
      intro old _
      show (ite _ _ _ : Chunk F × V).1.chunkId = _
      split
      · rfl
      · rfl
    rw [hkeys]
    refine ⟨Or.inl, fun h => ?_⟩
    rcases h with h | rfl
    · exact h
    · exact hmem
  · rw [keys, List.map_append, List.mem_append]
    exact or_congr Iff.rfl List.mem_singleton

theorem keys_writeRows (rows table : List (Chunk F × V)) (id : Str) :
    id ∈ keys (rows.foldl writeRow table) ↔ id ∈ keys table ∨ id ∈ keys rows := by
  induction rows generalizing table with
  | nil =>
    refine ⟨Or.inl, fun h => ?_⟩
    rcases h with h | h
    · exact h
    · cases h
  | cons row rows ih =>
    rw [List.foldl_cons, ih, keys_writeRow, or_assoc]
    exact or_congr Iff.rfl (List.mem_cons).symm

/-- Of a row that is written the article id is that of the row inserted first. -/
theorem articleId_writeRow {table : List (Chunk F × V)} {row r : Chunk F × V}
    (h : r ∈ writeRow table row) : (∃ old ∈ table, old.1.articleId = r.1.articleId) ∨
      (row.1.chunkId ∉ keys table ∧ r = row) := by
  unfold writeRow at h
  split at h
  · obtain ⟨old, hold, rfl⟩ := List.mem_map.mp h
    refine Or.inl ⟨old, hold, ?_⟩
    split
    · rfl
    · rfl
  · rename_i hnew
    rcases List.mem_append.mp h with h | h
    · exact Or.inl ⟨r, h, rfl⟩
    · exact Or.inr ⟨hnew, List.mem_singleton.mp h⟩

theorem articleId_writeRows {rows table : List (Chunk F × V)} {r : Chunk F × V}
    (h : r ∈ rows.foldl writeRow table) : (∃ old ∈ table, old.1.articleId = r.1.articleId) ∨
      ∃ row ∈ rows, row.1.chunkId ∉ keys table ∧ row.1.articleId = r.1.articleId := by
  induction rows generalizing table with
  | nil => exact Or.inl ⟨r, h, rfl⟩
  | cons row rows ih =>
    rcases ih h with ⟨old, hold, heq⟩ | ⟨row', hrow', hnew, heq⟩
    · rcases articleId_writeRow hold with ⟨older, holder, heq'⟩ | ⟨hnew, rfl⟩
      · exact Or.inl ⟨older, holder, heq'.trans heq⟩
      · exact Or.inr ⟨old, List.mem_cons_self, hnew, heq⟩
    · refine Or.inr ⟨row', List.mem_cons_of_mem _ hrow', fun hmem => hnew ?_, heq⟩
      exact (keys_writeRow table row _).mpr (Or.inl hmem)

/-- The rows of the table keep their article ids. -/
theorem kept_writeRow {table : List (Chunk F × V)} (row : Chunk F × V) {old : Chunk F × V}
    (hold : old ∈ table) : ∃ r ∈ writeRow table row, r.1.articleId = old.1.articleId ∧
      r.1.chunkId = old.1.chunkId := by
  unfold writeRow
  split
  · refine ⟨_, List.mem_map_of_mem hold, ?_⟩
    show (ite _ _ _ : Chunk F × V).1.articleId = _ ∧ (ite _ _ _ : Chunk F × V).1.chunkId = _
    split
    · exact ⟨rfl, rfl⟩
    · exact ⟨rfl, rfl⟩
  · exact ⟨old, List.mem_append_left _ hold, rfl, rfl⟩

theorem kept_writeRows (rows : List (Chunk F × V)) {table : List (Chunk F × V)} {old : Chunk F × V}
    (hold : old ∈ table) : ∃ r ∈ rows.foldl writeRow table, r.1.articleId = old.1.articleId := by
  induction rows generalizing table old with
  | nil => exact ⟨old, hold, rfl⟩
  | cons row rows ih =>
    obtain ⟨r, hr, heq, -⟩ := kept_writeRow row hold
    obtain ⟨r', hr', heq'⟩ := ih hr
    exact ⟨r', hr', heq'.trans heq⟩

/-- A row with a new key has its article id in the table afterwards, when rows of
one key are of one chunk. -/
theorem inserted_writeRows {rows table : List (Chunk F × V)}
    (hsame : ∀ x ∈ rows, ∀ y ∈ rows, x.1.chunkId = y.1.chunkId → x.1 = y.1) {d : Chunk F × V}
    (hd : d ∈ rows) (hnew : d.1.chunkId ∉ keys table) :
    ∃ r ∈ rows.foldl writeRow table, r.1.articleId = d.1.articleId := by
  induction rows generalizing table with
  | nil => cases hd
  | cons row rows ih =>
    by_cases hkey : row.1.chunkId = d.1.chunkId
    · have hsame' := hsame row List.mem_cons_self d hd hkey
      have hmem : row ∈ writeRow table row := by
        rw [writeRow, if_neg (by rw [hkey]; exact hnew)]
        exact List.mem_append_right _ List.mem_cons_self
      obtain ⟨r, hr, heq⟩ := kept_writeRows rows hmem
      exact ⟨r, hr, heq.trans (congrArg Chunk.articleId hsame')⟩
    · refine ih (fun x hx y hy => hsame x (List.mem_cons_of_mem _ hx) y (List.mem_cons_of_mem _ hy))
        ?_ fun hmem => ?_
      · rcases List.mem_cons.mp hd with rfl | hd
        · exact (hkey rfl).elim
        · exact hd
      · rcases (keys_writeRow table row _).mp hmem with h | h
        · exact hnew h
        · exact hkey h.symm

/-! ## What a run writes -/

theorem slices_nil (cfg : ImportConfig) (initial : Bool) (commits : Option Nat) :
    slices cfg initial commits ([] : List (Chunk F × V)) = [] := by
  cases commits with
  | none => rfl
  | some n => cases n <;> rfl

theorem joined_nil (archive : Archive V) : joined ([] : List (Chunk F)) archive = [] :=
  List.filterMap_eq_nil_iff.mpr fun _ _ => rfl

/-- A run writes the committed rows to the table, and nothing else. -/
theorem main_table (s : State F V) (r : Run V) :
    (main sha256 sizes s r).table = (committed sha256 sizes s r).foldl writeRow s.table := by
  unfold main
  dsimp only
  split
  · rename_i hnone
    have hcommitted : committed sha256 sizes s r = [] := by
      unfold committed
      split
      · rfl
      · rw [hnone, joined_nil, slices_nil]
    rw [hcommitted]
    rfl
  · cases hkilled : r.killed with
    | some n =>
      have hdead : (embedRun sizes.embed r.api.reply s.archive (newChunks sha256 s r)
          (some n)).finished = false := by
        simp only [embedRun]
        split
        · rfl
        · rfl
      have hcommitted : committed sha256 sizes s r = [] := by
        rw [committed, hkilled]
      simp only [hdead, hcommitted, Bool.false_eq_true, if_false]
      rfl
    | none =>
      obtain ⟨harchive, hfinished⟩ := embedRun_completes sizes.embed r.api s.archive
        (newChunks sha256 s r)
      have hcommitted : committed sha256 sizes s r = slices sizes.load r.initial r.commits
          (joined (newChunks sha256 s r) (supply sha256 sizes s r)) := by
        rw [committed, hkilled]
      by_cases hends : (embedRun sizes.embed r.api.reply s.archive (newChunks sha256 s r)
          none).finished = true
      · simp only [hends, if_true, harchive, hcommitted]
        rfl
      · have hempty : supply sha256 sizes s r = [] := by
          rw [supply, ← harchive]
          by_cases hnil : (embedRun sizes.embed r.api.reply s.archive (newChunks sha256 s r)
              none).archive = []
          · exact hnil
          · exact (hends (hfinished.mpr hnil)).elim
        simp only [hends, hcommitted, hempty]
        rw [show joined (newChunks sha256 s r) ([] : Archive V) = [] from rfl, slices_nil]
        rfl

theorem main_articles (s : State F V) (r : Run V) :
    (main sha256 sizes s r).articles = s.articles := by
  unfold main
  dsimp only
  split
  · rfl
  · split
    · rfl
    · rfl

theorem mem_of_mem_slices {cfg : ImportConfig} {initial : Bool} {commits : Option Nat}
    {rows : List (Chunk F × V)} {row : Chunk F × V} (h : row ∈ slices cfg initial commits rows) :
    row ∈ rows := by
  have hsize : 0 < (if initial then cfg.commitRows else cfg.batchRows) := by
    split
    · exact cfg.commitRows_pos
    · exact cfg.batchRows_pos
  rw [← flatten_pages hsize rows]
  cases commits with
  | none => exact h
  | some n =>
    obtain ⟨page, hpage, hrow⟩ := List.mem_flatten.mp h
    exact List.mem_flatten.mpr ⟨page, List.mem_of_mem_take hpage, hrow⟩

/-- The committed rows carry the chunks of the map. -/
theorem chunkMap_of_committed {s : State F V} {r : Run V} {d : Chunk F × V}
    (hd : d ∈ committed sha256 sizes s r) :
    chunkMap (newChunks sha256 s r) d.1.chunkId = some d.1 := by
  unfold committed at hd
  split at hd
  · cases hd
  · obtain ⟨x, -, hx⟩ := List.mem_filterMap.mp (mem_of_mem_slices hd)
    obtain ⟨c, hc, rfl⟩ := Option.map_eq_some_iff.mp hx
    rw [(chunkId_of_chunkMap hc).2]
    exact hc

theorem mem_newChunks {s : State F V} {r : Run V} {c : Chunk F} :
    c ∈ newChunks sha256 s r ↔ ∃ a ∈ s.articles, lastId s r < a.id ∧ a.content.isSome = true ∧
      c ∈ articleToChunks sha256 .standard a := by
  rw [newChunks, chunksSince, List.mem_flatMap]
  apply exists_congr
  intro a
  rw [mem_newerThan, and_assoc, and_assoc]

/-! ## Runs -/

/-- The articles have positive ids, and the rows are of stored articles. -/
structure Grounded (s : State F V) : Prop where
  positive : ∀ a ∈ s.articles, 0 < a.id
  rows : ∀ row ∈ s.table, ∃ a ∈ s.articles, row.1.articleId = some a.id

theorem grounded_main {s : State F V} (hs : Grounded s) (r : Run V) :
    Grounded (main sha256 sizes s r) := by
  refine ⟨?_, fun row hrow => ?_⟩
  · rw [main_articles]
    exact hs.positive
  · rw [main_table] at hrow
    rw [main_articles]
    rcases articleId_writeRows hrow with ⟨old, hold, heq⟩ | ⟨d, hd, -, heq⟩
    · rw [← heq]
      exact hs.rows old hold
    · obtain ⟨a, ha, -, -, hc⟩ := mem_newChunks.mp
        (chunkId_of_chunkMap (chunkMap_of_committed hd)).1
      exact ⟨a, ha, by rw [← heq, articleId_of_mem hc]⟩

theorem grounded_step {s t : State F V} {e : Event F V} (hs : Grounded s)
    (h : step sha256 sizes s e = some t) : Grounded t := by
  cases e with
  | insert a =>
    simp only [step] at h
    split at h
    · rename_i ha
      cases h
      refine ⟨fun b hb => ?_, fun row hrow => ?_⟩
      · rcases List.mem_append.mp hb with hb | hb
        · exact hs.positive b hb
        · exact List.mem_singleton.mp hb ▸ ha.1
      · obtain ⟨b, hb, heq⟩ := hs.rows row hrow
        exact ⟨b, List.mem_append_left _ hb, heq⟩
    · cases h
  | sync r =>
    cases h
    exact grounded_main hs r

/-- A new article is above the greatest id. -/
theorem covered_insert {s : State F V} (hs : Grounded s) (hcovered : Covered sha256 s)
    {a : Article F} (ha : Inserts s.articles a) :
    Covered sha256 { s with articles := s.articles ++ [a] } := by
  intro b hb hcontent c hc
  rcases List.mem_append.mp hb with hb | hb
  · exact hcovered b hb hcontent c hc
  · obtain rfl := List.mem_singleton.mp hb
    refine Or.inr (maxIngested_lt ha.1 fun row hrow n hn => ?_)
    obtain ⟨a', ha', heq⟩ := hs.rows row hrow
    rw [heq] at hn
    exact Option.some.inj hn ▸ (ha.2 a' ha').1

/-- A run keeps everything covered exactly when it takes the chunks in order. -/
theorem covered_main {s : State F V} (hs : Grounded s) (hcovered : Covered sha256 s) (r : Run V) :
    Covered sha256 (main sha256 sizes s r) ↔ InOrder sha256 sizes s (.sync r) := by
  have hkeys : ∀ id, id ∈ keys (main sha256 sizes s r).table ↔
      id ∈ keys s.table ∨ id ∈ keys (committed sha256 sizes s r) := by
    intro id
    rw [main_table]
    exact keys_writeRows _ _ id
  constructor
  · intro h c hc hold hleft d hd hnew m n hm hn
    obtain ⟨a, ha, -, hcontent, hchunk⟩ := mem_newChunks.mp hc
    have hcov := h a (by rw [main_articles]; exact ha) hcontent c hchunk
    rcases hcov with hcov | hcov
    · rcases (hkeys _).mp hcov with hcov | hcov
      · exact (hold hcov).elim
      · exact (hleft hcov).elim
    · rw [articleId_of_mem hchunk] at hm
      obtain rfl := Option.some.inj hm
      have hsame : ∀ x ∈ committed sha256 sizes s r, ∀ y ∈ committed sha256 sizes s r,
          x.1.chunkId = y.1.chunkId → x.1 = y.1 := by
        intro x hx y hy hxy
        have hx := chunkMap_of_committed hx
        rw [hxy, chunkMap_of_committed hy] at hx
        exact (Option.some.inj hx).symm
      obtain ⟨row, hrow, heq⟩ := inserted_writeRows hsame hd hnew
      rw [← main_table] at hrow
      exact Int.lt_of_le_of_lt (le_maxIngested hrow (heq.trans hn)) hcov
  · intro h a ha hcontent c hc
    rw [main_articles] at ha
    by_cases hin : c.chunkId ∈ keys (main sha256 sizes s r).table
    · exact Or.inl hin
    · have hold : c.chunkId ∉ keys s.table := fun hmem => hin ((hkeys _).mpr (Or.inl hmem))
      have hleft : c.chunkId ∉ keys (committed sha256 sizes s r) :=
        fun hmem => hin ((hkeys _).mpr (Or.inr hmem))
      have hbelow : maxIngested s.table < a.id :=
        (hcovered a ha hcontent c hc).resolve_left hold
      have hlast : lastId s r < a.id := by
        unfold lastId
        split
        · exact hs.positive a ha
        · exact hbelow
      have hitem : c ∈ newChunks sha256 s r := mem_newChunks.mpr ⟨a, ha, hlast, hcontent, hc⟩
      refine Or.inr (maxIngested_lt (hs.positive a ha) fun row hrow n hn => ?_)
      rw [main_table] at hrow
      rcases articleId_writeRows hrow with ⟨old, hmem, heq⟩ | ⟨d, hd, hnew, heq⟩
      · exact Int.lt_of_le_of_lt (le_maxIngested hmem (heq.trans hn)) hbelow
      · exact h c hitem hold hleft d hd hnew a.id n (articleId_of_mem hc) (heq.trans hn)

theorem covered_step {s t : State F V} {e : Event F V} (hs : Grounded s ∧ Covered sha256 s)
    (h : step sha256 sizes s e = some t) : Covered sha256 t ↔ InOrder sha256 sizes s e := by
  cases e with
  | insert a =>
    simp only [step] at h
    split at h
    · rename_i ha
      cases h
      exact ⟨fun _ => trivial, fun _ => covered_insert hs.1 hs.2 ha⟩
    · cases h
  | sync r =>
    cases h
    exact covered_main hs.1 hs.2 r

theorem grounded_initial : Grounded (State.initial : State F V) := by
  refine ⟨fun a ha => ?_, fun row hrow => ?_⟩
  · cases ha
  · cases hrow

theorem covered_initial : Covered sha256 (State.initial : State F V) := by
  intro a ha
  cases ha

/-- After every event every chunk is in the table or will be exported again,
exactly when every run takes the chunks in the order of their articles. -/
theorem covered_iff (sha256 : Str → Str) (sizes : Sizes) (es : List (Event F V)) :
    AlwaysCovered sha256 sizes es ↔ Along (step sha256 sizes) (InOrder sha256 sizes) .initial es := by
  refine along_iff (J := fun s => Grounded s ∧ Covered sha256 s) (P := fun _ => Covered sha256)
    ?_ ?_ ?_ ⟨grounded_initial, covered_initial⟩ es
  · exact fun s e t hs hK h => ⟨grounded_step hs.1 h, (covered_step hs h).mpr hK⟩
  · exact fun s e t hs h => covered_step hs h
  · intro s e h
    cases e with
    | insert a => trivial
    | sync r => cases h

/-! ## A skipped batch -/

/-- An API that skips the first request and answers the others. -/
def flakyApi : Api Nat where
  embed k texts := if k = 0 then none else some (texts.map List.length)
  length_embed := by
    intro k texts vs h
    split at h
    · cases h
    · cases h
      exact List.length_map _

/-- One chunk in a batch of the embedding. -/
def singleBatches : Sizes := ⟨⟨1, 5000, by decide⟩, .standard⟩

def firstArticle : Article TextFloat := shortArticle 1 "https://dev.to/a/1"

def secondArticle : Article TextFloat := shortArticle 2 "https://dev.to/a/2"

/-- The batch of the first article is skipped, that of the second is not: the first
is below the greatest id, and not in the table. -/
theorem skipped_batch_is_lost :
    ¬ ∀ es : List (Event TextFloat Nat), AlwaysCovered sampleHash singleBatches es := by
  intro hsynced
  have hend : (run (step sampleHash singleBatches) .initial
      ([.insert firstArticle, .insert secondArticle] ++
        [.sync ⟨false, false, flakyApi, none, none⟩])).map (fun t =>
          (decide (firstArticle ∈ t.articles), keys t.table, maxIngested t.table)) =
            some (true, [lit "b4b85c6446d28556_0"], 2) := by
    decide +kernel
  have hchunk : lit "727e190f36b3f659_0" ∈
      (articleToChunks sampleHash .standard firstArticle).map Chunk.chunkId := by
    decide +kernel
  obtain ⟨c, hc, hid⟩ := List.mem_map.mp hchunk
  obtain ⟨t, hrun, hview⟩ := Option.map_eq_some_iff.mp hend
  obtain ⟨harticle, hview⟩ := Prod.mk.inj hview
  obtain ⟨hkeys, hmax⟩ := Prod.mk.inj hview
  have hcovered := hsynced _ _ _ [] t rfl hrun firstArticle (of_decide_eq_true harticle) rfl c hc
  rw [hid, hkeys, hmax] at hcovered
  exact absurd hcovered (by decide)

end WebSpider.Vectors.Sync
