import WebSpider.Vectors.Chunker
import WebSpider.Effects.Run
import WebSpider.Json.Loads

/-!
# The chunk export

`rag_export.py`: the chunks of the stored articles are written to a file, either
all of them (`--full`) or those of the articles newer than the id in the state
file. An incremental run appends and then saves the greatest id; a full run
overwrites the file and leaves the state file alone. So after a full run, and
after a run that dies between its lines and its `save_state`, the file and the
state file disagree, and the next incremental run repeats chunks
(`full_then_incremental_repeats`). `exported_once_iff` says exactly when a
completed run leaves every chunk once.
-/

namespace WebSpider.Vectors

open Text Json Effects

variable {F : Type}

/-! ## Articles and chunks -/

/-- The columns of a row of `articles` that the export reads; the time is its
`isoformat()`. -/
structure Article (F : Type) where
  id : Int
  url : Str
  title : Option Str
  content : Option Str
  published : Option Str
  tags : Option (List Str)
  sourceType : Option Str
  language : Option Str
  score : Option F
  deriving DecidableEq

/-- A line of the chunk file. The fields that `import_pgvector` reads with `get`
may be missing. -/
structure Chunk (F : Type) where
  chunkId : Str
  articleId : Option Int
  url : Str
  title : Option Str
  headingPath : Option (List Str)
  chunkIndex : Option Int
  nChunks : Option Int
  text : Str
  tags : Option (List Str)
  sourceType : Option Str
  language : Option Str
  publishedAt : Option Str
  qualityScore : Option F
  deriving DecidableEq

/-- The parameters of `split_markdown`. -/
structure Params where
  target : Nat
  overlap : Nat
  minChars : Int

/-- The defaults of `rag_export`. -/
def Params.standard : Params := ⟨1200, 150, 30⟩

/-- `_chunk_id`, with `hashlib.sha256(url.encode()).hexdigest()` as a parameter. -/
def chunkId (sha256 : Str → Str) (url : Str) (chunkIndex : Nat) : Str :=
  (sha256 url).take 16 ++ lit "_" ++ decimal chunkIndex

def articleToChunks (sha256 : Str → Str) (p : Params) (a : Article F) : List (Chunk F) :=
  let pieces := splitMarkdown (a.content.getD []) p.target p.overlap p.minChars
  pieces.mapIdx fun i piece =>
    { chunkId := chunkId sha256 a.url i
      articleId := some a.id
      url := a.url
      title := a.title
      headingPath := some piece.headingPath
      chunkIndex := some i
      nChunks := some pieces.length
      text := piece.text
      tags := some (a.tags.getD [])
      sourceType := a.sourceType
      language := a.language
      publishedAt := a.published
      qualityScore := a.score }

/-- `WHERE id > %s AND content_md IS NOT NULL ORDER BY id`; the table is in the
order of its ids. -/
def newerThan (sinceId : Int) (articles : List (Article F)) : List (Article F) :=
  articles.filter fun a => decide (sinceId < a.id) && a.content.isSome

/-- The chunks of the selected articles. -/
def chunksSince (sha256 : Str → Str) (p : Params) (sinceId : Int) (articles : List (Article F)) :
    List (Chunk F) :=
  (newerThan sinceId articles).flatMap (articleToChunks sha256 p)

theorem articleId_of_mem {sha256 : Str → Str} {p : Params} {a : Article F} {c : Chunk F}
    (hc : c ∈ articleToChunks sha256 p a) : c.articleId = some a.id := by
  obtain ⟨i, hi, rfl⟩ := List.mem_mapIdx.mp hc
  rfl

/-- The greatest id, from `since` on. -/
def maxId (sinceId : Int) (articles : List (Article F)) : Int :=
  articles.foldl (fun m a => max m a.id) sinceId

/-! ## Runs of the export -/

/-- The `articles` table, the chunk file and the id in the state file. -/
structure Corpus (F : Type) where
  articles : List (Article F)
  out : List (Chunk F)
  lastId : Int

def Corpus.empty : Corpus F := ⟨[], [], 0⟩

/-- How a run of `export_chunks` ends. -/
inductive Ending where
  | completes
  /-- It dies before it opens the file. -/
  | unopened
  /-- It dies after this many lines, before it saves the state. -/
  | diesAfter (lines : Nat)
  deriving DecidableEq

namespace Corpus

def insert (a : Article F) (s : Corpus F) : Corpus F := { s with articles := s.articles ++ [a] }

/-- `export_chunks` -/
def exportChunks (sha256 : Str → Str) (p : Params) (full : Bool) (ending : Ending)
    (s : Corpus F) : Corpus F :=
  let lastId := if full then 0 else s.lastId
  let lines := chunksSince sha256 p lastId s.articles
  let old := if full then [] else s.out
  match ending with
  | .unopened => s
  | .diesAfter n => { s with out := old ++ lines.take n }
  | .completes => { s with
      out := old ++ lines
      lastId := if full then s.lastId else maxId lastId (newerThan lastId s.articles) }

end Corpus

inductive Event (F : Type) where
  | insert (a : Article F)
  | exports (full : Bool) (ending : Ending)

/-- Ids grow from 1, and no two articles have one URL. -/
def Inserts (articles : List (Article F)) (a : Article F) : Prop :=
  0 < a.id ∧ ∀ b ∈ articles, b.id < a.id ∧ b.url ≠ a.url

instance (articles : List (Article F)) (a : Article F) : Decidable (Inserts articles a) :=
  inferInstanceAs (Decidable (_ ∧ _))

def step (sha256 : Str → Str) (p : Params) (s : Corpus F) : Event F → Option (Corpus F)
  | .insert a => if Inserts s.articles a then some (s.insert a) else none
  | .exports full ending => some (s.exportChunks sha256 p full ending)

/-! ## Ids -/

/-- The state file and the articles have ids from 1 on. -/
structure Positive (s : Corpus F) : Prop where
  lastId : 0 ≤ s.lastId
  articles : ∀ a ∈ s.articles, 0 < a.id

theorem le_maxId (m : Int) (articles : List (Article F)) : m ≤ maxId m articles := by
  induction articles generalizing m with
  | nil => exact Int.le_refl m
  | cons a articles ih => exact Int.le_trans (Int.le_max_left m a.id) (ih _)

theorem id_le_maxId {m : Int} {articles : List (Article F)} {a : Article F} (ha : a ∈ articles) :
    a.id ≤ maxId m articles := by
  induction articles generalizing m with
  | nil => cases ha
  | cons b articles ih =>
    rcases List.mem_cons.mp ha with rfl | ha
    · exact Int.le_trans (Int.le_max_right m a.id) (le_maxId _ _)
    · exact ih ha

theorem positive_step {sha256 : Str → Str} {p : Params} {s t : Corpus F} {e : Event F}
    (hs : Positive s) (h : step sha256 p s e = some t) : Positive t := by
  cases e with
  | insert a =>
    simp only [step] at h
    split at h
    · rename_i ha
      cases h
      refine ⟨hs.lastId, fun b hb => ?_⟩
      rcases List.mem_append.mp hb with hb | hb
      · exact hs.articles b hb
      · exact List.mem_singleton.mp hb ▸ ha.1
    · cases h
  | exports full ending =>
    cases h
    cases ending with
    | completes =>
      cases full with
      | true => exact ⟨hs.lastId, hs.articles⟩
      | false => exact ⟨Int.le_trans hs.lastId (le_maxId _ _), hs.articles⟩
    | unopened => exact hs
    | diesAfter n => exact ⟨hs.lastId, hs.articles⟩

theorem mem_newerThan {m : Int} {articles : List (Article F)} {a : Article F} :
    a ∈ newerThan m articles ↔ a ∈ articles ∧ m < a.id ∧ a.content.isSome = true := by
  simp [newerThan]

/-- Nothing is newer than the greatest id. -/
theorem newerThan_maxId (m : Int) (articles : List (Article F)) :
    newerThan (maxId m (newerThan m articles)) articles = [] := by
  apply List.eq_nil_iff_forall_not_mem.mpr
  intro a ha
  obtain ⟨hmem, hlt, hcontent⟩ := mem_newerThan.mp ha
  have hm : m < a.id := Int.lt_of_le_of_lt (le_maxId m _) hlt
  have hle := id_le_maxId (m := m) (mem_newerThan.mpr ⟨hmem, hm, hcontent⟩)
  omega

/-- The articles up to an id, among those a full run exports. -/
def upTo (m : Int) (articles : List (Article F)) : List (Article F) :=
  (newerThan 0 articles).filter fun a => decide (a.id ≤ m)

/-- The articles up to an id, then the newer ones, are those a full run exports. -/
theorem perm_upTo {m : Int} (hm : 0 ≤ m) (articles : List (Article F)) :
    (upTo m articles ++ newerThan m articles).Perm (newerThan 0 articles) := by
  have hnewer : newerThan m articles = (newerThan 0 articles).filter fun a => !decide (a.id ≤ m) := by
    rw [newerThan, newerThan, List.filter_filter]
    apply List.filter_congr
    intro a _
    cases a.content.isSome with
    | false => simp
    | true =>
      by_cases h : a.id ≤ m
      · simp [h]
      · have hlt : m < a.id := by omega
        have hpos : 0 < a.id := by omega
        simp [h, hlt, hpos]
  rw [hnewer]
  exact List.filter_append_perm _ _

/-! ## Each chunk once -/

variable (sha256 : Str → Str) (p : Params)

/-- What the file should hold: the chunks of all articles with content. -/
def allChunks (articles : List (Article F)) : List (Chunk F) := chunksSince sha256 p 0 articles

/-- The file holds each chunk once, and an incremental run would append nothing. -/
def UpToDate (s : Corpus F) : Prop :=
  s.out.Perm (allChunks sha256 p s.articles) ∧
    (s.exportChunks sha256 p false .completes).out = s.out

/-- Whenever a run of the export has completed, the file is up to date. -/
def ExportedOnce (es : List (Event F)) : Prop :=
  ∀ bs e cs t, es = bs ++ e :: cs → run (step sha256 p) .empty (bs ++ [e]) = some t →
    ∀ full, e = .exports full .completes → UpToDate sha256 p t

/-- What a run that completes must find. An incremental run: a file with exactly
the chunks of the articles up to the id in the state file. A full run: no article
with chunks that is newer than that id. -/
def Finds (s : Corpus F) : Event F → Prop
  | .exports false .completes =>
    s.out.Perm ((upTo s.lastId s.articles).flatMap (articleToChunks sha256 p))
  | .exports true .completes => chunksSince sha256 p s.lastId s.articles = []
  | _ => True

variable {sha256 p}

theorem upToDate_incremental {s : Corpus F} (hs : Positive s) :
    UpToDate sha256 p (s.exportChunks sha256 p false .completes) ↔
      s.out.Perm ((upTo s.lastId s.articles).flatMap (articleToChunks sha256 p)) := by
  have hperm : (allChunks sha256 p s.articles).Perm
      ((upTo s.lastId s.articles).flatMap (articleToChunks sha256 p) ++
        chunksSince sha256 p s.lastId s.articles) := by
    rw [chunksSince, ← List.flatMap_append]
    exact ((perm_upTo hs.lastId s.articles).flatMap_right _).symm
  have hnothing : chunksSince sha256 p (maxId s.lastId (newerThan s.lastId s.articles)) s.articles
      = [] := by
    rw [chunksSince, newerThan_maxId]
    rfl
  refine Iff.trans (and_iff_left ?_) ?_
  · show _ ++ chunksSince sha256 p (maxId s.lastId (newerThan s.lastId s.articles)) s.articles = _
    rw [hnothing, List.append_nil]
    rfl
  · show (s.out ++ chunksSince sha256 p s.lastId s.articles).Perm _ ↔ _
    refine Iff.trans ⟨fun h => h.trans hperm, fun h => h.trans hperm.symm⟩ ?_
    exact List.perm_append_right_iff _

theorem upToDate_full (s : Corpus F) :
    UpToDate sha256 p (s.exportChunks sha256 p true .completes) ↔
      chunksSince sha256 p s.lastId s.articles = [] := by
  refine Iff.trans (and_iff_right ?_) ?_
  · exact List.Perm.refl _
  · show _ ++ chunksSince sha256 p s.lastId s.articles = _ ↔ _
    exact List.append_right_eq_self

theorem positive_empty : Positive (Corpus.empty : Corpus F) := by
  refine ⟨Int.le_refl 0, fun a ha => ?_⟩
  cases ha

/-- Every completed run leaves each chunk once, and nothing for a following
incremental run, exactly when every completed run finds what it must. -/
theorem exported_once_iff (sha256 : Str → Str) (p : Params) (es : List (Event F)) :
    ExportedOnce sha256 p es ↔ Along (step sha256 p) (Finds sha256 p) .empty es := by
  refine along_iff (J := Positive) (fun _ _ _ hs _ => positive_step hs) ?_ ?_ positive_empty es
  · intro s e t hs ht
    cases e with
    | insert a => exact ⟨fun _ => trivial, fun _ _ he => by cases he⟩
    | exports full ending =>
      cases ht
      cases ending with
      | unopened => exact ⟨fun _ => by cases full <;> trivial, fun _ _ he => by cases he⟩
      | diesAfter n => exact ⟨fun _ => by cases full <;> trivial, fun _ _ he => by cases he⟩
      | completes =>
        refine Iff.trans ⟨fun h => h full rfl, fun h _ _ => h⟩ ?_
        cases full with
        | true => exact upToDate_full s
        | false => exact upToDate_incremental hs
  · intro s e he
    cases e with
    | insert a => trivial
    | exports full ending => cases he

/-! ## Runs that agree with the state file -/

/-- The file holds exactly the chunks of the articles up to the id in the state
file, and that id is no greater than the ids of the articles. -/
structure InSync (sha256 : Str → Str) (p : Params) (s : Corpus F) : Prop where
  positive : Positive s
  out : s.out.Perm ((upTo s.lastId s.articles).flatMap (articleToChunks sha256 p))
  lastId : s.lastId = 0 ∨ ∃ a ∈ s.articles, s.lastId = a.id

/-- The run of the export is incremental and completes, or dies before it opens the file. -/
def Incremental : Event F → Prop
  | .insert _ => True
  | .exports full ending => full = false ∧ (ending = .completes ∨ ending = .unopened)

theorem maxId_mem (m : Int) (articles : List (Article F)) :
    maxId m articles = m ∨ ∃ a ∈ articles, maxId m articles = a.id := by
  induction articles generalizing m with
  | nil => exact Or.inl rfl
  | cons a articles ih =>
    rcases ih (max m a.id) with h | ⟨b, hb, h⟩
    · rcases Int.le_total m a.id with hle | hle
      · exact Or.inr ⟨a, List.mem_cons_self, h.trans (Int.max_eq_right hle)⟩
      · exact Or.inl (h.trans (Int.max_eq_left hle))
    · exact Or.inr ⟨b, List.mem_cons_of_mem _ hb, h⟩

theorem upTo_maxId {m : Int} (articles : List (Article F)) :
    upTo (maxId m (newerThan m articles)) articles = newerThan 0 articles := by
  refine List.filter_eq_self.mpr fun a ha => decide_eq_true ?_
  obtain ⟨hmem, -, hcontent⟩ := mem_newerThan.mp ha
  by_cases hm : m < a.id
  · exact id_le_maxId (mem_newerThan.mpr ⟨hmem, hm, hcontent⟩)
  · exact Int.le_trans (by omega) (le_maxId m _)

/-- A newer article changes nothing up to the id. -/
theorem upTo_append {m : Int} {a : Article F} (ha : m < a.id) (articles : List (Article F)) :
    upTo m (articles ++ [a]) = upTo m articles := by
  have hlast : (newerThan 0 [a]).filter (fun b => decide (b.id ≤ m)) = [] := by
    apply List.filter_eq_nil_iff.mpr
    intro b hb hle
    obtain rfl := List.mem_singleton.mp (mem_newerThan.mp hb).1
    have hle := of_decide_eq_true hle
    omega
  rw [upTo, newerThan, List.filter_append, List.filter_append]
  exact (congrArg _ hlast).trans (List.append_nil _)

/-- Incremental runs keep the file in step with the state file. -/
theorem inSync_step {s t : Corpus F} {e : Event F} (hs : InSync sha256 p s) (he : Incremental e)
    (h : step sha256 p s e = some t) : InSync sha256 p t := by
  have hpos := positive_step hs.positive h
  cases e with
  | insert a =>
    simp only [step] at h
    split at h
    · rename_i ha
      cases h
      have hlt : s.lastId < a.id := by
        rcases hs.lastId with hzero | ⟨b, hb, hb'⟩
        · rw [hzero]
          exact ha.1
        · rw [hb']
          exact (ha.2 b hb).1
      refine ⟨hpos, ?_, hs.lastId.imp_right fun ⟨b, hb, hb'⟩ => ⟨b, List.mem_append_left _ hb, hb'⟩⟩
      show s.out.Perm ((upTo s.lastId (s.articles ++ [a])).flatMap _)
      rw [upTo_append hlt]
      exact hs.out
    · cases h
  | exports full ending =>
    cases h
    obtain ⟨rfl, rfl | rfl⟩ := he
    · refine ⟨hpos, ?_, ?_⟩
      · show (s.out ++ chunksSince sha256 p s.lastId s.articles).Perm
          ((upTo (maxId s.lastId (newerThan s.lastId s.articles)) s.articles).flatMap _)
        rw [upTo_maxId]
        apply (hs.out.append_right _).trans
        rw [chunksSince, ← List.flatMap_append]
        exact (perm_upTo hs.positive.lastId s.articles).flatMap_right _
      · rcases maxId_mem s.lastId (newerThan s.lastId s.articles) with h | ⟨a, ha, h⟩
        · exact hs.lastId.imp (h.trans ·) fun ⟨b, hb, hb'⟩ => ⟨b, hb, h.trans hb'⟩
        · exact Or.inr ⟨a, (mem_newerThan.mp ha).1, h⟩
    · exact hs

/-- In a run of incremental exports every export finds what it must. -/
theorem finds_incremental {s : Corpus F} (hs : InSync sha256 p s) {es : List (Event F)}
    (hes : ∀ e ∈ es, Incremental e) : Along (step sha256 p) (Finds sha256 p) s es := by
  induction es generalizing s with
  | nil => trivial
  | cons e es ih =>
    have he := hes e List.mem_cons_self
    refine ⟨?_, fun t ht => ih (inSync_step hs he ht) fun e' he' => hes e' (List.mem_cons_of_mem _ he')⟩
    cases e with
    | insert a => trivial
    | exports full ending =>
      obtain ⟨rfl, rfl | rfl⟩ := he
      · exact hs.out
      · trivial

/-! ## A full run, then an incremental one -/

/-- The SHA-256 digests of two URLs. -/
def sampleHash (url : Str) : Str :=
  ([(lit "https://dev.to/a/1", lit "727e190f36b3f6599efe4924ee17e4bbfa10556980d2920d57990cbd831a3390"),
    (lit "https://dev.to/a/2", lit "b4b85c6446d2855614635e11c33a6062b0e28c4bb80ec6353a7a61dd89cc2d35")].lookup
      url).getD []

/-- An article with a text of one chunk. -/
def shortArticle (id : Int) (url : String) : Article TextFloat where
  id := id
  url := lit url
  title := some (lit "Retries")
  content := some (lit "Use exponential backoff with full jitter.")
  published := none
  tags := none
  sourceType := some (lit "devto")
  language := some (lit "en")
  score := none

/-- The incremental run writes the chunk of the full run again. -/
theorem full_then_incremental_repeats :
    ¬ ∀ es : List (Event TextFloat), ExportedOnce sampleHash .standard es := by
  intro honce
  have hend : (run (step sampleHash .standard) .empty
      ([.insert (shortArticle 1 "https://dev.to/a/1"), .exports true .completes] ++
        [.exports false .completes])).map (fun t => (t.out.length,
          (allChunks sampleHash .standard t.articles).length)) = some (2, 1) := by
    decide +kernel
  obtain ⟨t, hrun, hview⟩ := Option.map_eq_some_iff.mp hend
  obtain ⟨hout, hall⟩ := Prod.mk.inj hview
  have hperm := (honce _ _ _ [] t rfl hrun false rfl).1
  rw [hperm.length_eq, hall] at hout
  cases hout

end WebSpider.Vectors
