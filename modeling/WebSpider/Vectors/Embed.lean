import WebSpider.Vectors.Export
import WebSpider.Lists.Pages

/-!
# The embedding run

`embed_chunks.run`: the chunks of the file that have no vector in the archive are
sent to the API in batches. A batch whose request fails for good is skipped. The
archive is saved from time to time and at the end, and it only grows
(`embedRun_completes`).
-/

namespace WebSpider.Vectors

open Text WebSpider.Lists

variable {F V : Type}

/-! ## The run -/

/-- `EMBED_BATCH_SIZE` and `EMBED_SAVE_EVERY`. -/
structure EmbedConfig where
  batchSize : Nat
  saveEvery : Nat
  batchSize_pos : 0 < batchSize

/-- How `embed_batch_retry` ends: it returns vectors, it raises `RuntimeError` after
its last attempt, or it raises something else. -/
inductive Reply (V : Type) where
  | embeddings (vs : List V)
  | exhausted
  | raised

/-- An archive of vectors: `ids` and `vectors` of the `.npz` file. -/
abbrev Archive (V : Type) := List (Str × V)

/-- The variables of the loop, and the archive on disk: `ids` with `vecs`, the
length of `done_ids`, and `failed_ids`. -/
structure Embedding (V : Type) where
  pairs : Archive V
  saved : Nat
  failed : List Str
  archive : Archive V

/-- One batch. `todo[offset + j]` raises when the API returns more vectors than
there are chunks left. A run that raises leaves the archive on disk. -/
def embedBatch (cfg : EmbedConfig) (items todo : List (Chunk F)) (e : Embedding V) (offset : Nat)
    (page : List (Chunk F)) : Reply V → Except (Archive V) (Embedding V)
  | .raised => .error e.archive
  | .exhausted => .ok { e with failed := e.failed ++ page.map Chunk.chunkId }
  | .embeddings vs =>
    if todo.length < offset + vs.length then .error e.archive
    else
      let pairs := e.pairs ++ ((todo.drop offset).map Chunk.chunkId).zip vs
      if cfg.saveEvery ≤ pairs.length - e.saved ∨ pairs.length = items.length then
        .ok { e with pairs := pairs, saved := pairs.length, archive := pairs }
      else .ok { e with pairs := pairs }

/-- The loop over the batches; `k` counts them. The API answers the `k`-th request,
given the texts. -/
def embedPages (cfg : EmbedConfig) (api : Nat → List Str → Reply V) (items todo : List (Chunk F)) :
    Nat → List (List (Chunk F)) → Embedding V → Except (Archive V) (Embedding V)
  | _, [], e => .ok e
  | k, page :: rest, e =>
    match embedBatch cfg items todo e (k * cfg.batchSize) page (api k (page.map Chunk.text)) with
    | .error left => .error left
    | .ok e' => embedPages cfg api items todo (k + 1) rest e'

/-- What a run leaves: the archive, the failed ids, and whether it ended normally. -/
structure EmbedResult (V : Type) where
  archive : Archive V
  failed : List Str
  finished : Bool

/-- The chunks without a vector. -/
def todoOf (archive : Archive V) (items : List (Chunk F)) : List (Chunk F) :=
  items.filter fun c => decide (c.chunkId ∉ archive.map Prod.fst)

/-- `run`; it may be killed after some batches. -/
def embedRun (cfg : EmbedConfig) (api : Nat → List Str → Reply V) (archive : Archive V)
    (items : List (Chunk F)) (killed : Option Nat) : EmbedResult V :=
  let todo := todoOf archive items
  let batches := pages cfg.batchSize todo
  let start : Embedding V := ⟨archive, archive.length, [], archive⟩
  match killed with
  | some n =>
    match embedPages cfg api items todo 0 (batches.take n) start with
    | .error left => ⟨left, [], false⟩
    | .ok e => ⟨e.archive, [], false⟩
  | none =>
    match embedPages cfg api items todo 0 batches start with
    | .error left => ⟨left, [], false⟩
    -- without any vector the archive is saved, then `matrix.shape[1]` raises
    | .ok e => ⟨e.pairs, e.failed, !e.pairs.isEmpty⟩

/-! ## An API that returns a vector for each text -/

/-- The API skips a request or returns one vector for each text, in order. -/
structure Api (V : Type) where
  embed : Nat → List Str → Option (List V)
  length_embed : ∀ k texts vs, embed k texts = some vs → vs.length = texts.length

def Api.reply (api : Api V) (k : Nat) (texts : List Str) : Reply V :=
  match api.embed k texts with
  | some vs => .embeddings vs
  | none => .exhausted

/-- The chunks of a batch with their vectors. -/
def Api.batch (api : Api V) (k : Nat) (page : List (Chunk F)) : List (Chunk F × V) :=
  match api.embed k (page.map Chunk.text) with
  | some vs => page.zip vs
  | none => []

/-- The chunks of the batches from the `k`-th on, with their vectors. -/
def Api.batches (api : Api V) : Nat → List (List (Chunk F)) → List (Chunk F × V)
  | _, [] => []
  | k, page :: rest => api.batch k page ++ api.batches (k + 1) rest

/-- The chunks of the run that get a vector, with it. -/
def obtained (cfg : EmbedConfig) (api : Api V) (todo : List (Chunk F)) : List (Chunk F × V) :=
  api.batches 0 (pages cfg.batchSize todo)

/-- An entry of the archive for a chunk. -/
def entry (cv : Chunk F × V) : Str × V := (cv.1.chunkId, cv.2)

theorem map_entry_zip (page : List (Chunk F)) (vs : List V) :
    (page.zip vs).map entry = (page.map Chunk.chunkId).zip vs := by
  induction page generalizing vs with
  | nil => rfl
  | cons c page ih =>
    cases vs with
    | nil => rfl
    | cons v vs => exact congrArg _ (ih vs)

/-- A batch never raises, and adds its chunks with their vectors. -/
theorem embedBatch_api {cfg : EmbedConfig} {api : Api V} {items todo rest : List (Chunk F)}
    {e : Embedding V} {offset k : Nat} {page : List (Chunk F)}
    (htodo : todo.drop offset = page ++ rest) (hpage : page ≠ []) :
    ∃ e', embedBatch cfg items todo e offset page (api.reply k (page.map Chunk.text)) = .ok e' ∧
      e'.pairs = e.pairs ++ (api.batch k page).map entry := by
  unfold Api.reply Api.batch
  cases hvs : api.embed k (page.map Chunk.text) with
  | none => exact ⟨_, rfl, (List.append_nil _).symm⟩
  | some vs =>
    have hlength : vs.length = page.length := by
      rw [api.length_embed k _ vs hvs, List.length_map]
    have hfits : ¬ todo.length < offset + vs.length := by
      have hdrop := congrArg List.length htodo
      have hpos := List.length_pos_of_ne_nil hpage
      rw [List.length_drop, List.length_append] at hdrop
      omega
    have hpairs : ((todo.drop offset).map Chunk.chunkId).zip vs = (page.zip vs).map entry := by
      have hzip : (page.map Chunk.chunkId ++ rest.map Chunk.chunkId).zip (vs ++ []) =
          (page.map Chunk.chunkId).zip vs ++ (rest.map Chunk.chunkId).zip [] :=
        List.zip_append (by rw [List.length_map, hlength])
      rw [List.append_nil, List.zip_nil_right, List.append_nil] at hzip
      rw [map_entry_zip, htodo, List.map_append, hzip]
    simp only [embedBatch, if_neg hfits, hpairs]
    split
    · exact ⟨_, rfl, rfl⟩
    · exact ⟨_, rfl, rfl⟩

theorem embedPages_api {cfg : EmbedConfig} {api : Api V} {items todo : List (Chunk F)} (n : Nat)
    {k : Nat} {ys : List (Chunk F)} (e : Embedding V) (htodo : todo.drop (k * cfg.batchSize) = ys) :
    ∃ e', embedPages cfg api.reply items todo k (pagesAux cfg.batchSize n ys) e = .ok e' ∧
      e'.pairs = e.pairs ++ (api.batches k (pagesAux cfg.batchSize n ys)).map entry := by
  induction n generalizing k ys e with
  | zero =>
    have hnil : pagesAux cfg.batchSize 0 ys = [] := by cases ys <;> rfl
    rw [hnil]
    exact ⟨e, rfl, (List.append_nil _).symm⟩
  | succ n ih =>
    cases ys with
    | nil => exact ⟨e, rfl, (List.append_nil _).symm⟩
    | cons y ys =>
      have hpage : (y :: ys).take cfg.batchSize ≠ [] := by
        intro hnil
        rcases List.take_eq_nil_iff.mp hnil with h | h
        · exact absurd cfg.batchSize_pos (by omega)
        · cases h
      have hsplit : todo.drop (k * cfg.batchSize) =
          (y :: ys).take cfg.batchSize ++ (y :: ys).drop cfg.batchSize := by
        rw [htodo, List.take_append_drop]
      obtain ⟨e₁, hok, hpairs⟩ := @embedBatch_api _ _ cfg api items _ _ e _ k _ hsplit hpage
      have hnext : todo.drop ((k + 1) * cfg.batchSize) = (y :: ys).drop cfg.batchSize := by
        rw [Nat.add_mul, Nat.one_mul, ← List.drop_drop, htodo]
      obtain ⟨e₂, hok', hpairs'⟩ := ih e₁ hnext
      refine ⟨e₂, ?_, ?_⟩
      · rw [pagesAux, embedPages, hok]
        exact hok'
      · rw [hpairs', hpairs, pagesAux, Api.batches, List.map_append, List.append_assoc]

/-- A run that is not killed ends with the old archive and the vectors it got. It
ends normally when there are any. -/
theorem embedRun_completes (cfg : EmbedConfig) (api : Api V) (archive : Archive V)
    (items : List (Chunk F)) :
    (embedRun cfg api.reply archive items none).archive =
        archive ++ (obtained cfg api (todoOf archive items)).map entry ∧
      ((embedRun cfg api.reply archive items none).finished = true ↔
        (embedRun cfg api.reply archive items none).archive ≠ []) := by
  have hzero : (todoOf archive items).drop (0 * cfg.batchSize) = todoOf archive items := by
    rw [Nat.zero_mul]
    rfl
  obtain ⟨e, hok, hpairs⟩ := @embedPages_api _ _ cfg api items _
    (todoOf archive items).length 0 _ ⟨archive, archive.length, [], archive⟩ hzero
  have hrun : embedRun cfg api.reply archive items none = ⟨e.pairs, e.failed, !e.pairs.isEmpty⟩ := by
    simp only [embedRun, pages]
    rw [hok]
  rw [hrun]
  exact ⟨hpairs, by simp⟩

end WebSpider.Vectors
