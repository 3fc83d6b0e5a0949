import WebSpider.Embedder.Alignment
import WebSpider.Vectors.Embed

/-!
# The run and its outline

`Vectors.embedRun` is the run as the pipeline sees it: an API gives one vector for each text
of a batch or nothing. With such an API, and vectors that are stored as they are, `run` leaves
the archive that `Vectors.embedRun` makes (`run_refines`).
-/

namespace WebSpider.Embedder

open Text Json Effects WebSpider.Lists
open Vectors (Chunk EmbedConfig embedRun embedRun_completes entry obtained)

variable {F R : Type}

/-- The fields of a chunk that are read. -/
def Item.ofChunk (c : Chunk F) : Item := ⟨c.chunkId, c.text⟩

def outline (cfg : Config) : EmbedConfig := ⟨cfg.batchSize, cfg.saveEvery, cfg.batchSize_pos⟩

def pairsOf (w : Archive R) : Vectors.Archive R := w.ids.zip w.vectors

/-! ## The batches as pages -/

theorem range'_mul (n size : Nat) :
    List.range' 0 n size = (List.range n).map fun k => k * size := by
  refine List.ext_getElem (by rw [List.length_range', List.length_map, List.length_range])
    fun k _ _ => ?_
  rw [List.getElem_range', List.getElem_map, List.getElem_range, Nat.zero_add, Nat.mul_comm]

theorem batches_eq_flatMap (api : Vectors.Api R) (k : Nat) (ps : List (List (Chunk F))) :
    api.batches k ps = (ps.zipIdx k).flatMap fun x => api.batch x.2 x.1 := by
  induction ps generalizing k with
  | nil => rfl
  | cons page ps ih => rw [Vectors.Api.batches, List.zipIdx_cons, List.flatMap_cons, ih]

/-- The chunks with a vector, batch by batch. -/
theorem obtained_eq_flatMap (cfg : Config) (api : Vectors.Api R) (todo : List (Chunk F)) :
    obtained (outline cfg) api todo =
      (List.range ((todo.length + cfg.batchSize - 1) / cfg.batchSize)).flatMap fun k =>
        api.batch k ((todo.drop (k * cfg.batchSize)).take cfg.batchSize) := by
  have hzip (n : Nat) (f : Nat → List (Chunk F)) :
      ((List.range n).map f).zipIdx = (List.range n).map fun k => (f k, k) := by
    apply List.ext_getElem (by simp)
    intro k _ _
    simp
  rw [obtained, batches_eq_flatMap, outline, pages_eq_map cfg.batchSize_pos, hzip,
    List.flatMap_map]

/-! ## The refinement -/

section Refinement

variable {cfg : Config} {lib : Library F} {np : Numpy F R} {api : Api F}
  {Embeds : Str → List (Value F) → Prop} {Vector : Vec F R → Prop} {toRow : Vec F R → R}
  {d : Disk R}

/-- The vectors that the batch `k` gets. -/
def rowsOf (cfg : Config) (lib : Library F) (api : Api F) (toRow : Vec F R → R) (k : Nat)
    (texts : List Str) : Option (List R) :=
  match answer lib cfg.maxAttempts (api (k * cfg.batchSize) texts) with
  | .ok vs => some (vs.map fun v => toRow (.json v))
  | .error _ => none

theorem Faithful.length_rowsOf (h : Faithful cfg lib Embeds Vector api) (toRow : Vec F R → R)
    (k : Nat) (texts : List Str) (rows : List R)
    (hrows : rowsOf cfg lib api toRow k texts = some rows) : rows.length = texts.length := by
  unfold rowsOf at hrows
  split at hrows
  · rename_i vs hvs
    cases hrows
    obtain ⟨vectors, rfl, hembeds, -⟩ := h.embeddings (b := (k * cfg.batchSize, texts)) hvs
    rw [List.length_map, List.length_map]
    exact hembeds.length_eq.symm
  · cases hrows

/-- The API as the pipeline sees it. -/
def Faithful.outline (h : Faithful cfg lib Embeds Vector api) (toRow : Vec F R → R) :
    Vectors.Api R where
  embed := rowsOf cfg lib api toRow
  length_embed := h.length_rowsOf toRow

/-- One batch. -/
theorem gain_outline (h : Faithful cfg lib Embeds Vector api) (todo : List (Chunk F)) (k : Nat) :
    (gain (todo.map Item.ofChunk) (k * cfg.batchSize) (replyTo cfg lib api
        (k * cfg.batchSize, (window (todo.map Item.ofChunk) (k * cfg.batchSize)
          cfg.batchSize).map Item.text))).map (fun x => (x.1.chunkId, toRow (.json x.2))) =
      ((h.outline toRow).batch k
        ((todo.drop (k * cfg.batchSize)).take cfg.batchSize)).map entry := by
  have hwindow : window (todo.map Item.ofChunk) (k * cfg.batchSize) cfg.batchSize =
      ((todo.drop (k * cfg.batchSize)).take cfg.batchSize).map Item.ofChunk := by
    rw [window, ← List.map_drop, ← List.map_take]
  have htexts : (window (todo.map Item.ofChunk) (k * cfg.batchSize) cfg.batchSize).map Item.text =
      ((todo.drop (k * cfg.batchSize)).take cfg.batchSize).map Chunk.text := by
    rw [hwindow, List.map_map]
    rfl
  rw [htexts]
  unfold Vectors.Api.batch Faithful.outline rowsOf replyTo
  dsimp only
  cases hanswer : answer lib cfg.maxAttempts (api (k * cfg.batchSize)
      (((todo.drop (k * cfg.batchSize)).take cfg.batchSize).map Chunk.text)) with
  | error x => rfl
  | ok vs =>
    obtain ⟨vectors, rfl, hembeds, -⟩ := h.embeddings (b := (k * cfg.batchSize, _)) hanswer
    have hlength : (vectors.map Value.arr).length =
        (window (todo.map Item.ofChunk) (k * cfg.batchSize) cfg.batchSize).length := by
      rw [List.length_map, ← hembeds.length_eq, ← htexts, List.length_map]
    dsimp only
    rw [gain, hlength, window_length, hwindow, List.zip_map_left, List.zip_map_right,
      List.zip_map_right, List.zip_map_right]
    simp only [List.map_map]
    rfl

/-- The vectors of the run are those of its outline. -/
theorem granted_outline (h : Faithful cfg lib Embeds Vector api) (todo : List (Chunk F)) :
    (granted cfg lib api (todo.map Item.ofChunk)
        (batchTexts (todo.map Item.ofChunk) cfg.batchSize)).map
        (fun x => (x.1.chunkId, toRow (.json x.2))) =
      (obtained (outline cfg) (h.outline toRow) todo).map entry := by
  rw [granted, batchTexts, range'_mul, List.map_map, List.flatMap_map, List.map_flatMap,
    obtained_eq_flatMap, List.map_flatMap, List.length_map]
  exact List.flatMap_congr fun k _ => gain_outline h todo k

/-- The run leaves the archive of its outline. -/
theorem run_refines (hnp : Stores np Vector toRow) (h : Faithful cfg lib Embeds Vector api)
    (hold : Sound Vector (loadExisting d)) (chunks : List (Chunk F)) :
    ∃ last, (after (run cfg lib np api (chunks.map Item.ofChunk)) d).archive = some last ∧
      pairsOf last = (embedRun (outline cfg) (h.outline toRow).reply (pairsOf (loadExisting d))
        chunks none).archive := by
  obtain ⟨e, m, u, hcollected, harchive, -⟩ := h.collected hnp hold (chunks.map Item.ofChunk)
  refine ⟨_, harchive, ?_⟩
  have hfst : (pairsOf (loadExisting d)).map Prod.fst = (loadExisting d).ids :=
    List.map_fst_zip hold.length.ge
  have htodo : todoOf (loadExisting d) (chunks.map Item.ofChunk) =
      (Vectors.todoOf (pairsOf (loadExisting d)) chunks).map Item.ofChunk := by
    rw [todoOf, Vectors.todoOf, List.filter_map, hfst]
    rfl
  have hm := hcollected.matrix
  rw [hcollected.loop.vecs] at hm
  obtain ⟨dim, hrows, -⟩ := hnp.matrix _ (vector_vecsOf hold fun x hx => h.aligned hx)
  obtain rfl := Except.ok.inj (hrows.symm.trans hm)
  have hstored : ((loadExisting d).vectors.map Vec.row).map toRow = (loadExisting d).vectors := by
    rw [List.map_map]
    exact (List.map_congr_left fun r _ => hnp.row r).trans (List.map_id _)
  rw [(embedRun_completes _ _ _ _).1, ← granted_outline h, ← htodo, pairsOf, pairsOf,
    hcollected.loop.ids, idsOf, vecsOf, List.map_append, hstored]
  exact (List.zip_append hold.length.symm).trans
    (congrArg _ ((congrArg _ List.map_map).trans List.zip_map'))

end Refinement

end WebSpider.Embedder
