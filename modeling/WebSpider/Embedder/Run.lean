import WebSpider.Effects.Program
import WebSpider.Embedder.Request

/-!
# The embedding run

`run` of `embed_chunks.py`: the chunks without a vector in the archive are sent to the API
in batches, the archive is written after a batch when enough vectors are new, and at the
end it is written with its meta file and the ids of the batches that were skipped.
`run_ends` says what a run leaves on the disk, and which answers of the API make it raise.
-/

namespace WebSpider.Embedder

open Text Json Effects

variable {F R : Type}

/-! ## The files -/

/-- A line of the chunks file, as far as it is read. -/
structure Item where
  chunkId : Str
  text : Str
  deriving DecidableEq

/-- `EMBED_BATCH_SIZE`, `EMBED_SAVE_EVERY` and `EMBED_MAX_ATTEMPTS`. -/
structure Config where
  batchSize : Nat
  saveEvery : Nat
  maxAttempts : Nat
  batchSize_pos : 0 < batchSize

/-- An `.npz` file: the arrays `ids` and `vectors`. -/
structure Archive (R : Type) where
  ids : List Str
  vectors : List R

/-- An element of `vecs`: a row of the loaded archive or an embedding of a response. -/
inductive Vec (F R : Type) where
  | row (r : R)
  | json (v : Value F)

/-- A `float32` array: its elements along the first axis, and `shape[1]` when it has a
second one. -/
structure Matrix (R : Type) where
  rows : List R
  dim : Option Nat

/-- `np.asarray(vecs, dtype=np.float32)` -/
structure Numpy (F R : Type) where
  asarray : List (Vec F R) → Except Exn (Matrix R)

/-- `<out>.meta.json` -/
inductive MetaFile where
  | absent
  | truncated
  | written (dim count : Nat)

structure Disk (R : Type) where
  archive : Option (Archive R)
  metaFile : MetaFile
  failedFile : Option (List Str)
  /-- History: the archives that were written. -/
  written : List (Archive R)
  /-- History: the texts of the requests. -/
  asked : List (List Str)

/-- The answers of the API: for each batch, by its offset and its texts, those to the
attempts. -/
abbrev Api (F : Type) := Nat → List Str → Nat → Post F

/-! ## The run -/

/-- `batch_texts` -/
def batchTexts (items : List Item) (size : Nat) : List (Nat × List Str) :=
  (List.range' 0 ((items.length + size - 1) / size) size).map fun i =>
    (i, ((items.drop i).take size).map Item.text)

/-- `load_existing` -/
def loadExisting (d : Disk R) : Archive R := d.archive.getD ⟨[], []⟩

/-- The chunks without a vector. -/
def todoOf (done : Archive R) (items : List Item) : List Item :=
  items.filter fun item => decide (item.chunkId ∉ done.ids)

/-- The variables of the loop; of `done_ids` its length. -/
structure Loop (F R : Type) where
  ids : List Str
  vecs : List (Vec F R)
  done : Nat
  failed : List Str
  dim : Option Nat

/-- `len(emb)` -/
def len : Value F → Except Exn Nat
  | .str s => .ok s.length
  | .arr vs => .ok vs.length
  | .obj fields => .ok fields.length
  | _ => .error .typeError

/-- One turn of the loop over `enumerate(embeddings)`. -/
def addEmbedding (todo : List Item) (offset : Nat) (e : Loop F R) (x : Value F × Nat) :
    Except Exn (Loop F R) := do
  let dim ← match e.dim with
    | some dim => pure dim
    | none => len x.1
  match todo[offset + x.2]? with
  | some item =>
    pure { e with dim := some dim, ids := e.ids ++ [item.chunkId], vecs := e.vecs ++ [.json x.1] }
  | none => .error .indexError

/-- `n` elements of `todo` from the offset on. -/
def window (todo : List Item) (offset n : Nat) : List Item := (todo.drop offset).take n

/-- `np.savez_compressed` of the vectors so far. -/
def save (np : Numpy F R) (e : Loop F R) : Prog (Disk R) Exn (Matrix R) := do
  let matrix ← Prog.lift (np.asarray e.vecs)
  Prog.update fun d => { d with
    archive := some ⟨e.ids, matrix.rows⟩
    written := d.written ++ [⟨e.ids, matrix.rows⟩] }
  pure matrix

/-- One batch. -/
def embedBatch (cfg : Config) (lib : Library F) (np : Numpy F R) (api : Api F)
    (items todo : List Item) (e : Loop F R) (batch : Nat × List Str) :
    Prog (Disk R) Exn (Loop F R) := do
  Prog.update fun d => { d with asked := d.asked ++ [batch.2] }
  match embedBatchRetry lib cfg.maxAttempts (api batch.1 batch.2) with
  | .error x =>
    if x.isRuntimeError then
      pure { e with failed := e.failed ++ (window todo batch.1 batch.2.length).map Item.chunkId }
    else Prog.raise x
  | .ok embeddings =>
    let e ← Prog.lift (embeddings.zipIdx.foldlM (addEmbedding todo batch.1) e)
    if cfg.saveEvery ≤ e.ids.length - e.done ∨ e.ids.length = items.length then do
      let _ ← save np e
      pure { e with done := e.ids.length }
    else pure e

/-- `run` -/
def run (cfg : Config) (lib : Library F) (np : Numpy F R) (api : Api F) (items : List Item) :
    Prog (Disk R) Exn Unit := do
  let disk ← Prog.read
  let done := loadExisting disk
  let todo := todoOf done items
  let e ← (batchTexts todo cfg.batchSize).foldlM (embedBatch cfg lib np api items todo)
    ⟨done.ids, done.vectors.map .row, done.ids.length, [], none⟩
  let matrix ← save np e
  match matrix.dim with
  | none => do
    -- the file is opened before the dictionary is built
    Prog.update fun d => { d with metaFile := .truncated }
    Prog.raise .indexError
  | some dim => do
    Prog.update fun d => { d with metaFile := .written dim matrix.rows.length }
    if e.failed = [] then pure ()
    else Prog.update fun d => { d with failedFile := some e.failed }

/-! ## The batches -/

theorem flatMap_windows (items : List Item) (size n k : Nat) :
    (List.range' k n size).flatMap (fun i => window items i size) = window items k (n * size) := by
  induction n generalizing k with
  | zero => rw [Nat.zero_mul, window, List.take_zero]; rfl
  | succ n ih =>
    rw [List.range'_succ, List.flatMap_cons, ih, Nat.succ_mul, Nat.add_comm (n * size), window,
      window, window, List.take_add, List.drop_drop]

theorem window_length (items : List Item) (offset n : Nat) :
    window items offset (window items offset n).length = window items offset n := by
  rw [window, window, List.length_take, ← List.take_take, List.take_length]

theorem length_window {items : List Item} {offset n : Nat} (h : offset + n ≤ items.length) :
    (window items offset n).length = n := by
  rw [window, List.length_take, List.length_drop]
  omega

theorem flatMap_batches (items : List Item) {size : Nat} (hsize : 0 < size) :
    (batchTexts items size).flatMap (fun b => window items b.1 b.2.length) = items := by
  have hwindow (i : Nat) : window items i (((items.drop i).take size).map Item.text).length =
      window items i size := by
    rw [List.length_map]
    exact window_length items i size
  have hcover : items.length ≤ (items.length + size - 1) / size * size := by
    have hlt := Nat.lt_div_mul_add hsize (a := items.length + size - 1)
    omega
  rw [batchTexts, List.flatMap_map]
  simp only [hwindow]
  rw [flatMap_windows, window, List.drop_zero, List.take_of_length_le hcover]

theorem batch_of_mem {items : List Item} {size : Nat} (hsize : 0 < size) {b : Nat × List Str}
    (hb : b ∈ batchTexts items size) :
    b.2 = (window items b.1 b.2.length).map Item.text ∧ b.1 < items.length := by
  obtain ⟨i, hi, rfl⟩ := List.mem_map.mp hb
  refine ⟨?_, ?_⟩
  · dsimp only
    rw [List.length_map]
    exact congrArg (List.map Item.text) (window_length items i size).symm
  · obtain ⟨j, hj, rfl⟩ := List.mem_range'.mp hi
    have hmul := (Nat.le_div_iff_mul_le hsize).mp hj
    rw [Nat.succ_mul] at hmul
    rw [Nat.zero_add, Nat.mul_comm]
    omega

theorem batch_ne {items : List Item} {size : Nat} (hsize : 0 < size) {b : Nat × List Str}
    (hb : b ∈ batchTexts items size) : b.2 ≠ [] := by
  have hlt := (batch_of_mem hsize hb).2
  obtain ⟨i, -, rfl⟩ := List.mem_map.mp hb
  apply List.ne_nil_of_length_pos
  dsimp only at hlt ⊢
  rw [List.length_map, List.length_take, List.length_drop]
  omega

/-- The requests name the texts in order. -/
theorem texts_batches (items : List Item) {size : Nat} (hsize : 0 < size) :
    ((batchTexts items size).map Prod.snd).flatten = items.map Item.text := by
  have htexts : (batchTexts items size).map Prod.snd =
      (batchTexts items size).map fun b => (window items b.1 b.2.length).map Item.text :=
    List.map_congr_left fun b hb => (batch_of_mem hsize hb).1
  rw [htexts, ← List.flatMap_def, ← List.map_flatMap, flatMap_batches items hsize]

/-! ## The embeddings of a batch -/

/-- `len` returns. -/
def Sized (v : Value F) : Prop := ∃ n, len v = .ok n

theorem window_succ {todo : List Item} {offset n : Nat} {item : Item}
    (h : todo[offset]? = some item) :
    window todo offset (n + 1) = item :: window todo (offset + 1) n := by
  obtain ⟨hlt, rfl⟩ := List.getElem?_eq_some_iff.mp h
  rw [window, List.drop_eq_getElem_cons hlt]
  rfl

/-- One turn: it adds a chunk with its vector, or there is no chunk or no dimension. -/
theorem addEmbedding_cases (todo : List Item) (offset : Nat) (e : Loop F R) (v : Value F)
    (k : Nat) :
    (∃ dim item, todo[offset + k]? = some item ∧ (e.dim = none → Sized v) ∧
      addEmbedding todo offset e (v, k) = .ok { e with
        dim := some dim, ids := e.ids ++ [item.chunkId], vecs := e.vecs ++ [.json v] }) ∨
    ∃ x, addEmbedding todo offset e (v, k) = .error x ∧
      (todo.length ≤ offset + k ∨ e.dim = none ∧ ¬ Sized v) := by
  have hsized (dim : Nat) (hdim : e.dim = some dim ∨ e.dim = none ∧ len v = .ok dim) :
      (∃ item, todo[offset + k]? = some item ∧ (e.dim = none → Sized v) ∧
        addEmbedding todo offset e (v, k) = .ok { e with
          dim := some dim, ids := e.ids ++ [item.chunkId], vecs := e.vecs ++ [.json v] }) ∨
      addEmbedding todo offset e (v, k) = .error .indexError ∧ todo.length ≤ offset + k := by
    have hturn : addEmbedding todo offset e (v, k) = match todo[offset + k]? with
        | some item => .ok { e with
            dim := some dim, ids := e.ids ++ [item.chunkId], vecs := e.vecs ++ [.json v] }
        | none => .error .indexError := by
      unfold addEmbedding
      rcases hdim with hdim | ⟨hdim, hlen⟩
      · rw [hdim]
        rfl
      · rw [hdim]
        simp only [hlen]
        rfl
    cases hitem : todo[offset + k]? with
    | none =>
      rw [hitem] at hturn
      exact .inr ⟨hturn, List.getElem?_eq_none_iff.mp hitem⟩
    | some item =>
      rw [hitem] at hturn
      refine .inl ⟨item, rfl, fun hnone => ?_, hturn⟩
      rcases hdim with hdim | ⟨-, hlen⟩
      · rw [hnone] at hdim
        cases hdim
      · exact ⟨dim, hlen⟩
  cases hdim : e.dim with
  | some dim =>
    rcases hsized dim (.inl hdim) with ⟨item, hitem, hrest⟩ | ⟨herror, hend⟩
    · exact .inl ⟨dim, item, hitem, hdim ▸ hrest⟩
    · exact .inr ⟨_, herror, .inl hend⟩
  | none =>
    cases hlen : len v with
    | ok dim =>
      rcases hsized dim (.inr ⟨hdim, hlen⟩) with ⟨item, hitem, hrest⟩ | ⟨herror, hend⟩
      · exact .inl ⟨dim, item, hitem, hdim ▸ hrest⟩
      · exact .inr ⟨_, herror, .inl hend⟩
    | error x =>
      refine .inr ⟨x, ?_, .inr ⟨rfl, ?_⟩⟩
      · unfold addEmbedding
        rw [hdim]
        simp only [hlen]
        rfl
      · rintro ⟨n, hn⟩
        rw [hlen] at hn
        cases hn

/-- The turns that return take the chunks of the window one after the other. -/
theorem addEmbeddings_ok {todo : List Item} {offset k : Nat} {vs : List (Value F)}
    {e e' : Loop F R} (h : (vs.zipIdx k).foldlM (addEmbedding todo offset) e = .ok e')
    (hk : offset + k ≤ todo.length) :
    offset + k + vs.length ≤ todo.length ∧ (e.dim = none → ∀ v ∈ vs.head?, Sized v) ∧
      (e'.dim = none ↔ e.dim = none ∧ vs = []) ∧ e'.done = e.done ∧ e'.failed = e.failed ∧
      e'.ids = e.ids ++ (window todo (offset + k) vs.length).map Item.chunkId ∧
      e'.vecs = e.vecs ++ vs.map .json := by
  induction vs generalizing k e with
  | nil =>
    cases h
    refine ⟨hk, fun _ v hv => ?_, ⟨fun h => ⟨h, rfl⟩, fun h => h.1⟩, rfl, rfl, ?_,
      (List.append_nil _).symm⟩
    · cases hv
    · exact (List.append_nil _).symm
  | cons v vs ih =>
    rw [List.zipIdx_cons, List.foldlM_cons] at h
    rcases addEmbedding_cases todo offset e v k with ⟨dim, item, hitem, hsized, hturn⟩ |
        ⟨x, hturn, -⟩
    · rw [hturn] at h
      have hlt := (List.getElem?_eq_some_iff.mp hitem).1
      obtain ⟨hwithin, -, hdim, hdone, hfailed, hids, hvecs⟩ := ih h (by omega)
      refine ⟨by rw [List.length_cons]; omega, fun hnone w hw => ?_, ?_, hdone, hfailed, ?_, ?_⟩
      · rw [List.head?_cons, Option.mem_some_iff] at hw
        exact hw ▸ hsized hnone
      · rw [hdim]
        refine iff_of_false ?_ ?_
        · rintro ⟨h, -⟩
          cases h
        · rintro ⟨-, h⟩
          cases h
      · rw [hids, List.length_cons, window_succ hitem, List.append_assoc]
        rfl
      · rw [hvecs, List.append_assoc]
        rfl
    · rw [hturn] at h
      cases h

/-- A turn raises where the chunks end, or at the first embedding of all. -/
theorem addEmbeddings_error {todo : List Item} {offset k : Nat} {vs : List (Value F)}
    {e : Loop F R} {x : Exn} (h : (vs.zipIdx k).foldlM (addEmbedding todo offset) e = .error x) :
    todo.length < offset + k + vs.length ∨ e.dim = none ∧ ∃ v ∈ vs.head?, ¬ Sized v := by
  induction vs generalizing k e with
  | nil => cases h
  | cons v vs ih =>
    rw [List.zipIdx_cons, List.foldlM_cons] at h
    rw [List.length_cons]
    rcases addEmbedding_cases todo offset e v k with ⟨dim, item, -, -, hturn⟩ |
        ⟨y, hturn, hend | hnot⟩
    · rw [hturn] at h
      rcases ih h with hend | ⟨hdim, -⟩
      · exact .inl (by omega)
      · cases hdim
    · exact .inl (by omega)
    · exact .inr ⟨hnot.1, v, rfl, hnot.2⟩

/-! ## What the batches give -/

/-- The answer to a batch. -/
def replyTo (cfg : Config) (lib : Library F) (api : Api F) (b : Nat × List Str) :
    Except Exn (List (Value F)) := answer lib cfg.maxAttempts (api b.1 b.2)

/-- The chunks that get a vector, with it. -/
def gain (todo : List Item) (offset : Nat) :
    Except Exn (List (Value F)) → List (Item × Value F)
  | .ok vs => (window todo offset vs.length).zip vs
  | .error _ => []

/-- The chunks that are skipped. -/
def loss (todo : List Item) (offset n : Nat) : Except Exn (List (Value F)) → List Item
  | .ok _ => []
  | .error _ => window todo offset n

theorem ids_zip {todo : List Item} {offset : Nat} {vs : List (Value F)}
    (h : offset + vs.length ≤ todo.length) :
    ((window todo offset vs.length).zip vs).map (fun x => x.1.chunkId) =
      (window todo offset vs.length).map Item.chunkId :=
  calc ((window todo offset vs.length).zip vs).map (fun x => x.1.chunkId)
      = (((window todo offset vs.length).zip vs).map Prod.fst).map Item.chunkId := by
        rw [List.map_map]
        rfl
    _ = _ := by rw [List.map_fst_zip (length_window h).le]

theorem vecs_zip {todo : List Item} {offset : Nat} {vs : List (Value F)}
    (h : offset + vs.length ≤ todo.length) :
    ((window todo offset vs.length).zip vs).map (fun x => Vec.json (R := R) x.2) =
      vs.map .json :=
  calc ((window todo offset vs.length).zip vs).map (fun x => Vec.json (R := R) x.2)
      = (((window todo offset vs.length).zip vs).map Prod.snd).map .json := by
        rw [List.map_map]
        rfl
    _ = _ := by rw [List.map_snd_zip (length_window h).ge]

def granted (cfg : Config) (lib : Library F) (api : Api F) (todo : List Item)
    (bs : List (Nat × List Str)) : List (Item × Value F) :=
  bs.flatMap fun b => gain todo b.1 (replyTo cfg lib api b)

def refused (cfg : Config) (lib : Library F) (api : Api F) (todo : List Item)
    (bs : List (Nat × List Str)) : List Item :=
  bs.flatMap fun b => loss todo b.1 b.2.length (replyTo cfg lib api b)

theorem granted_snoc (cfg : Config) (lib : Library F) (api : Api F) (todo : List Item)
    (bs : List (Nat × List Str)) (b : Nat × List Str) :
    granted cfg lib api todo (bs ++ [b]) =
      granted cfg lib api todo bs ++ gain todo b.1 (replyTo cfg lib api b) := by
  rw [granted, List.flatMap_append, List.flatMap_singleton]
  rfl

theorem refused_snoc (cfg : Config) (lib : Library F) (api : Api F) (todo : List Item)
    (bs : List (Nat × List Str)) (b : Nat × List Str) :
    refused cfg lib api todo (bs ++ [b]) =
      refused cfg lib api todo bs ++ loss todo b.1 b.2.length (replyTo cfg lib api b) := by
  rw [refused, List.flatMap_append, List.flatMap_singleton]
  rfl

/-- The vectors so far: the rows of the old archive and the embeddings. -/
def vecsOf (old : Archive R) (gs : List (Item × Value F)) : List (Vec F R) :=
  old.vectors.map .row ++ gs.map fun x => .json x.2

def idsOf (old : Archive R) (gs : List (Item × Value F)) : List Str :=
  old.ids ++ gs.map fun x => x.1.chunkId

/-- An archive of the vectors got up to some batch. -/
def Snapshot (np : Numpy F R) (old : Archive R) (gs : List (Item × Value F)) (w : Archive R) :
    Prop :=
  ∃ before m, before <+: gs ∧ np.asarray (vecsOf old before) = .ok m ∧
    w = ⟨idsOf old before, m.rows⟩

/-! ## The loop -/

/-- The loop after the batches `bs`, which started on the disk `d`. -/
structure Looped (cfg : Config) (lib : Library F) (np : Numpy F R) (api : Api F)
    (todo : List Item) (old : Archive R) (bs : List (Nat × List Str)) (d : Disk R)
    (e : Loop F R) (t : Disk R) : Prop where
  decided : ∀ b ∈ bs, ∀ x, replyTo cfg lib api b = .error x → x.isRuntimeError = true
  within : ∀ b ∈ bs, ∀ vs, replyTo cfg lib api b = .ok vs → b.1 + vs.length ≤ todo.length
  sized : ∀ x ∈ (granted cfg lib api todo bs).head?, Sized x.2
  dim : e.dim = none ↔ granted cfg lib api todo bs = []
  ids : e.ids = idsOf old (granted cfg lib api todo bs)
  vecs : e.vecs = vecsOf old (granted cfg lib api todo bs)
  failed : e.failed = (refused cfg lib api todo bs).map Item.chunkId
  metaFile : t.metaFile = d.metaFile
  failedFile : t.failedFile = d.failedFile
  asked : t.asked = d.asked ++ bs.map Prod.snd
  written : ∃ ws, t.written = d.written ++ ws ∧ t.archive = ws.getLast?.or d.archive ∧
    ∀ w ∈ ws, Snapshot np old (granted cfg lib api todo bs) w

/-- An answer or a vector that makes the run raise. -/
inductive Stuck (cfg : Config) (lib : Library F) (np : Numpy F R) (api : Api F)
    (todo : List Item) (old : Archive R) (bs : List (Nat × List Str)) : Prop
  | raised (b : Nat × List Str) (hb : b ∈ bs) (x : Exn) (hreply : replyTo cfg lib api b = .error x)
      (hx : x.isRuntimeError = false)
  | beyond (b : Nat × List Str) (hb : b ∈ bs) (vs : List (Value F))
      (hreply : replyTo cfg lib api b = .ok vs) (hend : todo.length < b.1 + vs.length)
  | unsized (x : Item × Value F) (hx : x ∈ (granted cfg lib api todo bs).head?)
      (hnot : ¬ Sized x.2)
  | unconverted (before : List (Item × Value F)) (x : Exn)
      (hbefore : before <+: granted cfg lib api todo bs)
      (hx : np.asarray (vecsOf old before) = .error x)

section Loop

variable {cfg : Config} {lib : Library F} {np : Numpy F R} {api : Api F} {items todo : List Item}
  {old : Archive R} {bs rest : List (Nat × List Str)} {b : Nat × List Str} {d t : Disk R}
  {e : Loop F R}

theorem Snapshot.mono {gs gs' : List (Item × Value F)} {w : Archive R}
    (h : Snapshot np old gs w) (hgs : gs <+: gs') : Snapshot np old gs' w := by
  obtain ⟨before, m, hbefore, hm, hw⟩ := h
  exact ⟨before, m, hbefore.trans hgs, hm, hw⟩

theorem prefix_granted (bs rest : List (Nat × List Str)) :
    granted cfg lib api todo bs <+: granted cfg lib api todo (bs ++ rest) := by
  rw [granted, granted, List.flatMap_append]
  exact List.prefix_append _ _

theorem head?_mono {α : Type} {xs ys : List α} {x : α} (h : xs <+: ys) (hx : x ∈ xs.head?) :
    x ∈ ys.head? := by
  obtain ⟨zs, rfl⟩ := h
  cases xs with
  | nil => cases hx
  | cons y xs => exact hx

theorem head?_zip_snd {α β : Type} {xs : List α} {ys : List β} {z : α × β}
    (h : z ∈ (xs.zip ys).head?) : z.2 ∈ ys.head? := by
  cases xs with
  | nil => cases h
  | cons x xs =>
    cases ys with
    | nil => cases h
    | cons y ys =>
      cases h
      rfl

/-- A batch that is skipped. -/
theorem Looped.skip (h : Looped cfg lib np api todo old bs d e t) {x : Exn}
    (hreply : replyTo cfg lib api b = .error x) (hx : x.isRuntimeError = true) :
    Looped cfg lib np api todo old (bs ++ [b]) d
      { e with failed := e.failed ++ (window todo b.1 b.2.length).map Item.chunkId }
      { t with asked := t.asked ++ [b.2] } := by
  have hgranted : granted cfg lib api todo (bs ++ [b]) = granted cfg lib api todo bs := by
    rw [granted_snoc, hreply]
    exact List.append_nil _
  have hrefused : refused cfg lib api todo (bs ++ [b]) =
      refused cfg lib api todo bs ++ window todo b.1 b.2.length := by
    rw [refused_snoc, hreply]
    rfl
  refine ⟨fun c hc y hy => ?_, fun c hc vs hvs => ?_, ?_, ?_, ?_, ?_, ?_, h.metaFile,
    h.failedFile, ?_, ?_⟩
  · rcases List.mem_append.mp hc with hc | hc
    · exact h.decided c hc y hy
    · obtain rfl := List.mem_singleton.mp hc
      rw [hreply] at hy
      cases hy
      exact hx
  · rcases List.mem_append.mp hc with hc | hc
    · exact h.within c hc vs hvs
    · obtain rfl := List.mem_singleton.mp hc
      rw [hreply] at hvs
      cases hvs
  · rw [hgranted]
    exact h.sized
  · rw [hgranted]
    exact h.dim
  · rw [hgranted]
    exact h.ids
  · rw [hgranted]
    exact h.vecs
  · rw [hrefused, List.map_append, ← h.failed]
  · rw [h.asked, List.map_append, List.append_assoc]
    rfl
  · rw [hgranted]
    exact h.written

/-- A batch whose embeddings are added. -/
theorem Looped.add (h : Looped cfg lib np api todo old bs d e t) {vs : List (Value F)}
    (hreply : replyTo cfg lib api b = .ok vs) (hb : b.1 ≤ todo.length) {e' : Loop F R}
    (hadd : vs.zipIdx.foldlM (addEmbedding todo b.1) e = .ok e') :
    Looped cfg lib np api todo old (bs ++ [b]) d e' { t with asked := t.asked ++ [b.2] } := by
  obtain ⟨hwithin, hsized, hdim, -, hfailed, hids, hvecs⟩ := addEmbeddings_ok hadd hb
  rw [Nat.add_zero] at hwithin hids
  have hlength := length_window hwithin
  have hgranted : granted cfg lib api todo (bs ++ [b]) =
      granted cfg lib api todo bs ++ (window todo b.1 vs.length).zip vs := by
    rw [granted_snoc, hreply]
    rfl
  have hrefused : refused cfg lib api todo (bs ++ [b]) = refused cfg lib api todo bs := by
    rw [refused_snoc, hreply]
    exact List.append_nil _
  have hfst := ids_zip hwithin
  have hsnd := vecs_zip (R := R) hwithin
  refine ⟨fun c hc y hy => ?_, fun c hc vs' hvs' => ?_, fun x hx => ?_, ?_, ?_, ?_, ?_,
    h.metaFile, h.failedFile, ?_, ?_⟩
  · rcases List.mem_append.mp hc with hc | hc
    · exact h.decided c hc y hy
    · obtain rfl := List.mem_singleton.mp hc
      rw [hreply] at hy
      cases hy
  · rcases List.mem_append.mp hc with hc | hc
    · exact h.within c hc vs' hvs'
    · obtain rfl := List.mem_singleton.mp hc
      rw [hreply] at hvs'
      cases hvs'
      exact hwithin
  · rw [hgranted, List.head?_append] at hx
    cases hgs : (granted cfg lib api todo bs).head? with
    | some y =>
      rw [hgs] at hx
      exact h.sized x (hgs ▸ hx)
    | none =>
      -- The first vector of all is the first one of this batch.
      rw [hgs, Option.none_or] at hx
      exact hsized (h.dim.mpr (List.head?_eq_none_iff.mp hgs)) x.2 (head?_zip_snd hx)
  · have hnil : (window todo b.1 vs.length).zip vs = [] ↔ vs = [] := by
      rw [← List.length_eq_zero_iff, List.length_zip, hlength, Nat.min_self,
        List.length_eq_zero_iff]
    rw [hdim, h.dim, hgranted, List.append_eq_nil_iff, hnil]
  · rw [hids, h.ids, hgranted, idsOf, idsOf, List.map_append, hfst, List.append_assoc]
  · rw [hvecs, h.vecs, hgranted, vecsOf, vecsOf, List.map_append, hsnd, List.append_assoc]
  · rw [hrefused, hfailed, h.failed]
  · rw [h.asked, List.map_append, List.append_assoc]
    rfl
  · obtain ⟨ws, hwritten, harchive, hws⟩ := h.written
    exact ⟨ws, hwritten, harchive, fun w hw => (hws w hw).mono (prefix_granted bs [b])⟩

/-- The archive is written. -/
theorem Looped.save (h : Looped cfg lib np api todo old bs d e t) {m : Matrix R}
    (hm : np.asarray e.vecs = .ok m) (n : Nat) :
    Looped cfg lib np api todo old bs d { e with done := n }
      { t with
        archive := some ⟨e.ids, m.rows⟩
        written := t.written ++ [⟨e.ids, m.rows⟩] } := by
  obtain ⟨ws, hwritten, -, hws⟩ := h.written
  refine ⟨h.decided, h.within, h.sized, h.dim, h.ids, h.vecs, h.failed, h.metaFile, h.failedFile,
    h.asked, ws ++ [⟨e.ids, m.rows⟩], ?_, ?_, fun w hw => ?_⟩
  · rw [hwritten, List.append_assoc]
  · rw [List.getLast?_concat]
    rfl
  · rcases List.mem_append.mp hw with hw | hw
    · exact hws w hw
    · obtain rfl := List.mem_singleton.mp hw
      exact ⟨_, m, List.prefix_refl _, h.vecs ▸ hm, by rw [h.ids]⟩

theorem save_ends {Q : Matrix R → Disk R → Prop} {E : Exn → Disk R → Prop}
    (hok : ∀ m, np.asarray e.vecs = .ok m → Q m { t with
      archive := some ⟨e.ids, m.rows⟩
      written := t.written ++ [⟨e.ids, m.rows⟩] })
    (herr : ∀ x, np.asarray e.vecs = .error x → E x t) : Ends (save np e) t Q E :=
  ends_bind (ends_lift (fun m hm => ends_bind (ends_update (ends_pure (hok m hm)))) herr)

/-- One batch goes on, or it meets what makes the run raise. -/
theorem embedBatch_ends (h : Looped cfg lib np api todo old bs d e t) (hb : b.1 < todo.length) :
    Ends (embedBatch cfg lib np api items todo e b) t
      (fun e' t' => Looped cfg lib np api todo old (bs ++ [b]) d e' t')
      (fun _ _ => Stuck cfg lib np api todo old (bs ++ b :: rest)) := by
  have hmem : b ∈ bs ++ b :: rest := List.mem_append_right _ List.mem_cons_self
  have hmore : granted cfg lib api todo (bs ++ [b]) <+:
      granted cfg lib api todo (bs ++ b :: rest) := by
    have hsplit : bs ++ b :: rest = bs ++ [b] ++ rest := List.append_cons bs b rest
    rw [hsplit]
    exact prefix_granted _ rest
  refine ends_bind (ends_update ?_)
  rw [embedBatchRetry_eq]
  change Ends (match replyTo cfg lib api b with
    | .error x => _
    | .ok embeddings => _) _ _ _
  cases hreply : replyTo cfg lib api b with
  | error x =>
    dsimp only
    split
    · rename_i hx
      exact ends_pure (h.skip hreply hx)
    · rename_i hx
      exact Stuck.raised b hmem x hreply (Bool.eq_false_iff.mpr hx)
  | ok vs =>
    dsimp only
    refine ends_bind (ends_lift (fun e' hadd => ?_) fun x herror => ?_)
    · have hnext := h.add hreply hb.le hadd
      split
      · refine ends_bind (save_ends (fun m hm => ends_pure (hnext.save hm _)) fun x hx => ?_)
        exact .unconverted _ x hmore (hnext.vecs ▸ hx)
      · exact ends_pure hnext
    · rcases addEmbeddings_error herror with hend | ⟨hdim, v, hv, hnot⟩
      · exact .beyond b hmem vs hreply hend
      · refine .unsized (todo[b.1], v) (head?_mono hmore ?_) hnot
        rw [granted_snoc, h.dim.mp hdim, hreply, List.nil_append, gain]
        cases vs with
        | nil => cases hv
        | cons w vs =>
          cases hv
          rw [List.length_cons, window_succ (List.getElem?_eq_getElem hb)]
          rfl

end Loop

/-! ## The run -/

/-- The batches of a run. -/
def batchesOf (cfg : Config) (items : List Item) (d : Disk R) : List (Nat × List Str) :=
  batchTexts (todoOf (loadExisting d) items) cfg.batchSize

/-- The loop has ended and its vectors make a matrix. -/
structure Collected (cfg : Config) (lib : Library F) (np : Numpy F R) (api : Api F)
    (items : List Item) (d : Disk R) (e : Loop F R) (m : Matrix R) (u : Disk R) : Prop where
  loop : Looped cfg lib np api (todoOf (loadExisting d) items) (loadExisting d)
    (batchesOf cfg items d) d e u
  matrix : np.asarray e.vecs = .ok m

/-- What a run that returns leaves on the disk. -/
def Finished (cfg : Config) (lib : Library F) (np : Numpy F R) (api : Api F) (items : List Item)
    (d t : Disk R) : Prop :=
  ∃ e m u dim, Collected cfg lib np api items d e m u ∧ m.dim = some dim ∧
    t = { u with
      archive := some ⟨e.ids, m.rows⟩
      written := u.written ++ [⟨e.ids, m.rows⟩]
      metaFile := .written dim m.rows.length
      failedFile := if e.failed = [] then u.failedFile else some e.failed }

/-- What a run leaves whose matrix has one axis: the ids of the skipped batches are lost. -/
def Flat (cfg : Config) (lib : Library F) (np : Numpy F R) (api : Api F) (items : List Item)
    (d t : Disk R) : Prop :=
  ∃ e m u, Collected cfg lib np api items d e m u ∧ m.dim = none ∧
    t = { u with
      archive := some ⟨e.ids, m.rows⟩
      written := u.written ++ [⟨e.ids, m.rows⟩]
      metaFile := .truncated }

/-- A run returns, or one of the answers makes it raise, or there is no dimension. -/
theorem run_ends (cfg : Config) (lib : Library F) (np : Numpy F R) (api : Api F)
    (items : List Item) (d : Disk R) :
    Ends (run cfg lib np api items) d
      (fun _ t => Finished cfg lib np api items d t)
      (fun _ t => Stuck cfg lib np api (todoOf (loadExisting d) items) (loadExisting d)
        (batchesOf cfg items d) ∨ Flat cfg lib np api items d t) := by
  refine ends_bind (ends_read ?_)
  have hstart : Looped cfg lib np api (todoOf (loadExisting d) items) (loadExisting d) [] d
      ⟨(loadExisting d).ids, (loadExisting d).vectors.map .row, (loadExisting d).ids.length, [],
        none⟩ d :=
    ⟨nofun, nofun, nofun, ⟨fun _ => rfl, fun _ => rfl⟩, (List.append_nil _).symm,
      (List.append_nil _).symm, rfl, rfl, rfl, (List.append_nil _).symm,
      [], (List.append_nil _).symm, rfl, nofun⟩
  refine ends_bind (ends_mono (ends_foldlM (fun done e t => Looped cfg lib np api
    (todoOf (loadExisting d) items) (loadExisting d) done d e t) hstart
      fun done b rest e t hsplit h => ?_) (fun e u h => ?_) fun _ _ h => .inl h)
  · have hb := (batch_of_mem cfg.batchSize_pos
      (hsplit ▸ List.mem_append_right done List.mem_cons_self)).2
    rw [batchesOf, hsplit]
    exact embedBatch_ends h hb
  · refine ends_bind (save_ends (fun m hm => ?_) fun x hx => ?_)
    · cases hdim : m.dim with
      | none =>
        exact ends_bind (ends_update (.inr ⟨e, m, u, ⟨h, hm⟩, hdim, rfl⟩))
      | some dim =>
        refine ends_bind (ends_update ?_)
        split
        · rename_i hnil
          refine ends_pure ⟨e, m, u, dim, ⟨h, hm⟩, hdim, ?_⟩
          rw [if_pos hnil]
        · rename_i hne
          refine ends_update ⟨e, m, u, dim, ⟨h, hm⟩, hdim, ?_⟩
          rw [if_neg hne]
    · exact .inl (.unconverted _ x (List.prefix_refl _) (h.vecs ▸ hx))

section Run

variable {cfg : Config} {lib : Library F} {np : Numpy F R} {api : Api F} {items : List Item}
  {d : Disk R}

/-- The matrix is made of the old vectors and those of the batches that were answered. -/
theorem Collected.asarray {e : Loop F R} {m : Matrix R} {u : Disk R}
    (h : Collected cfg lib np api items d e m u) :
    np.asarray (vecsOf (loadExisting d) (granted cfg lib api (todoOf (loadExisting d) items)
      (batchesOf cfg items d))) = .ok m := h.loop.vecs ▸ h.matrix

/-- Where no answer makes it raise and the vectors make a matrix with a dimension, a run
returns. -/
theorem run_returns (hfree : ¬ Stuck cfg lib np api (todoOf (loadExisting d) items)
      (loadExisting d) (batchesOf cfg items d)) {m : Matrix R}
    (hm : np.asarray (vecsOf (loadExisting d) (granted cfg lib api (todoOf (loadExisting d) items)
      (batchesOf cfg items d))) = .ok m) (hdim : m.dim.isSome = true) :
    ∃ t, Returns (run cfg lib np api items) d () t ∧ Finished cfg lib np api items d t := by
  have hends : Ends (run cfg lib np api items) d
      (fun _ t => Finished cfg lib np api items d t) (fun _ _ => False) := by
    apply ends_mono (run_ends cfg lib np api items d) (fun _ _ h => h)
    rintro - t (hstuck | ⟨e, m', u, hcollected, hflat, -⟩)
    · exact hfree hstuck
    · obtain rfl := Except.ok.inj (hcollected.asarray.symm.trans hm)
      rw [hflat] at hdim
      cases hdim
  obtain ⟨⟨⟩, t, hrun, hfinished⟩ := hends.returns
  exact ⟨t, hrun, hfinished⟩

end Run

end WebSpider.Embedder
