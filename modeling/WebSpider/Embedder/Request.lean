import WebSpider.Effects.Retry
import WebSpider.Fetcher.FetchOne
import WebSpider.Json.Order

/-!
# One request for embeddings

`embed_batch_retry` of `embed_chunks.py`. An attempt that the API refuses is followed by
another one; a response with status 200 decides, whatever its body is, and so does a
`Retry-After` that `time.sleep` refuses (`embedBatchRetry_eq`). A body that has an embedding
for every text gives them in the order of the texts (`embeddingsOf_proper`).
-/

namespace WebSpider.Embedder

open Text Json Effects Fetcher

variable {F : Type}

/-! ## The surroundings -/

/-- Exceptions of `embed_chunks.py`. -/
inductive Exn where
  | runtimeError
  | recursionError
  | keyError
  | typeError
  | attributeError
  | valueError
  | overflowError
  | indexError
  deriving DecidableEq

/-- `isinstance(e, RuntimeError)` -/
def Exn.isRuntimeError : Exn → Bool
  | .runtimeError | .recursionError => true
  | _ => false

def Exn.ofBuiltin : Builtin → Exn
  | .valueError => .valueError
  | .typeError => .typeError
  | .overflowError => .overflowError

/-- What the standard library says about numbers. -/
structure Library (F : Type) where
  /-- `float` of a text. No value is a `ValueError`. -/
  float : Str → Option Seconds
  /-- The value of a float of a JSON text. -/
  val : F → Option Extended

/-- The body of a response with status 200. The decoder raises on a JSON text that is too
deep or has an integer of too many digits. -/
inductive Body (F : Type) where
  | json (v : Value F)
  | tooDeep
  | tooLong

/-- How `requests.post` ends. A `RequestException` is also raised for a body that is not
JSON. -/
inductive Post (F : Type) where
  | requestException
  | response (status : Int) (retryAfter : Option Str) (body : Body F)

/-! ## The response -/

/-- `max(v, 0.0)` -/
def atLeastZero : Seconds → Seconds
  | .finite x => .finite (if 0 ≤ x then x else 0)
  | .negInf => .finite 0
  | .inf => .inf
  | .nan => .nan

/-- `_parse_retry_after` -/
def parseRetryAfter (lib : Library F) : Option Str → Option Seconds
  | none => none
  | some value => if value = [] then none else (lib.float value).map atLeastZero

/-- `v[key]` -/
def getItem (v : Value F) (key : Str) : Except Exn (Value F) :=
  match v with
  | .obj fields =>
    match lookup key fields with
    | some w => .ok w
    | none => .error .keyError
  | _ => .error .typeError

/-- `resp.json()` -/
def Body.decode : Body F → Except Exn (Value F)
  | .json v => .ok v
  | .tooDeep => .error .recursionError
  | .tooLong => .error .valueError

/-- `data.sort(key=lambda d: d["index"])` -/
def sortByIndex (lib : Library F) : Value F → Except Exn (List (Value F))
  | .arr data => do
    let keyed ← data.mapM fun d => do
      let index ← getItem d (lit "index")
      pure (index, d)
    match sortByKey lib.val keyed with
    | some sorted => pure sorted
    | none => .error .typeError
  | _ => .error .attributeError

/-- What is returned for a response with status 200. -/
def embeddingsOf (lib : Library F) (body : Body F) : Except Exn (List (Value F)) := do
  let json ← body.decode
  let data ← getItem json (lit "data")
  let sorted ← sortByIndex lib data
  sorted.mapM fun d => getItem d (lit "embedding")

/-! ## The attempts -/

/-- `time.sleep(wait)`. From `2.0 ** 1024` on the power raises. -/
def backOff (attempt : Nat) : Option Seconds → Except Exn Unit
  | some seconds =>
    match sleepError seconds with
    | some e => .error (.ofBuiltin e)
    | none => .ok ()
  | none => if 1024 ≤ attempt then .error .overflowError else .ok ()

/-- The loop over the attempts that are left. -/
def attempts (lib : Library F) (post : Nat → Post F) (attempt : Nat) :
    Nat → Except Exn (List (Value F))
  | 0 => .error .runtimeError
  | left + 1 =>
    match post attempt with
    | .requestException => do
      backOff attempt none
      attempts lib post (attempt + 1) left
    | .response status retryAfter body =>
      if status = 200 then embeddingsOf lib body
      else do
        backOff attempt (parseRetryAfter lib retryAfter)
        attempts lib post (attempt + 1) left

/-- `embed_batch_retry` -/
def embedBatchRetry (lib : Library F) (maxAttempts : Nat) (post : Nat → Post F) :
    Except Exn (List (Value F)) := attempts lib post 0 maxAttempts

/-! ## The decisive attempt -/

/-- The exception of a pause, which ends the attempts. -/
def refusal : Except Exn Unit → Option (Except Exn (List (Value F)))
  | .ok () => none
  | .error e => some (.error e)

/-- What an attempt decides; no value goes on with the next one. -/
def decision (lib : Library F) (post : Nat → Post F) (attempt : Nat) :
    Option (Except Exn (List (Value F))) :=
  match post attempt with
  | .requestException => refusal (backOff attempt none)
  | .response status retryAfter body =>
    if status = 200 then some (embeddingsOf lib body)
    else refusal (backOff attempt (parseRetryAfter lib retryAfter))

/-- What the first decisive attempt says. -/
def answer (lib : Library F) (maxAttempts : Nat) (post : Nat → Post F) :
    Except Exn (List (Value F)) :=
  match firstDecision (decision lib post) 0 maxAttempts with
  | some (_, reply) => reply
  | none => .error .runtimeError

theorem attempts_eq (lib : Library F) (post : Nat → Post F) (attempt left : Nat) :
    attempts lib post attempt left =
      match firstDecision (decision lib post) attempt left with
      | some (_, reply) => reply
      | none => .error .runtimeError := by
  induction left generalizing attempt with
  | zero => rfl
  | succ left ih =>
    have hpause (pause : Except Exn Unit) (hdecision : decision lib post attempt = refusal pause) :
        (do pause; attempts lib post (attempt + 1) left) =
          match firstDecision (decision lib post) attempt (left + 1) with
          | some (_, reply) => reply
          | none => .error .runtimeError := by
      rw [firstDecision, hdecision]
      cases pause with
      | ok _ => exact ih (attempt + 1)
      | error e => rfl
    rw [attempts]
    cases hpost : post attempt with
    | requestException => exact hpause _ (by rw [decision, hpost])
    | response status retryAfter body =>
      dsimp only
      split
      · rename_i hstatus
        have hdecision : decision lib post attempt = some (embeddingsOf lib body) := by
          rw [decision, hpost]
          exact if_pos hstatus
        rw [firstDecision, hdecision]
      · rename_i hstatus
        apply hpause
        rw [decision, hpost]
        exact if_neg hstatus

/-- The attempts end as the first decisive one says. -/
theorem embedBatchRetry_eq (lib : Library F) (maxAttempts : Nat) (post : Nat → Post F) :
    embedBatchRetry lib maxAttempts post = answer lib maxAttempts post :=
  attempts_eq lib post 0 maxAttempts

/-! ## Bodies that hold the embeddings -/

/-- An entry of `data`: the embedding of a text and the place of the text. -/
structure Entry (d : Value F) (x : Value F × Nat) : Prop where
  index : getItem d (lit "index") = .ok (.int x.2)
  embedding : getItem d (lit "embedding") = .ok x.1

/-- The body has an entry for each of the embeddings, in any order. -/
def Holds (embeddings : List (Value F)) (body : Body F) : Prop :=
  ∃ fields data entries, body = .json (.obj fields) ∧
    lookup (lit "data") fields = some (.arr data) ∧ data.Perm entries ∧
    List.Forall₂ Entry entries embeddings.zipIdx

/-- The key of an entry. -/
def indexOf (d : Value F) : Value F := (getItem d (lit "index")).toOption.getD .null

theorem mapM_ok {α β : Type} {f : α → Except Exn β} {xs : List α} {ys : List β}
    (h : List.Forall₂ (fun x y => f x = .ok y) xs ys) : xs.mapM f = .ok ys := by
  induction h with
  | nil => rfl
  | cons hxy _ ih =>
    rw [List.mapM_cons, hxy, ih]
    rfl

theorem entries_keyed {entries embeddings : List (Value F)} {k : Nat}
    (h : List.Forall₂ Entry entries (embeddings.zipIdx k)) :
    entries.map (fun d => (indexOf d, d)) =
      (entries.zipIdx k).map fun x => (.int x.2, x.1) := by
  induction entries generalizing embeddings k with
  | nil => rfl
  | cons d entries ih =>
    cases embeddings with
    | nil => cases h
    | cons v embeddings =>
      obtain ⟨hd, hrest⟩ := List.forall₂_cons.mp h
      rw [List.map_cons, List.zipIdx_cons, List.map_cons, ih hrest, indexOf, hd.index]
      rfl

theorem entries_index {entries : List (Value F)} {xs : List (Value F × Nat)}
    (h : List.Forall₂ Entry entries xs) {d : Value F} (hd : d ∈ entries) :
    getItem d (lit "index") = .ok (indexOf d) := by
  induction h with
  | nil => cases hd
  | cons hentry _ ih =>
    rcases List.mem_cons.mp hd with rfl | hd
    · rw [indexOf, hentry.index]
      rfl
    · exact ih hd

theorem entries_embeddings {entries embeddings : List (Value F)} {k : Nat}
    (h : List.Forall₂ Entry entries (embeddings.zipIdx k)) :
    List.Forall₂ (fun d v => getItem d (lit "embedding") = .ok v) entries embeddings := by
  induction entries generalizing embeddings k with
  | nil =>
    cases embeddings with
    | nil => exact .nil
    | cons v embeddings => cases h
  | cons d entries ih =>
    cases embeddings with
    | nil => cases h
    | cons v embeddings =>
      obtain ⟨hd, hrest⟩ := List.forall₂_cons.mp h
      exact .cons hd.embedding (ih hrest)

theorem pairwise_zipIdx {α : Type} (xs : List α) (k : Nat) :
    (xs.zipIdx k).Pairwise fun x y => x.2 < y.2 := by
  have h : ((xs.zipIdx k).map Prod.snd).Pairwise (· < ·) := by
    rw [List.zipIdx_map_snd]
    exact List.pairwise_lt_range'
  exact List.pairwise_map.mp h

/-- Such a body gives the embeddings, in the order of the texts. -/
theorem embeddingsOf_holds (lib : Library F) {embeddings : List (Value F)} {body : Body F}
    (h : Holds embeddings body) : embeddingsOf lib body = .ok embeddings := by
  obtain ⟨fields, data, entries, rfl, hdata, hperm, hentries⟩ := h
  have hkeys : data.mapM (fun d => do
      let index ← getItem d (lit "index")
      pure (index, d)) = .ok (data.map fun d => (indexOf d, d)) := by
    refine mapM_ok (List.forall₂_map_right_iff.mpr (List.forall₂_same.mpr fun d hd => ?_))
    rw [entries_index hentries (hperm.mem_iff.mp hd)]
    rfl
  have hkeyed : (data.map fun d => (indexOf d, d)).Perm
      ((entries.zipIdx.map fun x => ((x.2 : Int), x.1)).map fun z => (.int z.1, z.2)) := by
    refine (hperm.map _).trans (.of_eq ?_)
    rw [entries_keyed hentries, List.map_map]
    rfl
  have hsorted := sortByKey_int lib.val hkeyed (List.pairwise_map.mpr
    ((pairwise_zipIdx entries 0).imp fun hlt => Int.ofNat_lt.mpr hlt))
  have hback : (entries.zipIdx.map fun x => ((x.2 : Int), x.1)).map Prod.snd = entries := by
    rw [List.map_map]
    exact List.zipIdx_map_fst 0 entries
  rw [hback] at hsorted
  have hsort : sortByIndex lib (.arr data) = .ok entries := by
    rw [sortByIndex, hkeys]
    simp only [bind, Except.bind, hsorted]
    rfl
  have hdecode : getItem (.obj fields) (lit "data") = .ok (.arr data) := by
    rw [getItem, hdata]
  rw [embeddingsOf, Body.decode]
  simp only [bind, Except.bind, hdecode, hsort]
  exact mapM_ok (entries_embeddings hentries)

end WebSpider.Embedder
