import WebSpider.Dashboard.Throttle
import WebSpider.Lists.Recent

/-!
# The cache of the query vectors

`semantic_search` up to the database: a query passes the gate and is looked up in the
`lru_cache` of `_embed_query_cached`, and the embedding API is called for it only when it
is not there. The requests run in threads, so a call is under way while others are looked
up or answered, and two calls for one query may be. Whatever the order, the cache holds
the 128 queries used last, and a query is looked up there without a call exactly when
fewer than 128 others were used since its last use (`cache_exact`).
-/

namespace WebSpider.Dashboard.QueryCache

open Text Effects WebSpider.Lists

variable {V : Type}

/-! ## Definitions -/

/-- `lru_cache(maxsize=128)` -/
def maxsize : Nat := 128

structure State (V : Type) where
  nextOk : ℚ
  clock : ℚ
  /-- The queries that have passed the gate. -/
  waiting : List Str
  /-- The queries for which the API is being called. -/
  calls : List Str
  /-- The cache, the entry used last in front. -/
  entries : List (Str × V)
  /-- History: the uses of the entries in their order, what the API answered, and the
  vectors with which the queries went on to the database. -/
  uses : List Str
  answers : List (Str × V)
  served : List (Str × V)

def State.initial (start : ℚ) : State V := ⟨0, start, [], [], [], [], [], []⟩

inductive Event (V : Type) where
  /-- A request comes to `_throttle`. -/
  | request (r : Request)
  /-- The `i`-th query that has passed the gate is looked up. -/
  | lookup (i : Nat)
  /-- The `i`-th call of the API returns a vector, or raises. -/
  | answer (i : Nat) (vector : Option V)

/-- The start of `semantic_search`; a request that the gate rejects is answered at once. -/
def request (q : Rate) (s : State V) (r : Request) : Option (State V) :=
  if r.now < s.clock then none
  else if r.isBlank then some { s with clock := r.now }
  else match throttle q s.nextOk r.now with
    | .error _ => some { s with clock := r.now }
    | .ok nextOk => some { s with
        nextOk := nextOk
        clock := r.now
        waiting := s.waiting ++ [strip r.query] }

/-- The wrapper of `lru_cache` before the call. -/
def lookUp (s : State V) (i : Nat) : Option (State V) :=
  match s.waiting[i]? with
  | none => none
  | some query =>
    match s.entries.lookup query with
    | some v => some { s with
        waiting := s.waiting.eraseIdx i
        entries := refresh query v s.entries
        uses := s.uses ++ [query]
        served := s.served ++ [(query, v)] }
    | none => some { s with
        waiting := s.waiting.eraseIdx i
        calls := s.calls ++ [query] }

/-- The wrapper after the call: an error is not cached, and an entry that another thread
has made in the meantime stays as it is. -/
def answer (s : State V) (i : Nat) (vector : Option V) : Option (State V) :=
  match s.calls[i]?, vector with
  | none, _ => none
  | some _, none => some { s with calls := s.calls.eraseIdx i }
  | some query, some v =>
    let t := { s with
      calls := s.calls.eraseIdx i
      answers := s.answers ++ [(query, v)]
      served := s.served ++ [(query, v)] }
    match s.entries.lookup query with
    | some _ => some t
    | none => some { t with
        entries := putNew maxsize query v s.entries
        uses := s.uses ++ [query] }

def step (q : Rate) (s : State V) : Event V → Option (State V)
  | .request r => request q s r
  | .lookup i => lookUp s i
  | .answer i vector => answer s i vector

/-! ## The invariant -/

/-- Fewer than 128 other queries have been used since the last use of this one. -/
def UsedRecently (s : State V) (query : Str) : Prop :=
  ∃ pre post, s.uses = pre ++ query :: post ∧ query ∉ post ∧ post.dedup.length < maxsize

/-- The cache holds the queries used last, each with a vector of the API. -/
structure Cached (s : State V) : Prop where
  keys : s.entries.map Prod.fst = (recent s.uses).take maxsize
  answered : ∀ e ∈ s.entries, e ∈ s.answers
  served : ∀ e ∈ s.served, e ∈ s.answers

theorem Cached.nodup {s : State V} (h : Cached s) : (s.entries.map Prod.fst).Nodup := by
  rw [h.keys]
  exact (nodup_recent s.uses).sublist (List.take_sublist _ _)

theorem mem_of_lookup {entries : List (Str × V)} {query : Str} {v : V}
    (h : entries.lookup query = some v) : (query, v) ∈ entries := by
  obtain ⟨pre, post, rfl, -⟩ := List.lookup_eq_some_iff.mp h
  exact List.mem_append_right _ List.mem_cons_self

theorem lookup_eq_none {entries : List (Str × V)} {query : Str} :
    entries.lookup query = none ↔ query ∉ entries.map Prod.fst := by
  rw [List.lookup_eq_none_iff]
  constructor
  · intro h hmem
    obtain ⟨e, he, rfl⟩ := List.mem_map.mp hmem
    exact bne_iff_ne.mp (h e he) rfl
  · intro h e he
    apply bne_iff_ne.mpr
    rintro rfl
    exact h (List.mem_map_of_mem he)

theorem Cached.request {q : Rate} {s t : State V} (hs : Cached s) {r : Request}
    (h : request q s r = some t) : Cached t := by
  unfold QueryCache.request at h
  split at h
  · cases h
  · split at h
    · cases h
      exact ⟨hs.keys, hs.answered, hs.served⟩
    · split at h
      · cases h
        exact ⟨hs.keys, hs.answered, hs.served⟩
      · cases h
        exact ⟨hs.keys, hs.answered, hs.served⟩

theorem Cached.lookUp {s t : State V} (hs : Cached s) {i : Nat} (h : lookUp s i = some t) :
    Cached t := by
  unfold QueryCache.lookUp at h
  split at h
  · cases h
  · rename_i query _
    split at h
    · rename_i v hv
      cases h
      have hentry := mem_of_lookup hv
      have hrecent : query ∈ (recent s.uses).take maxsize := by
        rw [← hs.keys]
        exact List.mem_map_of_mem hentry
      refine ⟨?_, fun e he => ?_, fun e he => ?_⟩
      · rw [keys_refresh hs.nodup, hs.keys]
        exact (take_recent_of_mem hrecent).symm
      · rcases List.mem_cons.mp he with rfl | he
        · exact hs.answered _ hentry
        · exact hs.answered e (List.mem_of_mem_filter he)
      · rcases List.mem_append.mp he with he | he
        · exact hs.served e he
        · obtain rfl := List.mem_singleton.mp he
          exact hs.answered _ hentry
    · cases h
      exact ⟨hs.keys, hs.answered, hs.served⟩

theorem Cached.answer {s t : State V} (hs : Cached s) {i : Nat} {vector : Option V}
    (h : answer s i vector = some t) : Cached t := by
  unfold QueryCache.answer at h
  split at h
  · cases h
  · cases h
    exact ⟨hs.keys, hs.answered, hs.served⟩
  · rename_i query v _
    have hnew : ∀ e ∈ s.served ++ [(query, v)], e ∈ s.answers ++ [(query, v)] := by
      intro e he
      rcases List.mem_append.mp he with he | he
      · exact List.mem_append_left _ (hs.served e he)
      · exact List.mem_append_right _ he
    split at h
    · cases h
      exact ⟨hs.keys, fun e he => List.mem_append_left _ (hs.answered e he), hnew⟩
    · rename_i hnone
      cases h
      have hold : query ∉ (recent s.uses).take maxsize := by
        rw [← hs.keys]
        exact lookup_eq_none.mp hnone
      refine ⟨?_, fun e he => ?_, hnew⟩
      · rw [keys_putNew, hs.keys]
        exact (take_recent_of_not_mem hold).symm
      · rcases List.mem_cons.mp (List.mem_of_mem_take he) with rfl | he
        · exact List.mem_append_right _ List.mem_cons_self
        · exact List.mem_append_left _ (hs.answered e he)

theorem cached {q : Rate} {start : ℚ} {s : State V} {es : List (Event V)}
    (hrun : run (step q) (.initial start) es = some s) : Cached s := by
  refine run_invariant (K := fun _ _ => True) (fun s e t hs _ h => ?_) ?_ (along_true _ _ es) hrun
  · cases e with
    | request r => exact hs.request h
    | lookup i => exact hs.lookUp h
    | answer i vector => exact hs.answer h
  · refine ⟨rfl, fun e he => ?_, fun e he => ?_⟩
    · cases he
    · cases he

/-- In every run, however the threads interleave and whichever calls of the API raise: the
cache holds the 128 queries used last, each once; every vector in it and every one a query
goes on with was returned by the API for that query; and a query that is looked up needs
no call exactly when it has been used recently. -/
theorem cache_exact (q : Rate) (start : ℚ) (es : List (Event V)) (s : State V)
    (hrun : run (step q) (.initial start) es = some s) :
    s.entries.map Prod.fst = (recent s.uses).take maxsize ∧
    (∀ e ∈ s.entries, e ∈ s.answers) ∧ (∀ e ∈ s.served, e ∈ s.answers) ∧
    ∀ i query t, s.waiting[i]? = some query → step q s (.lookup i) = some t →
      (t.calls = s.calls ↔ UsedRecently s query) := by
  have hcached := cached hrun
  refine ⟨hcached.keys, hcached.answered, hcached.served, fun i query t hwaiting h => ?_⟩
  have hiff : UsedRecently s query ↔ query ∈ s.entries.map Prod.fst := by
    rw [hcached.keys, mem_take_recent]
    rfl
  rw [hiff]
  rw [step, lookUp, hwaiting] at h
  dsimp only at h
  cases hentry : s.entries.lookup query with
  | some v =>
    rw [hentry] at h
    cases h
    refine iff_of_true rfl ?_
    exact List.mem_map_of_mem (mem_of_lookup hentry)
  | none =>
    rw [hentry] at h
    cases h
    refine iff_of_false (fun hcalls => ?_) (lookup_eq_none.mp hentry)
    have := congrArg List.length hcalls
    simp at this

/-- A query is embedded, and asked again two seconds later. -/
def sampleRun : List (Event Nat) :=
  [.request (queryAt 10), .lookup 0, .answer 0 (some 7), .request (queryAt 12)]

theorem cache_exact_sample : ∃ s, run (step defaultRate) (.initial 5) sampleRun = some s ∧
    s.entries.map Prod.fst = [lit "retry"] ∧
    ∀ t, step defaultRate s (.lookup 0) = some t → t.calls = s.calls := by
  have hview : (run (step defaultRate) (.initial 5) sampleRun).map (fun s =>
      (s.waiting, s.uses)) = some ([lit "retry"], [lit "retry"]) := by decide +kernel
  obtain ⟨s, hs, heq⟩ := Option.map_eq_some_iff.mp hview
  obtain ⟨hwaiting, huses⟩ := Prod.mk.inj heq
  obtain ⟨hkeys, -, -, hlookup⟩ := cache_exact defaultRate 5 sampleRun s hs
  refine ⟨s, hs, ?_, fun t ht => ?_⟩
  · rw [hkeys, huses]
    rfl
  · apply (hlookup 0 (lit "retry") t (by rw [hwaiting]; rfl) ht).mpr
    exact ⟨[], [], huses, List.not_mem_nil, by decide⟩

end WebSpider.Dashboard.QueryCache
