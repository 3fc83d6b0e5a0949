import WebSpider.Crawler.Stream
import WebSpider.Effects.Run

/-!
# The scheduler

`Scheduler.Run` as a step system: the main loop, the workers it starts under a
semaphore, and the channel on which they report. The main loop and the workers
take their steps in any order. A worker fetches one page of the source and
publishes its articles one after the other.
-/

namespace WebSpider.Crawler

open Text Effects

/-! ## Definitions -/

structure PageResult where
  page : Nat
  empty : Bool
  failed : Bool
  published : Nat
  pubErrs : Nat
  deriving DecidableEq

/-- What a run is started with: the source with the pages it lists, the producer
and the parameters of `New`. -/
structure Job where
  sourceName : Str
  listing : List (List ArticleRaw)
  producer : Producer
  maxPages : Nat
  maxConcurrency : Nat
  pageFailures : Nat
  since : Int

namespace Job

def concurrency (j : Job) : Nat := if j.maxConcurrency = 0 then 8 else j.maxConcurrency

def maxPageFailures (j : Job) : Nat := if j.pageFailures = 0 then 3 else j.pageFailures

end Job

/-- A page of the listing; pages count from 1. -/
def pageItems (listing : List (List ArticleRaw)) (page : Nat) : List ArticleRaw :=
  (listing[page - 1]?).getD []

/-- A successful `FetchSince`: the articles in the window, the oldest time among
them, and whether there are none. -/
def fetchSince (listing : List (List ArticleRaw)) (page : Nat) (since : Int) :
    List ArticleRaw × Int × Bool :=
  let out := (pageItems listing page).filter fun a =>
    decide (since = 0 ∨ since ≤ a.published.instant)
  let oldest := out.foldl (fun acc a =>
    if acc = 0 ∨ a.published.instant < acc then a.published.instant else acc) 0
  (out, oldest, out.isEmpty)

/-- What a worker does next. -/
inductive Task where
  | fetching (page : Nat)
  | publishing (a : ArticleRaw) (rest : List ArticleRaw) (stage : Stage) (res : PageResult)
  | sending (res : PageResult)
  | releasing
  deriving DecidableEq

/-- The loop of a worker over the articles. -/
def publishAll : List ArticleRaw → PageResult → Task
  | [], res => .sending res
  | a :: rest, res => .publishing a rest .script res

/-- What the main loop does next. -/
inductive Pc where
  | wait
  | acquire (page : Nat)
  | select
  | drain
  | record
  | returned
  deriving DecidableEq

structure Sched where
  pc : Pc
  nextPage : Nat
  pending : Nat
  stop : Bool
  pages : Nat
  published : Nat
  pubErrs : Nat
  failedPages : Nat
  /-- `ctx` is cancelled. -/
  cancelled : Bool
  tasks : List Task
  results : List PageResult
  redis : Redis

def Sched.start (r : Redis) : Sched where
  pc := .wait
  nextPage := 1
  pending := 0
  stop := false
  pages := 0
  published := 0
  pubErrs := 0
  failedPages := 0
  cancelled := false
  tasks := []
  results := []
  redis := r

namespace Sched

/-- The condition of the loop. -/
def top (s : Sched) : Sched := { s with pc := if s.stop then .drain else .wait }

/-- `absorb`: the circuit breaker stops the loop. -/
def absorb (j : Job) (r : PageResult) (s : Sched) : Sched :=
  let failedPages := if r.failed then s.failedPages + 1 else s.failedPages
  { s with
    pages := s.pages + 1
    published := s.published + r.published
    pubErrs := s.pubErrs + r.pubErrs
    failedPages := failedPages
    stop := s.stop || (r.failed && decide (j.maxPageFailures ≤ failedPages)) }

def stats (j : Job) (s : Sched) : RunStats := ⟨j.sourceName, s.pages, s.published, s.failedPages, s.pubErrs⟩

/-- The next task of the `k`-th worker. -/
def assign (k : Nat) (task : Task) (s : Sched) : Sched := { s with tasks := s.tasks.set k task }

end Sched

inductive Event where
  | cancel
  /-- `limiter.Wait` and the page limit. -/
  | limiter
  /-- A slot of the semaphore is free. -/
  | spawn
  /-- The three cases of `select`. -/
  | take
  | done
  | default
  /-- One turn of the loop over the closed channel. -/
  | drain
  | record (o : Outcome)
  | fetch (k : Nat) (ok : Bool)
  | call (k : Nat) (o : Outcome) (trimmed : Nat)
  | send (k : Nat)
  | release (k : Nat)

/-! ## Steps -/

/-- The steps of the main loop. -/
def mainStep (j : Job) (s : Sched) : Event → Option Sched
  | .limiter =>
    match s.pc with
    | .wait =>
      if s.cancelled then some { s with pc := .returned }
      else if 0 < j.maxPages ∧ j.maxPages < s.nextPage then
        some { s with stop := true, pc := .drain }
      else some { s with
        nextPage := s.nextPage + 1
        pending := s.pending + 1
        pc := .acquire s.nextPage }
    | _ => none
  | .spawn =>
    match s.pc with
    | .acquire page =>
      if s.tasks.length < j.concurrency then
        let t := { s with tasks := s.tasks ++ [Task.fetching page] }
        some (if 0 < s.pending then { t with pc := .select } else t.top)
      else none
    | _ => none
  | .take =>
    match s.pc, s.results with
    | .select, r :: results =>
      let t := { s with pending := s.pending - 1, results := results }.absorb j r
      some { t with stop := t.stop || r.empty }.top
    | _, _ => none
  | .done => if s.pc = .select ∧ s.cancelled then some { s with stop := true }.top else none
  | .default => if s.pc = .select ∧ s.results = [] ∧ ¬ s.cancelled then some s.top else none
  | .drain =>
    match s.pc, s.results with
    | .drain, r :: results => some ({ s with results := results }.absorb j r)
    | .drain, [] => if s.tasks = [] then some { s with pc := .record } else none
    | _, _ => none
  | .record o =>
    match s.pc with
    | .record => some { s with redis := recordRun (s.stats j) o s.redis, pc := .returned }
    | _ => none
  | _ => none

/-- What a call of `Publish` makes of the worker. -/
def afterCall (a : ArticleRaw) (rest : List ArticleRaw) (res : PageResult) : Published → Task
  | .next stage => .publishing a rest stage res
  | .done true => publishAll rest { res with published := res.published + 1 }
  | .done false => publishAll rest res
  | .error => publishAll rest { res with pubErrs := res.pubErrs + 1 }

/-- The steps of the workers. -/
def workerStep (j : Job) (s : Sched) : Event → Option Sched
  | .fetch k ok =>
    match s.tasks[k]? with
    | some (.fetching page) =>
      if ok then
        let (articles, _, empty) := fetchSince j.listing page j.since
        some (s.assign k (publishAll articles ⟨page, empty, false, 0, 0⟩))
      else some (s.assign k (.sending ⟨page, false, true, 0, 0⟩))
    | _ => none
  | .call k o trimmed =>
    match s.tasks[k]? with
    | some (.publishing a rest stage res) =>
      let (next, redis) := publishCall j.producer a stage o trimmed s.redis
      some { s.assign k (afterCall a rest res next) with redis := redis }
    | _ => none
  | .send k =>
    match s.tasks[k]? with
    | some (.sending res) =>
      if s.results.length < j.concurrency then
        some { s.assign k .releasing with results := s.results ++ [res] }
      else none
    | _ => none
  | .release k =>
    match s.tasks[k]? with
    | some .releasing => some { s with tasks := s.tasks.eraseIdx k }
    | _ => none
  | _ => none

/-- One step of a run. -/
def step (j : Job) (s : Sched) (e : Event) : Option Sched :=
  match e with
  | .cancel => some { s with cancelled := true }
  | .limiter | .spawn | .take | .done | .default | .drain | .record _ => mainStep j s e
  | .fetch _ _ | .call _ _ _ | .send _ | .release _ => workerStep j s e

/-! ## What a step does to Redis -/

/-- How a step leaves Redis: as it was, after a call of `Publish`, or after `RecordRun`. -/
inductive Writes (j : Job) (s : Sched) (r : Redis) : Event → Prop
  | same {e : Event} (hredis : r = s.redis) : Writes j s r e
  | call (k : Nat) (o : Outcome) (trimmed : Nat) (a : ArticleRaw) (rest : List ArticleRaw)
      (stage : Stage) (res : PageResult)
      (htask : s.tasks[k]? = some (.publishing a rest stage res))
      (hredis : r = (publishCall j.producer a stage o trimmed s.redis).2) :
      Writes j s r (.call k o trimmed)
  | record {e : Event} (stats : RunStats) (o : Outcome)
      (hredis : r = recordRun stats o s.redis) : Writes j s r e

theorem writes_of_mainStep {j : Job} {s t : Sched} {e : Event} (h : mainStep j s e = some t) :
    Writes j s t.redis e := by
  unfold mainStep at h
  split at h
  · split at h
    · split at h
      · cases h
        exact .same rfl
      · split at h
        · cases h
          exact .same rfl
        · cases h
          exact .same rfl
    · cases h
  · split at h
    · split at h
      · simp only [Option.some.injEq] at h
        split at h
        · cases h
          exact .same rfl
        · cases h
          exact .same rfl
      · cases h
    · cases h
  · split at h
    · cases h
      exact .same rfl
    · cases h
  · split at h
    · cases h
      exact .same rfl
    · cases h
  · split at h
    · cases h
      exact .same rfl
    · cases h
  · split at h
    · cases h
      exact .same rfl
    · split at h
      · cases h
        exact .same rfl
      · cases h
    · cases h
  · split at h
    · cases h
      exact .record _ _ rfl
    · cases h
  · cases h

theorem writes_of_workerStep {j : Job} {s t : Sched} {e : Event} (h : workerStep j s e = some t) :
    Writes j s t.redis e := by
  unfold workerStep at h
  split at h
  · split at h
    · split at h
      · cases h
        exact .same rfl
      · cases h
        exact .same rfl
    · cases h
  · split at h
    · rename_i htask
      cases h
      exact .call _ _ _ _ _ _ _ htask rfl
    · cases h
  · split at h
    · split at h
      · cases h
        exact .same rfl
      · cases h
    · cases h
  · split at h
    · cases h
      exact .same rfl
    · cases h
  · cases h

theorem writes_of_step {j : Job} {s t : Sched} {e : Event} (h : step j s e = some t) :
    Writes j s t.redis e := by
  cases e with
  | cancel =>
    cases h
    exact .same rfl
  | limiter => exact writes_of_mainStep (e := .limiter) h
  | spawn => exact writes_of_mainStep (e := .spawn) h
  | take => exact writes_of_mainStep (e := .take) h
  | done => exact writes_of_mainStep (e := .done) h
  | default => exact writes_of_mainStep (e := .default) h
  | drain => exact writes_of_mainStep (e := .drain) h
  | record o => exact writes_of_mainStep (e := .record o) h
  | fetch k ok => exact writes_of_workerStep (e := .fetch k ok) h
  | call k o trimmed => exact writes_of_workerStep (e := .call k o trimmed) h
  | send k => exact writes_of_workerStep (e := .send k) h
  | release k => exact writes_of_workerStep (e := .release k) h

end WebSpider.Crawler
