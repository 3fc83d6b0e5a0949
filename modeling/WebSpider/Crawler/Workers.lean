import WebSpider.Crawler.Scheduler
import Mathlib.Data.List.Perm.Basic
import Mathlib.Tactic.Simps.Basic

/-!
# The worker pool of the scheduler

`Scheduler.Run` over any source and any publisher. The answers of `FetchSince`
and `Publish` come with the events, so a run stands for any source, and the steps
of the main loop and of the workers come in any order. Each channel is what it
holds: the semaphore is the workers that hold a slot, and `results` is the list
of results waiting in its buffer. `acts` records what the run did.
-/

namespace WebSpider.Crawler.Workers

open Text Effects

variable {α : Type}

/-! ## Definitions -/

/-- The scheduler as `New` builds it, less the source and the publisher. -/
structure Settings where
  sourceName : Str
  maxPages : Int
  concurrency : Nat
  maxPageFailures : Nat
  ratePerSec : Int
  concurrency_pos : 0 < concurrency
  maxPageFailures_pos : 0 < maxPageFailures

/-- The defaults of `New`. -/
def orDefault (n : Int) (default : Nat) : Nat := if n ≤ 0 then default else n.toNat

theorem orDefault_pos (n : Int) {default : Nat} (h : 0 < default) : 0 < orDefault n default := by
  unfold orDefault
  split
  · exact h
  · omega

/-- `New`. -/
def new (sourceName : Str) (maxPages concurrency ratePerSec maxPageFailures : Int) : Settings where
  sourceName := sourceName
  maxPages := maxPages
  concurrency := orDefault concurrency 8
  maxPageFailures := orDefault maxPageFailures 3
  ratePerSec := ratePerSec
  concurrency_pos := orDefault_pos _ (by omega)
  maxPageFailures_pos := orDefault_pos _ (by omega)

/-- What a worker does next. The deferred calls come in the order of their
execution: the slot of the semaphore is given back before `wg.Done`. -/
inductive Task (α : Type) where
  | fetching (page : Nat)
  | publishing (a : α) (rest : List α) (res : PageResult)
  | sending (res : PageResult)
  | releasing
  | finishing
  deriving DecidableEq

/-- The loop of a worker over the articles. -/
def publishAll : List α → PageResult → Task α
  | [], res => .sending res
  | a :: rest, res => .publishing a rest res

/-- What `FetchSince` answers: the articles and whether the page is empty, or an error. -/
abbrev Answer (α : Type) := Option (List α × Bool)

def afterFetch (page : Nat) : Answer α → Task α
  | none => .sending ⟨page, false, true, 0, 0⟩
  | some (articles, empty) => publishAll articles ⟨page, empty, false, 0, 0⟩

/-- A result after one more call of `Publish`, which returned the flag or an error. -/
def tally (res : PageResult) : Option Bool → PageResult
  | none => { res with pubErrs := res.pubErrs + 1 }
  | some true => { res with published := res.published + 1 }
  | some false => res

namespace Task

/-- The worker holds a slot of the semaphore. -/
def holds : Task α → Bool
  | .finishing => false
  | _ => true

/-- The worker has not sent its result. -/
def unsent : Task α → Bool
  | .releasing | .finishing => false
  | _ => true

end Task

/-- What a run does: it starts a worker for a page, calls the source and the
publisher, and absorbs the result of a page. -/
inductive Act (α : Type) where
  | launch (page : Nat)
  | fetch (page : Nat) (answer : Answer α)
  | publish (a : α) (answer : Option Bool)
  | absorb (r : PageResult)
  | record (stats : RunStats)
  deriving DecidableEq

structure State (α : Type) where
  pc : Pc
  nextPage : Nat
  pending : Nat
  stop : Bool
  pages : Nat
  published : Nat
  pubErrs : Nat
  failedPages : Nat
  /-- `ctx` is cancelled. -/
  cancelled : Bool
  tasks : List (Task α)
  results : List PageResult
  /-- `results` is closed. -/
  closed : Bool
  /-- A worker has sent on the closed channel. -/
  panicked : Bool
  /-- History: what the run did. -/
  acts : List (Act α)

def start : State α where
  pc := .wait
  nextPage := 1
  pending := 0
  stop := false
  pages := 0
  published := 0
  pubErrs := 0
  failedPages := 0
  cancelled := false
  tasks := []
  results := []
  closed := false
  panicked := false
  acts := []

namespace State

/-- The condition of the loop. -/
@[simps]
def top (s : State α) : State α := { s with pc := if s.stop then .drain else .wait }

/-- `absorb`: the circuit breaker stops the loop. -/
@[simps]
def absorb (cfg : Settings) (r : PageResult) (s : State α) : State α :=
  let failedPages := if r.failed then s.failedPages + 1 else s.failedPages
  { s with
    pages := s.pages + 1
    published := s.published + r.published
    pubErrs := s.pubErrs + r.pubErrs
    failedPages := failedPages
    stop := s.stop || (r.failed && decide (cfg.maxPageFailures ≤ failedPages))
    acts := s.acts ++ [Act.absorb r] }

/-- The result taken in the first case of `select`. -/
@[simps!]
def take (cfg : Settings) (r : PageResult) (results : List PageResult) (s : State α) : State α :=
  { s.absorb cfg r with
    pending := s.pending - 1
    results := results
    stop := (s.absorb cfg r).stop || r.empty }.top

theorem top_pc_or (s : State α) : s.top.pc = .drain ∨ s.top.pc = .wait := by
  rw [top_pc]
  split
  · exact .inl rfl
  · exact .inr rfl

theorem take_pc_or (cfg : Settings) (r : PageResult) (results : List PageResult) (s : State α) :
    (s.take cfg r results).pc = .drain ∨ (s.take cfg r results).pc = .wait := top_pc_or _

def stats (cfg : Settings) (s : State α) : RunStats :=
  ⟨cfg.sourceName, s.pages, s.published, s.failedPages, s.pubErrs⟩

/-- The slots of the semaphore in use. -/
def slots (s : State α) : Nat := s.tasks.countP Task.holds

/-- The next task of the `k`-th worker, and what it did for it. -/
def assign (k : Nat) (task : Task α) (acts : List (Act α)) (s : State α) : State α :=
  { s with tasks := s.tasks.set k task, acts := s.acts ++ acts }

end State

inductive Event (α : Type) where
  | cancel
  /-- `limiter.Wait` returns or fails. -/
  | limiter (ok : Bool)
  /-- The slot of the semaphore is taken and the worker started. -/
  | spawn
  /-- The three cases of `select`. -/
  | take
  | done
  | default
  /-- `close` after `wg.Wait`. -/
  | close
  /-- One turn of the loop over `results`, and its end. -/
  | drain
  | finish
  | record
  | fetch (k : Nat) (answer : Answer α)
  | publish (k : Nat) (answer : Option Bool)
  | send (k : Nat)
  | release (k : Nat)
  | exit (k : Nat)
  deriving DecidableEq

/-- The steps of the main loop. The limiter fails when `ctx` is cancelled or its
burst admits no request; a cancelled wait may still return. -/
def mainStep (cfg : Settings) (s : State α) : Event α → Option (State α)
  | .limiter ok =>
    if s.pc ≠ .wait then none
    else if ok then
      if cfg.ratePerSec ≤ 0 then none
      else if 0 < cfg.maxPages ∧ cfg.maxPages < s.nextPage then
        some { s with stop := true, pc := .drain }
      else some { s with
        nextPage := s.nextPage + 1
        pending := s.pending + 1
        pc := .acquire s.nextPage }
    else if s.cancelled ∨ cfg.ratePerSec ≤ 0 then some { s with pc := .returned }
    else none
  | .spawn =>
    match s.pc with
    | .acquire page =>
      if s.slots < cfg.concurrency then
        let t := { s with
          tasks := s.tasks ++ [Task.fetching page]
          acts := s.acts ++ [Act.launch page] }
        some (if 0 < s.pending then { t with pc := .select } else t.top)
      else none
    | _ => none
  | .take =>
    match s.pc, s.results with
    | .select, r :: results => some (s.take cfg r results)
    | _, _ => none
  | .done => if s.pc = .select ∧ s.cancelled then some { s with stop := true }.top else none
  | .default => if s.pc = .select ∧ s.results = [] ∧ ¬ s.cancelled then some s.top else none
  | .close =>
    if s.pc = .drain ∧ s.tasks = [] ∧ ¬ s.closed then some { s with closed := true } else none
  | .drain =>
    match s.pc, s.results with
    | .drain, r :: results => some ({ s with results := results }.absorb cfg r)
    | _, _ => none
  | .finish =>
    if s.pc = .drain ∧ s.results = [] ∧ s.closed then some { s with pc := .record } else none
  | .record =>
    if s.pc = .record then
      some { s with acts := s.acts ++ [Act.record (s.stats cfg)], pc := .returned }
    else none
  | _ => none

/-- The steps of the workers. -/
def workerStep (cfg : Settings) (s : State α) : Event α → Option (State α)
  | .fetch k answer =>
    match s.tasks[k]? with
    | some (.fetching page) => some (s.assign k (afterFetch page answer) [.fetch page answer])
    | _ => none
  | .publish k answer =>
    match s.tasks[k]? with
    | some (.publishing a rest res) =>
      some (s.assign k (publishAll rest (tally res answer)) [.publish a answer])
    | _ => none
  | .send k =>
    match s.tasks[k]? with
    | some (.sending res) =>
      if s.closed then some { s with panicked := true }
      else if s.results.length < cfg.concurrency then
        some { s.assign k .releasing [] with results := s.results ++ [res] }
      else none
    | _ => none
  | .release k =>
    match s.tasks[k]? with
    | some .releasing => some (s.assign k .finishing [])
    | _ => none
  | .exit k =>
    match s.tasks[k]? with
    | some .finishing => some { s with tasks := s.tasks.eraseIdx k }
    | _ => none
  | _ => none

/-- One step of a run. -/
def step (cfg : Settings) (s : State α) (e : Event α) : Option (State α) :=
  match e with
  | .cancel => some { s with cancelled := true }
  | .fetch _ _ | .publish _ _ | .send _ | .release _ | .exit _ => workerStep cfg s e
  | _ => mainStep cfg s e

/-! ## What a step does -/

/-- What a worker makes of its task in one step, what it did and what it sent. -/
inductive Works (cfg : Settings) (s : State α) :
    Task α → List (Act α) → List PageResult → Option (Task α) → Prop
  | fetch (page : Nat) (answer : Answer α) :
      Works cfg s (.fetching page) [.fetch page answer] [] (some (afterFetch page answer))
  | publish (a : α) (rest : List α) (res : PageResult) (answer : Option Bool) :
      Works cfg s (.publishing a rest res) [.publish a answer] []
        (some (publishAll rest (tally res answer)))
  | send (res : PageResult) (hroom : s.results.length < cfg.concurrency) :
      Works cfg s (.sending res) [] [res] (some .releasing)
  | release : Works cfg s .releasing [] [] (some .finishing)
  | exit : Works cfg s .finishing [] [] none

/-- The steps of a run. Of the workers only the tasks matter, not their places. -/
inductive Stepped (cfg : Settings) (s : State α) : State α → Prop
  | cancel : Stepped cfg s { s with cancelled := true }
  | refused (hpc : s.pc = .wait) (hfail : s.cancelled ∨ cfg.ratePerSec ≤ 0) :
      Stepped cfg s { s with pc := .returned }
  | limited (hpc : s.pc = .wait) (hlimit : 0 < cfg.maxPages ∧ cfg.maxPages < s.nextPage) :
      Stepped cfg s { s with stop := true, pc := .drain }
  | next (hpc : s.pc = .wait) (hlimit : ¬ (0 < cfg.maxPages ∧ cfg.maxPages < s.nextPage)) :
      Stepped cfg s { s with
        nextPage := s.nextPage + 1
        pending := s.pending + 1
        pc := .acquire s.nextPage }
  | launch (page : Nat) (hpc : s.pc = .acquire page) (hslots : s.slots < cfg.concurrency) :
      Stepped cfg s { s with
        pc := if 0 < s.pending then .select else if s.stop then .drain else .wait
        tasks := s.tasks ++ [.fetching page]
        acts := s.acts ++ [.launch page] }
  | take (r : PageResult) (results : List PageResult) (hpc : s.pc = .select)
      (hresults : s.results = r :: results) :
      Stepped cfg s (s.take cfg r results)
  | done (hpc : s.pc = .select) (hcancelled : s.cancelled) :
      Stepped cfg s { s with stop := true, pc := .drain }
  | default (hpc : s.pc = .select) (hresults : s.results = []) (hcancelled : ¬ s.cancelled) :
      Stepped cfg s s.top
  | close (hpc : s.pc = .drain) (htasks : s.tasks = []) (hclosed : ¬ s.closed) :
      Stepped cfg s { s with closed := true }
  | drain (r : PageResult) (results : List PageResult) (hpc : s.pc = .drain)
      (hresults : s.results = r :: results) :
      Stepped cfg s ({ s with results := results }.absorb cfg r)
  | finish (hpc : s.pc = .drain) (hresults : s.results = []) (hclosed : s.closed) :
      Stepped cfg s { s with pc := .record }
  | record (hpc : s.pc = .record) :
      Stepped cfg s { s with acts := s.acts ++ [.record (s.stats cfg)], pc := .returned }
  | work (task : Task α) (rest tasks : List (Task α)) (acts : List (Act α))
      (sent : List PageResult) (next : Option (Task α)) (hworks : Works cfg s task acts sent next)
      (hbefore : s.tasks.Perm (task :: rest)) (hafter : tasks.Perm (next.toList ++ rest)) :
      Stepped cfg s { s with
        tasks := tasks
        results := s.results ++ sent
        acts := s.acts ++ acts }
  | panic (res : PageResult) (hclosed : s.closed) (htask : .sending res ∈ s.tasks) :
      Stepped cfg s { s with panicked := true }

theorem perm_of_getElem? {tasks : List (Task α)} {k : Nat} {task : Task α}
    (h : tasks[k]? = some task) : tasks.Perm (task :: tasks.eraseIdx k) := by
  obtain ⟨hk, rfl⟩ := List.getElem?_eq_some_iff.mp h
  exact (List.getElem_cons_eraseIdx_perm hk).symm

theorem set_perm {tasks : List (Task α)} {k : Nat} {task : Task α} (h : tasks[k]? = some task)
    (next : Task α) : (tasks.set k next).Perm (next :: tasks.eraseIdx k) := by
  obtain ⟨hk, -⟩ := List.getElem?_eq_some_iff.mp h
  exact List.set_perm_cons_eraseIdx hk next

theorem stepped_of_mainStep {cfg : Settings} {s t : State α} {e : Event α}
    (h : mainStep cfg s e = some t) : Stepped cfg s t ∧ t.cancelled = s.cancelled := by
  unfold mainStep at h
  split at h
  · split at h
    · cases h
    · rename_i hpc
      have hpc := not_not.mp hpc
      split at h
      · split at h
        · cases h
        · split at h
          · cases h
            exact ⟨.limited hpc ‹_›, rfl⟩
          · cases h
            exact ⟨.next hpc ‹_›, rfl⟩
      · split at h
        · cases h
          exact ⟨.refused hpc ‹_›, rfl⟩
        · cases h
  · split at h
    · rename_i page hpc
      split at h
      · rename_i hslots
        have hstep := Stepped.launch page hpc hslots
        dsimp only at h
        split at h
        · cases h
          rw [if_pos ‹_›] at hstep
          exact ⟨hstep, rfl⟩
        · cases h
          rw [if_neg ‹_›] at hstep
          exact ⟨hstep, rfl⟩
      · cases h
    · cases h
  · split at h
    · cases h
      exact ⟨.take _ _ ‹_› ‹_›, rfl⟩
    · cases h
  · split at h
    · rename_i hdone
      cases h
      exact ⟨.done hdone.1 hdone.2, rfl⟩
    · cases h
  · split at h
    · rename_i hdefault
      cases h
      exact ⟨.default hdefault.1 hdefault.2.1 hdefault.2.2, rfl⟩
    · cases h
  · split at h
    · rename_i hclose
      cases h
      exact ⟨.close hclose.1 hclose.2.1 hclose.2.2, rfl⟩
    · cases h
  · split at h
    · cases h
      exact ⟨.drain _ _ ‹_› ‹_›, rfl⟩
    · cases h
  · split at h
    · rename_i hfinish
      cases h
      exact ⟨.finish hfinish.1 hfinish.2.1 hfinish.2.2, rfl⟩
    · cases h
  · split at h
    · cases h
      exact ⟨.record ‹_›, rfl⟩
    · cases h
  · cases h

theorem stepped_assign {cfg : Settings} {s : State α} {k : Nat} {task next : Task α}
    {acts : List (Act α)} (htask : s.tasks[k]? = some task)
    (hworks : Works cfg s task acts [] (some next)) : Stepped cfg s (s.assign k next acts) := by
  have hstep := Stepped.work task _ _ acts [] (some next) hworks (perm_of_getElem? htask)
    (set_perm htask next)
  rwa [List.append_nil] at hstep

theorem stepped_of_workerStep {cfg : Settings} {s t : State α} {e : Event α}
    (h : workerStep cfg s e = some t) : Stepped cfg s t ∧ t.cancelled = s.cancelled := by
  unfold workerStep at h
  split at h
  · split at h
    · cases h
      exact ⟨stepped_assign ‹_› (.fetch _ _), rfl⟩
    · cases h
  · split at h
    · cases h
      exact ⟨stepped_assign ‹_› (.publish _ _ _ _), rfl⟩
    · cases h
  · split at h
    · rename_i htask
      split at h
      · cases h
        exact ⟨.panic _ ‹_› (List.mem_of_getElem? htask), rfl⟩
      · split at h
        · cases h
          exact ⟨.work _ _ _ [] [_] _ (.send _ ‹_›) (perm_of_getElem? htask) (set_perm htask _), rfl⟩
        · cases h
    · cases h
  · split at h
    · cases h
      exact ⟨stepped_assign ‹_› .release, rfl⟩
    · cases h
  · split at h
    · cases h
      have hstep : Stepped cfg s _ := .work _ _ _ [] [] none .exit (perm_of_getElem? ‹_›)
        (List.Perm.refl _)
      rw [List.append_nil, List.append_nil] at hstep
      exact ⟨hstep, rfl⟩
    · cases h
  · cases h

/-- Everything a step can do. -/
theorem stepped_of_step {cfg : Settings} {s t : State α} {e : Event α}
    (h : step cfg s e = some t) : Stepped cfg s t := by
  unfold step at h
  split at h
  · cases h
    exact .cancel
  · exact (stepped_of_workerStep h).1
  · exact (stepped_of_workerStep h).1
  · exact (stepped_of_workerStep h).1
  · exact (stepped_of_workerStep h).1
  · exact (stepped_of_workerStep h).1
  · exact (stepped_of_mainStep h).1

/-- Only its own event cancels the context. -/
theorem cancelled_of_step {cfg : Settings} {s t : State α} {e : Event α}
    (h : step cfg s e = some t) (he : e ≠ .cancel) : t.cancelled = s.cancelled := by
  unfold step at h
  split at h
  · contradiction
  · exact (stepped_of_workerStep h).2
  · exact (stepped_of_workerStep h).2
  · exact (stepped_of_workerStep h).2
  · exact (stepped_of_workerStep h).2
  · exact (stepped_of_workerStep h).2
  · exact (stepped_of_mainStep h).2

/-- What every step keeps holds after a run. -/
theorem state_invariant {cfg : Settings} {I : State α → Prop} (h0 : I start)
    (hstep : ∀ s t, I s → Stepped cfg s t → I t) {s : State α} {es : List (Event α)}
    (hrun : run (step cfg) start es = some s) : I s :=
  run_invariant (K := fun _ _ => True) (fun _ _ _ hs _ h => hstep _ _ hs (stepped_of_step h)) h0
    (along_true _ _ _) hrun

/-- The same where a step starts from a state that is reached. -/
theorem reached_state_invariant {cfg : Settings} {I : State α → Prop} (h0 : I start)
    (hstep : ∀ es s t, run (step cfg) start es = some s → I s → Stepped cfg s t → I t)
    {s : State α} {es : List (Event α)} (hrun : run (step cfg) start es = some s) : I s :=
  reached_invariant (fun es _ _ _ hu hI h => hstep es _ _ hu hI (stepped_of_step h)) h0 hrun

end WebSpider.Crawler.Workers
