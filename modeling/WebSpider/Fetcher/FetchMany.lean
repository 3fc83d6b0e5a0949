import WebSpider.Fetcher.FetchOne
import Mathlib.Algebra.Group.Nat.Defs
import Mathlib.Algebra.Order.BigOperators.Group.List

/-!
# Fetching a batch of URLs

`fetch_many` of `fetcher.py`: the threads of the pool run `fetch_one` for the URLs, on
the token buckets of the process, and the main thread collects what they end with in
any order. An exception that it does not expect ends the batch. This happens exactly
where a URL or a header is not `Benign` (`total_iff`).
-/

namespace WebSpider.Fetcher.Pool

open Text Effects

/-! ## The buckets of the process -/

/-- The rate of a bucket: that of a host may be overridden. -/
def rateOf (cfg : Config) : Option Str → ℚ
  | none => cfg.qps
  | some host => (cfg.hostOverrides.lookup host).getD cfg.hostQps

theorem rateOf_pos (cfg : Config) (host : Option Str) : 0 < rateOf cfg host := by
  cases host with
  | none => exact cfg.qps_pos
  | some host =>
    show 0 < (cfg.hostOverrides.lookup host).getD cfg.hostQps
    cases hrate : cfg.hostOverrides.lookup host with
    | none => exact cfg.hostQps_pos
    | some rate =>
      obtain ⟨before, after, hsplit, -⟩ := List.lookup_eq_some_iff.mp hrate
      refine cfg.hostOverrides_pos (host, rate) ?_
      rw [hsplit]
      exact List.mem_append_right _ List.mem_cons_self

/-- The arguments with which the bucket is made. -/
def limits (cfg : Config) (host : Option Str) : Limits :=
  ⟨rateOf cfg host, max 1 (rateOf cfg host), rateOf_pos cfg host⟩

/-- A bucket whose refill clock may have been pushed to no time. -/
structure SharedBucket where
  tokens : ℚ
  last : Seconds

/-- How a pass of the loop of `acquire` ends. -/
inductive Pass where
  | granted (b : SharedBucket)
  | waits
  | raises (e : Builtin)

/-- One pass of the loop of `acquire`. With a clock at infinity the pass sleeps for five
seconds, with no number `time.sleep` raises, and from minus infinity on the bucket has
been filled. A pass that waits leaves the bucket as it was, since the refill of the next
one comes to the same (`acquire_after_wait`). -/
def SharedBucket.acquire (l : Limits) (now : ℚ) (b : SharedBucket) : Pass :=
  match b.last with
  | .finite last =>
    match Bucket.acquire l 1 now ⟨b.tokens, last⟩ with
    | (b', none) => .granted ⟨b'.tokens, .finite b'.last⟩
    | (_, some _) => .waits
  | .inf => .waits
  | .negInf => .granted ⟨l.capacity - 1, .finite now⟩
  | .nan => .raises .valueError

/-- A pass that waits changes nothing for the later ones. -/
theorem acquire_after_wait {l : Limits} {now later wait : ℚ} {b b' : Bucket}
    (h : b.acquire l 1 now = (b', some wait)) (hlater : now ≤ later) :
    b'.acquire l 1 later = b.acquire l 1 later := by
  have hmade : 0 ≤ (later - now) * l.rate := mul_nonneg (sub_nonneg.mpr hlater) l.rate_pos.le
  unfold Bucket.acquire at h
  dsimp only at h
  by_cases hwait : b.last - now ≤ 0
  · rw [if_pos hwait] at h
    by_cases htoken : 1 ≤ min l.capacity (b.tokens + -(b.last - now) * l.rate)
    · rw [if_pos htoken] at h
      cases (Prod.mk.inj h).2
    · rw [if_neg htoken] at h
      obtain rfl := (Prod.mk.inj h).1
      have hrefill : min l.capacity
          (min l.capacity (b.tokens + -(b.last - now) * l.rate) + -(now - later) * l.rate) =
            min l.capacity (b.tokens + -(b.last - later) * l.rate) := by
        rw [min_add, ← min_assoc, min_eq_left (by linarith : l.capacity ≤ _)]
        congr 1
        ring
      unfold Bucket.acquire
      dsimp only
      rw [hrefill, if_pos (by linarith : now - later ≤ 0),
        if_pos (by linarith : b.last - later ≤ 0)]
  · rw [if_neg hwait] at h
    rw [(Prod.mk.inj h).1]

/-- `time.monotonic() + float(seconds)` -/
def monotonicAfter (now : ℚ) : Seconds → Seconds
  | .finite x => .finite (now + x)
  | .inf => .inf
  | .negInf => .negInf
  | .nan => .nan

/-! ## The pool -/

/-- A URL with its future. A thread that runs `fetch_one` sleeps until `wake`. -/
inductive Status where
  | queued
  | running (p : Fetch (Option Str)) (wake : ℚ)
  | finished (r : Except Exn (Option Str))
  | collected

/-- The main thread. -/
inductive Main where
  | collecting
  | returned
  | raised (e : Exn)
  deriving DecidableEq

/-- The URLs of a batch differ. `requests` records the calls of `Session.get`. -/
structure State where
  clock : ℚ
  buckets : Option Str → SharedBucket
  jobs : Str → Status
  requests : List Str
  results : Str → Option Str
  permanent : Str → Option Str
  main : Main

/-- The first call, or one after others that left the buckets in any state. -/
def State.initial (start : ℚ) (buckets : Option Str → Bucket) : State where
  clock := start
  buckets host := ⟨(buckets host).tokens, .finite (buckets host).last⟩
  jobs _ := .queued
  requests := []
  results _ := none
  permanent _ := none
  main := .collecting

inductive Event where
  /-- An idle thread takes the first URL from the queue. -/
  | start
  /-- A thread that is awake goes on with its URL. -/
  | work (url : Str) (now : ℚ)
  /-- `as_completed` yields a future. -/
  | collect (url : Str)
  /-- All futures are collected. -/
  | finish

def Status.isQueued : Status → Bool
  | .queued => true
  | _ => false

def Status.isRunning : Status → Bool
  | .running _ _ => true
  | _ => false

def Status.isCollected : Status → Bool
  | .collected => true
  | _ => false

def State.setJob (url : Str) (status : Status) (s : State) : State :=
  { s with jobs := Function.update s.jobs url status }

def State.setBucket (host : Option Str) (b : SharedBucket) (s : State) : State :=
  { s with buckets := Function.update s.buckets host b }

/-- When a thread that sleeps is awake again. -/
def wakeAfter (now : ℚ) (seconds : Seconds) : ℚ :=
  match seconds with
  | .finite x => if sleepError seconds = none then now + x else now
  | _ => now

/-- The answer to a call at the time `now`, and when the thread goes on. There is none
while a bucket makes it wait. -/
def serve (cfg : Config) (w : World) (now : ℚ) (s : State) :
    (i : Call) → Option (Except Exn (Answer i) × State × ℚ)
  | .acquire host =>
    match (s.buckets host).acquire (limits cfg host) now with
    | .granted b => some (.ok (), s.setBucket host b, now)
    | .waits => none
    | .raises e => some (.error (.builtin e), s, now)
  | .penalise host seconds => some (.ok (), s.setBucket host ⟨0, monotonicAfter now seconds⟩, now)
  | .get url attempt =>
    some (getAnswer (w.get url attempt), { s with requests := s.requests ++ [url] }, now)
  | .sleep seconds => some (sleepAnswer seconds, s, wakeAfter now seconds)

/-- A thread goes on with its process. -/
def advance (cfg : Config) (w : World) (now : ℚ) (url : Str) (s : State) :
    Fetch (Option Str) → Option State
  | .ends r => some (s.setJob url (.finished r))
  | .calls i resume =>
    match serve cfg w now s i with
    | some (answer, t, wake) => some (t.setJob url (.running (resume answer) wake))
    | none => none

/-- What the main thread does with the result of a future. -/
def State.record (url : Str) (r : Except Exn (Option Str)) (s : State) : State :=
  match r with
  | .ok (some text) => { s with results := Function.update s.results url (some text) }
  | .ok none => s
  | .error (.permanent reason) =>
    { s with permanent := Function.update s.permanent url (some reason) }
  | .error e => { s with main := .raised e }

/-- The URLs of a batch. -/
abbrev Batch := {urls : List Str // urls.Nodup}

def step (cfg : Config) (lib : Library) (w : World) (urls : Batch) (s : State) :
    Event → Option State
  | .start =>
    match urls.val.find? fun url => (s.jobs url).isQueued with
    | some url =>
      if urls.val.countP (fun url => (s.jobs url).isRunning) < cfg.workers then
        some (s.setJob url
          (.running (fetchOne cfg lib (fun k => w.uniform url k) url) s.clock))
      else none
    | none => none
  | .work url now =>
    match s.jobs url with
    | .running p wake =>
      if s.clock ≤ now ∧ wake ≤ now then advance cfg w now url { s with clock := now } p
      else none
    | _ => none
  | .collect url =>
    match s.main, s.jobs url with
    | .collecting, .finished r => some ((s.record url r).setJob url .collected)
    | _, _ => none
  | .finish =>
    if s.main = .collecting ∧ urls.val.all (fun url => (s.jobs url).isCollected) then
      some { s with main := .returned }
    else none

/-! ## The property -/

/-- The maps and the requests are those that the first decisive responses call for. -/
structure Classified (cfg : Config) (w : World) (urls : Batch) (s : State) : Prop where
  results : ∀ url text, s.results url = some text ↔ url ∈ urls.val ∧ ∃ k resp,
    decision cfg w url = some (k, resp) ∧ resp.status = 200 ∧ resp.text = text
  permanent : ∀ url reason, s.permanent url = some reason ↔ url ∈ urls.val ∧ ∃ k resp,
    decision cfg w url = some (k, resp) ∧ (resp.status = 404 ∨ resp.status = 410) ∧
      permanentReason resp.status = reason
  disjoint : ∀ url, s.results url = none ∨ s.permanent url = none
  retried : ∀ url ∈ urls.val, s.requests.count url = requestsNeeded cfg w url

/-- `fetch_many` ends: its runs are bounded in length, and where no thread can go on it
has returned what the responses call for. No URL is requested too often on the way. -/
structure Total (cfg : Config) (lib : Library) (w : World) (urls : Batch) (start : ℚ)
    (buckets : Option Str → Bucket) : Prop where
  ends : ∃ n, ∀ es s, run (step cfg lib w urls) (.initial start buckets) es = some s →
    es.length ≤ n
  requests : ∀ es s, run (step cfg lib w urls) (.initial start buckets) es = some s →
    ∀ url, s.requests.count url ≤ cfg.retries + 1
  returns : ∀ es s, run (step cfg lib w urls) (.initial start buckets) es = some s →
    (∀ e, step cfg lib w urls s e = none) → s.main = .returned ∧ Classified cfg w urls s

/-! ## Steps -/

section Steps

variable {cfg : Config} {lib : Library} {w : World} {urls : Batch}

/-- What a step does. -/
inductive Stepped (cfg : Config) (lib : Library) (w : World) (urls : Batch) (s : State) :
    State → Prop
  | started (url : Str) (hurl : url ∈ urls.val) (hjob : s.jobs url = .queued) :
      Stepped cfg lib w urls s
        (s.setJob url (.running (fetchOne cfg lib (fun k => w.uniform url k) url) s.clock))
  | ended (url : Str) (now : ℚ) (r : Except Exn (Option Str)) (wake : ℚ)
      (hjob : s.jobs url = .running (.ends r) wake) :
      Stepped cfg lib w urls s ({ s with clock := now }.setJob url (.finished r))
  | called (url : Str) (now : ℚ) (i : Call) (resume : Except Exn (Answer i) → Fetch (Option Str))
      (wake : ℚ) (answer : Except Exn (Answer i)) (t : State) (wake' : ℚ)
      (hjob : s.jobs url = .running (.calls i resume) wake)
      (hserve : serve cfg w now { s with clock := now } i = some (answer, t, wake')) :
      Stepped cfg lib w urls s (t.setJob url (.running (resume answer) wake'))
  | collected (url : Str) (r : Except Exn (Option Str)) (hmain : s.main = .collecting)
      (hjob : s.jobs url = .finished r) :
      Stepped cfg lib w urls s ((s.record url r).setJob url .collected)
  | returned (hmain : s.main = .collecting) (hall : ∀ url ∈ urls.val, s.jobs url = .collected) :
      Stepped cfg lib w urls s { s with main := .returned }

theorem eq_queued {status : Status} (h : status.isQueued = true) : status = .queued := by
  cases status with
  | queued => rfl
  | running p wake => cases h
  | finished r => cases h
  | collected => cases h

theorem eq_collected {status : Status} (h : status.isCollected = true) : status = .collected := by
  cases status with
  | queued => cases h
  | running p wake => cases h
  | finished r => cases h
  | collected => rfl

theorem stepped_of_step {s t : State} {e : Event} (h : step cfg lib w urls s e = some t) :
    Stepped cfg lib w urls s t := by
  cases e with
  | start =>
    rw [step] at h
    split at h
    · rename_i url hfind
      split at h
      · cases h
        have hqueued := List.find?_some (p := fun url => (s.jobs url).isQueued) hfind
        exact .started url (List.mem_of_find?_eq_some hfind) (eq_queued hqueued)
      · cases h
    · cases h
  | work url now =>
    rw [step] at h
    split at h
    · rename_i p wake hjob
      split at h
      · cases p with
        | ends r =>
          cases h
          exact .ended url now r wake hjob
        | calls i resume =>
          rw [advance] at h
          split at h
          · rename_i answer u wake' hserve
            cases h
            exact .called url now i resume wake answer u wake' hjob hserve
          · cases h
      · cases h
    · cases h
  | collect url =>
    rw [step] at h
    split at h
    · rename_i r hmain hjob
      cases h
      exact .collected url r hmain hjob
    · cases h
  | finish =>
    rw [step] at h
    split at h
    · rename_i hmain
      cases h
      exact .returned hmain.1 fun url hurl => eq_collected (List.all_eq_true.mp hmain.2 url hurl)
    · cases h

/-! ## Calls -/

/-- The refill clock of each bucket shows a time. -/
def Clocked (s : State) : Prop := ∀ host, ∃ x, (s.buckets host).last = .finite x

/-- The URLs that a call requests. -/
def requestOf : Call → List Str
  | .get url _ => [url]
  | _ => []

/-- What the answer to a call leaves alone. -/
structure Served (cfg : Config) (w : World) (url : Str) (calm : Prop) (g : Count) (i : Call)
    (s : State) (answer : Except Exn (Answer i)) (t : State) : Prop where
  allowed : AnswerAllowed w calm i answer
  clocked : calm → Clocked t
  jobs : t.jobs = s.jobs
  main : t.main = s.main
  results : t.results = s.results
  permanent : t.permanent = s.permanent
  requests : t.requests = s.requests ++ requestOf i

theorem Clocked.setBucket {s : State} (hs : Clocked s) {host : Option Str} {b : SharedBucket}
    (hb : ∃ x, b.last = .finite x) : Clocked (s.setBucket host b) := by
  intro other
  unfold State.setBucket
  by_cases hother : other = host
  · rw [hother]
    simpa using hb
  · simpa [Function.update_of_ne hother] using hs other

/-- A pass that does not wait or raise leaves a time on the clock. -/
theorem clocked_of_granted {l : Limits} {now : ℚ} {b b' : SharedBucket}
    (h : b.acquire l now = .granted b') : ∃ x, b'.last = .finite x := by
  unfold SharedBucket.acquire at h
  split at h
  · split at h
    · cases h
      exact ⟨_, rfl⟩
    · cases h
  · cases h
  · cases h
    exact ⟨_, rfl⟩
  · cases h

theorem not_clocked_of_raises {l : Limits} {now : ℚ} {b : SharedBucket} {e : Builtin}
    (h : b.acquire l now = .raises e) : e = .valueError ∧ ∀ x, b.last ≠ .finite x := by
  unfold SharedBucket.acquire at h
  split at h
  · split at h <;> cases h
  · cases h
  · cases h
  · rename_i hlast
    cases h
    refine ⟨rfl, fun x hx => ?_⟩
    rw [hlast] at hx
    cases hx

theorem served {url : Str} {calm : Prop} {g : Count} {s t : State} {now wake : ℚ} {i : Call}
    {answer : Except Exn (Answer i)} (hclocked : calm → Clocked s)
    (hallowed : CallAllowed cfg url calm g i)
    (h : serve cfg w now s i = some (answer, t, wake)) :
    Served cfg w url calm g i s answer t := by
  cases i with
  | acquire host =>
    rw [serve] at h
    split at h
    · rename_i b hpass
      cases h
      exact ⟨Or.inl rfl, fun hcalm => (hclocked hcalm).setBucket (clocked_of_granted hpass), rfl,
        rfl, rfl, rfl, (List.append_nil _).symm⟩
    · cases h
    · rename_i e hpass
      obtain ⟨rfl, hlast⟩ := not_clocked_of_raises hpass
      cases h
      refine ⟨Or.inr ⟨fun hcalm => ?_, rfl⟩, hclocked, rfl, rfl, rfl, rfl,
        (List.append_nil _).symm⟩
      obtain ⟨x, hx⟩ := hclocked hcalm host
      exact hlast x hx
  | penalise host seconds =>
    cases h
    refine ⟨rfl, fun hcalm => (hclocked hcalm).setBucket ?_, rfl, rfl, rfl, rfl,
      (List.append_nil _).symm⟩
    obtain ⟨x, rfl⟩ := hallowed hcalm
    exact ⟨now + x, rfl⟩
  | get url attempt =>
    cases h
    exact ⟨rfl, hclocked, rfl, rfl, rfl, rfl, rfl⟩
  | sleep seconds =>
    cases h
    exact ⟨rfl, hclocked, rfl, rfl, rfl, rfl, (List.append_nil _).symm⟩

/-! ## The jobs -/

def textOf : Except Exn (Option Str) → Option Str
  | .ok text => text
  | .error _ => none

def reasonOf : Except Exn (Option Str) → Option Str
  | .error (.permanent reason) => some reason
  | _ => none

/-- No delay and no URL of the batch is refused. -/
def Calm (cfg : Config) (lib : Library) (w : World) (urls : Batch) : Prop :=
  ∀ url ∈ urls.val, Benign cfg lib w url

/-- Where the URL of a job stands, when its process has made the calls `g`. -/
inductive JobTracked (cfg : Config) (lib : Library) (w : World) (calm : Prop) (url : Str)
    (s : State) (g : Count) : Status → Prop
  | queued (hrequests : s.requests.count url = 0) (hresults : s.results url = none)
      (hpermanent : s.permanent url = none) : JobTracked cfg lib w calm url s g .queued
  | running (p : Fetch (Option Str)) (wake : ℚ)
      (hmeets : Meets (contract cfg w url calm) (Fetched cfg w url calm lib) g p)
      (hcalls : g.calls ≤ callLimit cfg) (hrequests : s.requests.count url = g.requests)
      (hle : g.requests ≤ cfg.retries + 1) (hresults : s.results url = none)
      (hpermanent : s.permanent url = none) :
      JobTracked cfg lib w calm url s g (.running p wake)
  | finished (r : Except Exn (Option Str)) (hfetched : Fetched cfg w url calm lib g r)
      (hrequests : s.requests.count url = g.requests) (hresults : s.results url = none)
      (hpermanent : s.permanent url = none) : JobTracked cfg lib w calm url s g (.finished r)
  | failed (e : Exn) (hmain : s.main = .raised e) : JobTracked cfg lib w calm url s g .collected
  | settled (hbenign : Benign cfg lib w url)
      (hrequests : s.requests.count url = requestsNeeded cfg w url)
      (hresults : s.results url = textOf (expected cfg w url))
      (hpermanent : s.permanent url = reasonOf (expected cfg w url)) :
      JobTracked cfg lib w calm url s g .collected

/-- A step on another URL. -/
structure Untouched (url : Str) (s t : State) : Prop where
  requests : t.requests.count url = s.requests.count url
  results : t.results url = s.results url
  permanent : t.permanent url = s.permanent url
  main : ∀ e, s.main = .raised e → t.main = .raised e

theorem JobTracked.frame {calm : Prop} {url : Str} {s t : State} {g : Count} {status : Status}
    (h : JobTracked cfg lib w calm url s g status) (hst : Untouched url s t) :
    JobTracked cfg lib w calm url t g status := by
  cases h with
  | queued hrequests hresults hpermanent =>
    exact .queued (hst.requests.trans hrequests) (hst.results.trans hresults)
      (hst.permanent.trans hpermanent)
  | running p wake hmeets hcalls hrequests hle hresults hpermanent =>
    exact .running p wake hmeets hcalls (hst.requests.trans hrequests) hle
      (hst.results.trans hresults) (hst.permanent.trans hpermanent)
  | finished r hfetched hrequests hresults hpermanent =>
    exact .finished r hfetched (hst.requests.trans hrequests) (hst.results.trans hresults)
      (hst.permanent.trans hpermanent)
  | failed e hmain => exact .failed e (hst.main e hmain)
  | settled hbenign hrequests hresults hpermanent =>
    exact .settled hbenign (hst.requests.trans hrequests) (hst.results.trans hresults)
      (hst.permanent.trans hpermanent)

/-- The steps that a job has taken at least. -/
def spent (cfg : Config) (g : Count) : Status → Nat
  | .queued => 0
  | .running _ _ => g.calls + 1
  | .finished _ => callLimit cfg + 2
  | .collected => callLimit cfg + 3

theorem JobTracked.spent_le {calm : Prop} {url : Str} {s : State} {g : Count} {status : Status}
    (h : JobTracked cfg lib w calm url s g status) : spent cfg g status ≤ callLimit cfg + 3 := by
  cases h with
  | queued => exact Nat.zero_le _
  | running p wake hmeets hcalls => exact Nat.add_le_add hcalls (by decide)
  | finished => exact Nat.le_succ _
  | failed => exact Nat.le_refl _
  | settled => exact Nat.le_refl _

/-! ## The invariant -/

/-- The invariant, with the calls that each process has made. -/
structure Tracked (cfg : Config) (lib : Library) (w : World) (urls : Batch) (g : Str → Count)
    (s : State) : Prop where
  clocked : Calm cfg lib w urls → Clocked s
  jobs : ∀ url, JobTracked cfg lib w (Calm cfg lib w urls) url s (g url) (s.jobs url)
  strangers : ∀ url, url ∉ urls.val → s.jobs url = .queued
  returned : s.main = .returned → ∀ url ∈ urls.val, s.jobs url = .collected
  raised : ∀ e, s.main = .raised e → ¬ Calm cfg lib w urls

/-- The steps that the jobs have taken at least. -/
def spentTotal (cfg : Config) (urls : Batch) (g : Str → Count) (s : State) : Nat :=
  (urls.val.map fun url => spent cfg (g url) (s.jobs url)).sum +
    if s.main = .returned then 1 else 0

theorem tracked_initial (start : ℚ) (buckets : Option Str → Bucket) :
    Tracked cfg lib w urls (fun _ => ⟨0, 0⟩) (.initial start buckets) where
  clocked _ host := ⟨(buckets host).last, rfl⟩
  jobs _ := .queued rfl rfl rfl
  strangers _ _ := rfl
  returned h := by cases h
  raised e h := by cases h

theorem Tracked.spentTotal_le {g : Str → Count} {s : State} (hs : Tracked cfg lib w urls g s) :
    spentTotal cfg urls g s ≤ urls.val.length * (callLimit cfg + 3) + 1 := by
  have hjobs := List.sum_le_card_nsmul (urls.val.map fun url => spent cfg (g url) (s.jobs url))
    (callLimit cfg + 3) fun n hn => by
      obtain ⟨url, -, rfl⟩ := List.mem_map.mp hn
      exact (hs.jobs url).spent_le
  rw [List.length_map, nsmul_eq_mul] at hjobs
  unfold spentTotal
  apply Nat.add_le_add hjobs
  split
  · exact Nat.le_refl 1
  · exact Nat.zero_le 1

/-- A step of the job of one URL. -/
theorem Tracked.setJob {g : Str → Count} {s t : State} (hs : Tracked cfg lib w urls g s) {url : Str}
    (hurl : url ∈ urls.val) {status : Status} {c : Count} (hjobs : t.jobs = s.jobs)
    (hclocked : Calm cfg lib w urls → Clocked t) (hothers : ∀ u, u ≠ url → Untouched u s t)
    (hreturned : t.main ≠ .returned) (hraised : ∀ e, t.main = .raised e → ¬ Calm cfg lib w urls)
    (hjob : JobTracked cfg lib w (Calm cfg lib w urls) url (t.setJob url status) c status)
    (hspent : spent cfg (g url) (s.jobs url) < spent cfg c status) (hmain : s.main ≠ .returned) :
    ∃ g', Tracked cfg lib w urls g' (t.setJob url status) ∧
      spentTotal cfg urls g s < spentTotal cfg urls g' (t.setJob url status) := by
  have hself : (t.setJob url status).jobs url = status := by simp [State.setJob]
  have hother (u : Str) (hu : u ≠ url) : (t.setJob url status).jobs u = s.jobs u := by
    simp [State.setJob, hu, hjobs]
  refine ⟨Function.update g url c, ⟨hclocked, fun u => ?_, fun u hu => ?_, fun h => ?_, hraised⟩, ?_⟩
  · by_cases hu : u = url
    · subst hu
      rw [hself, Function.update_self]
      exact hjob
    · rw [hother u hu, Function.update_of_ne hu]
      exact (hs.jobs u).frame ⟨(hothers u hu).requests, (hothers u hu).results,
        (hothers u hu).permanent, (hothers u hu).main⟩
  · rw [hother u fun h => hu (h ▸ hurl)]
    exact hs.strangers u hu
  · exact absurd h hreturned
  · have hless := List.sum_lt_sum (l := urls.val) (fun u => spent cfg (g u) (s.jobs u))
      (fun u => spent cfg (Function.update g url c u) ((t.setJob url status).jobs u))
      (fun u _ => by
        by_cases hu : u = url
        · subst hu
          rw [hself, Function.update_self]
          exact hspent.le
        · rw [hother u hu, Function.update_of_ne hu])
      ⟨url, hurl, by rwa [hself, Function.update_self]⟩
    unfold spentTotal
    rw [if_neg hmain, if_neg (show (t.setJob url status).main ≠ .returned from hreturned)]
    exact hless

/-! ## The invariant is kept -/

theorem count_requestOf {calm : Prop} {url : Str} {g : Count} {i : Call}
    (h : CallAllowed cfg url calm g i) :
    (g.next i).requests = g.requests + (requestOf i).count url ∧
      ∀ u, u ≠ url → (requestOf i).count u = 0 := by
  cases i with
  | get u attempt =>
    obtain ⟨rfl, -, -⟩ := h
    refine ⟨?_, fun u' hu' => ?_⟩
    · rw [requestOf, List.count_singleton_self]
      rfl
    · exact List.count_eq_zero.mpr fun hmem => hu' (List.mem_singleton.mp hmem)
  | acquire host => exact ⟨rfl, fun _ _ => rfl⟩
  | penalise host seconds => exact ⟨rfl, fun _ _ => rfl⟩
  | sleep seconds => exact ⟨rfl, fun _ _ => rfl⟩

theorem next_calls (g : Count) (i : Call) : (g.next i).calls = g.calls + 1 := by
  cases i <;> rfl

theorem next_requests_le {calm : Prop} {url : Str} {g : Count} {i : Call}
    (h : CallAllowed cfg url calm g i) (hle : g.requests ≤ cfg.retries + 1) :
    (g.next i).requests ≤ cfg.retries + 1 := by
  cases i with
  | get u attempt =>
    obtain ⟨-, rfl, hattempt⟩ := h
    exact Nat.succ_le_succ hattempt
  | acquire host => exact hle
  | penalise host seconds => exact hle
  | sleep seconds => exact hle

theorem expected_cases (cfg : Config) (w : World) (url : Str) :
    (∃ text, expected cfg w url = .ok text) ∨
      ∃ reason, expected cfg w url = .error (.permanent reason) := by
  unfold expected
  split
  · unfold verdict
    split
    · exact Or.inl ⟨_, rfl⟩
    · split
      · exact Or.inr ⟨_, rfl⟩
      · exact Or.inl ⟨_, rfl⟩
  · exact Or.inl ⟨_, rfl⟩

section Kept

variable {g : Str → Count} {s t : State}

theorem Tracked.not_returned (hs : Tracked cfg lib w urls g s) {url : Str}
    (hurl : url ∈ urls.val) (hjob : s.jobs url ≠ .collected) : s.main ≠ .returned :=
  fun h => hjob (hs.returned h url hurl)

theorem Tracked.mem (hs : Tracked cfg lib w urls g s) {url : Str} (hjob : s.jobs url ≠ .queued) :
    url ∈ urls.val := by
  by_contra hurl
  exact hjob (hs.strangers url hurl)

theorem Tracked.started (hs : Tracked cfg lib w urls g s) {url : Str} (hurl : url ∈ urls.val)
    (hjob : s.jobs url = .queued) :
    ∃ g', Tracked cfg lib w urls g' (s.setJob url
        (.running (fetchOne cfg lib (fun k => w.uniform url k) url) s.clock)) ∧
      spentTotal cfg urls g s < spentTotal cfg urls g' (s.setJob url
        (.running (fetchOne cfg lib (fun k => w.uniform url k) url) s.clock)) := by
  have hmain := hs.not_returned hurl (by rw [hjob]; exact Status.noConfusion)
  refine hs.setJob (c := ⟨0, 0⟩) hurl rfl hs.clocked (fun u _ => ⟨rfl, rfl, rfl, fun _ h => h⟩)
    hmain hs.raised ?_ ?_ hmain
  · have htracked := hs.jobs url
    rw [hjob] at htracked
    cases htracked with
    | queued hrequests hresults hpermanent =>
      exact .running _ _ (meets_fetchOne fun h => h url hurl) (Nat.zero_le _) hrequests
        (Nat.zero_le _) hresults hpermanent
  · rw [hjob]
    exact Nat.zero_lt_succ _

theorem Tracked.ended (hs : Tracked cfg lib w urls g s) {url : Str} {r : Except Exn (Option Str)}
    {wake : ℚ} (now : ℚ) (hjob : s.jobs url = .running (.ends r) wake) :
    ∃ g', Tracked cfg lib w urls g' ({ s with clock := now }.setJob url (.finished r)) ∧
      spentTotal cfg urls g s <
        spentTotal cfg urls g' ({ s with clock := now }.setJob url (.finished r)) := by
  have hurl : url ∈ urls.val := hs.mem (by rw [hjob]; exact Status.noConfusion)
  have hmain := hs.not_returned hurl (by rw [hjob]; exact Status.noConfusion)
  have htracked := hs.jobs url
  rw [hjob] at htracked
  cases htracked with
  | running p wake hmeets hcalls hrequests hle hresults hpermanent =>
    refine hs.setJob (c := g url) hurl rfl hs.clocked (fun u _ => ⟨rfl, rfl, rfl, fun _ h => h⟩)
      hmain hs.raised (.finished r hmeets hrequests hresults hpermanent) ?_ hmain
    rw [hjob]
    exact Nat.succ_lt_succ (Nat.lt_succ_of_le hcalls)

theorem Tracked.called (hs : Tracked cfg lib w urls g s) {url : Str} {now : ℚ} {i : Call}
    {resume : Except Exn (Answer i) → Fetch (Option Str)} {wake wake' : ℚ}
    {answer : Except Exn (Answer i)} (hjob : s.jobs url = .running (.calls i resume) wake)
    (hserve : serve cfg w now { s with clock := now } i = some (answer, t, wake')) :
    ∃ g', Tracked cfg lib w urls g' (t.setJob url (.running (resume answer) wake')) ∧
      spentTotal cfg urls g s <
        spentTotal cfg urls g' (t.setJob url (.running (resume answer) wake')) := by
  have hurl : url ∈ urls.val := hs.mem (by rw [hjob]; exact Status.noConfusion)
  have hmain := hs.not_returned hurl (by rw [hjob]; exact Status.noConfusion)
  have htracked := hs.jobs url
  rw [hjob] at htracked
  cases htracked with
  | running p wake hmeets hcalls hrequests hle hresults hpermanent =>
    obtain ⟨⟨hlimit, hallowed⟩, hresume⟩ := hmeets
    have hserved : Served cfg w url (Calm cfg lib w urls) (g url) i { s with clock := now } answer
        t := served hs.clocked hallowed hserve
    obtain ⟨hcount, hother⟩ := count_requestOf hallowed
    refine hs.setJob (c := (g url).next i) hurl hserved.jobs hserved.clocked (fun u hu => ?_)
      (by rwa [hserved.main]) (by rw [hserved.main]; exact hs.raised) ?_ ?_ hmain
    · refine ⟨?_, congrFun hserved.results u, congrFun hserved.permanent u, ?_⟩
      · rw [hserved.requests, List.count_append, hother u hu]
        rfl
      · rw [hserved.main]
        exact fun _ h => h
    · refine .running _ _ (hresume answer hserved.allowed) ?_ ?_ (next_requests_le hallowed hle) ?_ ?_
      · rw [next_calls]
        exact hlimit
      · show t.requests.count url = _
        rw [hserved.requests, List.count_append, hcount]
        exact congrArg (· + _) hrequests
      · exact (congrFun hserved.results url).trans hresults
      · exact (congrFun hserved.permanent url).trans hpermanent
    · rw [hjob]
      show (g url).calls + 1 < ((g url).next i).calls + 1
      rw [next_calls]
      exact Nat.lt_succ_self _

/-- What the main thread does with a result that is as the responses say. -/
theorem record_settled {url : Str} {r : Except Exn (Option Str)} {c : Count}
    (hbenign : Benign cfg lib w url) (hr : r = expected cfg w url)
    (hneeded : s.requests.count url = requestsNeeded cfg w url) (hresults : s.results url = none)
    (hpermanent : s.permanent url = none) :
    (s.record url r).main = s.main ∧
      JobTracked cfg lib w (Calm cfg lib w urls) url (s.record url r) c .collected := by
  rcases expected_cases cfg w url with ⟨text, htext⟩ | ⟨reason, hreason⟩
  · rw [hr, htext]
    cases text with
    | none => exact ⟨rfl, .settled hbenign hneeded (by rw [htext]; exact hresults)
        (by rw [htext]; exact hpermanent)⟩
    | some text =>
      refine ⟨rfl, .settled hbenign hneeded ?_ (by rw [htext]; exact hpermanent)⟩
      rw [htext]
      exact Function.update_self url (some text) s.results
  · rw [hr, hreason]
    refine ⟨rfl, .settled hbenign hneeded (by rw [hreason]; exact hresults) ?_⟩
    rw [hreason]
    exact Function.update_self url (some reason) s.permanent

theorem record_jobs (url : Str) (r : Except Exn (Option Str)) : (s.record url r).jobs = s.jobs := by
  unfold State.record
  split <;> rfl

theorem record_buckets (url : Str) (r : Except Exn (Option Str)) :
    (s.record url r).buckets = s.buckets := by
  unfold State.record
  split <;> rfl

theorem untouched_record (hmain : s.main = .collecting) {url : Str} (r : Except Exn (Option Str))
    {u : Str} (hu : u ≠ url) : Untouched u s (s.record url r) := by
  have hcollecting (e : Exn) : s.main ≠ .raised e := by
    rw [hmain]
    exact Main.noConfusion
  unfold State.record
  split
  · exact ⟨rfl, Function.update_of_ne hu _ _, rfl, fun _ h => h⟩
  · exact ⟨rfl, rfl, rfl, fun _ h => h⟩
  · exact ⟨rfl, rfl, Function.update_of_ne hu _ _, fun _ h => h⟩
  · exact ⟨rfl, rfl, rfl, fun e h => absurd h (hcollecting e)⟩

theorem Tracked.collected (hs : Tracked cfg lib w urls g s) {url : Str}
    {r : Except Exn (Option Str)} (hmain : s.main = .collecting)
    (hjob : s.jobs url = .finished r) :
    ∃ g', Tracked cfg lib w urls g' ((s.record url r).setJob url .collected) ∧
      spentTotal cfg urls g s < spentTotal cfg urls g' ((s.record url r).setJob url .collected) := by
  have hurl : url ∈ urls.val := hs.mem (by rw [hjob]; exact Status.noConfusion)
  have hreturned := hs.not_returned hurl (by rw [hjob]; exact Status.noConfusion)
  have hclocked (h : Calm cfg lib w urls) : Clocked (s.record url r) := by
    unfold Clocked
    rw [record_buckets]
    exact hs.clocked h
  have hspent (c : Count) : spent cfg (g url) (s.jobs url) < spent cfg c .collected := by
    rw [hjob]
    exact Nat.lt_succ_self _
  have htracked := hs.jobs url
  rw [hjob] at htracked
  cases htracked with
  | finished r hfetched hrequests hresults hpermanent =>
    rcases hfetched with ⟨hbenign, hr, hneeded⟩ | ⟨hcalm, e, rfl⟩
    · obtain ⟨hkept, hsettled⟩ : (s.record url r).main = s.main ∧ JobTracked cfg lib w
          (Calm cfg lib w urls) url (s.record url r) (g url) .collected :=
        record_settled hbenign hr (hrequests.trans hneeded) hresults hpermanent
      exact hs.setJob hurl (record_jobs url r) hclocked
        (fun u hu => untouched_record hmain r hu) (by rwa [hkept]) (by rw [hkept]; exact hs.raised)
        (hsettled.frame ⟨rfl, rfl, rfl, fun _ h => h⟩) (hspent _) hreturned
    · exact hs.setJob (c := g url) hurl rfl hclocked
        (fun u hu => untouched_record hmain _ hu) Main.noConfusion (fun _ _ => hcalm)
        (.failed (.builtin e) rfl) (hspent _) hreturned

theorem Tracked.returning (hs : Tracked cfg lib w urls g s) (hmain : s.main = .collecting)
    (hall : ∀ url ∈ urls.val, s.jobs url = .collected) :
    Tracked cfg lib w urls g { s with main := .returned } ∧
      spentTotal cfg urls g s < spentTotal cfg urls g { s with main := .returned } := by
  refine ⟨⟨hs.clocked, fun url => (hs.jobs url).frame ⟨rfl, rfl, rfl, fun e h => ?_⟩, hs.strangers,
    fun _ => hall, fun e h => by cases h⟩, ?_⟩
  · rw [hmain] at h
    cases h
  · unfold spentTotal
    rw [if_neg (by rw [hmain]; exact Main.noConfusion), if_pos rfl]
    exact Nat.lt_succ_self _

theorem Tracked.step (hs : Tracked cfg lib w urls g s) (h : Stepped cfg lib w urls s t) :
    ∃ g', Tracked cfg lib w urls g' t ∧ spentTotal cfg urls g s < spentTotal cfg urls g' t := by
  cases h with
  | started url hurl hjob => exact hs.started hurl hjob
  | ended url now r wake hjob => exact hs.ended now hjob
  | called url now i resume wake answer u wake' hjob hserve => exact hs.called hjob hserve
  | collected url r hmain hjob => exact hs.collected hmain hjob
  | returned hmain hall => exact ⟨g, hs.returning hmain hall⟩

end Kept

/-- The invariant holds after every run, which is no longer than the steps of the jobs. -/
theorem tracked_run {start : ℚ} {buckets : Option Str → Bucket} {es : List Event} {s : State}
    (hrun : run (step cfg lib w urls) (.initial start buckets) es = some s) :
    ∃ g, Tracked cfg lib w urls g s ∧ es.length ≤ spentTotal cfg urls g s := by
  refine run_history (I := fun es s => ∃ g, Tracked cfg lib w urls g s ∧
    es.length ≤ spentTotal cfg urls g s) ?_ ⟨_, tracked_initial start buckets, Nat.zero_le _⟩ hrun
  rintro es s e t ⟨g, hs, hlength⟩ h
  obtain ⟨g', ht, hspent⟩ := hs.step (stepped_of_step h)
  refine ⟨g', ht, ?_⟩
  rw [List.length_append]
  exact Nat.succ_le_of_lt (Nat.lt_of_le_of_lt hlength hspent)

/-! ## The end -/

theorem acquire_of_finite {l : Limits} {now x : ℚ} {b : SharedBucket} {b' : Bucket}
    (hlast : b.last = .finite x) (hpass : Bucket.acquire l 1 now ⟨b.tokens, x⟩ = (b', none)) :
    b.acquire l now = .granted ⟨b'.tokens, .finite b'.last⟩ := by
  simp only [SharedBucket.acquire, hlast, hpass]

theorem exists_granted {l : Limits} (hcapacity : 1 ≤ l.capacity) {b : SharedBucket} {x : ℚ}
    (hlast : b.last = .finite x) (after : ℚ) : ∃ now b', after ≤ now ∧
      b.acquire l now = .granted b' := by
  let now := max after (max x (x + (1 - b.tokens) / l.rate))
  have hx : x ≤ now := (le_max_left _ _).trans (le_max_right _ _)
  have hmade : x + (1 - b.tokens) / l.rate ≤ now := (le_max_right _ _).trans (le_max_right _ _)
  have htokens : 1 - b.tokens ≤ (now - x) * l.rate := by
    rw [← div_le_iff₀ l.rate_pos]
    linarith
  have hneg : -(x - now) * l.rate = (now - x) * l.rate := by rw [neg_sub]
  have hpass : Bucket.acquire l 1 now ⟨b.tokens, x⟩ =
      (⟨min l.capacity (b.tokens + -(x - now) * l.rate) - 1, now⟩, none) := by
    unfold Bucket.acquire
    dsimp only
    rw [if_pos (by linarith : x - now ≤ 0), if_pos (le_min hcapacity (by linarith))]
  exact ⟨now, _, le_max_left _ _, acquire_of_finite hlast hpass⟩

/-- In time each call is answered. -/
theorem exists_served {s : State} (hs : Clocked s) (after : ℚ) (i : Call) :
    ∃ now answer t wake, after ≤ now ∧
      serve cfg w now { s with clock := now } i = some (answer, t, wake) := by
  cases i with
  | acquire host =>
    obtain ⟨x, hx⟩ := hs host
    obtain ⟨now, b, hafter, hpass⟩ :=
      exists_granted (l := limits cfg host) (le_max_left _ _) hx after
    refine ⟨now, .ok (), State.setBucket host b { s with clock := now }, now, hafter, ?_⟩
    simp only [serve, hpass]
  | penalise host seconds => exact ⟨after, _, _, _, le_rfl, rfl⟩
  | get url attempt => exact ⟨after, _, _, _, le_rfl, rfl⟩
  | sleep seconds => exact ⟨after, _, _, _, le_rfl, rfl⟩

section Stuck

variable {s : State} (hstuck : ∀ e, step cfg lib w urls s e = none)

include hstuck

theorem not_running (hs : Clocked s) (url : Str) (p : Fetch (Option Str)) (wake : ℚ) :
    s.jobs url ≠ .running p wake := by
  intro hjob
  cases p with
  | ends r =>
    have h := hstuck (.work url (max s.clock wake))
    simp only [step, hjob] at h
    rw [if_pos ⟨le_max_left _ _, le_max_right _ _⟩] at h
    cases h
  | calls i resume =>
    obtain ⟨now, answer, t, wake', hafter, hserve⟩ :=
      @exists_served cfg w s hs (max s.clock wake) i
    have h := hstuck (.work url now)
    simp only [step, hjob] at h
    rw [if_pos ⟨(le_max_left _ _).trans hafter, (le_max_right _ _).trans hafter⟩, advance, hserve]
      at h
    cases h

theorem not_queued (hs : Clocked s) {url : Str} (hurl : url ∈ urls.val) :
    s.jobs url ≠ .queued := by
  intro hjob
  have hidle : urls.val.countP (fun u => (s.jobs u).isRunning) = 0 := by
    apply List.countP_eq_zero.mpr
    intro u _ hrunning
    cases hu : s.jobs u with
    | running p wake => exact not_running hstuck hs u p wake hu
    | queued => rw [hu] at hrunning; cases hrunning
    | finished r => rw [hu] at hrunning; cases hrunning
    | collected => rw [hu] at hrunning; cases hrunning
  have h := hstuck .start
  rw [step] at h
  cases hfind : urls.val.find? fun u => (s.jobs u).isQueued with
  | none =>
    refine List.find?_eq_none.mp hfind url hurl ?_
    rw [hjob]
    rfl
  | some first =>
    rw [hfind] at h
    simp only [hidle, cfg.workers_pos, if_true] at h
    cases h

theorem returned_of_stuck {g : Str → Count} (hcalm : Calm cfg lib w urls)
    (hs : Tracked cfg lib w urls g s) : s.main = .returned := by
  cases hmain : s.main with
  | returned => rfl
  | raised e => exact absurd hcalm (hs.raised e hmain)
  | collecting =>
    have hcollected (url : Str) (hurl : url ∈ urls.val) : s.jobs url = .collected := by
      cases hjob : s.jobs url with
      | queued => exact absurd hjob (not_queued hstuck (hs.clocked hcalm) hurl)
      | running p wake => exact absurd hjob (not_running hstuck (hs.clocked hcalm) url p wake)
      | finished r =>
        have h := hstuck (.collect url)
        simp only [step, hmain, hjob] at h
        cases h
      | collected => rfl
    have h := hstuck .finish
    rw [step, if_pos ⟨hmain, List.all_eq_true.mpr fun url hurl => by
      rw [hcollected url hurl]; rfl⟩] at h
    cases h

end Stuck

/-! ## The maps -/

theorem textOf_verdict {resp : Response} {text : Str} :
    textOf (verdict resp) = some text ↔ resp.status = 200 ∧ resp.text = text := by
  unfold verdict
  by_cases hok : resp.status = 200
  · rw [if_pos hok]
    exact Option.some_inj.trans (and_iff_right hok).symm
  · rw [if_neg hok]
    refine iff_of_false ?_ fun h => hok h.1
    split <;> exact (Option.some_ne_none text).symm

theorem reasonOf_verdict {resp : Response} {reason : Str} :
    reasonOf (verdict resp) = some reason ↔
      (resp.status = 404 ∨ resp.status = 410) ∧ permanentReason resp.status = reason := by
  unfold verdict
  by_cases hok : resp.status = 200
  · rw [if_pos hok]
    apply iff_of_false (Option.some_ne_none reason).symm
    rintro ⟨h | h, -⟩ <;> omega
  · rw [if_neg hok]
    by_cases hgone : resp.status = 404 ∨ resp.status = 410
    · rw [if_pos hgone]
      exact Option.some_inj.trans (and_iff_right hgone).symm
    · rw [if_neg hgone]
      exact iff_of_false (Option.some_ne_none reason).symm fun h => hgone h.1

/-- What is read off the expected result is read off the decisive response. -/
theorem expected_iff {f : Except Exn (Option Str) → Option Str} (hnone : f (.ok none) = none)
    {url x : Str} : f (expected cfg w url) = some x ↔
      ∃ k resp, decision cfg w url = some (k, resp) ∧ f (verdict resp) = some x := by
  unfold expected
  cases hdecision : decision cfg w url with
  | none =>
    refine iff_of_false (fun h => ?_) (by simp)
    cases hnone.symm.trans h
  | some first =>
    obtain ⟨k, resp⟩ := first
    refine ⟨fun h => ⟨k, resp, rfl, h⟩, ?_⟩
    rintro ⟨k', resp', h, hread⟩
    cases h
    exact hread

theorem textOf_expected {url text : Str} : textOf (expected cfg w url) = some text ↔
    ∃ k resp, decision cfg w url = some (k, resp) ∧ resp.status = 200 ∧ resp.text = text := by
  simp only [expected_iff (f := textOf) rfl, textOf_verdict]

theorem reasonOf_expected {url reason : Str} : reasonOf (expected cfg w url) = some reason ↔
    ∃ k resp, decision cfg w url = some (k, resp) ∧ (resp.status = 404 ∨ resp.status = 410) ∧
      permanentReason resp.status = reason := by
  simp only [expected_iff (f := reasonOf) rfl, reasonOf_verdict]

theorem requestsNeeded_le (cfg : Config) (w : World) (url : Str) :
    requestsNeeded cfg w url ≤ cfg.retries + 1 := by
  unfold requestsNeeded
  cases hdecision : decision cfg w url with
  | none => exact le_rfl
  | some first =>
    obtain ⟨⟨-, hlt⟩, -⟩ := firstDecision_eq_some.mp hdecision
    show first.1 + 1 ≤ _
    omega

section Returned

variable {g : Str → Count} {s : State}

theorem Tracked.requests_le (hs : Tracked cfg lib w urls g s) (hcalm : Calm cfg lib w urls)
    (url : Str) : s.requests.count url ≤ cfg.retries + 1 := by
  have hjob := hs.jobs url
  generalize s.jobs url = status at hjob
  cases hjob with
  | queued hrequests => exact hrequests.le.trans (Nat.zero_le _)
  | running p wake hmeets hcalls hrequests hle => exact hrequests.le.trans hle
  | finished r hfetched hrequests =>
    rcases hfetched with ⟨-, -, hneeded⟩ | ⟨hnot, -⟩
    · exact (hrequests.trans hneeded).le.trans (requestsNeeded_le cfg w url)
    · exact absurd hcalm hnot
  | failed e hmain => exact absurd hcalm (hs.raised e hmain)
  | settled hbenign hrequests => exact hrequests.le.trans (requestsNeeded_le cfg w url)

/-- When `fetch_many` has returned, each URL was benign, and the maps hold what its
responses call for. -/
theorem Tracked.settled (hs : Tracked cfg lib w urls g s) (hmain : s.main = .returned) {url : Str}
    (hurl : url ∈ urls.val) : Benign cfg lib w url ∧
      s.requests.count url = requestsNeeded cfg w url ∧
      s.results url = textOf (expected cfg w url) ∧
      s.permanent url = reasonOf (expected cfg w url) := by
  have hjob := hs.jobs url
  rw [hs.returned hmain url hurl] at hjob
  cases hjob with
  | failed e hraised =>
    rw [hmain] at hraised
    cases hraised
  | settled hbenign hrequests hresults hpermanent =>
    exact ⟨hbenign, hrequests, hresults, hpermanent⟩

theorem Tracked.stranger (hs : Tracked cfg lib w urls g s) {url : Str} (hurl : url ∉ urls.val) :
    s.results url = none ∧ s.permanent url = none := by
  have hjob := hs.jobs url
  rw [hs.strangers url hurl] at hjob
  cases hjob with
  | queued hrequests hresults hpermanent => exact ⟨hresults, hpermanent⟩

theorem Tracked.classified (hs : Tracked cfg lib w urls g s) (hmain : s.main = .returned) :
    Classified cfg w urls s := by
  refine ⟨fun url text => ?_, fun url reason => ?_, fun url => ?_,
    fun url hurl => (hs.settled hmain hurl).2.1⟩
  · by_cases hurl : url ∈ urls.val
    · rw [(hs.settled hmain hurl).2.2.1, textOf_expected]
      exact (and_iff_right hurl).symm
    · rw [(hs.stranger hurl).1]
      exact iff_of_false (Option.some_ne_none text).symm fun h => hurl h.1
  · by_cases hurl : url ∈ urls.val
    · rw [(hs.settled hmain hurl).2.2.2, reasonOf_expected]
      exact (and_iff_right hurl).symm
    · rw [(hs.stranger hurl).2]
      exact iff_of_false (Option.some_ne_none reason).symm fun h => hurl h.1
  · by_cases hurl : url ∈ urls.val
    · obtain ⟨-, -, hresults, hpermanent⟩ := hs.settled hmain hurl
      rcases expected_cases cfg w url with ⟨text, htext⟩ | ⟨reason, hreason⟩
      · rw [htext] at hpermanent
        exact Or.inr hpermanent
      · rw [hreason] at hresults
        exact Or.inl hresults
    · exact Or.inl (hs.stranger hurl).1

end Returned

theorem total_of_calm (hcalm : Calm cfg lib w urls) (start : ℚ) (buckets : Option Str → Bucket) :
    Total cfg lib w urls start buckets where
  ends := by
    refine ⟨urls.val.length * (callLimit cfg + 3) + 1, fun es s hrun => ?_⟩
    obtain ⟨g, hs, hlength⟩ := tracked_run hrun
    exact hlength.trans hs.spentTotal_le
  requests es s hrun url := by
    obtain ⟨g, hs, -⟩ := tracked_run hrun
    exact hs.requests_le hcalm url
  returns es s hrun hstuck := by
    obtain ⟨g, hs, -⟩ := tracked_run hrun
    have hmain := returned_of_stuck hstuck hcalm hs
    exact ⟨hmain, hs.classified hmain⟩

theorem calm_of_total {start : ℚ} {buckets : Option Str → Bucket}
    (h : Total cfg lib w urls start buckets) : Calm cfg lib w urls := by
  obtain ⟨n, hbound⟩ := h.ends
  obtain ⟨es, s, hrun, hstuck⟩ := exists_stuck hbound
  obtain ⟨hmain, -⟩ := h.returns es s hrun hstuck
  obtain ⟨g, hs, -⟩ := tracked_run hrun
  exact fun url hurl => (hs.settled hmain hurl).1

end Steps

/-- `fetch_many` returns the maps that the responses call for exactly when `urlsplit`
accepts each URL and `time.sleep` each delay before a decisive response. -/
theorem total_iff (cfg : Config) (lib : Library) (w : World) (urls : Batch) (start : ℚ)
    (buckets : Option Str → Bucket) :
    Total cfg lib w urls start buckets ↔ ∀ url ∈ urls.val, Benign cfg lib w url :=
  ⟨calm_of_total, fun h => total_of_calm h start buckets⟩

/-! ## A header that no sleep accepts -/

theorem defaultWorkers_pos : 0 < 8 := by decide

theorem defaultQps_pos : (0 : ℚ) < 6 := by decide

theorem defaultHostQps_pos : (0 : ℚ) < 1 := by decide

theorem noOverrides_pos : ∀ o ∈ ([] : List (Str × ℚ)), 0 < o.2 :=
  fun _ h => absurd h List.not_mem_nil

/-- The settings without environment variables. -/
def defaults : Config where
  workers := 8
  retries := 3
  maxBackoff := 60
  qps := 6
  hostQps := 1
  hostOverrides := []
  cooldown := 90
  workers_pos := defaultWorkers_pos
  qps_pos := defaultQps_pos
  hostQps_pos := defaultHostQps_pos
  hostOverrides_pos := noOverrides_pos

/-- `float` of a text of digits that may have a minus sign. -/
def readSeconds : Str → Option Seconds
  | 45 :: digits => (readDecimal digits).map fun n => .finite (-n)
  | digits => (readDecimal digits).map fun n => .finite n

def exampleUrl : Str := lit "https://example.com/a"

def exampleLibrary : Library where
  hostname _ := some (lit "example.com")
  float := readSeconds
  parsedate _ := .error .valueError

/-- The first request is answered by a 429, and the next one would be by the page. -/
def throttledOnce : World where
  get _ attempt :=
    if attempt = 0 then some ⟨429, some (lit "-1"), [], 0⟩ else some ⟨200, none, lit "page", 0⟩
  uniform _ _ := ⟨0, le_rfl, zero_le_one⟩

def exampleBatch : Batch := ⟨[exampleUrl], by simp⟩

/-- A bucket that is just made. -/
def fullBucket (host : Option Str) : Bucket := ⟨(limits defaults host).capacity, 0⟩

/-- The thread is granted both buckets, gets the response, penalises the pool, and
`time.sleep` raises, which the main thread passes on. -/
def throttledRun : List Event :=
  .start :: List.replicate 6 (.work exampleUrl 0) ++ [.collect exampleUrl]

theorem negative_retry_after :
    (∃ s, run (step defaults exampleLibrary throttledOnce exampleBatch) (.initial 0 fullBucket)
      throttledRun = some s ∧ s.main = .raised (.builtin .valueError)) ∧
      ¬ Total defaults exampleLibrary throttledOnce exampleBatch 0 fullBucket := by
  constructor
  · have hmain : (run (step defaults exampleLibrary throttledOnce exampleBatch)
        (.initial 0 fullBucket) throttledRun).map State.main =
          some (.raised (.builtin .valueError)) := by
      decide +kernel
    exact Option.map_eq_some_iff.mp hmain
  · intro h
    have hbenign := calm_of_total h exampleUrl (List.mem_singleton_self _)
    obtain ⟨seconds, hdelay, haccepted⟩ := hbenign.delays 0 (Nat.zero_le _) fun j hj => by
      obtain rfl := Nat.le_zero.mp hj
      rfl
    have hminus : retryDelay defaults exampleLibrary throttledOnce exampleUrl 0 =
        .ok (.finite (-1)) := by
      decide +kernel
    rw [hminus] at hdelay
    cases hdelay
    exact absurd haccepted (by decide +kernel)

end WebSpider.Fetcher.Pool
