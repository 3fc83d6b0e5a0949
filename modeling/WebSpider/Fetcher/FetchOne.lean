import WebSpider.Effects.Process
import WebSpider.Effects.Retry
import WebSpider.Fetcher.TokenBucket
import WebSpider.Text.Lines

/-!
# Fetching one URL

`fetch_one` of `fetcher.py` is a process whose calls are those to the token buckets, to
the session and to `time.sleep`. What it sleeps after a 429 is the text of the header as
`float` reads it, so the process raises where `time.sleep` refuses that number. Where
the delays of all attempts up to the decisive response are accepted (`Benign`), it
ends as that response says (`meets_fetchOne`).
-/

namespace WebSpider.Fetcher

open Text Effects

/-! ## The standard library -/

/-- A `float`. The finite ones are exact. -/
inductive Seconds where
  | finite (x : ℚ)
  | inf
  | negInf
  | nan
  deriving DecidableEq

/-- Exceptions that `fetch_many` does not expect. -/
inductive Builtin where
  | valueError
  | typeError
  | overflowError
  deriving DecidableEq

inductive Exn where
  | permanent (reason : Str)
  | requestException
  | builtin (e : Builtin)
  deriving DecidableEq

/-- The parsers of the standard library. -/
structure Library where
  /-- `urlsplit(url).hostname`, in lower case and empty when there is none. No value is
  a `ValueError`. -/
  hostname : Str → Option Str
  /-- `float` of a text. No value is a `ValueError`. -/
  float : Str → Option Seconds
  /-- `parsedate_to_datetime`, as seconds since the epoch. -/
  parsedate : Str → Except Builtin ℚ

/-- What `time.sleep` cannot count in nanoseconds of 64 bits. -/
def sleepLimit : ℚ := 2 ^ 63 / 10 ^ 9

/-- What `time.sleep` raises. -/
def sleepError : Seconds → Option Builtin
  | .finite x =>
    if x < -sleepLimit ∨ sleepLimit ≤ x then some .overflowError
    else if x < 0 then some .valueError else none
  | .inf => some .overflowError
  | .negInf => some .overflowError
  | .nan => some .valueError

/-! ## The settings and the world -/

/-- The `FETCH_*` settings. -/
structure Config where
  workers : Nat
  retries : Nat
  maxBackoff : ℚ
  qps : ℚ
  hostQps : ℚ
  hostOverrides : List (Str × ℚ)
  cooldown : ℚ
  workers_pos : 0 < workers
  qps_pos : 0 < qps
  hostQps_pos : 0 < hostQps
  hostOverrides_pos : ∀ o ∈ hostOverrides, 0 < o.2

/-- A response, with the time that `datetime.now` shows when its header is read. -/
structure Response where
  status : Nat
  retryAfter : Option Str
  text : Str
  now : ℚ
  deriving DecidableEq

/-- For each attempt on a URL, what `Session.get` answers, where none is a
`RequestException`, and the part of the base that `random.uniform` draws. -/
structure World where
  get : Str → Nat → Option Response
  uniform : Str → Nat → {x : ℚ // 0 ≤ x ∧ x ≤ 1}

/-! ## The process -/

/-- The bucket of no host is the global one. -/
inductive Call where
  | acquire (host : Option Str)
  | penalise (host : Option Str) (seconds : Seconds)
  | get (url : Str) (attempt : Nat)
  | sleep (seconds : Seconds)

def Answer : Call → Type
  | .get _ _ => Response
  | _ => Unit

abbrev Fetch (α : Type) := Process Call Answer Exn α

def acquire (host : Option Str) : Fetch Unit := Process.perform (Call.acquire host)

def penalise (host : Option Str) (seconds : Seconds) : Fetch Unit :=
  Process.perform (Call.penalise host seconds)

def getUrl (url : Str) (attempt : Nat) : Fetch Response := Process.perform (Call.get url attempt)

def sleep (seconds : Seconds) : Fetch Unit := Process.perform (Call.sleep seconds)

/-- A pure part that may raise. -/
def pureOr {α : Type} (x : Except Builtin α) : Fetch α := Process.lift (x.mapError .builtin)

/-- `_parse_retry_after` -/
def parseRetryAfter (lib : Library) (now : ℚ) (value : Option Str) :
    Except Builtin (Option Seconds) :=
  match value with
  | none => .ok none
  | some value =>
    match lib.float (strip value) with
    | some seconds => .ok (some seconds)
    | none =>
      match lib.parsedate (strip value) with
      | .ok date =>
        let delta := date - now
        .ok (some (.finite (if 0 < delta then delta else 0)))
      | .error .overflowError => .error .overflowError
      | .error _ => .ok none

/-- `_backoff_delay`. From `2.0 ** 1024` on the power raises. -/
def backoffDelay (cfg : Config) (fraction : ℚ) (attempt : Nat) (retryAfter : Option Seconds) :
    Except Builtin Seconds :=
  match retryAfter with
  | some seconds => .ok seconds
  | none =>
    if 1024 ≤ attempt then .error .overflowError
    else .ok (.finite (fraction * min cfg.maxBackoff (2 ^ attempt)))

/-- `time.sleep` of what `_backoff_delay` returns. -/
def backOff (cfg : Config) (fraction : ℚ) (attempt : Nat) (retryAfter : Option Seconds) :
    Fetch Unit := do
  let delay ← pureOr (backoffDelay cfg fraction attempt retryAfter)
  sleep delay

/-- The name of the bucket that `_get_host_bucket` returns. -/
def hostBucket (lib : Library) (url : Str) : Except Builtin (Option Str) :=
  match lib.hostname url with
  | none => .error .valueError
  | some host => .ok (if host = [] then none else some host)

/-- A step that is left out when there is no host bucket. -/
def onHost (host : Option Str) (m : Fetch Unit) : Fetch Unit :=
  if host.isSome then m else pure ()

/-- The body of the `try`. -/
def request (url : Str) (host : Option Str) (attempt : Nat) : Fetch Response := do
  acquire none
  onHost host (acquire host)
  getUrl url attempt

/-- The text of a `PermanentFetchError`. -/
def permanentReason (status : Nat) : Str := lit "HTTP " ++ decimal status

/-- One turn of the loop of `fetch_one`. No value goes on with the next attempt. -/
def turn (cfg : Config) (lib : Library) (fraction : ℚ) (url : Str) (host : Option Str)
    (attempt : Nat) : Fetch (Option (Option Str)) := do
  match ← (request url host attempt).attempt with
  | .error .requestException =>
    backOff cfg fraction attempt none
    return none
  | .error e => Process.lift (.error e)
  | .ok resp =>
    if resp.status = 200 then return some (some resp.text)
    else if resp.status = 404 ∨ resp.status = 410 then
      Process.lift (.error (.permanent (permanentReason resp.status)))
    else if resp.status = 429 then
      let ra ← pureOr (parseRetryAfter lib resp.now resp.retryAfter)
      penalise none (ra.getD (.finite 5))
      backOff cfg fraction attempt ra
      return none
    else if resp.status = 403 then
      onHost host (penalise host (.finite (cfg.cooldown * (attempt + 1))))
      sleep (.finite 2)
      return none
    else if 500 ≤ resp.status then
      backOff cfg fraction attempt none
      return none
    else return some none

/-- The loop of `fetch_one` with `left` attempts to go. -/
def attempts (cfg : Config) (lib : Library) (fraction : Nat → ℚ) (url : Str)
    (host : Option Str) : Nat → Nat → Fetch (Option Str)
  | 0, _ => pure none
  | left + 1, attempt => do
    match ← turn cfg lib (fraction attempt) url host attempt with
    | none => attempts cfg lib fraction url host left (attempt + 1)
    | some result => return result

/-- `fetch_one` -/
def fetchOne (cfg : Config) (lib : Library) (fraction : Nat → ℚ) (url : Str) :
    Fetch (Option Str) := do
  let host ← pureOr (hostBucket lib url)
  attempts cfg lib fraction url host (cfg.retries + 1) 0

/-! ## What the responses to a URL decide -/

/-- The statuses after which there is another attempt. -/
def retryable (status : Nat) : Bool := decide (status = 429 ∨ status = 403 ∨ 500 ≤ status)

/-- The response to an attempt, when it decides. -/
def decides (w : World) (url : Str) (attempt : Nat) : Option Response :=
  (w.get url attempt).filter fun resp => !retryable resp.status

/-- The first response that decides, with the number of its attempt. -/
def decision (cfg : Config) (w : World) (url : Str) : Option (Nat × Response) :=
  firstDecision (decides w url) 0 (cfg.retries + 1)

/-- What `fetch_one` makes of a response that decides. -/
def verdict (resp : Response) : Except Exn (Option Str) :=
  if resp.status = 200 then .ok (some resp.text)
  else if resp.status = 404 ∨ resp.status = 410 then
    .error (.permanent (permanentReason resp.status))
  else .ok none

def expected (cfg : Config) (w : World) (url : Str) : Except Exn (Option Str) :=
  match decision cfg w url with
  | some (_, resp) => verdict resp
  | none => .ok none

/-- The number of attempts up to the one that decides. -/
def requestsNeeded (cfg : Config) (w : World) (url : Str) : Nat :=
  match decision cfg w url with
  | some (attempt, _) => attempt + 1
  | none => cfg.retries + 1

/-- How long `fetch_one` sleeps after a response that does not decide. -/
def retryDelay (cfg : Config) (lib : Library) (w : World) (url : Str) (attempt : Nat) :
    Except Builtin Seconds :=
  match w.get url attempt with
  | none => backoffDelay cfg (w.uniform url attempt) attempt none
  | some resp =>
    if resp.status = 429 then
      (parseRetryAfter lib resp.now resp.retryAfter).bind
        (backoffDelay cfg (w.uniform url attempt) attempt)
    else if resp.status = 403 then .ok (.finite 2)
    else backoffDelay cfg (w.uniform url attempt) attempt none

/-- There is a delay, and `time.sleep` accepts it. -/
def Accepted (delay : Except Builtin Seconds) : Prop :=
  ∃ seconds, delay = .ok seconds ∧ sleepError seconds = none

/-- `urlsplit` accepts the URL, and `time.sleep` the delays of the attempts before the
decisive one. -/
structure Benign (cfg : Config) (lib : Library) (w : World) (url : Str) : Prop where
  hostname : lib.hostname url ≠ none
  delays : ∀ k ≤ cfg.retries, (∀ j ≤ k, decides w url j = none) →
    Accepted (retryDelay cfg lib w url k)

theorem decides_of_none {w : World} {url : Str} {attempt : Nat} (h : w.get url attempt = none) :
    decides w url attempt = none := by
  rw [decides, h, Option.filter_none]

theorem decides_of_some {w : World} {url : Str} {attempt : Nat} {resp : Response}
    (h : w.get url attempt = some resp) :
    decides w url attempt = if retryable resp.status = true then none else some resp := by
  rw [decides, h, Option.filter_some]
  cases retryable resp.status <;> rfl

theorem finite_of_accepted {seconds : Seconds} (h : sleepError seconds = none) :
    ∃ x, seconds = .finite x := by
  cases seconds with
  | finite x => exact ⟨x, rfl⟩
  | inf => cases h
  | negInf => cases h
  | nan => cases h

/-- `time.sleep` accepts what the header of the response says. -/
def HeaderAccepted (lib : Library) (resp : Response) : Prop :=
  ∃ ra, parseRetryAfter lib resp.now resp.retryAfter = .ok ra ∧
    ∀ seconds, ra = some seconds → sleepError seconds = none

theorem accepted_backoffDelay {cfg : Config} (hbackoff : 0 ≤ cfg.maxBackoff)
    (hlimit : cfg.maxBackoff < sleepLimit) {attempt : Nat} (hattempt : attempt < 1024)
    (fraction : {x : ℚ // 0 ≤ x ∧ x ≤ 1}) :
    Accepted (backoffDelay cfg fraction attempt none) := by
  have hpower : (0 : ℚ) ≤ 2 ^ attempt := pow_nonneg (by decide) attempt
  have hbase : 0 ≤ min cfg.maxBackoff (2 ^ attempt) := le_min hbackoff hpower
  have hnonneg : 0 ≤ fraction * min cfg.maxBackoff (2 ^ attempt) :=
    mul_nonneg fraction.property.1 hbase
  have hle : fraction * min cfg.maxBackoff (2 ^ attempt) ≤ cfg.maxBackoff :=
    (mul_le_of_le_one_left hbase fraction.property.2).trans (min_le_left _ _)
  refine ⟨_, if_neg (Nat.not_le.mpr hattempt), ?_⟩
  have hpos : (0 : ℚ) ≤ sleepLimit := by decide +kernel
  unfold sleepError
  dsimp only
  rw [if_neg, if_neg (not_lt.mpr hnonneg)]
  rintro (hlow | hhigh)
  · linarith
  · linarith

/-- With settings like the defaults only the headers of a 429 matter. -/
theorem benign_iff {cfg : Config} (hbackoff : 0 ≤ cfg.maxBackoff)
    (hlimit : cfg.maxBackoff < sleepLimit) (hretries : cfg.retries < 1024) (lib : Library)
    (w : World) (url : Str) : Benign cfg lib w url ↔ lib.hostname url ≠ none ∧
      ∀ k ≤ cfg.retries, (∀ j ≤ k, decides w url j = none) →
        ∀ resp, w.get url k = some resp → resp.status = 429 → HeaderAccepted lib resp := by
  constructor
  · intro h
    refine ⟨h.hostname, fun k hk hundecided resp hget hstatus => ?_⟩
    obtain ⟨seconds, hdelay, haccepted⟩ := h.delays k hk hundecided
    simp only [retryDelay, hget, hstatus, if_true] at hdelay
    cases hparse : parseRetryAfter lib resp.now resp.retryAfter with
    | error e =>
      rw [hparse] at hdelay
      cases hdelay
    | ok ra =>
      refine ⟨ra, hparse, ?_⟩
      rintro seconds' rfl
      rw [hparse] at hdelay
      cases hdelay
      exact haccepted
  · rintro ⟨hhost, hheaders⟩
    refine ⟨hhost, fun k hk hundecided => ?_⟩
    have hbackedOff := accepted_backoffDelay hbackoff hlimit
      (Nat.lt_of_le_of_lt hk hretries) (w.uniform url k)
    cases hget : w.get url k with
    | none => simpa only [retryDelay, hget] using hbackedOff
    | some resp =>
      simp only [retryDelay, hget]
      by_cases htoo : resp.status = 429
      · obtain ⟨ra, hparse, haccepted⟩ := hheaders k hk hundecided resp hget htoo
        rw [if_pos htoo, hparse]
        cases ra with
        | none => exact hbackedOff
        | some seconds => exact ⟨seconds, rfl, haccepted seconds rfl⟩
      · rw [if_neg htoo]
        split
        · exact ⟨_, rfl, by decide +kernel⟩
        · exact hbackedOff

/-! ## The contract of the process -/

def getAnswer : Option Response → Except Exn Response
  | some resp => .ok resp
  | none => .error .requestException

def sleepAnswer (seconds : Seconds) : Except Exn Unit :=
  match sleepError seconds with
  | none => .ok ()
  | some e => .error (.builtin e)

/-- The calls made so far, and how many of them were requests. -/
structure Count where
  calls : Nat
  requests : Nat

def Count.next (g : Count) : Call → Count
  | .get _ _ => ⟨g.calls + 1, g.requests + 1⟩
  | _ => ⟨g.calls + 1, g.requests⟩

section Contract

variable (cfg : Config) (w : World) (url : Str) (calm : Prop)

/-- The requests are those for the URL, one for each attempt. In a calm world no bucket
is penalised without end. -/
def CallAllowed (g : Count) : Call → Prop
  | .get u attempt => u = url ∧ attempt = g.requests ∧ attempt ≤ cfg.retries
  | .penalise _ seconds => calm → ∃ x, seconds = .finite x
  | _ => True

/-- A bucket raises in `time.sleep`, though not in a calm world. -/
def AnswerAllowed : (i : Call) → Except Exn (Answer i) → Prop
  | .acquire _, r => r = .ok () ∨ ¬ calm ∧ r = .error (.builtin .valueError)
  | .penalise _ _, r => r = .ok ()
  | .get u attempt, r => r = getAnswer (w.get u attempt)
  | .sleep seconds, r => r = sleepAnswer seconds

/-- An attempt makes at most five calls. -/
def callLimit : Nat := 5 * (cfg.retries + 1)

def contract : Contract Count Call Answer Exn where
  next := Count.next
  guard g i := g.calls < callLimit cfg ∧ CallAllowed cfg url calm g i
  answers := AnswerAllowed w calm

/-- How `fetch_one` ends: as the decisive response says, or by an exception that
`fetch_many` does not expect. -/
def Fetched (lib : Library) (g : Count) (r : Except Exn (Option Str)) : Prop :=
  Benign cfg lib w url ∧ r = expected cfg w url ∧ g.requests = requestsNeeded cfg w url ∨
    ¬ calm ∧ ∃ e, r = .error (.builtin e)

variable {cfg w url calm} {g : Count}

theorem meets_acquire {host : Option Str} {Q : Count → Except Exn Unit → Prop}
    (hcalls : g.calls < callLimit cfg) (hok : Q ⟨g.calls + 1, g.requests⟩ (.ok ()))
    (herr : ¬ calm → Q ⟨g.calls + 1, g.requests⟩ (.error (.builtin .valueError))) :
    Meets (contract cfg w url calm) Q g (acquire host) := by
  refine meets_perform ⟨hcalls, trivial⟩ fun r hr => ?_
  rcases hr with rfl | ⟨hcalm, rfl⟩
  · exact hok
  · exact herr hcalm

theorem meets_penalise {host : Option Str} {seconds : Seconds}
    {Q : Count → Except Exn Unit → Prop} (hcalls : g.calls < callLimit cfg)
    (hfinite : calm → ∃ x, seconds = .finite x) (hok : Q ⟨g.calls + 1, g.requests⟩ (.ok ())) :
    Meets (contract cfg w url calm) Q g (penalise host seconds) := by
  refine meets_perform ⟨hcalls, hfinite⟩ fun r hr => ?_
  obtain rfl := hr
  exact hok

theorem meets_getUrl {attempt : Nat} {Q : Count → Except Exn Response → Prop}
    (hcalls : g.calls < callLimit cfg) (hattempt : attempt = g.requests)
    (hle : attempt ≤ cfg.retries)
    (h : Q ⟨g.calls + 1, g.requests + 1⟩ (getAnswer (w.get url attempt))) :
    Meets (contract cfg w url calm) Q g (getUrl url attempt) := by
  refine meets_perform ⟨hcalls, rfl, hattempt, hle⟩ fun r hr => ?_
  obtain rfl := hr
  exact h

theorem meets_sleep {seconds : Seconds} {Q : Count → Except Exn Unit → Prop}
    (hcalls : g.calls < callLimit cfg)
    (h : Q ⟨g.calls + 1, g.requests⟩ (sleepAnswer seconds)) :
    Meets (contract cfg w url calm) Q g (sleep seconds) := by
  refine meets_perform ⟨hcalls, trivial⟩ fun r hr => ?_
  obtain rfl := hr
  exact h

theorem meets_onHost {host : Option Str} {m : Fetch Unit} {Q : Count → Except Exn Unit → Prop}
    (hm : Meets (contract cfg w url calm) Q g m) (hskip : Q g (.ok ())) :
    Meets (contract cfg w url calm) Q g (onHost host m) := by
  unfold onHost
  split
  · exact hm
  · exact meets_pure hskip

theorem meets_request {host : Option Str} {Q : Count → Except Exn Response → Prop}
    (hcalls : g.calls + 3 ≤ callLimit cfg) (hle : g.requests ≤ cfg.retries)
    (hanswer : ∀ c ≤ g.calls + 3, Q ⟨c, g.requests + 1⟩ (getAnswer (w.get url g.requests)))
    (hbroken : ¬ calm → ∀ g', Q g' (.error (.builtin .valueError))) :
    Meets (contract cfg w url calm) Q g (request url host g.requests) := by
  have hget (c : Nat) (hc : c + 1 ≤ g.calls + 3) :
      Meets (contract cfg w url calm) Q ⟨c, g.requests⟩ (getUrl url g.requests) :=
    meets_getUrl (by show c < _; omega) rfl hle (hanswer _ hc)
  unfold request
  refine meets_bind (meets_acquire (by omega) ?_ fun hcalm => hbroken hcalm _)
  refine meets_bind (meets_onHost (meets_acquire ?_ ?_ fun hcalm => hbroken hcalm _) ?_)
  · show g.calls + 1 < _
    omega
  · exact hget (g.calls + 2) (by omega)
  · exact hget (g.calls + 1) (by omega)

theorem meets_backOff {fraction : ℚ} {attempt : Nat} {retryAfter : Option Seconds}
    {Q : Count → Except Exn Unit → Prop} (hcalls : g.calls < callLimit cfg)
    (hok : Accepted (backoffDelay cfg fraction attempt retryAfter) →
      Q ⟨g.calls + 1, g.requests⟩ (.ok ()))
    (herr : ¬ Accepted (backoffDelay cfg fraction attempt retryAfter) →
      ∀ g' e, Q g' (.error (.builtin e))) :
    Meets (contract cfg w url calm) Q g (backOff cfg fraction attempt retryAfter) := by
  unfold backOff
  refine meets_bind (meets_lift ?_)
  cases hdelay : backoffDelay cfg fraction attempt retryAfter with
  | error e =>
    refine herr ?_ g e
    rintro ⟨seconds, hseconds, -⟩
    rw [hdelay] at hseconds
    cases hseconds
  | ok seconds =>
    apply meets_sleep hcalls
    unfold sleepAnswer
    cases hsleep : sleepError seconds with
    | none => exact hok ⟨seconds, hdelay, hsleep⟩
    | some e =>
      refine herr ?_ _ e
      rintro ⟨seconds', hseconds, haccepted⟩
      obtain rfl := Except.ok.inj (hdelay.symm.trans hseconds)
      rw [hsleep] at haccepted
      cases haccepted

/-- What one turn of the loop must establish: it goes on after an accepted delay, it ends
as the response says, or it raises. -/
structure TurnMet (cfg : Config) (lib : Library) (w : World) (url : Str) (calm : Prop) (g : Count)
    (Q : Count → Except Exn (Option (Option Str)) → Prop) : Prop where
  again : decides w url g.requests = none → Accepted (retryDelay cfg lib w url g.requests) →
    ∀ c ≤ g.calls + 5, Q ⟨c, g.requests + 1⟩ (.ok none)
  decided : ∀ resp, decides w url g.requests = some resp → ∀ c,
    Q ⟨c, g.requests + 1⟩ ((verdict resp).map some)
  broken : ¬ calm → ∀ g' e, Q g' (.error (.builtin e))

section Turn

variable {lib : Library} {host : Option Str} {Q : Count → Except Exn (Option (Option Str)) → Prop}

/-- A turn that backs off without a header. -/
theorem TurnMet.backOff (hQ : TurnMet cfg lib w url calm g Q) {c : Nat} (hc : c + 1 ≤ g.calls + 5)
    (hlimit : g.calls + 5 ≤ callLimit cfg) (hundecided : decides w url g.requests = none)
    (hcalm : calm → Accepted (retryDelay cfg lib w url g.requests)) {ra : Option Seconds}
    (hdelay : retryDelay cfg lib w url g.requests =
      backoffDelay cfg (w.uniform url g.requests) g.requests ra) :
    Meets (contract cfg w url calm) Q ⟨c, g.requests + 1⟩
      (do Fetcher.backOff cfg (w.uniform url g.requests) g.requests ra; return none) := by
  refine meets_bind (meets_backOff (by show c < _; omega) (fun haccepted => ?_) fun hrefused => ?_)
  · exact hQ.again hundecided (hdelay ▸ haccepted) _ hc
  · exact hQ.broken fun h => hrefused (hdelay ▸ hcalm h)

theorem TurnMet.tooMany (hQ : TurnMet cfg lib w url calm g Q) {resp : Response} {c : Nat}
    (hget : w.get url g.requests = some resp) (hstatus : resp.status = 429)
    (hundecided : decides w url g.requests = none) (hc : c ≤ g.calls + 3)
    (hlimit : g.calls + 5 ≤ callLimit cfg)
    (hcalm : calm → Accepted (retryDelay cfg lib w url g.requests)) :
    Meets (contract cfg w url calm) Q ⟨c, g.requests + 1⟩ (do
      let ra ← pureOr (parseRetryAfter lib resp.now resp.retryAfter)
      penalise none (ra.getD (.finite 5))
      Fetcher.backOff cfg (w.uniform url g.requests) g.requests ra
      return none) := by
  have hdelay : retryDelay cfg lib w url g.requests =
      (parseRetryAfter lib resp.now resp.retryAfter).bind
        (backoffDelay cfg (w.uniform url g.requests) g.requests) := by
    rw [retryDelay, hget]
    exact if_pos hstatus
  refine meets_bind (meets_lift ?_)
  cases hparse : parseRetryAfter lib resp.now resp.retryAfter with
  | error e =>
    refine hQ.broken (fun h => ?_) _ e
    obtain ⟨seconds, hseconds, -⟩ := hcalm h
    rw [hdelay, hparse] at hseconds
    cases hseconds
  | ok ra =>
    rw [hparse] at hdelay
    refine meets_bind (meets_penalise (by show c < _; omega) (fun h => ?_) ?_)
    · cases ra with
      | none => exact ⟨5, rfl⟩
      | some seconds =>
        obtain ⟨seconds', hseconds, haccepted⟩ := hcalm h
        rw [hdelay] at hseconds
        obtain rfl := Except.ok.inj hseconds
        exact finite_of_accepted haccepted
    · exact hQ.backOff (by show c + 1 + 1 ≤ _; omega) hlimit hundecided hcalm hdelay

theorem TurnMet.forbidden (hQ : TurnMet cfg lib w url calm g Q) {resp : Response} {c : Nat}
    (hget : w.get url g.requests = some resp) (hstatus : resp.status = 403)
    (hundecided : decides w url g.requests = none) (hc : c ≤ g.calls + 3)
    (hlimit : g.calls + 5 ≤ callLimit cfg) (attempt : Nat) :
    Meets (contract cfg w url calm) Q ⟨c, g.requests + 1⟩ (do
      onHost host (penalise host (.finite (cfg.cooldown * (attempt + 1))))
      sleep (.finite 2)
      return none) := by
  have haccepted : sleepError (.finite 2) = none := by decide +kernel
  have hdelay : retryDelay cfg lib w url g.requests = .ok (.finite 2) := by
    rw [retryDelay, hget]
    show (if resp.status = 429 then _ else if resp.status = 403 then _ else _) = _
    rw [if_neg (by omega), if_pos hstatus]
  have hsleep (c' : Nat) (hc' : c' ≤ g.calls + 4) : Meets (contract cfg w url calm) Q
      ⟨c', g.requests + 1⟩ (do sleep (.finite 2); return none) := by
    refine meets_bind (meets_sleep (by show c' < _; omega) ?_)
    rw [sleepAnswer, haccepted]
    exact hQ.again hundecided ⟨_, hdelay, haccepted⟩ _ (by show c' + 1 ≤ _; omega)
  refine meets_bind (meets_onHost (meets_penalise (by show c < _; omega) (fun _ => ⟨_, rfl⟩) ?_) ?_)
  · exact hsleep (c + 1) (by omega)
  · exact hsleep c (by omega)

theorem meets_turn (hQ : TurnMet cfg lib w url calm g Q) (hlimit : g.calls + 5 ≤ callLimit cfg)
    (hle : g.requests ≤ cfg.retries)
    (hcalm : calm → decides w url g.requests = none →
      Accepted (retryDelay cfg lib w url g.requests)) :
    Meets (contract cfg w url calm) Q g
      (turn cfg lib (w.uniform url g.requests) url host g.requests) := by
  unfold turn
  refine meets_bind (meets_attempt (meets_request (by omega) hle (fun c hc => ?_) fun h g' =>
    hQ.broken h g' _))
  cases hget : w.get url g.requests with
  | none =>
    have hundecided := decides_of_none hget
    have hdelay : retryDelay cfg lib w url g.requests =
        backoffDelay cfg (w.uniform url g.requests) g.requests none := by
      rw [retryDelay, hget]
    exact hQ.backOff (by omega) hlimit hundecided (fun h => hcalm h hundecided) hdelay
  | some resp =>
    have hdecides := decides_of_some hget
    have hundecided (h : retryable resp.status = true) : decides w url g.requests = none := by
      rw [hdecides, if_pos h]
    have hdecided (r : Except Exn (Option Str)) (hdecisive : retryable resp.status = false)
        (hr : verdict resp = r) : Q ⟨c, g.requests + 1⟩ (r.map some) := by
      refine hr ▸ hQ.decided resp ?_ c
      rw [hdecides, if_neg (by rw [hdecisive]; exact Bool.false_ne_true)]
    show Meets _ Q _ (if resp.status = 200 then _ else _)
    by_cases hok : resp.status = 200
    · rw [if_pos hok]
      exact meets_pure (hdecided (.ok (some resp.text)) (by rw [hok]; rfl) (if_pos hok))
    rw [if_neg hok]
    by_cases hgone : resp.status = 404 ∨ resp.status = 410
    · rw [if_pos hgone]
      refine meets_lift (hdecided (.error (.permanent _)) ?_ ?_)
      · rcases hgone with h | h <;> rw [h] <;> rfl
      · rw [verdict, if_neg hok, if_pos hgone]
    rw [if_neg hgone]
    by_cases htoo : resp.status = 429
    · rw [if_pos htoo]
      have hnone := hundecided (by rw [htoo]; rfl)
      exact hQ.tooMany hget htoo hnone hc hlimit fun h => hcalm h hnone
    rw [if_neg htoo]
    by_cases hforbidden : resp.status = 403
    · rw [if_pos hforbidden]
      exact hQ.forbidden hget hforbidden (hundecided (by rw [hforbidden]; rfl)) hc hlimit _
    rw [if_neg hforbidden]
    by_cases hserver : 500 ≤ resp.status
    · rw [if_pos hserver]
      have hnone := hundecided (decide_eq_true (Or.inr (Or.inr hserver)))
      have hdelay : retryDelay cfg lib w url g.requests =
          backoffDelay cfg (w.uniform url g.requests) g.requests none := by
        rw [retryDelay, hget]
        show (if resp.status = 429 then _ else if resp.status = 403 then _ else _) = _
        rw [if_neg htoo, if_neg hforbidden]
      exact hQ.backOff (by omega) hlimit hnone (fun h => hcalm h hnone) hdelay
    · rw [if_neg hserver]
      refine meets_pure (hdecided (.ok none) (decide_eq_false ?_) ?_)
      · rintro (h | h | h)
        · exact htoo h
        · exact hforbidden h
        · exact hserver h
      · rw [verdict, if_neg hok, if_neg hgone]

end Turn

section Loop

variable {lib : Library} {host : Option Str}

theorem fetched_decided (hhost : lib.hostname url ≠ none) {k c : Nat} {resp : Response}
    (hle : k ≤ cfg.retries) (hdecides : decides w url k = some resp)
    (hbefore : ∀ j < k, decides w url j = none)
    (haccepted : ∀ j < k, Accepted (retryDelay cfg lib w url j)) :
    Fetched cfg w url calm lib ⟨c, k + 1⟩ (verdict resp) := by
  have hdecision : decision cfg w url = some (k, resp) :=
    firstDecision_eq_some.mpr ⟨⟨Nat.zero_le k, by omega⟩, hdecides, fun j _ hj => hbefore j hj⟩
  refine Or.inl ⟨⟨hhost, fun j _ hj => haccepted j ?_⟩, ?_, ?_⟩
  · by_contra hlt
    have hnone := hj k (Nat.le_of_not_lt hlt)
    rw [hdecides] at hnone
    cases hnone
  · rw [expected, hdecision]
  · rw [requestsNeeded, hdecision]

theorem fetched_exhausted (hhost : lib.hostname url ≠ none) {c : Nat}
    (hbefore : ∀ j < cfg.retries + 1, decides w url j = none)
    (haccepted : ∀ j < cfg.retries + 1, Accepted (retryDelay cfg lib w url j)) :
    Fetched cfg w url calm lib ⟨c, cfg.retries + 1⟩ (.ok none) := by
  have hdecision : decision cfg w url = none :=
    firstDecision_eq_none.mpr fun j _ hj => hbefore j (by omega)
  refine Or.inl ⟨⟨hhost, fun j hj _ => haccepted j (by omega)⟩, ?_, ?_⟩
  · rw [expected, hdecision]
  · rw [requestsNeeded, hdecision]

/-- The loop, after attempts that did not decide and whose delays were accepted. -/
theorem meets_attempts (hcalm : calm → Benign cfg lib w url) (hhost : lib.hostname url ≠ none)
    (left : Nat) {g : Count} (hleft : g.requests + left = cfg.retries + 1)
    (hcalls : g.calls ≤ 5 * g.requests) (hbefore : ∀ j < g.requests, decides w url j = none)
    (haccepted : ∀ j < g.requests, Accepted (retryDelay cfg lib w url j)) :
    Meets (contract cfg w url calm) (Fetched cfg w url calm lib) g
      (attempts cfg lib (fun k => w.uniform url k) url host left g.requests) := by
  induction left generalizing g with
  | zero =>
    obtain ⟨c, k⟩ := g
    obtain rfl : k = cfg.retries + 1 := hleft
    exact fetched_exhausted hhost hbefore haccepted
  | succ left ih =>
    have hlimit : g.calls + 5 ≤ callLimit cfg := by
      unfold callLimit
      omega
    have hupTo (hundecided : decides w url g.requests = none) :
        ∀ j < g.requests + 1, decides w url j = none := by
      intro j hj
      rcases Nat.lt_succ_iff_lt_or_eq.mp hj with hj | rfl
      · exact hbefore j hj
      · exact hundecided
    refine meets_bind (meets_turn ⟨fun hundecided hdelay c hc => ?_, fun resp hdecides c => ?_,
      fun h g' e => Or.inr ⟨h, e, rfl⟩⟩ hlimit (by omega) fun h hundecided => ?_)
    · refine @ih ⟨c, g.requests + 1⟩ ?_ ?_ (hupTo hundecided) fun j hj => ?_
      · show g.requests + 1 + left = _
        omega
      · show c ≤ 5 * (g.requests + 1)
        omega
      · rcases Nat.lt_succ_iff_lt_or_eq.mp hj with hj | rfl
        · exact haccepted j hj
        · exact hdelay
    · have hfetched : Fetched cfg w url calm lib ⟨c, g.requests + 1⟩ (verdict resp) :=
        fetched_decided hhost (by omega) hdecides hbefore haccepted
      cases hverdict : verdict resp with
      | ok result =>
        rw [hverdict] at hfetched
        exact hfetched
      | error e =>
        rw [hverdict] at hfetched
        exact hfetched
    · exact (hcalm h).delays _ (by omega) fun j hj => hupTo hundecided j (by omega)

/-- How `fetch_one` ends, whatever the other threads do to the buckets. -/
theorem meets_fetchOne (hcalm : calm → Benign cfg lib w url) :
    Meets (contract cfg w url calm) (Fetched cfg w url calm lib) ⟨0, 0⟩
      (fetchOne cfg lib (fun k => w.uniform url k) url) := by
  unfold fetchOne
  refine meets_bind (meets_lift ?_)
  unfold hostBucket
  cases hhost : lib.hostname url with
  | none => exact Or.inr ⟨fun h => (hcalm h).hostname hhost, .valueError, rfl⟩
  | some host =>
    have hne : lib.hostname url ≠ none := by
      rw [hhost]
      exact Option.some_ne_none host
    exact meets_attempts hcalm hne _ (Nat.zero_add _) (Nat.zero_le _) (by simp) (by simp)

end Loop

end Contract

end WebSpider.Fetcher
