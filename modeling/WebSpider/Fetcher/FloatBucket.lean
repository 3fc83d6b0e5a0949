import WebSpider.Effects.Run
import WebSpider.Fetcher.HostOverrides

/-!
# The bucket of a host

`TokenBucket` of `fetcher.py` with the rates that the settings can give it, so in
floating-point numbers. A pass of `acquire` may end in a division by zero, and the time it
computes to wait may be negative or NaN. With a positive finite rate neither happens
(`sound_of_positive`); with zero, a negative rate or minus infinity one of them does, and
with infinity or NaN the call always returns (`sound_iff`).
-/

namespace WebSpider.Overrides

open Text Floats Effects
open Fetcher (Library Builtin hostBucket)

/-! ## The bucket -/

structure TokenBucket where
  rate : Double
  capacity : Double
  tokens : Double
  last : Double

/-- `TokenBucket(rate)` -/
def TokenBucket.create (rate : Double) (now : ℚ) : TokenBucket :=
  let capacity := (Double.finite 1).greatest rate
  ⟨rate, capacity, capacity, .finite now⟩

/-- How a pass of the loop of `acquire` ends. What it waits is not yet cut to five seconds. -/
inductive Pass where
  | returned
  | waits (wait : Double)
  | zeroDivision
  deriving DecidableEq

/-- The pass of a bucket that has this many tokens. -/
def TokenBucket.take (available : Double) (now : ℚ) (b : TokenBucket) : TokenBucket × Pass :=
  if .finite 1 ≤ available then
    ({ b with tokens := binary64.sub available (.finite 1), last := .finite now }, .returned)
  else
    ({ b with tokens := available, last := .finite now },
      match binary64.div (binary64.sub (.finite 1) available) b.rate with
      | none => .zeroDivision
      | some wait => .waits wait)

/-- One pass of the loop of `acquire`, for one token at the time `now`. -/
def TokenBucket.acquire (now : ℚ) (b : TokenBucket) : TokenBucket × Pass :=
  let wait := binary64.sub b.last (.finite now)
  if wait ≤ 0 then
    b.take (b.capacity.least (binary64.add b.tokens (binary64.mul wait.neg b.rate))) now
  else (b, .waits (wait.least (.finite 5)))

/-- `penalise` -/
def TokenBucket.penalise (seconds now : ℚ) (b : TokenBucket) : TokenBucket :=
  { b with tokens := 0, last := binary64.add (.finite now) (.finite seconds) }

/-- `_get_host_bucket` for a host that has no bucket yet. -/
def getHostBucket (lib : Library) (overrides : Str → Option Double) (hostQps : ℚ) (url : Str)
    (now : ℚ) : Except Builtin (Option TokenBucket) :=
  (hostBucket lib url).map fun host =>
    host.map fun host => .create ((overrides host).getD (.finite hostQps)) now

/-! ## Threads -/

/-- `time.sleep(min(wait, 5.0))` ends then. It refuses negative numbers and NaN at once. -/
def Pass.wake (now : ℚ) : Pass → ℚ
  | .waits wait =>
    match wait.least (.finite 5) with
    | .finite seconds => now + max 0 seconds
    | _ => now
  | _ => now

/-- The bucket, the time of the last step, for each thread until when it sleeps, and how
the passes of all calls ended. -/
structure State where
  bucket : TokenBucket
  clock : ℚ
  wake : Nat → ℚ
  passes : List Pass

def State.initial (b : TokenBucket) (start : ℚ) : State := ⟨b, start, fun _ => start, []⟩

inductive Event where
  /-- One pass of `acquire` by a thread that is awake. -/
  | acquire (thread : Nat) (now : ℚ)
  | penalise (seconds now : ℚ)

def step (s : State) : Event → Option State
  | .acquire thread now =>
    if s.clock ≤ now ∧ s.wake thread ≤ now then
      let (b, pass) := s.bucket.acquire now
      some ⟨b, now, Function.update s.wake thread (pass.wake now), s.passes ++ [pass]⟩
    else none
  | .penalise seconds now =>
    if s.clock ≤ now then some { s with bucket := s.bucket.penalise seconds now, clock := now }
    else none

/-! ## The property -/

/-- No division by zero, and what is waited is a number and not negative. -/
def Pass.Sound : Pass → Prop
  | .returned => True
  | .waits wait => 0 ≤ wait
  | .zeroDivision => False

/-- Every pass of every call is sound. -/
def Sound (b : TokenBucket) (start : ℚ) : Prop :=
  ∀ es t, run step (.initial b start) es = some t → ∀ p ∈ t.passes, p.Sound

/-! ## The invariant -/

/-- The numbers that a sound bucket has, apart from its rate. -/
structure Filled (b : TokenBucket) : Prop where
  capacity : .finite 1 ≤ b.capacity
  tokens : 0 ≤ b.tokens
  last : b.last ≠ .nan

/-- A set of buckets in which every pass is sound and leads to one of them. -/
structure Closed (I : TokenBucket → Prop) : Prop where
  acquire : ∀ b now, I b → I (b.acquire now).1 ∧ (b.acquire now).2.Sound
  penalise : ∀ b seconds now, I b → I (b.penalise seconds now)

theorem Closed.step {I : TokenBucket → Prop} (hI : Closed I) {s t : State} {e : Event}
    (hs : I s.bucket ∧ ∀ p ∈ s.passes, p.Sound) (h : step s e = some t) :
    I t.bucket ∧ ∀ p ∈ t.passes, p.Sound := by
  cases e with
  | acquire thread now =>
    rw [Overrides.step] at h
    split_ifs at h with hnow
    obtain rfl := Option.some.inj h
    obtain ⟨hbucket, hpass⟩ := hI.acquire s.bucket now hs.1
    refine ⟨hbucket, fun p hp => ?_⟩
    rcases List.mem_append.mp hp with hp | hp
    · exact hs.2 p hp
    · obtain rfl := List.mem_singleton.mp hp
      exact hpass
  | penalise seconds now =>
    rw [Overrides.step] at h
    split_ifs at h with hnow
    obtain rfl := Option.some.inj h
    exact ⟨hI.penalise s.bucket seconds now hs.1, hs.2⟩

theorem Closed.sound {I : TokenBucket → Prop} (hI : Closed I) {b : TokenBucket} (hb : I b)
    (start : ℚ) : Sound b start := by
  intro es t hrun
  refine (run_invariant (I := fun s => I s.bucket ∧ ∀ p ∈ s.passes, p.Sound)
    (K := fun _ _ => True) (fun s e t hs _ h => hI.step hs h) ⟨hb, ?_⟩ (along_true _ _ es) hrun).2
  intro p hp
  cases hp

theorem zero_le_of_one_le {x : Double} (h : .finite 1 ≤ x) : 0 ≤ x := by
  cases x with
  | finite q => exact Double.finite_le.mpr (by linarith [Double.finite_le.mp h])
  | inf => rfl
  | negInf => cases h
  | nan => cases h

theorem filled_create (rate : Double) (now : ℚ) : Filled (.create rate now) := by
  have hcapacity : Double.finite 1 ≤ (Double.finite 1).greatest rate := Double.le_greatest 1 rate
  exact ⟨hcapacity, zero_le_of_one_le hcapacity, by simp [TokenBucket.create]⟩

theorem Filled.penalise {b : TokenBucket} (hb : Filled b) (seconds now : ℚ) :
    Filled (b.penalise seconds now) :=
  ⟨hb.capacity, rfl, Format.round_ne_nan (now + seconds)⟩

/-- A pass waits for the end of a penalty, or it takes from what there is after some time. -/
theorem acquire_cases {b : TokenBucket} (hb : Filled b) (now : ℚ) :
    (∃ wait, b.acquire now = (b, .waits wait) ∧ 0 ≤ wait) ∨
      ∃ x, 0 ≤ x ∧ b.acquire now =
        b.take (b.capacity.least (binary64.add b.tokens (binary64.mul x b.rate))) now := by
  have hwait : binary64.sub b.last (.finite now) ≠ .nan := Format.add_ne_nan (-now) hb.last
  unfold TokenBucket.acquire
  dsimp only
  split_ifs with h
  · exact Or.inr ⟨_, Double.zero_le_neg h, rfl⟩
  · refine Or.inl ⟨_, rfl, Double.zero_le_least (Double.nonneg_of_not_nonpos hwait h) ?_⟩
    exact Double.zero_le_finite.mpr (by norm_num)

/-- A bucket with a token gives it away. -/
theorem take_of_le {b : TokenBucket} (hb : Filled b) {available : Double}
    (h : .finite 1 ≤ available) (now : ℚ) : Filled (b.take available now).1 ∧
      (b.take available now).1.rate = b.rate ∧ (b.take available now).1.capacity = b.capacity ∧
        (b.take available now).2 = .returned := by
  rw [TokenBucket.take, if_pos h]
  exact ⟨⟨hb.capacity, Format.zero_le_sub h, by simp⟩, rfl, rfl, rfl⟩

/-! ## Positive rates -/

theorem closed_of_positive {r : ℚ} (hr : 0 < r) :
    Closed fun b => Filled b ∧ b.rate = .finite r where
  acquire := by
    rintro b now ⟨hb, hrate⟩
    rcases acquire_cases hb now with ⟨wait, heq, hwait⟩ | ⟨x, hx, heq⟩
    · rw [heq]
      exact ⟨⟨hb, hrate⟩, hwait⟩
    · rw [heq, hrate]
      have havailable : 0 ≤ b.capacity.least
          (binary64.add b.tokens (binary64.mul x (.finite r))) :=
        Double.zero_le_least (zero_le_of_one_le hb.capacity)
          (Format.zero_le_add hb.tokens (Format.zero_le_mul hx hr))
      generalize b.capacity.least (binary64.add b.tokens (binary64.mul x (.finite r))) =
        available at havailable
      by_cases htoken : .finite 1 ≤ available
      · obtain ⟨hfilled, hsame, -, hreturned⟩ := take_of_le hb htoken now
        rw [hreturned]
        exact ⟨⟨hfilled, hsame.trans hrate⟩, trivial⟩
      · rcases Double.nonneg_cases havailable with rfl | ⟨a, rfl, ha⟩
        · exact absurd rfl htoken
        · have hle : Double.finite a ≤ .finite 1 :=
            Double.finite_le.mpr (not_le.mp (mt Double.finite_le.mpr htoken)).le
          obtain ⟨wait, hdiv, hwait⟩ := Format.zero_le_div (f := binary64)
            (Format.zero_le_sub (f := binary64) hle) hr
          rw [TokenBucket.take, if_neg htoken, hrate, hdiv]
          exact ⟨⟨⟨hb.capacity, havailable, by simp⟩, rfl⟩, hwait⟩
  penalise := by
    rintro b seconds now ⟨hb, hrate⟩
    exact ⟨hb.penalise seconds now, hrate⟩

theorem sound_of_positive {r : ℚ} (hr : 0 < r) (start : ℚ) :
    Sound (.create (.finite r) start) start :=
  (closed_of_positive hr).sound ⟨filled_create _ start, rfl⟩ start

/-! ## Infinite rates and NaN -/

/-- With such a rate what is added is infinite or NaN. -/
def Unlimited (b : TokenBucket) : Prop := b.rate = .nan ∨ b.rate = .inf ∧ b.capacity = .inf

theorem unlimited_create {rate : Double} (h : rate = .nan ∨ rate = .inf) (now : ℚ) :
    Unlimited (.create rate now) := by
  rcases h with rfl | rfl
  · exact Or.inl rfl
  · exact Or.inr ⟨rfl, rfl⟩

/-- The bucket is always full. -/
theorem Unlimited.full {b : TokenBucket} (h : Unlimited b) (hb : Filled b) {x : Double}
    (hx : 0 ≤ x) :
    b.capacity.least (binary64.add b.tokens (binary64.mul x b.rate)) = b.capacity := by
  have hnan : binary64.add b.tokens .nan = .nan := by cases b.tokens <;> rfl
  have hfirst : b.capacity.least .nan = b.capacity := if_neg fun h => Bool.false_ne_true h.1
  rcases h with hrate | ⟨hrate, hcapacity⟩
  · have hmul : binary64.mul x .nan = .nan := by cases x <;> rfl
    rw [hrate, hmul, hnan, hfirst]
  · rw [hrate]
    rcases Format.mul_inf (f := binary64) hx with hmul | hmul
    · rw [hmul, hnan, hfirst]
    · have hinf : binary64.add b.tokens .inf = .inf := by
        rcases Double.nonneg_cases hb.tokens with htokens | ⟨q, htokens, -⟩
        · rw [htokens]
          rfl
        · rw [htokens]
          rfl
      rw [hmul, hinf, hcapacity]
      rfl

theorem closed_unlimited : Closed fun b => Filled b ∧ Unlimited b where
  acquire := by
    rintro b now ⟨hb, hunlimited⟩
    rcases acquire_cases hb now with ⟨wait, heq, hwait⟩ | ⟨x, hx, heq⟩
    · rw [heq]
      exact ⟨⟨hb, hunlimited⟩, hwait⟩
    · rw [heq, hunlimited.full hb hx]
      obtain ⟨hfilled, hrate, hcapacity, hreturned⟩ := take_of_le hb hb.capacity now
      refine ⟨⟨hfilled, ?_⟩, ?_⟩
      · rw [Unlimited, hrate, hcapacity]
        exact hunlimited
      · rw [hreturned]
        trivial
  penalise := by
    rintro b seconds now ⟨hb, hunlimited⟩
    exact ⟨hb.penalise seconds now, hunlimited⟩

/-! ## Rates that are not positive -/

theorem greatest_of_nonpos {rate : Double} (h : rate ≤ 0) :
    (Double.finite 1).greatest rate = .finite 1 := by
  rcases Double.nonpos_cases h with rfl | ⟨q, rfl, hq⟩
  · rfl
  · refine if_neg fun hless => hless.2 (Double.finite_le.mpr ?_)
    linarith

/-- At the time of the last refill nothing is added. -/
theorem acquire_at_last {b : TokenBucket} {r now : ℚ} (hrate : b.rate = .finite r)
    (hlast : b.last = .finite now) :
    b.acquire now = b.take (b.capacity.least (binary64.add b.tokens 0)) now := by
  have hwait : binary64.sub b.last (.finite now) = 0 := by rw [hlast, binary64_sub_self]
  have hmul : binary64.mul (Double.neg 0) b.rate = 0 := by
    rw [hrate]
    exact binary64_zero_mul r
  rw [TokenBucket.acquire, hwait, hmul, if_pos (by decide)]

/-- The one token of a new bucket is taken at once. -/
theorem acquire_create {r : ℚ} (hr : r ≤ 0) (now : ℚ) :
    (TokenBucket.create (.finite r) now).acquire now =
      (⟨.finite r, .finite 1, 0, .finite now⟩, .returned) := by
  have hcapacity := greatest_of_nonpos (Double.finite_le.mpr hr)
  have hadd : binary64.add (.finite 1) 0 = .finite 1 := by
    change binary64.round (1 + 0) = .finite 1
    rw [add_zero, binary64_round_one]
  have hleast : (Double.finite 1).least (.finite 1) = .finite 1 := by decide
  rw [acquire_at_last rfl rfl, TokenBucket.create, hcapacity]
  dsimp only
  rw [hadd, hleast, TokenBucket.take, if_pos (by decide), binary64_sub_self]

/-- Without tokens the time to wait is the time for one. -/
theorem acquire_empty (r now : ℚ) :
    ((⟨.finite r, .finite 1, 0, .finite now⟩ : TokenBucket).acquire now).2 =
      if r = 0 then .zeroDivision else .waits (binary64.round (1 / r)) := by
  have hadd : binary64.add 0 0 = 0 := by
    change binary64.round (0 + 0) = 0
    rw [add_zero, binary64_round_zero]
  have hleast : (Double.finite 1).least 0 = 0 := by decide
  have hsub : binary64.sub (.finite 1) 0 = .finite 1 := by
    change binary64.round (1 + -0) = .finite 1
    rw [neg_zero, add_zero, binary64_round_one]
  rw [acquire_at_last rfl rfl]
  dsimp only
  rw [hadd, hleast, TokenBucket.take, if_neg (by decide), hsub, Format.div]
  dsimp only
  by_cases hr : r = 0
  · have hzero : Double.finite r = 0 := congrArg Double.finite hr
    rw [if_pos hzero, if_pos hr]
  · have hzero : Double.finite r ≠ 0 := fun h => hr (Double.finite.inj h)
    rw [if_neg hzero, if_neg hr]
    rfl

/-- A thread that is awake can make a pass. -/
theorem exists_step (s : State) (thread : Nat) (now : ℚ) (hclock : s.clock ≤ now)
    (hwake : s.wake thread ≤ now) : ∃ t, step s (.acquire thread now) = some t ∧
      t.bucket = (s.bucket.acquire now).1 ∧ t.clock = now ∧
      (∀ other ≠ thread, t.wake other = s.wake other) ∧
      t.passes = s.passes ++ [(s.bucket.acquire now).2] :=
  ⟨_, if_pos ⟨hclock, hwake⟩, rfl, rfl, fun _ h => Function.update_of_ne h _ _, rfl⟩

/-- Of two calls at the same time the first returns. -/
theorem run_two_calls {r : ℚ} (hr : r ≤ 0) (start : ℚ) : ∃ t,
    run step (.initial (.create (.finite r) start) start) [.acquire 0 start, .acquire 1 start] =
      some t ∧ t.passes = [.returned,
        if r = 0 then .zeroDivision else .waits (binary64.round (1 / r))] := by
  obtain ⟨s, hfirst, hbucket, hclock, hwake, hpasses⟩ := exists_step
    (.initial (.create (.finite r) start) start) 0 start (le_refl start) (le_refl start)
  change s.bucket = ((TokenBucket.create (.finite r) start).acquire start).1 at hbucket
  change s.passes = [] ++ [((TokenBucket.create (.finite r) start).acquire start).2] at hpasses
  rw [acquire_create hr] at hbucket hpasses
  obtain ⟨t, hsecond, -, -, -, hpasses'⟩ := exists_step s 1 start
    hclock.le (hwake 1 one_ne_zero).le
  refine ⟨t, ?_, ?_⟩
  · rw [run_cons, hfirst, Option.bind_some, run_cons, hsecond]
    rfl
  · rw [hpasses', hpasses, hbucket, acquire_empty]
    rfl

/-- With minus infinity a pass computes NaN as soon as time has passed. -/
theorem acquire_negInf (now : ℚ) :
    ((TokenBucket.create .negInf now).acquire (now + 1)).2 = .waits .nan := by
  have hwait : binary64.sub (.finite now) (.finite (now + 1)) = .finite (-1) := by
    change binary64.round (now + -(now + 1)) = .finite (-1)
    rw [neg_add, add_neg_cancel_left, binary64_round_neg_one]
  have hmul : binary64.mul (Double.finite (-1)).neg .negInf = .negInf := by decide
  have hcapacity : (Double.finite 1).greatest .negInf = .finite 1 := greatest_of_nonpos rfl
  rw [TokenBucket.create, hcapacity, TokenBucket.acquire]
  dsimp only
  rw [hwait, if_pos (by decide), hmul]
  rfl

/-- The time for a token, with a negative rate that is a number of the format. -/
theorem round_one_div_neg {r : ℚ} (hr : r < 0) (hbound : |r| < 2 ^ binary64.top) :
    ¬ 0 ≤ binary64.round (1 / r) := by
  have hlt : -r < 2 ^ (1075 : ℤ) := by
    have hle : (2 : ℚ) ^ binary64.top ≤ 2 ^ (1075 : ℤ) := zpow_le_zpow_right₀ one_le_two (by decide)
    exact (neg_le_abs r).trans_lt (hbound.trans_le hle)
  apply Format.round_neg
  have hinv : 1 / (2 : ℚ) ^ (1075 : ℤ) < 1 / -r := one_div_lt_one_div_of_lt (by linarith) hlt
  have hpow : (2 : ℚ) ^ (binary64.least - 1) = 1 / 2 ^ (1075 : ℤ) := by
    rw [one_div, ← zpow_neg]
    rfl
  rw [hpow]
  rw [one_div_neg_eq_neg_one_div] at hinv
  linarith

theorem not_sound_of_nonpos {rate : Double} (h : rate ≤ 0)
    (hbound : ∀ r, rate = .finite r → |r| < 2 ^ binary64.top) (start : ℚ) :
    ¬ Sound (.create rate start) start := by
  intro hsound
  rcases Double.nonpos_cases h with rfl | ⟨r, rfl, hr⟩
  · obtain ⟨t, hstep, -, -, -, hpasses⟩ := exists_step
      (.initial (.create .negInf start) start) 0 (start + 1)
      (by simp [State.initial]) (by simp [State.initial])
    have hrun : run step (.initial (.create .negInf start) start) [.acquire 0 (start + 1)] =
        some t := by
      rw [run_cons, hstep]
      rfl
    have hnan := hsound _ t hrun (.waits .nan) ?_
    · cases hnan
    · rw [hpasses]
      exact List.mem_append_right _ (List.mem_singleton.mpr (acquire_negInf start).symm)
  · obtain ⟨t, hrun, hpasses⟩ := run_two_calls hr start
    have hsecond := hsound _ t hrun _ (by
      rw [hpasses]
      exact List.mem_cons_of_mem _ List.mem_cons_self)
    rcases hr.eq_or_lt with rfl | hneg
    · rw [if_pos rfl] at hsecond
      exact hsecond
    · rw [if_neg hneg.ne] at hsecond
      exact round_one_div_neg hneg (hbound r rfl) hsecond

/-- A bucket with a rate of the format is sound unless the rate is zero, negative or minus
infinity. -/
theorem sound_iff {rate : Double} (hbound : ∀ r, rate = .finite r → |r| < 2 ^ binary64.top)
    (start : ℚ) : Sound (.create rate start) start ↔ ¬ rate ≤ 0 := by
  constructor
  · exact fun hsound h => not_sound_of_nonpos h hbound start hsound
  · intro h
    have hunlimited : rate = .nan ∨ rate = .inf → Sound (.create rate start) start := fun hrate =>
      closed_unlimited.sound ⟨filled_create rate start, unlimited_create hrate start⟩ start
    cases rate with
    | finite r =>
      exact sound_of_positive (not_le.mp (mt Double.finite_le.mpr h)) start
    | inf => exact hunlimited (Or.inr rfl)
    | negInf => exact absurd rfl h
    | nan => exact hunlimited (Or.inl rfl)

/-! ## The settings -/

/-- A rate that is read from a text is one of the format. -/
theorem value_bounded {l : Literal} {r : ℚ} (h : l.value = .finite r) :
    |r| < 2 ^ binary64.top := by
  cases l with
  | number x => exact Format.abs_lt_of_round h
  | infinity negative =>
    cases negative with
    | false => cases h
    | true => cases h
  | nan => cases h

def toSeconds : Double → Fetcher.Seconds
  | .finite x => .finite x
  | .inf => .inf
  | .negInf => .negInf
  | .nan => .nan

/-- For texts in ASCII. -/
def ascii : Unicode := ⟨fun s => s.map lowerAscii, fun _ => none⟩

/-- For URLs of one host. -/
def plainLibrary : Library where
  hostname _ := some (lit "a.example")
  float text := (float ascii.decimal text).map toSeconds
  parsedate _ := .error .valueError

section Settings

variable (lib : Library) (u : Unicode) (spec : Str) (hostQps : ℚ)

/-- The bucket that `_get_host_bucket` makes for a URL. -/
def Makes (url : Str) (now : ℚ) (b : TokenBucket) : Prop :=
  getHostBucket lib (parseHostOverrides u spec) hostQps url now = .ok (some b)

/-- The settings are safe: their rates are positive and finite, the buckets have such a
rate and a capacity for one token, and no call of `acquire` fails. -/
structure Safe : Prop where
  rates : ∀ host qps, parseHostOverrides u spec host = some qps → ∃ x, qps = .finite x ∧ 0 < x
  buckets : ∀ url now b, Makes lib u spec hostQps url now b →
    (∃ r, b.rate = .finite r ∧ 0 < r) ∧ .finite 1 ≤ b.capacity
  acquires : ∀ url now b, Makes lib u spec hostQps url now b → Sound b now

variable {lib u spec hostQps}

theorem makes_iff {url : Str} {now : ℚ} {b : TokenBucket} :
    Makes lib u spec hostQps url now b ↔ ∃ host, hostBucket lib url = .ok (some host) ∧
      b = .create ((parseHostOverrides u spec host).getD (.finite hostQps)) now := by
  unfold Makes getHostBucket
  cases hostBucket lib url with
  | error e => exact iff_of_false (by simp [Except.map]) (by simp)
  | ok host =>
    cases host with
    | none => exact iff_of_false (by simp [Except.map]) (by simp)
    | some host => simp [Except.map, eq_comm]

/-- Where the rates are positive and finite, so is that of every bucket. -/
theorem safe_of_rates (hqps : 0 < hostQps)
    (hrates : ∀ host qps, parseHostOverrides u spec host = some qps →
      ∃ x, qps = .finite x ∧ 0 < x) : Safe lib u spec hostQps := by
  have hmade : ∀ url now b, Makes lib u spec hostQps url now b →
      ∃ r, 0 < r ∧ b = .create (.finite r) now := by
    intro url now b hb
    obtain ⟨host, -, rfl⟩ := makes_iff.mp hb
    cases hhost : parseHostOverrides u spec host with
    | none => exact ⟨hostQps, hqps, rfl⟩
    | some qps =>
      obtain ⟨x, rfl, hx⟩ := hrates host qps hhost
      exact ⟨x, hx, rfl⟩
  refine ⟨hrates, fun url now b hb => ?_, fun url now b hb => ?_⟩
  · obtain ⟨r, hr, rfl⟩ := hmade url now b hb
    exact ⟨⟨r, rfl, hr⟩, (filled_create _ now).capacity⟩
  · obtain ⟨r, hr, rfl⟩ := hmade url now b hb
    exact sound_of_positive hr now

/-- The settings are safe where the rate of every effective entry is positive and in the range
of a `float`. -/
theorem safe_iff (hqps : 0 < hostQps) : Safe lib u spec hostQps ↔
    ∀ host rate, Effective u (entries u spec) host rate → Usable u rate := by
  rw [← rates_iff]
  exact ⟨fun h => h.rates, safe_of_rates hqps⟩

theorem safe_of_tests : Safe plainLibrary ascii (lit "bad, x:nota, y:2.5") 1 := by
  have hentries : entries ascii (lit "bad, x:nota, y:2.5") =
      [(lit "x", lit "nota"), (lit "y", lit "2.5")] := by decide +kernel
  apply (safe_iff (by norm_num)).mpr
  rintro host rate ⟨hread, xs, ys, hsplit, -⟩
  have hmem : (host, rate) ∈ [(lit "x", lit "nota"), (lit "y", lit "2.5")] := by
    rw [← hentries, hsplit]
    exact List.mem_append_right _ List.mem_cons_self
  rcases List.mem_cons.mp hmem with heq | hmem
  · obtain ⟨rfl, rfl⟩ := Prod.mk.inj heq
    exact absurd (by decide +kernel) hread
  · obtain ⟨rfl, rfl⟩ := Prod.mk.inj (List.mem_singleton.mp hmem)
    have hlow : (2 : ℚ) ^ (-1075 : ℤ) < 5 / 2 := by decide +kernel
    have hhigh : (5 / 2 : ℚ) < 2 ^ (1024 : ℤ) - 2 ^ (970 : ℤ) := by decide +kernel
    exact ⟨.number (5 / 2), by decide +kernel, hlow, hhigh⟩

/-- The first call takes the token that the bucket starts with, and the second divides by the
rate. -/
theorem zero_rate : ¬ Safe plainLibrary ascii (lit "a.example:0") 1 := by
  have hentries : entries ascii (lit "a.example:0") = [(lit "a.example", lit "0")] := by
    decide +kernel
  have hliteral : literal ascii.decimal (lit "0") = some (.number 0) := by decide +kernel
  have hrate : parseHostOverrides ascii (lit "a.example:0") (lit "a.example") =
      some (.finite 0) := by
    refine (parseHostOverrides_iff _ _ _ _).mpr ⟨lit "0", ⟨?_, [], [], hentries, by simp⟩, ?_⟩
    · rw [hliteral]
      exact Option.some_ne_none _
    · rw [float, hliteral]
      exact congrArg some binary64_round_zero
  have hmakes : Makes plainLibrary ascii (lit "a.example:0") 1 (lit "https://a.example/") 0
      (.create (.finite 0) 0) :=
    makes_iff.mpr ⟨lit "a.example", rfl, by rw [hrate, Option.getD_some]⟩
  obtain ⟨t, hrun, hpasses⟩ := run_two_calls le_rfl 0
  intro hsafe
  apply hsafe.acquires _ 0 _ hmakes _ t hrun .zeroDivision
  rw [hpasses, if_pos rfl]
  exact List.mem_cons_of_mem _ List.mem_cons_self

/-- A call of `acquire` can fail where a URL is of a host whose rate is zero, negative or
minus infinity. -/
theorem acquires_iff (hqps : 0 < hostQps) :
    (∀ url now b, Makes lib u spec hostQps url now b → Sound b now) ↔
      ∀ url host qps, hostBucket lib url = .ok (some host) →
        parseHostOverrides u spec host = some qps → ¬ qps ≤ 0 := by
  constructor
  · intro h url host qps hurl hhost
    have hsound := h url 0 _ (makes_iff.mpr ⟨host, hurl, rfl⟩)
    rw [hhost, Option.getD_some] at hsound
    obtain ⟨rate, -, hfloat⟩ := (parseHostOverrides_iff u spec host qps).mp hhost
    obtain ⟨l, -, rfl⟩ := Option.map_eq_some_iff.mp hfloat
    exact (sound_iff (fun r => value_bounded) 0).mp hsound
  · intro h url now b hb
    obtain ⟨host, hurl, rfl⟩ := makes_iff.mp hb
    cases hhost : parseHostOverrides u spec host with
    | none => exact sound_of_positive hqps now
    | some qps =>
      obtain ⟨rate, -, hfloat⟩ := (parseHostOverrides_iff u spec host qps).mp hhost
      obtain ⟨l, -, rfl⟩ := Option.map_eq_some_iff.mp hfloat
      exact (sound_iff (fun r => value_bounded) now).mpr (h url host _ hurl hhost)

end Settings

end WebSpider.Overrides
