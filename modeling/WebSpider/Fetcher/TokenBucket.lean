import WebSpider.Effects.Run
import Mathlib.Algebra.Order.Field.Rat
import Mathlib.Tactic.Linarith
import Mathlib.Tactic.Ring

/-!
# The token bucket

`TokenBucket` of `fetcher.py`, shared by any number of threads. What a thread does
under the lock is one step, taken at the time the clock shows there. `penalise`
replaces the end of the penalty that is running by its own, so a shorter penalty
cuts a longer one short (`short_penalty_wins`). `penalties_respected` has the
condition under which none is: a new penalty ends no earlier than the old ones,
up to the time in which the drained bucket makes a token.

Times and numbers of tokens are exact.
-/

namespace WebSpider.Fetcher

open Effects

/-- The arguments of `TokenBucket`. -/
structure Limits where
  rate : ℚ
  capacity : ℚ
  rate_pos : 0 < rate

/-- `_tokens` and `_last`. -/
structure Bucket where
  tokens : ℚ
  last : ℚ
  deriving DecidableEq

/-- One pass of the loop of `acquire` at the time `now`: the bucket afterwards, and
the time to wait if the call does not return. -/
def Bucket.acquire (l : Limits) (tokens now : ℚ) (b : Bucket) : Bucket × Option ℚ :=
  let wait := b.last - now
  if wait ≤ 0 then
    let available := min l.capacity (b.tokens + -wait * l.rate)
    if tokens ≤ available then (⟨available - tokens, now⟩, none)
    else (⟨available, now⟩, some ((tokens - available) / l.rate))
  else (b, some (min wait 5))

/-- `penalise` -/
def Bucket.penalise (seconds now : ℚ) (_ : Bucket) : Bucket := ⟨0, now + seconds⟩

/-! ## Threads -/

/-- The bucket, the time of the last step, and for each thread until when it sleeps.
The last two fields record the penalties, each with its time and duration, and the
times at which `acquire` returned. -/
structure State where
  bucket : Bucket
  clock : ℚ
  wake : Nat → ℚ
  penalties : List (ℚ × ℚ)
  returns : List ℚ

/-- A full bucket. -/
def State.initial (l : Limits) (start : ℚ) : State :=
  ⟨⟨l.capacity, start⟩, start, fun _ => start, [], []⟩

inductive Event where
  /-- One pass of `acquire` by a thread that is awake. -/
  | acquire (thread : Nat) (now : ℚ)
  | penalise (seconds now : ℚ)

/-- The step of `acquire`: the thread returns, or it sleeps for at most five seconds. -/
def acquireStep (l : Limits) (thread : Nat) (now : ℚ) (s : State) : State :=
  match s.bucket.acquire l 1 now with
  | (b, none) => { s with bucket := b, clock := now, returns := s.returns ++ [now] }
  | (b, some wait) => { s with
      bucket := b
      clock := now
      wake := fun k => if k = thread then now + min wait 5 else s.wake k }

def step (l : Limits) (s : State) : Event → Option State
  | .acquire thread now =>
    if s.clock ≤ now ∧ s.wake thread ≤ now then some (acquireStep l thread now s) else none
  | .penalise seconds now =>
    if s.clock ≤ now ∧ 0 ≤ seconds then some { s with
      bucket := s.bucket.penalise seconds now
      clock := now
      penalties := s.penalties ++ [(now, seconds)] }
    else none

/-! ## The property and the condition -/

/-- No call of `acquire` returned within a penalty. -/
def Respected (s : State) : Prop :=
  ∀ p ∈ s.penalties, ∀ r ∈ s.returns, ¬ (p.1 < r ∧ r < p.1 + p.2)

/-- The new penalty ends no more than the time for one token before the old ones. -/
def Prolongs (l : Limits) (s : State) : Event → Prop
  | .acquire _ _ => True
  | .penalise seconds now => ∀ p ∈ s.penalties, p.1 + p.2 ≤ now + seconds + 1 / l.rate

/-! ## The invariant -/

/-- The time at which the bucket has made a token. -/
def ready (l : Limits) (b : Bucket) : ℚ := b.last + (1 - b.tokens) / l.rate

/-- A penalty is over, or the bucket has no token before its end. -/
structure Guarded (l : Limits) (s : State) : Prop where
  penalties : ∀ p ∈ s.penalties, p.1 ≤ s.clock ∧ (p.1 + p.2 ≤ s.clock ∨ p.1 + p.2 ≤ ready l s.bucket)
  returns : ∀ r ∈ s.returns, r ≤ s.clock
  respected : Respected s

/-- What a pass of `acquire` does: it leaves the bucket alone, refills it, or takes a
token that was ready. -/
theorem acquire_cases (l : Limits) (now : ℚ) (b : Bucket) :
    (∃ wait, b.acquire l 1 now = (b, some wait)) ∨
      (∃ b' wait, b.acquire l 1 now = (b', some wait) ∧ ready l b ≤ ready l b') ∨
      ∃ b', b.acquire l 1 now = (b', none) ∧ ready l b ≤ now := by
  have hrate := l.rate_pos
  have hrefill : min l.capacity (b.tokens + -(b.last - now) * l.rate) ≤
      b.tokens + -(b.last - now) * l.rate := min_le_right _ _
  unfold Bucket.acquire
  dsimp only
  by_cases hwait : b.last - now ≤ 0
  · rw [if_pos hwait]
    by_cases htoken : 1 ≤ min l.capacity (b.tokens + -(b.last - now) * l.rate)
    · rw [if_pos htoken]
      refine Or.inr (Or.inr ⟨_, rfl, ?_⟩)
      have hle : (1 - b.tokens) / l.rate ≤ now - b.last := by
        rw [div_le_iff₀ hrate]
        linarith
      unfold ready
      linarith
    · rw [if_neg htoken]
      refine Or.inr (Or.inl ⟨_, _, rfl, ?_⟩)
      have hle : (1 - b.tokens) / l.rate ≤ (now - b.last) +
          (1 - min l.capacity (b.tokens + -(b.last - now) * l.rate)) / l.rate := by
        rw [div_le_iff₀ hrate, add_mul, div_mul_cancel₀ _ hrate.ne']
        linarith
      unfold ready
      linarith
  · rw [if_neg hwait]
    exact Or.inl ⟨_, rfl⟩

/-- Time passes, and the bucket is not ready earlier than before. -/
theorem Guarded.wait {l : Limits} {s : State} (hs : Guarded l s) {b : Bucket} {now : ℚ}
    {wake : Nat → ℚ} (hnow : s.clock ≤ now) (hready : ready l s.bucket ≤ ready l b) :
    Guarded l { s with bucket := b, clock := now, wake := wake } := by
  refine ⟨fun p hp => ?_, fun r hr => ?_, hs.respected⟩
  · obtain ⟨hstart, hend⟩ := hs.penalties p hp
    refine ⟨hstart.trans hnow, ?_⟩
    rcases hend with hend | hend
    · exact Or.inl (hend.trans hnow)
    · exact Or.inr (hend.trans hready)
  · exact (hs.returns r hr).trans hnow

/-- A call that returns when the bucket is ready respects every penalty. -/
theorem Guarded.take {l : Limits} {s : State} (hs : Guarded l s) {b : Bucket} {now : ℚ}
    (hnow : s.clock ≤ now) (hready : ready l s.bucket ≤ now) :
    Guarded l { s with bucket := b, clock := now, returns := s.returns ++ [now] } := by
  have hover : ∀ p ∈ s.penalties, p.1 + p.2 ≤ now := by
    intro p hp
    rcases (hs.penalties p hp).2 with hend | hend
    · exact hend.trans hnow
    · exact hend.trans hready
  refine ⟨fun p hp => ?_, fun r hr => ?_, fun p hp r hr => ?_⟩
  · exact ⟨(hs.penalties p hp).1.trans hnow, Or.inl (hover p hp)⟩
  · rcases List.mem_append.mp hr with hr | hr
    · exact (hs.returns r hr).trans hnow
    · exact (List.mem_singleton.mp hr).le
  · rcases List.mem_append.mp hr with hr | hr
    · exact hs.respected p hp r hr
    · obtain rfl := List.mem_singleton.mp hr
      exact fun h => absurd h.2 (not_lt.mpr (hover p hp))

theorem Guarded.penalise {l : Limits} {s : State} (hs : Guarded l s) {seconds now : ℚ}
    (hnow : s.clock ≤ now) (hprolongs : Prolongs l s (.penalise seconds now)) :
    Guarded l { s with
      bucket := s.bucket.penalise seconds now
      clock := now
      penalties := s.penalties ++ [(now, seconds)] } := by
  have hready : ready l (s.bucket.penalise seconds now) = now + seconds + 1 / l.rate := by
    simp [ready, Bucket.penalise]
  refine ⟨fun p hp => ?_, fun r hr => (hs.returns r hr).trans hnow, fun p hp r hr => ?_⟩
  · rcases List.mem_append.mp hp with hp | hp
    · exact ⟨(hs.penalties p hp).1.trans hnow, Or.inr (hready ▸ hprolongs p hp)⟩
    · obtain rfl := List.mem_singleton.mp hp
      refine ⟨le_rfl, Or.inr ?_⟩
      have hpos : 0 ≤ 1 / l.rate := div_nonneg zero_le_one l.rate_pos.le
      show now + seconds ≤ ready l (s.bucket.penalise seconds now)
      rw [hready]
      linarith
  · rcases List.mem_append.mp hp with hp | hp
    · exact hs.respected p hp r hr
    · obtain rfl := List.mem_singleton.mp hp
      exact fun h => absurd h.1 (not_lt.mpr ((hs.returns r hr).trans hnow))

theorem guarded_step {l : Limits} {s t : State} {e : Event} (hs : Guarded l s)
    (hK : Prolongs l s e) (h : step l s e = some t) : Guarded l t := by
  cases e with
  | acquire thread now =>
    rw [step] at h
    split at h
    · rename_i hnow
      obtain rfl := Option.some.inj h
      unfold acquireStep
      rcases acquire_cases l now s.bucket with ⟨wait, heq⟩ | ⟨b', wait, heq, hready⟩ |
        ⟨b', heq, hready⟩
      · rw [heq]
        exact hs.wait hnow.1 le_rfl
      · rw [heq]
        exact hs.wait hnow.1 hready
      · rw [heq]
        exact hs.take hnow.1 hready
    · cases h
  | penalise seconds now =>
    rw [step] at h
    split at h
    · rename_i hnow
      obtain rfl := Option.some.inj h
      exact hs.penalise hnow.1 hK
    · cases h

theorem guarded_initial (l : Limits) (start : ℚ) : Guarded l (.initial l start) := by
  refine ⟨fun p hp => ?_, fun r hr => ?_, fun p hp => ?_⟩
  · cases hp
  · cases hr
  · cases hp

/-! ## Runs -/

/-- In a run whose penalties prolong those before them, no call of `acquire` returns
within a penalty. -/
theorem penalties_respected (l : Limits) (start : ℚ) (es : List Event) (t : State)
    (hK : Along (step l) (Prolongs l) (.initial l start) es)
    (hrun : run (step l) (.initial l start) es = some t) : Respected t :=
  (run_invariant (fun _ _ _ => guarded_step) (guarded_initial l start) hK hrun).respected

/-- The limits of the bucket of a host. -/
def hostLimits : Limits := ⟨1, 1, by decide⟩

/-- A first block, and a longer one for the second attempt of another worker. -/
def prolonged : List Event := [.penalise 90 0, .penalise 180 1, .acquire 0 100, .acquire 0 182]

theorem penalties_respected_prolonged : ∃ t,
    run (step hostLimits) (.initial hostLimits 0) prolonged = some t ∧ Respected t := by
  have hend : (run (step hostLimits) (.initial hostLimits 0) prolonged).isSome = true := by
    decide +kernel
  obtain ⟨t, hrun⟩ := Option.isSome_iff_exists.mp hend
  refine ⟨t, hrun, penalties_respected hostLimits 0 prolonged t ?_ hrun⟩
  refine ⟨nofun, fun s hs => ⟨?_, fun u _ => ⟨trivial, fun v _ => ⟨trivial, fun _ _ => trivial⟩⟩⟩⟩
  obtain rfl := Option.some.inj hs
  intro p hp
  obtain rfl := List.mem_singleton.mp hp
  decide +kernel

/-- A drained bucket makes a token in this time. -/
theorem acquire_penalised {l : Limits} (hcapacity : 1 ≤ l.capacity) (b : Bucket)
    (seconds now : ℚ) : ∃ b', (b.penalise seconds now).acquire l 1 (now + seconds + 1 / l.rate) =
      (b', none) := by
  have hrate := l.rate_pos
  have hwait : now + seconds - (now + seconds + 1 / l.rate) = -(1 / l.rate) := by ring
  have hpos : 0 < 1 / l.rate := div_pos one_pos hrate
  have htoken : (0 : ℚ) + - -(1 / l.rate) * l.rate = 1 := by
    rw [neg_neg, zero_add, div_mul_cancel₀ _ hrate.ne']
  unfold Bucket.acquire Bucket.penalise
  simp only [hwait, htoken]
  rw [if_pos (by linarith), if_pos (le_min hcapacity le_rfl)]
  exact ⟨_, rfl⟩

/-- A penalty that ends earlier by more than that time lets a thread that is awake
through before the end of the old one. -/
theorem early_acquire {l : Limits} (hcapacity : 1 ≤ l.capacity) {s t : State} {seconds now : ℚ}
    (h : step l s (.penalise seconds now) = some t) {p : ℚ × ℚ} (hp : p ∈ s.penalties)
    (hstart : p.1 ≤ s.clock) (hcut : now + seconds + 1 / l.rate < p.1 + p.2) {thread : Nat}
    (hawake : s.wake thread ≤ now) : ∃ r u, step l t (.acquire thread r) = some u ∧
      ¬ Respected u := by
  have hpos : 0 < 1 / l.rate := div_pos one_pos l.rate_pos
  rw [step] at h
  split at h
  · rename_i hnow
    obtain rfl := Option.some.inj h
    obtain ⟨b', hb'⟩ := acquire_penalised hcapacity s.bucket seconds now
    have hlater : now < now + seconds + 1 / l.rate := by linarith [hnow.2]
    refine ⟨now + seconds + 1 / l.rate, _, if_pos ⟨hlater.le, hawake.trans hlater.le⟩, ?_⟩
    unfold acquireStep
    rw [hb']
    intro hrespected
    refine hrespected p (List.mem_append_left _ hp) _ (List.mem_append_right _ List.mem_cons_self)
      ⟨?_, hcut⟩
    exact (hstart.trans hnow.1).trans_lt hlater
  · cases h

/-- The second penalty ends before the first, and a call returns between the ends. -/
theorem short_penalty_wins :
    ¬ ∀ (es : List Event) (t : State),
      run (step hostLimits) (.initial hostLimits 0) es = some t → Respected t := by
  intro hwaits
  have hend : (run (step hostLimits) (.initial hostLimits 0)
      [.penalise 180 0, .penalise 90 1, .acquire 0 100]).map (fun t => (t.penalties, t.returns)) =
        some ([(0, 180), (1, 90)], [100]) := by
    decide +kernel
  obtain ⟨t, hrun, hview⟩ := Option.map_eq_some_iff.mp hend
  obtain ⟨hpenalties, hreturns⟩ := Prod.mk.inj hview
  refine hwaits _ t hrun (0, 180) ?_ 100 ?_ (by decide +kernel)
  · rw [hpenalties]
    exact List.mem_cons_self
  · rw [hreturns]
    exact List.mem_cons_self

end WebSpider.Fetcher
