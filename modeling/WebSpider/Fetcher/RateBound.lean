import WebSpider.Fetcher.TokenBucket

/-!
# The rate of the token bucket

What the bucket grants, over all interleavings of `acquire(1)` and `penalise`. The
tokens stay between zero and the capacity (`Full`), so no penalty becomes a debt. In
a window of time the bucket grants no more than its capacity and what it makes in
that time (`Windowed`): the grants since a time and the tokens left are bounded
together. After a penalty the tokens are those made since its end (`Recovering`).
-/

namespace WebSpider.Fetcher

open Effects

/-! ## Steps -/

/-- The tokens of a bucket that is refilled at the time `now`. -/
def Bucket.refill (l : Limits) (now : ℚ) (b : Bucket) : ℚ :=
  min l.capacity (b.tokens + (now - b.last) * l.rate)

/-- What a step does to the bucket, the clock and the history: the attempt comes within
a penalty, it finds no token, it takes one, or the bucket is penalised. -/
inductive Stepped (l : Limits) (s : State) : State → Prop
  | blocked (now : ℚ) (wake : Nat → ℚ) (hnow : s.clock ≤ now) (hlast : now < s.bucket.last) :
      Stepped l s { s with clock := now, wake := wake }
  | refused (now : ℚ) (wake : Nat → ℚ) (hnow : s.clock ≤ now) (hlast : s.bucket.last ≤ now)
      (htokens : s.bucket.refill l now < 1) :
      Stepped l s { s with bucket := ⟨s.bucket.refill l now, now⟩, clock := now, wake := wake }
  | granted (now : ℚ) (hnow : s.clock ≤ now) (hlast : s.bucket.last ≤ now)
      (htokens : 1 ≤ s.bucket.refill l now) :
      Stepped l s { s with
        bucket := ⟨s.bucket.refill l now - 1, now⟩
        clock := now
        returns := s.returns ++ [now] }
  | penalised (seconds now : ℚ) (hnow : s.clock ≤ now) (hseconds : 0 ≤ seconds) :
      Stepped l s { s with
        bucket := ⟨0, now + seconds⟩
        clock := now
        penalties := s.penalties ++ [(now, seconds)] }

theorem stepped_acquireStep (l : Limits) (thread : Nat) {now : ℚ} {s : State}
    (hnow : s.clock ≤ now) : Stepped l s (acquireStep l thread now s) := by
  have hrefill : min l.capacity (s.bucket.tokens + -(s.bucket.last - now) * l.rate) =
      s.bucket.refill l now := by
    rw [Bucket.refill, neg_sub]
  unfold acquireStep Bucket.acquire
  dsimp only
  rw [hrefill]
  by_cases hwait : s.bucket.last - now ≤ 0
  · have hlast := sub_nonpos.mp hwait
    rw [if_pos hwait]
    by_cases htokens : 1 ≤ s.bucket.refill l now
    · rw [if_pos htokens]
      exact .granted now hnow hlast htokens
    · rw [if_neg htokens]
      exact .refused now _ hnow hlast (not_le.mp htokens)
  · rw [if_neg hwait]
    exact .blocked now _ hnow (sub_pos.mp (not_le.mp hwait))

theorem stepped_of_step {l : Limits} {s t : State} {e : Event} (h : step l s e = some t) :
    Stepped l s t := by
  cases e with
  | acquire thread now =>
    rw [step] at h
    split at h
    · rename_i hnow
      cases h
      exact stepped_acquireStep l thread hnow.1
    · cases h
  | penalise seconds now =>
    rw [step] at h
    split at h
    · rename_i hnow
      cases h
      exact .penalised seconds now hnow.1 hnow.2
    · cases h

/-- An invariant of the steps holds in every state reached. -/
theorem stepped_invariant {l : Limits} {start : ℚ} {I : State → Prop} (hI : I (.initial l start))
    (hstep : ∀ s t, I s → Stepped l s t → I t) {es : List Event} {s : State}
    (hrun : run (step l) (.initial l start) es = some s) : I s :=
  run_invariant (K := fun _ _ => True) (fun s _ t hs _ h => hstep s t hs (stepped_of_step h)) hI
    (along_true _ _ _) hrun

/-! ## The tokens -/

/-- The tokens are between zero and the capacity. -/
structure Full (l : Limits) (s : State) : Prop where
  nonneg : 0 ≤ s.bucket.tokens
  le_capacity : s.bucket.tokens ≤ l.capacity

theorem refill_le_capacity (l : Limits) (now : ℚ) (b : Bucket) : b.refill l now ≤ l.capacity :=
  min_le_left _ _

theorem refill_le (l : Limits) (now : ℚ) (b : Bucket) :
    b.refill l now ≤ b.tokens + (now - b.last) * l.rate := min_le_right _ _

theorem Full.step {l : Limits} (hcapacity : 1 ≤ l.capacity) {s t : State} (hs : Full l s)
    (h : Stepped l s t) : Full l t := by
  have hrate := l.rate_pos.le
  cases h with
  | blocked => exact ⟨hs.nonneg, hs.le_capacity⟩
  | refused now wake hnow hlast =>
    refine ⟨?_, refill_le_capacity l now s.bucket⟩
    have hmade : 0 ≤ (now - s.bucket.last) * l.rate := mul_nonneg (sub_nonneg.mpr hlast) hrate
    exact le_min (by linarith) (by linarith [hs.nonneg])
  | granted now hnow hlast htokens =>
    have hle := refill_le_capacity l now s.bucket
    constructor
    · show 0 ≤ s.bucket.refill l now - 1
      linarith
    · show s.bucket.refill l now - 1 ≤ l.capacity
      linarith
  | penalised =>
    refine ⟨le_rfl, ?_⟩
    show 0 ≤ l.capacity
    linarith

/-! ## Windows -/

/-- The number of acquires granted after `t` and not after `u`. -/
def grants (s : State) (t u : ℚ) : Nat := s.returns.countP fun r => decide (t < r ∧ r ≤ u)

/-- The number of acquires granted after `t`. -/
def grantsSince (s : State) (t : ℚ) : Nat := s.returns.countP fun r => decide (t < r)

/-- The grants since a time and the tokens left are at most the capacity and what
the bucket makes in the meantime. -/
structure Windowed (l : Limits) (s : State) : Prop where
  last : s.clock ≤ s.bucket.last
  returns : ∀ r ∈ s.returns, r ≤ s.clock
  since : ∀ t, t ≤ s.clock →
    (grantsSince s t : ℚ) + s.bucket.tokens ≤ l.capacity + l.rate * (s.clock - t)
  window : ∀ t u, t ≤ u → (grants s t u : ℚ) ≤ l.capacity + l.rate * (u - t)

theorem grants_le_grantsSince (s : State) (t u : ℚ) : grants s t u ≤ grantsSince s t := by
  apply List.countP_mono_left
  intro r _ h
  simp only [decide_eq_true_eq] at h ⊢
  exact h.1

theorem grantsSince_eq_zero {s : State} {t : ℚ} (h : ∀ r ∈ s.returns, r ≤ t) :
    grantsSince s t = 0 := by
  apply List.countP_eq_zero.mpr
  intro r hr
  simpa using h r hr

/-- The clock goes on to `now`, where perhaps an acquire is granted: the tokens left and
the one taken were there or have been made. -/
theorem Windowed.advance {l : Limits} {s t : State} (hs : Windowed l s) {now : ℚ} {new : List ℚ}
    (hnow : s.clock ≤ now) (hclock : t.clock = now) (hlast : now ≤ t.bucket.last)
    (hreturns : t.returns = s.returns ++ new) (hnew : new = [] ∨ new = [now])
    (hcapacity : t.bucket.tokens + new.length ≤ l.capacity)
    (htokens : t.bucket.tokens + new.length ≤ s.bucket.tokens + (now - s.clock) * l.rate)
    (hnonneg : 0 ≤ t.bucket.tokens) : Windowed l t := by
  have hrate := l.rate_pos.le
  have hmem : ∀ r ∈ t.returns, r ≤ now := by
    intro r hr
    rw [hreturns] at hr
    rcases List.mem_append.mp hr with hr | hr
    · exact (hs.returns r hr).trans hnow
    · rcases hnew with rfl | rfl
      · cases hr
      · exact (List.mem_singleton.mp hr).le
  have hcount : ∀ u, grantsSince t u ≤ grantsSince s u + new.length := by
    intro u
    rw [grantsSince, hreturns, List.countP_append]
    exact Nat.add_le_add_left List.countP_le_length _
  have hsince : ∀ u, u ≤ now →
      (grantsSince t u : ℚ) + t.bucket.tokens ≤ l.capacity + l.rate * (now - u) := by
    intro u hu
    have hcount' : (grantsSince t u : ℚ) ≤ grantsSince s u + new.length := by
      exact_mod_cast hcount u
    by_cases hold : u ≤ s.clock
    · have hbound := hs.since u hold
      have hsplit : l.rate * (now - u) = l.rate * (s.clock - u) + (now - s.clock) * l.rate := by
        ring
      linarith
    · have hzero : grantsSince s u = 0 :=
        grantsSince_eq_zero fun r hr => (hs.returns r hr).trans (not_le.mp hold).le
      have hmade : 0 ≤ l.rate * (now - u) := mul_nonneg hrate (sub_nonneg.mpr hu)
      rw [hzero] at hcount'
      push_cast at hcount'
      linarith
  refine ⟨hclock ▸ hlast, hclock ▸ hmem, hclock ▸ hsince, fun u v huv => ?_⟩
  by_cases hinside : u ≤ now ∧ now ≤ v
  · have hle : (grants t u v : ℚ) ≤ grantsSince t u := by
      exact_mod_cast grants_le_grantsSince t u v
    have hbound := hsince u hinside.1
    have hmono : l.rate * (now - u) ≤ l.rate * (v - u) :=
      mul_le_mul_of_nonneg_left (by linarith [hinside.2]) hrate
    linarith
  · have hnone : new.countP (fun r => decide (u < r ∧ r ≤ v)) = 0 := by
      refine List.countP_eq_zero.mpr fun r hr h => hinside ?_
      rcases hnew with rfl | rfl
      · cases hr
      · obtain rfl := List.mem_singleton.mp hr
        simp only [decide_eq_true_eq] at h
        exact ⟨h.1.le, h.2⟩
    have hsame : grants t u v = grants s u v := by
      rw [grants, hreturns, List.countP_append, hnone]
      rfl
    rw [hsame]
    exact hs.window u v huv

theorem Windowed.step {l : Limits} (hcapacity : 1 ≤ l.capacity) {s t : State} (hfull : Full l s)
    (hs : Windowed l s) (h : Stepped l s t) : Windowed l t := by
  have hrate := l.rate_pos.le
  have hnonneg := (hfull.step hcapacity h).nonneg
  have hle := (hfull.step hcapacity h).le_capacity
  -- The refill starts at `last`, which is not before the clock.
  have hmade : ∀ now, s.clock ≤ now →
      s.bucket.refill l now ≤ s.bucket.tokens + (now - s.clock) * l.rate := by
    intro now _
    have hless : (now - s.bucket.last) * l.rate ≤ (now - s.clock) * l.rate :=
      mul_le_mul_of_nonneg_right (by linarith [hs.last]) hrate
    linarith [refill_le l now s.bucket]
  have hpassed : ∀ now, s.clock ≤ now → 0 ≤ (now - s.clock) * l.rate := fun now hnow =>
    mul_nonneg (sub_nonneg.mpr hnow) hrate
  cases h with
  | blocked now wake hnow hlast =>
    refine hs.advance hnow rfl hlast.le (List.append_nil _).symm (.inl rfl) ?_ ?_ hnonneg
    · simpa using hle
    · simpa using hpassed now hnow
  | refused now wake hnow =>
    refine hs.advance hnow rfl le_rfl (List.append_nil _).symm (.inl rfl) ?_ ?_ hnonneg
    · simpa using hle
    · simpa using hmade now hnow
  | granted now hnow =>
    refine hs.advance hnow rfl le_rfl rfl (.inr rfl) ?_ ?_ hnonneg
    · simpa using refill_le_capacity l now s.bucket
    · simpa using hmade now hnow
  | penalised seconds now hnow hseconds =>
    refine hs.advance hnow rfl ?_ (List.append_nil _).symm (.inl rfl) ?_ ?_ hnonneg
    · exact le_add_of_nonneg_right hseconds
    · simpa using hle
    · simpa using add_nonneg hfull.nonneg (hpassed now hnow)

/-! ## Recovery -/

/-- While nothing has been granted since the end of the last penalty, the tokens are
those made since then. -/
def Recovering (l : Limits) (s : State) : Prop :=
  ∀ p, s.penalties.getLast? = some p → (∀ r ∈ s.returns, r ≤ p.1 + p.2) →
    p.1 + p.2 ≤ s.bucket.last ∧
      s.bucket.tokens = (s.bucket.last - (p.1 + p.2)) * l.rate ∧ s.bucket.tokens < 1

theorem Recovering.step {l : Limits} (hcapacity : 1 ≤ l.capacity) {s t : State}
    (hs : Recovering l s) (h : Stepped l s t) : Recovering l t := by
  intro p hp hreturns
  cases h with
  | blocked => exact hs p hp hreturns
  | refused now wake hnow hlast htokens =>
    obtain ⟨hend, heq, -⟩ := hs p hp hreturns
    have hrefill : s.bucket.refill l now = (now - (p.1 + p.2)) * l.rate := by
      have hmin : s.bucket.refill l now = s.bucket.tokens + (now - s.bucket.last) * l.rate := by
        rcases min_choice l.capacity (s.bucket.tokens + (now - s.bucket.last) * l.rate) with h | h
        · exact absurd (htokens.trans_le hcapacity) (by rw [Bucket.refill, h]; exact lt_irrefl _)
        · exact h
      rw [hmin, heq]
      ring
    exact ⟨hend.trans hlast, hrefill, htokens⟩
  | granted now hnow hlast htokens =>
    -- A grant until the end of the penalty would come at its end, with no token made yet.
    obtain ⟨hend, heq, -⟩ := hs p hp fun r hr => hreturns r (List.mem_append_left _ hr)
    have hlate := hreturns now (List.mem_append_right _ List.mem_cons_self)
    have hsame : s.bucket.last = p.1 + p.2 := le_antisymm (hlast.trans hlate) hend
    have hnow' : now = p.1 + p.2 := le_antisymm hlate (hend.trans hlast)
    have hle := refill_le l now s.bucket
    rw [heq, hsame, hnow', sub_self, zero_mul, add_zero] at hle
    rw [hnow'] at htokens
    linarith
  | penalised seconds now =>
    rw [List.getLast?_concat] at hp
    obtain rfl := Option.some.inj hp
    refine ⟨le_rfl, ?_, one_pos⟩
    show 0 = (now + seconds - (now + seconds)) * l.rate
    rw [sub_self, zero_mul]

theorem acquireStep_granted {l : Limits} {s : State} {now : ℚ} (thread : Nat)
    (hlast : s.bucket.last ≤ now) (htokens : 1 ≤ s.bucket.refill l now) :
    (acquireStep l thread now s).returns = s.returns ++ [now] := by
  have hrefill : min l.capacity (s.bucket.tokens + -(s.bucket.last - now) * l.rate) =
      s.bucket.refill l now := by
    rw [Bucket.refill, neg_sub]
  unfold acquireStep Bucket.acquire
  dsimp only
  rw [hrefill, if_pos (sub_nonpos.mpr hlast), if_pos htokens]

/-- The time for one token after the end of the penalty, an attempt succeeds. -/
theorem Recovering.acquire {l : Limits} (hcapacity : 1 ≤ l.capacity) {s t : State}
    (hs : Recovering l s) {p : ℚ × ℚ} (hp : s.penalties.getLast? = some p)
    (hreturns : ∀ r ∈ s.returns, r ≤ p.1 + p.2) {thread : Nat} {now : ℚ}
    (hnow : p.1 + p.2 + 1 / l.rate ≤ now)
    (h : Fetcher.step l s (.acquire thread now) = some t) : t.returns = s.returns ++ [now] := by
  have hrate := l.rate_pos
  obtain ⟨-, heq, hlt⟩ := hs p hp hreturns
  have hlast : s.bucket.last ≤ now := by
    rw [heq, ← lt_div_iff₀ hrate] at hlt
    linarith
  have htokens : 1 ≤ s.bucket.refill l now := by
    have hmade : 1 ≤ (now - (p.1 + p.2)) * l.rate := by
      rw [← div_le_iff₀ hrate]
      linarith
    apply le_min hcapacity
    rw [heq]
    linarith
  rw [Fetcher.step] at h
  split at h
  · cases h
    exact acquireStep_granted thread hlast htokens
  · cases h

/-! ## Runs -/

theorem full_initial {l : Limits} (hcapacity : 1 ≤ l.capacity) (start : ℚ) :
    Full l (.initial l start) := ⟨zero_le_one.trans hcapacity, le_rfl⟩

theorem windowed_initial {l : Limits} (hcapacity : 1 ≤ l.capacity) (start : ℚ) :
    Windowed l (.initial l start) := by
  have hrate := l.rate_pos.le
  have hnonneg : ∀ t u, t ≤ u → 0 ≤ l.rate * (u - t) := fun t u htu =>
    mul_nonneg hrate (sub_nonneg.mpr htu)
  refine ⟨le_rfl, nofun, fun t ht => ?_, fun t u htu => ?_⟩
  · have hmade := hnonneg t start ht
    show ((0 : Nat) : ℚ) + l.capacity ≤ l.capacity + l.rate * (start - t)
    push_cast
    linarith
  · have hmade := hnonneg t u htu
    show ((0 : Nat) : ℚ) ≤ l.capacity + l.rate * (u - t)
    push_cast
    linarith

theorem windowed {l : Limits} (hcapacity : 1 ≤ l.capacity) {start : ℚ} {es : List Event}
    {s : State} (hrun : run (step l) (.initial l start) es = some s) : Full l s ∧ Windowed l s :=
  stepped_invariant (I := fun s => Full l s ∧ Windowed l s)
    ⟨full_initial hcapacity start, windowed_initial hcapacity start⟩
    (fun _ _ hs h => ⟨hs.1.step hcapacity h, hs.2.step hcapacity hs.1 h⟩) hrun

theorem recovering {l : Limits} (hcapacity : 1 ≤ l.capacity) {start : ℚ} {es : List Event}
    {s : State} (hrun : run (step l) (.initial l start) es = some s) : Recovering l s :=
  stepped_invariant nofun (fun _ _ hs h => hs.step hcapacity h) hrun

/-- The tokens stay in their bounds, each window of time has at most the capacity and what
the bucket makes in it, and a penalty leaves no debt behind. -/
theorem rate_bounded (l : Limits) (hcapacity : 1 ≤ l.capacity) (start : ℚ) (es : List Event)
    (s : State) (hrun : run (step l) (.initial l start) es = some s) :
    (0 ≤ s.bucket.tokens ∧ s.bucket.tokens ≤ l.capacity) ∧
      (∀ t T, 0 ≤ T → (grants s t (t + T) : ℚ) ≤ l.capacity + l.rate * T) ∧
      ∀ p, s.penalties.getLast? = some p → (∀ r ∈ s.returns, r ≤ p.1 + p.2) →
        ∀ thread now t, p.1 + p.2 + 1 / l.rate ≤ now →
          step l s (.acquire thread now) = some t → t.returns = s.returns ++ [now] := by
  obtain ⟨hfull, hwindowed⟩ := windowed hcapacity hrun
  refine ⟨⟨hfull.nonneg, hfull.le_capacity⟩, fun t T hT => ?_, ?_⟩
  · have hbound := hwindowed.window t (t + T) (le_add_of_nonneg_right hT)
    rwa [add_sub_cancel_left] at hbound
  · intro p hp hreturns thread now t hnow h
    exact (recovering hcapacity hrun).acquire hcapacity hp hreturns hnow h

/-- Two workers and a block: the bucket of a host grants one token at the start and one
after the penalty. -/
def blockedRun : List Event :=
  [.acquire 0 0, .penalise 90 1, .acquire 1 2, .penalise 180 3, .acquire 0 150]

theorem rate_bounded_blocked : ∃ s t,
    run (step hostLimits) (.initial hostLimits 0) blockedRun = some s ∧
      (grants s (-1) (-1 + 5) : ℚ) ≤ hostLimits.capacity + hostLimits.rate * 5 ∧
      step hostLimits s (.acquire 1 184) = some t ∧ t.returns = s.returns ++ [184] := by
  have hend : (run (step hostLimits) (.initial hostLimits 0) blockedRun).map (fun s =>
      (s.penalties, s.returns, (step hostLimits s (.acquire 1 184)).isSome)) =
        some ([(1, 90), (3, 180)], [0], true) := by
    decide +kernel
  obtain ⟨s, hrun, hview⟩ := Option.map_eq_some_iff.mp hend
  obtain ⟨hpenalties, hview⟩ := Prod.mk.inj hview
  obtain ⟨hreturns, hsome⟩ := Prod.mk.inj hview
  obtain ⟨t, ht⟩ := Option.isSome_iff_exists.mp hsome
  obtain ⟨-, hwindow, hrecover⟩ := rate_bounded hostLimits (by decide) 0 blockedRun s hrun
  refine ⟨s, t, hrun, hwindow (-1) 5 (by decide), ht, hrecover (3, 180) ?_ ?_ 1 184 t ?_ ht⟩
  · rw [hpenalties]
    rfl
  · rw [hreturns]
    decide +kernel
  · decide +kernel

end WebSpider.Fetcher
