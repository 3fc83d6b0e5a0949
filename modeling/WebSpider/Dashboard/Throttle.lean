import WebSpider.Effects.Run
import WebSpider.Text.Lines
import Mathlib.Algebra.Order.Field.Rat
import Mathlib.Algebra.Order.Floor.Defs
import Mathlib.Data.Rat.Floor
import Mathlib.Tactic.Linarith
import Mathlib.Tactic.Ring

/-!
# The gate of the semantic search

`_throttle` of `rag_search.py` with the calls of `semantic_search` and `api_search`
that reach it. `_next_ok` holds the time from which a query is admissible, one period
after the last grant, and the test asks for another period after that: a query is
granted two periods after the last one (`granted_iff`). The rate is the configured
one exactly when no query falls between the first and the second period
(`paced_iff`). The seconds of a rejection do tell when a query will be granted
(`granted_after_rejection`).

Times are exact.
-/

namespace WebSpider.Dashboard

open Text Effects

/-! ## Definitions -/

/-- The configured rate. -/
structure Rate where
  qps : ℚ
  pos : 0 < qps

/-- The seconds between two queries at this rate. -/
def Rate.period (q : Rate) : ℚ := 1 / q.qps

/-- `_throttle` at the time `now`: the new `_next_ok`, or `RateLimited` with the seconds
to wait. -/
def throttle (q : Rate) (nextOk now : ℚ) : Except ℚ ℚ :=
  let wait := q.period - (now - nextOk)
  if 0 < wait then .error wait else .ok (now + q.period)

/-- A call of `semantic_search`. -/
structure Request where
  query : Str
  now : ℚ

/-- `_next_ok`, the time of the last request, and the time of the last one granted. -/
structure State where
  nextOk : ℚ
  clock : ℚ
  granted : Option ℚ
  deriving DecidableEq

/-- A blank query returns before the gate. -/
def Request.isBlank (r : Request) : Bool := (strip r.query).isEmpty

/-- The request at the gate, at the time the monotonic clock shows there. -/
def step (q : Rate) (s : State) (r : Request) : Option State :=
  if r.now < s.clock then none
  else if r.isBlank then some { s with clock := r.now }
  else match throttle q s.nextOk r.now with
    | .error _ => some { s with clock := r.now }
    | .ok nextOk => some ⟨nextOk, r.now, some r.now⟩

/-- The state of a new process whose first request comes at `start` or later. -/
def State.initial (start : ℚ) : State := ⟨0, start, none⟩

/-! ## The property and the condition -/

/-- The gate grants a request. -/
def Grants (q : Rate) (s : State) (now : ℚ) : Prop := ∃ nextOk, throttle q s.nextOk now = .ok nextOk

/-- A request is granted exactly when a period has passed since the last grant, and one
that is rejected learns when a request will be granted. -/
def Paced (q : Rate) (s : State) (r : Request) : Prop :=
  r.isBlank = false → ∀ last, s.granted = some last →
    (Grants q s r.now ↔ last + q.period ≤ r.now) ∧
      ∀ wait, throttle q s.nextOk r.now = .error wait →
        ∀ later, r.now ≤ later → (Grants q s later ↔ r.now + wait ≤ later)

/-- The request does not come in the second period after the last grant. -/
def Clear (q : Rate) (s : State) (r : Request) : Prop :=
  r.isBlank = false → ∀ last, s.granted = some last →
    ¬ (last + q.period ≤ r.now ∧ r.now < last + 2 * q.period)

/-! ## The gate -/

theorem Rate.period_pos (q : Rate) : 0 < q.period := div_pos one_pos q.pos

/-- The gate compares with the admissible time and asks for a period more. -/
theorem granted_iff (q : Rate) (s : State) (now : ℚ) : Grants q s now ↔ s.nextOk + q.period ≤ now := by
  unfold Grants throttle
  dsimp only
  split
  · rename_i hwait
    refine ⟨fun ⟨_, h⟩ => (nomatch h), fun h => ?_⟩
    linarith
  · rename_i hwait
    refine ⟨fun _ => ?_, fun _ => ⟨_, rfl⟩⟩
    linarith

theorem throttle_error {q : Rate} {nextOk now wait : ℚ} (h : throttle q nextOk now = .error wait) :
    now + wait = nextOk + q.period := by
  unfold throttle at h
  dsimp only at h
  split at h
  · obtain rfl := Except.error.inj h
    ring
  · cases h

/-- The seconds of a rejection are those until the next grant. -/
theorem granted_after_rejection {q : Rate} {s : State} {now wait : ℚ}
    (h : throttle q s.nextOk now = .error wait) (later : ℚ) :
    Grants q s later ↔ now + wait ≤ later := by
  rw [granted_iff, throttle_error h]

/-! ## Runs -/

/-- After a grant the admissible time is one period later. -/
def Anchored (q : Rate) (s : State) : Prop := ∀ last, s.granted = some last → s.nextOk = last + q.period

theorem anchored_initial (q : Rate) (start : ℚ) : Anchored q (.initial start) := by
  intro last hlast
  cases hlast

theorem anchored_step {q : Rate} {s t : State} {r : Request} (hs : Anchored q s)
    (h : step q s r = some t) : Anchored q t := by
  unfold step at h
  split at h
  · cases h
  · split at h
    · cases h
      exact hs
    · split at h
      · cases h
        exact hs
      · rename_i nextOk hok
        cases h
        intro last hlast
        obtain rfl := Option.some.inj hlast
        unfold throttle at hok
        dsimp only at hok
        split at hok
        · cases hok
        · exact (Except.ok.inj hok).symm

theorem paced_iff_clear {q : Rate} {s : State} (hs : Anchored q s) (r : Request) :
    Paced q s r ↔ Clear q s r := by
  have hperiod := q.period_pos
  refine forall_congr' fun _ => forall_congr' fun last => forall_congr' fun hlast => ?_
  have hgate := granted_iff q s r.now
  rw [hs last hlast] at hgate
  constructor
  · rintro ⟨hgrants, -⟩ ⟨hfirst, hsecond⟩
    have hlate := hgate.mp (hgrants.mpr hfirst)
    linarith
  · intro hclear
    refine ⟨⟨fun h => ?_, fun h => hgate.mpr ?_⟩, fun wait hwait later _ =>
      granted_after_rejection hwait later⟩
    · have hlate := hgate.mp h
      linarith
    · have hlate := not_lt.mp fun hsecond => hclear ⟨h, hsecond⟩
      linarith

/-- In a run of the gate every request after a grant is granted at the configured rate
exactly when none comes in the second period after a grant. -/
theorem paced_iff (q : Rate) (start : ℚ) (requests : List Request) :
    Along (step q) (Paced q) (.initial start) requests ↔
      Along (step q) (Clear q) (.initial start) requests :=
  along_congr (fun _ _ _ => anchored_step) (fun _ r hs => paced_iff_clear hs r)
    (anchored_initial q start) requests

theorem defaultRate_pos : (0 : ℚ) < 1 := by decide

/-- One query a second, as configured by default. -/
def defaultRate : Rate := ⟨1, defaultRate_pos⟩

/-- A query at a time of the clock. -/
def queryAt (now : ℚ) : Request := ⟨lit "retry", now⟩

/-- A query one and a half seconds after the last one is rejected. -/
theorem second_period_rejected :
    ¬ ∀ (q : Rate) (start : ℚ) (requests : List Request),
      Along (step q) (Paced q) (.initial start) requests := by
  intro hpaces
  have hfirst : step defaultRate (.initial 5) (queryAt 10) = some ⟨11, 10, some 10⟩ := by
    decide +kernel
  have halong := (hpaces defaultRate 5 [queryAt 10, queryAt (23 / 2)]).2 _ hfirst
  obtain ⟨hgrants, -⟩ := halong.1 (by decide +kernel) 10 rfl
  have hgranted := (granted_iff defaultRate _ _).mp (hgrants.mpr (by decide +kernel))
  exact absurd hgranted (by decide +kernel)

end WebSpider.Dashboard
