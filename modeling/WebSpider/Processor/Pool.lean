import WebSpider.Effects.Run
import Mathlib.Data.List.Induction

/-!
# The connections of the main loop

`main` with `get_conn`, `putconn` and `_drop_broken_conn`: which connections of
the pool the loop has checked out. The loop needs one connection. It loses one
when `putconn` raises, and when `recover_pending` raises in the reconnect loop,
where the next `get_conn` overwrites the variable `conn`. A lost connection is
never returned, so ten of them exhaust the pool (`exhausted_forever`). In a run
where nothing is checked out after such a loss the loop never has more than one
(`one_connection_iff`).
-/

namespace WebSpider.Processor.Pool

open Effects

/-- `_POOL_MAX` -/
def poolMax : Nat := 10

/-- The calls of `main`, in program order. -/
inductive Site where
  /-- `conn = get_conn()` before the loop. -/
  | start
  /-- `warm_from_db` -/
  | warm
  /-- `recover_pending` before the loop. -/
  | recover
  /-- `get_conn` at the top of the loop, called when `conn is None`. -/
  | connect
  /-- `r.xreadgroup` -/
  | read
  /-- `process_batch` -/
  | process
  /-- `conn.rollback()` in `_drop_broken_conn`. -/
  | rollback
  /-- `putconn(conn, close=True)` in `_drop_broken_conn`. -/
  | put
  /-- `get_conn` in the reconnect loop. -/
  | reconnect
  /-- `recover_pending` in the reconnect loop. -/
  | drain
  /-- `main` ended with an exception. -/
  | dead
  deriving DecidableEq

/-- How a call ends. Only `xreadgroup` can return nothing. -/
inductive Answer where
  | ok
  | nothing
  | fails
  deriving DecidableEq

/-- The next call, the variable `conn`, the connections checked out, and the
number of those handed out so far. -/
structure Loop where
  site : Site
  conn : Option Nat
  out : List Nat
  handed : Nat
  deriving DecidableEq

def Loop.initial : Loop := ⟨.start, none, [], 0⟩

namespace Loop

/-- A successful `conn = get_conn()`, which goes on at `next`. -/
def checkOut (s : Loop) (next : Site) : Loop :=
  ⟨next, some s.handed, s.out ++ [s.handed], s.handed + 1⟩

/-- The top of the loop: `if conn is None`. -/
def top (s : Loop) : Loop := { s with site := if s.conn = none then .connect else .read }

/-- The start of `_drop_broken_conn`: nothing to do without a connection. -/
def drop (s : Loop) : Loop := { s with site := if s.conn = none then .reconnect else .rollback }

/-- The end of the handler: `conn = None`. -/
def forget (s : Loop) : Loop := { s with site := .reconnect, conn := none }

/-- A successful `putconn(conn)`. -/
def giveBack (s : Loop) : Loop := { s with out := s.out.filter fun c => decide (some c ≠ s.conn) }

end Loop

/-- The pool has a connection left. -/
def Available (s : Loop) : Prop := s.out.length < poolMax

instance (s : Loop) : Decidable (Available s) := inferInstanceAs (Decidable (_ < _))

/-- One call. `get_conn` raises also when the pool is exhausted. -/
def step (s : Loop) (a : Answer) : Option Loop :=
  match s.site, a with
  | .start, .ok => some (if Available s then s.checkOut .warm else { s with site := .dead })
  | .start, .fails => some { s with site := .dead }
  | .warm, .ok => some { s with site := .recover }
  | .warm, .fails => some { s with site := .dead }
  | .recover, .ok => some s.top
  | .recover, .fails => some { s with site := .dead }
  | .connect, .ok => some (if Available s then s.checkOut .read else s.drop)
  | .connect, .fails => some s.drop
  | .read, .ok => some { s with site := .process }
  | .read, .nothing => some s.top
  | .read, .fails => some s.drop
  | .process, .ok => some s.top
  | .process, .fails => some s.drop
  | .rollback, .ok => some { s with site := .put }
  | .rollback, .fails => some { s with site := .put }
  | .put, .ok => some s.giveBack.forget
  | .put, .fails => some s.forget
  | .reconnect, .ok => some (if Available s then s.checkOut .drain else s)
  | .reconnect, .fails => some s
  | .drain, .ok => some s.top
  | .drain, .fails => some { s with site := .reconnect }
  | _, _ => none

/-! ## The property and the condition -/

/-- The sites of `get_conn`. -/
def Site.Gets : Site → Prop
  | .start | .connect | .reconnect => True
  | _ => False

/-- The sites between a `get_conn` and what becomes of its connection. -/
def Site.Uses : Site → Prop
  | .start | .connect | .reconnect | .dead => False
  | _ => True

/-- The call loses the connection it is about. -/
def Loses (s : Loop) (a : Answer) : Prop := (s.site = .put ∨ s.site = .drain) ∧ a = .fails

/-- The call is a `get_conn` that returns. -/
def Opens (s : Loop) (a : Answer) : Prop := s.site.Gets ∧ a = .ok ∧ Available s

/-- In every state of the run at most one connection is checked out, and the
pool is not exhausted. -/
def OneConnection (as : List Answer) : Prop :=
  ∀ bs cs s, as = bs ++ cs → run step .initial bs = some s → s.out.length ≤ 1 ∧ Available s

/-- A call of the run loses a connection and a later one gets another. -/
def OpensAfterLoss (as : List Answer) : Prop :=
  ∃ bs a cs b ds s t, as = (bs ++ a :: cs) ++ b :: ds ∧ run step .initial bs = some s ∧ Loses s a ∧
    run step .initial (bs ++ a :: cs) = some t ∧ Opens t b

/-! ## What a call does -/

/-- The cases of a call. -/
inductive Moved (s : Loop) (a : Answer) : Loop → Prop
  | opened (next : Site) (hopens : Opens s a) (hnext : next.Uses) : Moved s a (s.checkOut next)
  | died (hnot : ¬ Opens s a) : Moved s a { s with site := .dead }
  | went (next : Site) (huses : s.site.Uses) (hnext : next.Uses) : Moved s a { s with site := next }
  | top (huses : s.site.Uses) : Moved s a s.top
  | dropped (hnot : ¬ Opens s a) : Moved s a s.drop
  | retried (hnot : ¬ Opens s a) : Moved s a s
  | returned (hsite : s.site = .put) : Moved s a s.giveBack.forget
  | lostPut (hloses : Loses s a) : Moved s a s.forget
  | lostDrain (hloses : Loses s a) : Moved s a { s with site := .reconnect }

theorem Site.Uses.not_gets {site : Site} (h : site.Uses) : ¬ site.Gets := by
  cases site <;> first | exact id | exact h.elim

theorem not_opens_of_fails (s : Loop) : ¬ Opens s .fails := fun hopens => nomatch hopens.2.1

theorem moved_of_step {s t : Loop} {a : Answer} (h : step s a = some t) : Moved s a t := by
  have huses {site : Site} (hsite : s.site = site) (hsite' : site.Uses) : s.site.Uses :=
    hsite ▸ hsite'
  have hopens {site : Site} (hsite : s.site = site) (hgets : site.Gets) (havail : Available s) :
      Opens s .ok := ⟨hsite ▸ hgets, rfl, havail⟩
  unfold step at h
  split at h <;> rename_i hsite
  -- before the loop
  · split at h <;> rename_i havail <;> cases h
    · exact .opened .warm (hopens hsite trivial havail) trivial
    · exact .died fun hopens => havail hopens.2.2
  · cases h
    exact .died (not_opens_of_fails s)
  · cases h
    exact .went .recover (huses hsite trivial) trivial
  · cases h
    exact .died (not_opens_of_fails s)
  · cases h
    exact .top (huses hsite trivial)
  · cases h
    exact .died (not_opens_of_fails s)
  -- the loop
  · split at h <;> rename_i havail <;> cases h
    · exact .opened .read (hopens hsite trivial havail) trivial
    · exact .dropped fun hopens => havail hopens.2.2
  · cases h
    exact .dropped (not_opens_of_fails s)
  · cases h
    exact .went .process (huses hsite trivial) trivial
  · cases h
    exact .top (huses hsite trivial)
  · cases h
    exact .dropped (not_opens_of_fails s)
  · cases h
    exact .top (huses hsite trivial)
  · cases h
    exact .dropped (not_opens_of_fails s)
  -- the handler
  · cases h
    exact .went .put (huses hsite trivial) trivial
  · cases h
    exact .went .put (huses hsite trivial) trivial
  · cases h
    exact .returned hsite
  · cases h
    exact .lostPut ⟨Or.inl hsite, rfl⟩
  -- the reconnect loop
  · split at h <;> rename_i havail <;> cases h
    · exact .opened .drain (hopens hsite trivial havail) trivial
    · exact .retried fun hopens => havail hopens.2.2
  · cases h
    exact .retried (not_opens_of_fails s)
  · cases h
    exact .top (huses hsite trivial)
  · cases h
    exact .lostDrain ⟨Or.inr hsite, rfl⟩
  · cases h

/-! ## Runs without a loss -/

/-- As long as no connection is lost, `conn` holds what is checked out. -/
structure Sound (s : Loop) : Prop where
  out : s.out = s.conn.toList
  gets : s.site.Gets → s.conn = none

theorem Sound.length_le {s : Loop} (hs : Sound s) : s.out.length ≤ 1 := by
  rw [hs.out]
  cases s.conn with
  | none => exact Nat.zero_le 1
  | some c => exact Nat.le_refl 1

theorem sound_step {s t : Loop} {a : Answer} (hs : Sound s) (h : step s a = some t) :
    Sound t ∨ (Loses s a ∧ t.out = s.out) := by
  have hmoved := moved_of_step h
  cases hmoved with
  | opened next hopens hnext =>
    refine Or.inl ⟨?_, fun hgets => (hnext.not_gets hgets).elim⟩
    show s.out ++ [s.handed] = [s.handed]
    rw [hs.out, hs.gets hopens.1]
    rfl
  | died hnot => exact Or.inl ⟨hs.out, False.elim⟩
  | went next huses hnext => exact Or.inl ⟨hs.out, fun hgets => (hnext.not_gets hgets).elim⟩
  | top huses =>
    refine Or.inl ⟨hs.out, fun hgets => ?_⟩
    by_contra hconn
    have hsite : s.top.site = .read := if_neg hconn
    rw [hsite] at hgets
    exact hgets
  | dropped hnot =>
    refine Or.inl ⟨hs.out, fun hgets => ?_⟩
    by_contra hconn
    have hsite : s.drop.site = .rollback := if_neg hconn
    rw [hsite] at hgets
    exact hgets
  | retried hnot => exact Or.inl hs
  | returned hsite =>
    refine Or.inl ⟨?_, fun _ => rfl⟩
    show s.out.filter (fun c => decide (some c ≠ s.conn)) = []
    rw [hs.out]
    cases s.conn with
    | none => rfl
    | some c => simp
  | lostPut hloses => exact Or.inr ⟨hloses, rfl⟩
  | lostDrain hloses => exact Or.inr ⟨hloses, rfl⟩

/-- Only a `get_conn` that returns checks a connection out. -/
theorem out_step {s t : Loop} {a : Answer} (h : step s a = some t) (hnot : ¬ Opens s a) :
    t.out.length ≤ s.out.length := by
  have hmoved := moved_of_step h
  cases hmoved with
  | opened next hopens _ => exact (hnot hopens).elim
  | returned _ => exact List.length_filter_le _ _
  | _ => exact Nat.le_refl _

/-- Up to the first loss the run is sound; from then on nothing is checked out. -/
theorem sound_run {as : List Answer} (hloss : ¬ OpensAfterLoss as) {bs cs : List Answer} {s : Loop}
    (has : as = bs ++ cs) (hrun : run step .initial bs = some s) :
    Sound s ∨ (s.out.length ≤ 1 ∧ ∃ bs' a cs' s', bs = bs' ++ a :: cs' ∧
      run step .initial bs' = some s' ∧ Loses s' a) := by
  induction bs using List.reverseRecOn generalizing cs s with
  | nil =>
    cases hrun
    exact Or.inl ⟨rfl, fun _ => rfl⟩
  | append_singleton bs b ih =>
    rw [run_append] at hrun
    obtain ⟨t, ht, hlast⟩ := Option.bind_eq_some_iff.mp hrun
    obtain ⟨u, hstep, hu⟩ := Option.bind_eq_some_iff.mp hlast
    cases hu
    have has' : as = bs ++ b :: cs := by rw [has, List.append_assoc]; rfl
    rcases ih has' ht with hsound | ⟨hone, bs', a, cs', s', rfl, hs', hloses⟩
    · rcases sound_step hsound hstep with hsound' | ⟨hloses, hout⟩
      · exact Or.inl hsound'
      · exact Or.inr ⟨hout ▸ hsound.length_le, bs, b, [], t, rfl, ht, hloses⟩
    · have hnot : ¬ Opens t b := fun hopens =>
        hloss ⟨bs', a, cs', b, cs, s', t, has', hs', hloses, ht, hopens⟩
      refine Or.inr ⟨Nat.le_trans (out_step hstep hnot) hone, bs', a, cs' ++ [b], s', ?_, hs', hloses⟩
      rw [List.append_assoc]
      rfl

/-! ## Runs after a loss -/

/-- What `conn` holds is checked out, and from `get_conn` on it holds something. -/
structure Held (s : Loop) : Prop where
  out : ∀ c, s.conn = some c → c ∈ s.out
  uses : s.site.Uses → s.conn ≠ none

theorem held_step {s t : Loop} {a : Answer} (hs : Held s) (h : step s a = some t) : Held t := by
  have hmoved := moved_of_step h
  cases hmoved with
  | opened next hopens hnext =>
    refine ⟨fun c hc => ?_, fun _ => Option.some_ne_none _⟩
    obtain rfl : s.handed = c := Option.some.inj hc
    exact List.mem_append_right _ List.mem_cons_self
  | died hnot => exact ⟨hs.out, False.elim⟩
  | went next huses hnext => exact ⟨hs.out, fun _ => hs.uses huses⟩
  | top huses => exact ⟨hs.out, fun _ => hs.uses huses⟩
  | dropped hnot =>
    refine ⟨hs.out, fun huses hconn => ?_⟩
    have hsite : s.drop.site = .reconnect := if_pos hconn
    rw [hsite] at huses
    exact huses
  | retried hnot => exact hs
  | returned hsite => exact ⟨nofun, False.elim⟩
  | lostPut hloses => exact ⟨nofun, False.elim⟩
  | lostDrain hloses => exact ⟨hs.out, False.elim⟩

theorem held_initial : Held .initial := by
  refine ⟨fun c hc => ?_, False.elim⟩
  cases hc

theorem held_run {bs : List Answer} {s : Loop} (hrun : run step .initial bs = some s) : Held s :=
  run_invariant (K := fun _ _ => True) (fun _ _ _ hs _ h => held_step hs h) held_initial
    (along_true _ _ _) hrun

/-- After a loss the loop reconnects with something checked out. -/
theorem step_of_loses {s t : Loop} {a : Answer} (hs : Held s) (hloses : Loses s a)
    (h : step s a = some t) : t.site = .reconnect ∧ t.out ≠ [] := by
  obtain ⟨hsite, rfl⟩ := hloses
  have huses : s.site.Uses := by
    rcases hsite with hsite | hsite <;> rw [hsite] <;> trivial
  obtain ⟨c, hc⟩ := Option.ne_none_iff_exists'.mp (hs.uses huses)
  have hout := List.ne_nil_of_mem (hs.out c hc)
  rcases hsite with hsite | hsite
  · simp only [step, hsite] at h
    cases h
    exact ⟨rfl, hout⟩
  · simp only [step, hsite] at h
    cases h
    exact ⟨rfl, hout⟩

theorem step_of_opens {s : Loop} {a : Answer} (h : Opens s a) :
    ∃ t, step s a = some t ∧ t.out.length = s.out.length + 1 := by
  obtain ⟨hgets, rfl, havail⟩ := h
  have hone (next : Site) : (s.checkOut next).out.length = s.out.length + 1 := by
    simp [Loop.checkOut]
  cases hsite : s.site with
  | start => exact ⟨s.checkOut .warm, by simp only [step, hsite, if_pos havail], hone _⟩
  | connect => exact ⟨s.checkOut .read, by simp only [step, hsite, if_pos havail], hone _⟩
  | reconnect => exact ⟨s.checkOut .drain, by simp only [step, hsite, if_pos havail], hone _⟩
  | _ =>
    rw [hsite] at hgets
    exact hgets.elim

theorem step_reconnect {s t : Loop} {a : Answer} (hsite : s.site = .reconnect)
    (h : step s a = some t) : t = s ∨ Opens s a := by
  cases a with
  | ok =>
    by_cases havail : Available s
    · exact Or.inr ⟨hsite ▸ trivial, rfl, havail⟩
    · simp only [step, hsite, if_neg havail] at h
      exact Or.inl (Option.some.inj h).symm
  | nothing =>
    simp only [step, hsite] at h
    cases h
  | fails =>
    simp only [step, hsite] at h
    exact Or.inl (Option.some.inj h).symm

/-- The next `get_conn` that returns makes two. -/
theorem second_connection {cs : List Answer} {b : Answer} {s t : Loop} (hsite : s.site = .reconnect)
    (hout : s.out ≠ []) (hrun : run step s cs = some t) (hopens : Opens t b) :
    ∃ cs' ds u, cs ++ [b] = cs' ++ ds ∧ run step s cs' = some u ∧ 1 < u.out.length := by
  have hpos : 0 < s.out.length := List.length_pos_iff.mpr hout
  induction cs with
  | nil =>
    cases hrun
    obtain ⟨u, hstep, hlength⟩ := step_of_opens hopens
    exact ⟨[b], [], u, rfl, by rw [run_cons, hstep]; rfl, by omega⟩
  | cons a cs ih =>
    rw [run_cons] at hrun
    obtain ⟨u, hstep, hrest⟩ := Option.bind_eq_some_iff.mp hrun
    rcases step_reconnect hsite hstep with rfl | hopens'
    · obtain ⟨cs', ds, v, hsplit, hrun', hv⟩ := ih hrest
      refine ⟨a :: cs', ds, v, by rw [List.cons_append, hsplit]; rfl, ?_, hv⟩
      rw [run_cons, hstep]
      exact hrun'
    · obtain ⟨u', hstep', hlength⟩ := step_of_opens hopens'
      exact ⟨[a], cs ++ [b], u', rfl, by rw [run_cons, hstep']; rfl, by omega⟩

/-- In the reconnect loop an exhausted pool stays exhausted, whatever is answered. -/
theorem exhausted_forever {s t : Loop} {as : List Answer} (hsite : s.site = .reconnect)
    (hexhausted : ¬ Available s) (hrun : run step s as = some t) : t = s := by
  induction as with
  | nil =>
    cases hrun
    rfl
  | cons a as ih =>
    rw [run_cons] at hrun
    obtain ⟨u, hstep, hrest⟩ := Option.bind_eq_some_iff.mp hrun
    rcases step_reconnect hsite hstep with rfl | hopens
    · exact ih hrest
    · exact (hexhausted hopens.2.2).elim

/-! ## The exact condition -/

/-- The loop never has more than one connection exactly when no `get_conn`
returns after a loss. -/
theorem one_connection_iff (as : List Answer) : OneConnection as ↔ ¬ OpensAfterLoss as := by
  constructor
  · rintro hone ⟨bs, a, cs, b, ds, s, t, has, hs, hloses, ht, hopens⟩
    rw [run_append, hs] at ht
    obtain ⟨u, hstep, hrest⟩ := Option.bind_eq_some_iff.mp (show (run step s (a :: cs)) = some t from ht)
    obtain ⟨hsite, hout⟩ := step_of_loses (held_run hs) hloses hstep
    obtain ⟨cs', ds', v, hsplit, hrun, htwo⟩ := second_connection hsite hout hrest hopens
    have hprefix : as = (bs ++ a :: cs') ++ (ds' ++ ds) := by
      rw [has, List.append_assoc, List.append_assoc, List.cons_append, List.cons_append,
        ← List.append_assoc cs', ← hsplit, List.append_assoc]
      rfl
    have hreached : run step .initial (bs ++ a :: cs') = some v := by
      rw [run_append, hs]
      show run step s (a :: cs') = some v
      rw [run_cons, hstep]
      exact hrun
    have hle := (hone _ _ v hprefix hreached).1
    omega
  · intro hloss bs cs s has hrun
    have hone : s.out.length ≤ 1 := by
      rcases sound_run hloss has hrun with hsound | ⟨hone, -⟩
      · exact hsound.length_le
      · exact hone
    exact ⟨hone, Nat.lt_of_le_of_lt hone (by decide)⟩

/-- One failure of `xreadgroup`, then `recover_pending` fails `n` times. -/
def outage (n : Nat) : List Answer :=
  [.ok, .ok, .ok, .fails, .ok, .ok] ++ (List.replicate n [.ok, .fails]).flatten

/-- After two failures two connections are checked out. -/
theorem failed_recovery_leaks : ¬ ∀ as, OneConnection as := by
  intro hsingle
  have hrun : (run step .initial (outage 2)).map (fun s => s.out.length) = some 2 := by decide
  obtain ⟨s, hs, hlength⟩ := Option.map_eq_some_iff.mp hrun
  have hle := (hsingle (outage 2) (outage 2) [] s (List.append_nil _).symm hs).1
  omega

/-- After ten failures the pool is exhausted. -/
example : (run step .initial (outage 10)).map (fun s => (s.site, s.out.length)) =
    some (.reconnect, poolMax) := by decide

end WebSpider.Processor.Pool
