import WebSpider.Processor.Pool
import Mathlib.Data.List.Nodup
import Mathlib.Logic.Function.Basic

/-!
# The connections of the dashboard

Requests run in threads of one process. `get_conn` makes the pool when it is first needed,
under a lock and with the test made twice; a query checks a connection out and puts it back
whether it raises or not. In whatever order the threads take their steps only one pool is
ever made, and no thread sees `_pool` without one (`one_pool`). A connection is used by one
request at a time, and the connections that are out are those in use and those whose
`putconn` raised (`connections_accounted`): these never come back, so ten of them end the
service of every query.
-/

namespace WebSpider.Dashboard.Connections

open Effects
open Processor.Pool (poolMax)

/-! ## Requests -/

/-- A connection of one of the pools. -/
structure Conn where
  pool : Nat
  number : Nat
  deriving DecidableEq

/-- Where the thread of a request is. -/
inductive Pc where
  | idle
  /-- `if _pool is None` before the lock. -/
  | outer
  /-- `with _pool_lock` -/
  | waiting
  /-- `if _pool is None` under the lock. -/
  | inner
  /-- `ThreadedConnectionPool(_POOL_MIN, _POOL_MAX, PG_DSN)` -/
  | creating
  /-- `_pool = ` that pool. -/
  | assigning (pool : Nat)
  /-- The end of the block, which an exception may have ended. -/
  | leaving (raised : Bool)
  /-- `return _pool` -/
  | returning
  /-- `.getconn()` of what was returned. -/
  | getting (pool : Nat)
  /-- The query. -/
  | querying (conn : Conn)
  /-- `putconn(self.conn)`, after the query or its exception. -/
  | putting (conn : Conn)
  /-- A method of `None` was called, or a connection was put into another pool. -/
  | broken
  deriving DecidableEq

/-- What a step comes to. -/
inductive Answer where
  | goes
  /-- `getconn` gives a connection. -/
  | gives (number : Nat)
  /-- `getconn` raises since the pool is exhausted. -/
  | refuses
  | raises
  deriving DecidableEq

/-- `_pool`, the number of pools made, the owner of `_pool_lock`, the threads, the
connections that are out, and of these the ones that `putconn` raised on. -/
structure State where
  pool : Option Nat
  created : Nat
  lock : Option Nat
  pcs : Nat → Pc
  used : List Conn
  lost : List Conn

def State.initial : State := ⟨none, 0, none, fun _ => .idle, [], []⟩

namespace State

def goto (t : Nat) (pc : Pc) (s : State) : State := { s with pcs := Function.update s.pcs t pc }

/-- The connections of a pool that are out. -/
def out (p : Nat) (s : State) : List Conn := s.used.filter fun c => decide (c.pool = p)

/-- `pool.putconn(conn)` on the pool that `_pool` is. -/
def putBack (t : Nat) (c : Conn) (s : State) : State :=
  match s.pool with
  | none => s.goto t .idle
  | some p =>
    if p = c.pool then { s.goto t .idle with used := s.used.filter fun c' => decide (c' ≠ c) }
    else s.goto t .broken

end State

/-- A step of the thread `t`. A thread that waits for the lock has none while it is taken. -/
def step (s : State) (e : Nat × Answer) : Option State :=
  let t := e.1
  match s.pcs t, e.2 with
  | .idle, .goes => some (s.goto t .outer)
  | .outer, .goes => some (s.goto t (if s.pool = none then .waiting else .returning))
  | .waiting, .goes => if s.lock = none then some { s.goto t .inner with lock := some t } else none
  | .inner, .goes => some (s.goto t (if s.pool = none then .creating else .leaving false))
  | .creating, .goes => some { s.goto t (.assigning s.created) with created := s.created + 1 }
  | .creating, .raises => some (s.goto t (.leaving true))
  | .assigning p, .goes => some { s.goto t (.leaving false) with pool := some p }
  | .leaving raised, .goes =>
    some { s.goto t (if raised then .idle else .returning) with lock := none }
  | .returning, .goes =>
    match s.pool with
    | none => some (s.goto t .broken)
    | some p => some (s.goto t (.getting p))
  | .getting p, .gives n =>
    if (s.out p).length < poolMax ∧ ⟨p, n⟩ ∉ s.used then
      some { s.goto t (.querying ⟨p, n⟩) with used := s.used ++ [⟨p, n⟩] }
    else none
  | .getting p, .refuses => if (s.out p).length < poolMax then none else some (s.goto t .idle)
  | .getting p, .raises => if (s.out p).length < poolMax then some (s.goto t .idle) else none
  | .querying c, .goes => some (s.goto t (.putting c))
  | .querying c, .raises => some (s.goto t (.putting c))
  | .putting c, .goes => some (s.putBack t c)
  | .putting c, .raises => some { s.goto t .idle with lost := s.lost ++ [c] }
  | _, _ => none

/-! ## One pool -/

namespace Pc

/-- The thread is in the block under the lock. -/
def locked : Pc → Bool
  | .inner | .creating | .assigning _ | .leaving _ => true
  | _ => false

/-- The connection the request uses. -/
def conn : Pc → Option Conn
  | .querying c | .putting c => some c
  | _ => none

end Pc

/-- What the thread knows of `_pool`, of the pools made and of the lock. The first pool is
number 0. -/
def Knows (s : State) (t : Nat) : Pc → Prop
  | .idle | .outer | .waiting => True
  | .inner => s.lock = some t
  | .creating => s.lock = some t ∧ s.pool = none ∧ s.created = 0
  | .assigning p => s.lock = some t ∧ s.pool = none ∧ p = 0 ∧ s.created = 1
  | .leaving raised => s.lock = some t ∧ (raised = false → s.pool = some 0)
  | .returning => s.pool = some 0
  | .getting p => s.pool = some 0 ∧ p = 0
  | .querying c | .putting c => s.pool = some 0 ∧ c.pool = 0
  | .broken => False

structure Locking (s : State) : Prop where
  knows : ∀ t, Knows s t (s.pcs t)
  made : ∀ p, s.pool = some p → p = 0 ∧ s.created = 1
  unmade : s.pool = none → s.created = 0 ∨ s.created = 1 ∧ ∃ t, s.pcs t = .assigning 0

section Steps

variable {s s' : State} {t : Nat}

@[simp] theorem goto_same (t : Nat) (pc : Pc) (s : State) : (s.goto t pc).pcs t = pc :=
  Function.update_self ..

theorem goto_other {u : Nat} (h : u ≠ t) (pc : Pc) (s : State) : (s.goto t pc).pcs u = s.pcs u :=
  Function.update_of_ne h ..

/-- A thread in the block owns the lock. -/
theorem Knows.owner {pc : Pc} (h : Knows s t pc) (hlocked : pc.locked = true) :
    s.lock = some t := by
  cases pc <;> first | exact h.1 | exact h | cases hlocked

/-- Outside of the block a thread knows at most that there is a pool. -/
theorem Knows.unlocked {pc : Pc} (h : Knows s t pc) (hlocked : pc.locked = false)
    (hpool : s.pool = some 0 → s'.pool = some 0) : Knows s' t pc := by
  cases pc with
  | idle => trivial
  | outer => trivial
  | waiting => trivial
  | inner => cases hlocked
  | creating => cases hlocked
  | assigning p => cases hlocked
  | leaving raised => cases hlocked
  | returning => exact hpool h
  | getting p => exact ⟨hpool h.1, h.2⟩
  | querying c => exact ⟨hpool h.1, h.2⟩
  | putting c => exact ⟨hpool h.1, h.2⟩
  | broken => exact h

theorem Knows.congr {pc : Pc} (h : Knows s t pc) (hpool : s'.pool = s.pool)
    (hcreated : s'.created = s.created) (hlock : s'.lock = s.lock) : Knows s' t pc := by
  cases pc <;> simp_all [Knows]

/-- A thread in the block is the only one. -/
theorem Locking.unlocked_other (h : Locking s) (hlock : s.lock = some t) {u : Nat} (hut : u ≠ t) :
    (s.pcs u).locked = false := by
  rw [Bool.eq_false_iff]
  intro hlocked
  have howner := (h.knows u).owner hlocked
  rw [hlock] at howner
  exact hut (Option.some.inj howner).symm

theorem locking_initial : Locking .initial where
  knows _ := trivial
  made _ h := nomatch h
  unmade _ := Or.inl rfl

/-- A thread goes on, and only `used` or `lost` may change with it. -/
theorem Locking.goto (h : Locking s) {pc : Pc} (hfrom : ∀ p, s.pcs t ≠ .assigning p)
    (hto : Knows s t pc) (hpcs : s'.pcs = (s.goto t pc).pcs) (hpool : s'.pool = s.pool)
    (hcreated : s'.created = s.created) (hlock : s'.lock = s.lock) : Locking s' where
  knows u := by
    by_cases hut : u = t
    · rw [hut, hpcs, goto_same]
      exact hto.congr hpool hcreated hlock
    · rw [hpcs, goto_other hut]
      exact (h.knows u).congr hpool hcreated hlock
  made p hp := by
    rw [hpool] at hp
    rw [hcreated]
    exact h.made p hp
  unmade hnone := by
    rw [hpool] at hnone
    rw [hcreated]
    rcases h.unmade hnone with h0 | ⟨h1, u, hu⟩
    · exact Or.inl h0
    · refine Or.inr ⟨h1, u, ?_⟩
      have hut : u ≠ t := by
        rintro rfl
        exact hfrom 0 hu
      rw [hpcs, goto_other hut]
      exact hu

theorem Locking.pool_eq (h : Locking s) {p : Nat} (hp : s.pool = some p) : s.pool = some 0 := by
  rw [hp, (h.made p hp).1]

/-- Nobody has made a pool while another thread is in the block without one. -/
theorem Locking.created_eq (h : Locking s) (hlock : s.lock = some t) (hpc : s.pcs t = .inner)
    (hnone : s.pool = none) : s.created = 0 := by
  rcases h.unmade hnone with h0 | ⟨-, u, hu⟩
  · exact h0
  · have hut : u ≠ t := by
      rintro rfl
      rw [hpc] at hu
      cases hu
    have hfree := h.unlocked_other hlock hut
    rw [hu] at hfree
    cases hfree

theorem Locking.acquire (h : Locking s) (hpc : s.pcs t = .waiting) (hlock : s.lock = none) :
    Locking { s.goto t .inner with lock := some t } where
  knows u := by
    by_cases hut : u = t
    · subst hut
      rw [show State.pcs _ u = Pc.inner from goto_same u _ s]
      rfl
    · rw [show State.pcs _ u = s.pcs u from goto_other hut _ s]
      have hfree : (s.pcs u).locked = false := by
        rw [Bool.eq_false_iff]
        intro hlocked
        have howner := (h.knows u).owner hlocked
        rw [hlock] at howner
        cases howner
      exact (h.knows u).unlocked hfree id
  made := h.made
  unmade hnone := by
    rcases h.unmade hnone with h0 | ⟨-, u, hu⟩
    · exact Or.inl h0
    · have howner := (h.knows u).owner (by rw [hu]; rfl)
      rw [hlock] at howner
      cases howner

theorem Locking.create (h : Locking s) (hpc : s.pcs t = .creating) :
    Locking { s.goto t (.assigning s.created) with created := s.created + 1 } := by
  have hknows := h.knows t
  rw [hpc] at hknows
  obtain ⟨hlock, hpool, hcreated⟩ := hknows
  refine ⟨fun u => ?_, fun p hp => ?_, fun _ => Or.inr ⟨?_, t, ?_⟩⟩
  · by_cases hut : u = t
    · subst hut
      rw [show State.pcs _ u = Pc.assigning s.created from goto_same u _ s]
      exact ⟨hlock, hpool, hcreated, congrArg (· + 1) hcreated⟩
    · rw [show State.pcs _ u = s.pcs u from goto_other hut _ s]
      exact (h.knows u).unlocked (h.unlocked_other hlock hut) id
  · change s.pool = some p at hp
    rw [hpool] at hp
    cases hp
  · exact congrArg (· + 1) hcreated
  · rw [show State.pcs _ t = Pc.assigning s.created from goto_same t _ s, hcreated]

theorem Locking.assign (h : Locking s) {p : Nat} (hpc : s.pcs t = .assigning p) :
    Locking { s.goto t (.leaving false) with pool := some p } := by
  have hknows := h.knows t
  rw [hpc] at hknows
  obtain ⟨hlock, hpool, rfl, hcreated⟩ := hknows
  refine ⟨fun u => ?_, fun p hp => ?_, fun hnone => nomatch hnone⟩
  · by_cases hut : u = t
    · subst hut
      rw [show State.pcs _ u = Pc.leaving false from goto_same u _ s]
      exact ⟨hlock, fun _ => rfl⟩
    · rw [show State.pcs _ u = s.pcs u from goto_other hut _ s]
      exact (h.knows u).unlocked (h.unlocked_other hlock hut) fun _ => rfl
  · obtain rfl : 0 = p := Option.some.inj hp
    exact ⟨rfl, hcreated⟩

theorem Locking.leave (h : Locking s) {raised : Bool} (hpc : s.pcs t = .leaving raised) :
    Locking { s.goto t (if raised then .idle else .returning) with lock := none } := by
  have hknows := h.knows t
  rw [hpc] at hknows
  obtain ⟨hlock, hpool⟩ := hknows
  refine ⟨fun u => ?_, h.made, fun hnone => ?_⟩
  · by_cases hut : u = t
    · subst hut
      rw [show State.pcs _ u = (if raised then Pc.idle else .returning) from goto_same u _ s]
      cases raised with
      | true => trivial
      | false => exact hpool rfl
    · rw [show State.pcs _ u = s.pcs u from goto_other hut _ s]
      exact (h.knows u).unlocked (h.unlocked_other hlock hut) id
  · rcases h.unmade hnone with h0 | ⟨-, u, hu⟩
    · exact Or.inl h0
    · have hut : u ≠ t := by
        rintro rfl
        rw [hpc] at hu
        cases hu
      have hfree := h.unlocked_other hlock hut
      rw [hu] at hfree
      cases hfree

/-- A thread that goes on without touching `_pool`, the lock or the list of those out. -/
theorem Locking.next (h : Locking s) {pc pc' : Pc} (hpc : s.pcs t = pc)
    (hfrom : ∀ p, pc ≠ .assigning p) (hto : Knows s t pc') : Locking (s.goto t pc') :=
  h.goto (by rwa [hpc]) hto rfl rfl rfl rfl

theorem Locking.step (h : Locking s) {e : Nat × Answer} (hstep : step s e = some s') :
    Locking s' := by
  obtain ⟨t, a⟩ := e
  have hknows := h.knows t
  unfold Connections.step at hstep
  dsimp only at hstep
  split at hstep <;> rename_i hpc <;> try rw [hpc] at hknows
  -- `idle`
  · cases hstep
    exact h.next hpc nofun trivial
  -- `outer`
  · cases hstep
    apply h.next hpc nofun
    split
    · trivial
    · rename_i hsome
      obtain ⟨p, hp⟩ := Option.ne_none_iff_exists'.mp hsome
      exact h.pool_eq hp
  -- `waiting`
  · split at hstep
    · rename_i hlock
      cases hstep
      exact h.acquire hpc hlock
    · cases hstep
  -- `inner`
  · cases hstep
    apply h.next hpc nofun
    split
    · rename_i hnone
      exact ⟨hknows, hnone, h.created_eq hknows hpc hnone⟩
    · rename_i hsome
      obtain ⟨p, hp⟩ := Option.ne_none_iff_exists'.mp hsome
      exact ⟨hknows, fun _ => h.pool_eq hp⟩
  -- `creating`
  · cases hstep
    exact h.create hpc
  · cases hstep
    exact h.next hpc nofun ⟨hknows.1, nofun⟩
  -- `assigning`
  · cases hstep
    exact h.assign hpc
  -- `leaving`
  · cases hstep
    exact h.leave hpc
  -- `returning`
  · split at hstep
    · rename_i hnone
      have hpool : s.pool = some 0 := hknows
      rw [hnone] at hpool
      cases hpool
    · rename_i p hp
      cases hstep
      exact h.next hpc nofun ⟨hknows, (h.made p hp).1⟩
  -- `getting`
  · rename_i p n
    have hto : Knows s t (.querying ⟨p, n⟩) := ⟨hknows.1, hknows.2⟩
    split at hstep
    · cases hstep
      exact h.goto (by rw [hpc]; nofun) hto rfl rfl rfl rfl
    · cases hstep
  · split at hstep
    · cases hstep
    · cases hstep
      exact h.next hpc nofun trivial
  · split at hstep
    · cases hstep
      exact h.next hpc nofun trivial
    · cases hstep
  -- `querying`
  · cases hstep
    exact h.next hpc nofun hknows
  · cases hstep
    exact h.next hpc nofun hknows
  -- `putting`
  · cases hstep
    unfold State.putBack
    rw [hknows.1]
    dsimp only
    rw [if_pos hknows.2.symm]
    exact h.goto (by rw [hpc]; nofun) (show Knows s t .idle from trivial) rfl rfl rfl rfl
  · cases hstep
    exact h.goto (by rw [hpc]; nofun) (show Knows s t .idle from trivial) rfl rfl rfl rfl
  · cases hstep

end Steps

/-! ## The connections that are out -/

/-- The connections that are out are those in use, each by one request, and the lost ones. -/
structure Accounts (s : State) : Prop where
  held : ∀ t c, (s.pcs t).conn = some c → c ∈ s.used
  alone : ∀ t u c, (s.pcs t).conn = some c → (s.pcs u).conn = some c → t = u
  kept : ∀ t c, (s.pcs t).conn = some c → c ∉ s.lost
  lost : ∀ c ∈ s.lost, c ∈ s.used
  known : ∀ c ∈ s.used, c ∈ s.lost ∨ ∃ t, (s.pcs t).conn = some c
  first : ∀ c ∈ s.used, c.pool = 0
  nodup : s.used.Nodup
  lostNodup : s.lost.Nodup
  bound : s.used.length ≤ poolMax

section Steps

variable {s s' : State} {t : Nat}

theorem accounts_initial : Accounts .initial where
  held _ _ h := nomatch h
  alone _ _ _ h := nomatch h
  kept _ _ h := nomatch h
  lost _ h := nomatch h
  known _ h := nomatch h
  first _ h := nomatch h
  nodup := List.nodup_nil
  lostNodup := List.nodup_nil
  bound := Nat.zero_le _

/-- A step that leaves the connections of all threads as they are. -/
theorem Accounts.quiet (h : Accounts s) (hconn : ∀ u, (s'.pcs u).conn = (s.pcs u).conn)
    (hused : s'.used = s.used) (hlost : s'.lost = s.lost) : Accounts s' where
  held u c hu := by
    rw [hused]
    exact h.held u c ((hconn u).symm.trans hu)
  alone u v c hu hv := h.alone u v c ((hconn u).symm.trans hu) ((hconn v).symm.trans hv)
  kept u c hu := by
    rw [hlost]
    exact h.kept u c ((hconn u).symm.trans hu)
  lost c hc := by
    rw [hused]
    rw [hlost] at hc
    exact h.lost c hc
  known c hc := by
    rw [hused] at hc
    rw [hlost]
    rcases h.known c hc with hmem | ⟨u, hu⟩
    · exact Or.inl hmem
    · exact Or.inr ⟨u, (hconn u).trans hu⟩
  first := by rw [hused]; exact h.first
  nodup := by rw [hused]; exact h.nodup
  lostNodup := by rw [hlost]; exact h.lostNodup
  bound := by rw [hused]; exact h.bound

theorem conn_goto {pc : Pc} (h : pc.conn = (s.pcs t).conn) (u : Nat) :
    ((s.goto t pc).pcs u).conn = (s.pcs u).conn := by
  by_cases hut : u = t
  · rw [hut, goto_same, h]
  · rw [goto_other hut]

/-- A thread that comes to a connection, or goes on without one. -/
theorem conn_goto_eq_some {pc : Pc} {u : Nat} {c : Conn}
    (h : ((s.goto t pc).pcs u).conn = some c) :
    u = t ∧ pc.conn = some c ∨ u ≠ t ∧ (s.pcs u).conn = some c := by
  by_cases hut : u = t
  · left
    rw [hut, goto_same] at h
    exact ⟨hut, h⟩
  · right
    rw [goto_other hut] at h
    exact ⟨hut, h⟩

/-- `getconn` gives a connection that is not out. -/
theorem Accounts.give (h : Accounts s) (hpc : (s.pcs t).conn = none) {c : Conn} (hfirst : c.pool = 0)
    (hroom : s.used.length < poolMax) (hfresh : c ∉ s.used) :
    Accounts { s.goto t (.querying c) with used := s.used ++ [c] } where
  held u c' hu := by
    rcases conn_goto_eq_some hu with ⟨-, hc⟩ | ⟨-, hu⟩
    · cases hc
      exact List.mem_append_right _ (List.mem_singleton.mpr rfl)
    · exact List.mem_append_left _ (h.held u c' hu)
  alone u v c' hu hv := by
    rcases conn_goto_eq_some hu with ⟨hut, hc⟩ | ⟨-, hu'⟩
    · rcases conn_goto_eq_some hv with ⟨hvt, -⟩ | ⟨-, hv'⟩
      · rw [hut, hvt]
      · cases hc
        exact (hfresh (h.held v c hv')).elim
    · rcases conn_goto_eq_some hv with ⟨-, hc⟩ | ⟨-, hv'⟩
      · cases hc
        exact (hfresh (h.held u c hu')).elim
      · exact h.alone u v c' hu' hv'
  kept u c' hu := by
    rcases conn_goto_eq_some hu with ⟨-, hc⟩ | ⟨-, hu⟩
    · cases hc
      exact fun hlost => hfresh (h.lost c hlost)
    · exact h.kept u c' hu
  lost c' hc' := List.mem_append_left _ (h.lost c' hc')
  known c' hc' := by
    rcases List.mem_append.mp hc' with hc' | hc'
    · rcases h.known c' hc' with hmem | ⟨u, hu⟩
      · exact Or.inl hmem
      · have hut : u ≠ t := by
          rintro rfl
          rw [hpc] at hu
          cases hu
        refine Or.inr ⟨u, ?_⟩
        rw [show State.pcs _ u = s.pcs u from goto_other hut _ s]
        exact hu
    · obtain rfl := List.mem_singleton.mp hc'
      refine Or.inr ⟨t, ?_⟩
      rw [show State.pcs _ t = Pc.querying c' from goto_same t _ s]
      rfl
  first c' hc' := by
    rcases List.mem_append.mp hc' with hc' | hc'
    · exact h.first c' hc'
    · obtain rfl := List.mem_singleton.mp hc'
      exact hfirst
  nodup := by
    rw [List.nodup_append]
    refine ⟨h.nodup, List.nodup_singleton c, fun a ha b hb => ?_⟩
    obtain rfl := List.mem_singleton.mp hb
    rintro rfl
    exact hfresh ha
  lostNodup := h.lostNodup
  bound := by
    change (s.used ++ [c]).length ≤ poolMax
    rw [List.length_append, List.length_singleton]
    exact hroom

/-- `putconn` returns. -/
theorem Accounts.putBack (h : Accounts s) {c : Conn} (hpc : (s.pcs t).conn = some c) :
    Accounts { s.goto t .idle with used := s.used.filter fun c' => decide (c' ≠ c) } where
  held u c' hu := by
    rcases conn_goto_eq_some hu with ⟨-, hc⟩ | ⟨hut, hu'⟩
    · cases hc
    · refine List.mem_filter.mpr ⟨h.held u c' hu', decide_eq_true ?_⟩
      rintro rfl
      exact hut (h.alone u t c' hu' hpc)
  alone u v c' hu hv := by
    rcases conn_goto_eq_some hu with ⟨-, hc⟩ | ⟨-, hu⟩
    · cases hc
    · rcases conn_goto_eq_some hv with ⟨-, hc⟩ | ⟨-, hv⟩
      · cases hc
      · exact h.alone u v c' hu hv
  kept u c' hu := by
    rcases conn_goto_eq_some hu with ⟨-, hc⟩ | ⟨-, hu⟩
    · cases hc
    · exact h.kept u c' hu
  lost c' hc' := by
    refine List.mem_filter.mpr ⟨h.lost c' hc', decide_eq_true ?_⟩
    rintro rfl
    exact h.kept t c' hpc hc'
  known c' hc' := by
    obtain ⟨hmem, hne⟩ := List.mem_filter.mp hc'
    rcases h.known c' hmem with hlost | ⟨u, hu⟩
    · exact Or.inl hlost
    · have hut : u ≠ t := by
        rintro rfl
        rw [hpc] at hu
        exact of_decide_eq_true hne (Option.some.inj hu).symm
      refine Or.inr ⟨u, ?_⟩
      rw [show State.pcs _ u = s.pcs u from goto_other hut _ s]
      exact hu
  first c' hc' := h.first c' (List.mem_of_mem_filter hc')
  nodup := h.nodup.filter _
  lostNodup := h.lostNodup
  bound := Nat.le_trans (List.length_filter_le _ _) h.bound

/-- `putconn` raises, and the connection stays out. -/
theorem Accounts.lose (h : Accounts s) {c : Conn} (hpc : (s.pcs t).conn = some c) :
    Accounts { s.goto t .idle with lost := s.lost ++ [c] } where
  held u c' hu := by
    rcases conn_goto_eq_some hu with ⟨-, hc⟩ | ⟨-, hu⟩
    · cases hc
    · exact h.held u c' hu
  alone u v c' hu hv := by
    rcases conn_goto_eq_some hu with ⟨-, hc⟩ | ⟨-, hu⟩
    · cases hc
    · rcases conn_goto_eq_some hv with ⟨-, hc⟩ | ⟨-, hv⟩
      · cases hc
      · exact h.alone u v c' hu hv
  kept u c' hu hlost := by
    rcases conn_goto_eq_some hu with ⟨-, hc⟩ | ⟨hut, hu'⟩
    · cases hc
    · rcases List.mem_append.mp hlost with hlost | hlost
      · exact h.kept u c' hu' hlost
      · obtain rfl := List.mem_singleton.mp hlost
        exact hut (h.alone u t c' hu' hpc)
  lost c' hc' := by
    rcases List.mem_append.mp hc' with hc' | hc'
    · exact h.lost c' hc'
    · obtain rfl := List.mem_singleton.mp hc'
      exact h.held t c' hpc
  known c' hc' := by
    rcases h.known c' hc' with hlost | ⟨u, hu⟩
    · exact Or.inl (List.mem_append_left _ hlost)
    · by_cases hut : u = t
      · rw [hut, hpc] at hu
        cases hu
        exact Or.inl (List.mem_append_right _ (List.mem_singleton.mpr rfl))
      · refine Or.inr ⟨u, ?_⟩
        rw [show State.pcs _ u = s.pcs u from goto_other hut _ s]
        exact hu
  first := h.first
  nodup := h.nodup
  lostNodup := by
    change (s.lost ++ [c]).Nodup
    rw [List.nodup_append]
    refine ⟨h.lostNodup, List.nodup_singleton c, fun a ha b hb => ?_⟩
    obtain rfl := List.mem_singleton.mp hb
    rintro rfl
    exact h.kept t a hpc ha
  bound := h.bound

/-- All connections that are out belong to the one pool. -/
theorem Accounts.out_eq (h : Accounts s) : s.out 0 = s.used :=
  List.filter_eq_self.mpr fun c hc => decide_eq_true (h.first c hc)

theorem Accounts.step (h : Accounts s) (hlocking : Locking s) {e : Nat × Answer}
    (hstep : step s e = some s') : Accounts s' := by
  obtain ⟨t, a⟩ := e
  have hknows := hlocking.knows t
  have hquiet (pc : Pc) (hpc : pc.conn = (s.pcs t).conn) : Accounts (s.goto t pc) :=
    h.quiet (conn_goto hpc) rfl rfl
  unfold Connections.step at hstep
  dsimp only at hstep
  split at hstep <;> rename_i hpc <;> try rw [hpc] at hknows hquiet
  -- `idle`, `outer`
  · cases hstep
    exact hquiet .outer rfl
  · cases hstep
    apply hquiet
    split <;> rfl
  -- `waiting`
  · split at hstep
    · cases hstep
      exact (hquiet .inner rfl).quiet (fun _ => rfl) rfl rfl
    · cases hstep
  -- `inner`
  · cases hstep
    apply hquiet
    split <;> rfl
  -- `creating`
  · cases hstep
    exact (hquiet (.assigning s.created) rfl).quiet (fun _ => rfl) rfl rfl
  · cases hstep
    exact hquiet (.leaving true) rfl
  -- `assigning`
  · cases hstep
    exact (hquiet (.leaving false) rfl).quiet (fun _ => rfl) rfl rfl
  -- `leaving`
  · rename_i raised
    cases hstep
    refine (hquiet (if raised then .idle else .returning) ?_).quiet (fun _ => rfl) rfl rfl
    cases raised <;> rfl
  -- `returning`
  · split at hstep
    · cases hstep
      exact hquiet .broken rfl
    · rename_i p _
      cases hstep
      exact hquiet (.getting p) rfl
  -- `getting`
  · rename_i p n
    obtain ⟨-, rfl⟩ : s.pool = some 0 ∧ p = 0 := hknows
    split at hstep
    · rename_i hroom
      cases hstep
      rw [h.out_eq] at hroom
      exact h.give (by rw [hpc]; rfl) rfl hroom.1 hroom.2
    · cases hstep
  · split at hstep
    · cases hstep
    · cases hstep
      exact hquiet .idle rfl
  · split at hstep
    · cases hstep
      exact hquiet .idle rfl
    · cases hstep
  -- `querying`
  · rename_i c
    cases hstep
    exact hquiet (.putting c) rfl
  · rename_i c
    cases hstep
    exact hquiet (.putting c) rfl
  -- `putting`
  · cases hstep
    unfold State.putBack
    rw [hknows.1]
    dsimp only
    rw [if_pos hknows.2.symm]
    exact h.putBack (by rw [hpc]; rfl)
  · cases hstep
    exact h.lose (by rw [hpc]; rfl)
  · cases hstep

end Steps

/-! ## All orders of the steps -/

theorem invariants_of_run {es : List (Nat × Answer)} {s : State}
    (hrun : run step .initial es = some s) : Locking s ∧ Accounts s :=
  run_invariant (I := fun s => Locking s ∧ Accounts s) (K := fun _ _ => True)
    (fun _ _ _ h _ hstep => ⟨h.1.step hstep, h.2.step h.1 hstep⟩)
    ⟨locking_initial, accounts_initial⟩ (along_true _ _ _) hrun

/-- However the threads take turns, at most one pool is ever made, one thread at a time is
under the lock, and `getconn` and `putconn` are always called on that one pool. -/
theorem one_pool (es : List (Nat × Answer)) (s : State) (hrun : run step .initial es = some s) :
    s.created ≤ 1 ∧ (∀ t u, (s.pcs t).locked = true → (s.pcs u).locked = true → t = u) ∧
      (∀ t, s.pcs t ≠ .broken) ∧ (∀ t p, s.pcs t = .getting p → s.pool = some p) ∧
      ∀ t c, (s.pcs t).conn = some c → s.pool = some c.pool := by
  obtain ⟨h, -⟩ := invariants_of_run hrun
  refine ⟨?_, fun t u ht hu => ?_, fun t ht => ?_, fun t p ht => ?_, fun t c ht => ?_⟩
  · cases hpool : s.pool with
    | none =>
      rcases h.unmade hpool with h0 | ⟨h1, -⟩ <;> omega
    | some p => exact Nat.le_of_eq (h.made p hpool).2
  · have hlock := (h.knows t).owner ht
    rw [(h.knows u).owner hu] at hlock
    exact (Option.some.inj hlock).symm
  · have hknows := h.knows t
    rw [ht] at hknows
    exact hknows
  · have hknows := h.knows t
    rw [ht] at hknows
    obtain ⟨hpool, rfl⟩ := hknows
    exact hpool
  · have hknows := h.knows t
    cases hpc : s.pcs t <;> rw [hpc] at ht hknows <;> cases ht
    · obtain ⟨hpool, hc⟩ := hknows
      rw [hpool, hc]
    · obtain ⟨hpool, hc⟩ := hknows
      rw [hpool, hc]

/-- Two requests find no pool, and both wait for the lock. Each gets a connection. -/
def race : List (Nat × Answer) :=
  [(0, .goes), (1, .goes), (0, .goes), (1, .goes), (0, .goes), (0, .goes), (0, .goes), (0, .goes),
    (0, .goes), (1, .goes), (1, .goes), (0, .goes), (1, .goes), (1, .goes), (0, .gives 0),
    (1, .gives 1)]

theorem exists_race : ∃ s, run step .initial race = some s ∧
    (s.pcs 0).conn = some ⟨0, 0⟩ ∧ (s.pcs 1).conn = some ⟨0, 1⟩ := ⟨_, rfl, rfl, rfl⟩

theorem one_pool_sample : ∃ s, run step .initial race = some s ∧ s.created ≤ 1 ∧
    s.pool = some 0 := by
  obtain ⟨s, hs, h0, -⟩ := exists_race
  obtain ⟨hcreated, -, -, -, hpool⟩ := one_pool race s hs
  exact ⟨s, hs, hcreated, hpool 0 _ h0⟩

/-- However the threads take turns, and whatever raises: no two requests use one connection;
those that are out, ten at most, are exactly the ones in use and the ones that `putconn`
raised on, which stay out; and a request is refused a connection exactly when ten are. -/
theorem connections_accounted (es : List (Nat × Answer)) (s : State)
    (hrun : run step .initial es = some s) :
    (∀ t u c, (s.pcs t).conn = some c → (s.pcs u).conn = some c → t = u) ∧
      s.used.Nodup ∧ s.lost.Nodup ∧ s.used.length ≤ poolMax ∧
      (∀ c, c ∈ s.used ↔ c ∈ s.lost ∨ ∃ t, (s.pcs t).conn = some c) ∧
      (∀ t c, (s.pcs t).conn = some c → c ∉ s.lost) ∧
      ∀ t, (∃ s', step s (t, .refuses) = some s') ↔
        (∃ p, s.pcs t = .getting p) ∧ s.used.length = poolMax := by
  obtain ⟨hlocking, h⟩ := invariants_of_run hrun
  refine ⟨h.alone, h.nodup, h.lostNodup, h.bound, fun c => ⟨h.known c, ?_⟩, h.kept, fun t => ?_⟩
  · rintro (hc | ⟨t, ht⟩)
    · exact h.lost c hc
    · exact h.held t c ht
  · have hbound := h.bound
    constructor
    · rintro ⟨s', hstep⟩
      cases hpc : s.pcs t <;> simp only [step, hpc, reduceCtorEq] at hstep
      rename_i p
      have hknows := hlocking.knows t
      rw [hpc] at hknows
      obtain ⟨-, rfl⟩ := hknows
      rw [h.out_eq] at hstep
      split at hstep
      · cases hstep
      · exact ⟨⟨0, rfl⟩, by omega⟩
    · rintro ⟨⟨p, hpc⟩, hfull⟩
      have hknows := hlocking.knows t
      rw [hpc] at hknows
      obtain ⟨-, rfl⟩ := hknows
      simp only [step, hpc, h.out_eq, hfull, Nat.lt_irrefl, if_false]
      exact ⟨_, rfl⟩

theorem connections_accounted_sample : ∃ s, run step .initial race = some s ∧ s.used.Nodup ∧
    ⟨0, 0⟩ ∈ s.used ∧ ⟨0, 1⟩ ∈ s.used ∧ s.used.length ≤ poolMax := by
  obtain ⟨s, hs, h0, h1⟩ := exists_race
  obtain ⟨-, hnodup, -, hbound, hused, -⟩ := connections_accounted race s hs
  exact ⟨s, hs, hnodup, (hused _).mpr (Or.inr ⟨0, h0⟩), (hused _).mpr (Or.inr ⟨1, h1⟩), hbound⟩

end WebSpider.Dashboard.Connections
