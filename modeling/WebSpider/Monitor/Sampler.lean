import WebSpider.Lists.Grouped
import WebSpider.Text.Decimal
import Mathlib.Data.List.Dedup
import Mathlib.Data.List.Induction
import Mathlib.Algebra.Order.Group.Int
import Mathlib.Algebra.BigOperators.Group.List.Basic

/-!
# The sampler

`monitor.py`: a turn of the loop reads the counters from Redis, writes a row with the
deltas to the sample before, and prunes the table when the last prune was long ago. When
anything raises, the sample is forgotten, and the next row has no deltas: what a counter
grew by in between is missed. So are, with the deltas and what is missed, all
growths of a counter accounted for (`activity_accounts`), unless it is reset between two
samples.
-/

namespace WebSpider.Monitor

open Text WebSpider.Lists

/-! ## Samples -/

/-- A hash of counters; `hgetall` gives each field once. -/
abbrev Counts := List (Str × Int)

/-- `get(src, 0)` -/
def Counts.get (m : Counts) (src : Str) : Int := (m.lookup src).getD 0

/-- What the commands of `read_state` return; nil is none, and so is a summary of the
pending messages that is no dictionary. -/
structure Replies where
  produced : Option Int
  stored : Option Int
  rejected : Option Int
  pending : Option Int
  dlq : Int
  streamLen : Int
  producedBySource : Counts
  storedBySource : Counts
  rejectedBySource : Counts
  deriving DecidableEq

/-- The dictionary that `read_state` returns. -/
structure Sample where
  produced : Int
  stored : Int
  rejected : Int
  pending : Int
  dlq : Int
  streamLen : Int
  producedBySource : Counts
  storedBySource : Counts
  rejectedBySource : Counts
  deriving DecidableEq

/-- `read_state` -/
def readState (r : Replies) : Sample where
  produced := r.produced.getD 0
  stored := r.stored.getD 0
  rejected := r.rejected.getD 0
  pending := r.pending.getD 0
  dlq := r.dlq
  streamLen := r.streamLen
  producedBySource := r.producedBySource
  storedBySource := r.storedBySource
  rejectedBySource := r.rejectedBySource

/-- The deltas of a source; a row that follows no sample has none for `rejected`. -/
structure Delta where
  producedDelta : Int
  storedDelta : Int
  rejectedDelta : Option Int
  deriving DecidableEq

/-- The sources with a counter in either sample. -/
def sourcesOf (prev cur : Sample) : List Str :=
  ((prev.producedBySource ++ cur.producedBySource ++ prev.storedBySource ++ cur.storedBySource ++
    prev.rejectedBySource ++ cur.rejectedBySource).map Prod.fst).dedup

def delta (prev cur : Counts) (src : Str) : Int := max 0 (cur.get src - prev.get src)

/-- `compute_by_source` for a sample that has one before it. -/
def computeBySource (prev cur : Sample) : List (Str × Delta) :=
  (sourcesOf prev cur).map fun src => (src,
    ⟨delta prev.producedBySource cur.producedBySource src,
      delta prev.storedBySource cur.storedBySource src,
      some (delta prev.rejectedBySource cur.rejectedBySource src)⟩)

/-- The dictionary of `snapshot_once` for a sample that has none before it. -/
def firstBySource (cur : Sample) : List (Str × Delta) :=
  ((cur.producedBySource ++ cur.storedBySource).map Prod.fst).dedup.map fun src =>
    (src, ⟨0, 0, none⟩)

/-! ## The loop -/

/-- A row of `pipeline_snapshots`. Times are microseconds. -/
structure Row where
  takenAt : Int
  produced : Int
  stored : Int
  rejected : Int
  pending : Int
  dlq : Int
  streamLen : Int
  bySource : List (Str × Delta)
  deriving DecidableEq

def rowOf (takenAt : Int) (prev : Option Sample) (cur : Sample) : Row where
  takenAt := takenAt
  produced := cur.produced
  stored := cur.stored
  rejected := cur.rejected
  pending := cur.pending
  dlq := cur.dlq
  streamLen := cur.streamLen
  bySource := match prev with
    | some prev => computeBySource prev cur
    | none => firstBySource cur

/-- How a transaction ends. A commit may raise although it has taken effect. -/
inductive Outcome where
  | fails
  | keeps
  | returns
  deriving DecidableEq

/-- What a turn of the loop meets: the replies of Redis, if no command raises, the two
transactions with their `now()`, and `time.time()` before and after the second one. -/
structure Turn where
  replies : Option Replies
  insert : Outcome
  insertedAt : Int
  checkedAt : Int
  prune : Outcome
  pruneNow : Int
  prunedAt : Int
  deriving DecidableEq

inductive Event where
  | turn (t : Turn)
  /-- The process is started again. -/
  | restart
  deriving DecidableEq

/-- A sample that was written, with the one before it, if there was one. -/
structure Written where
  prev : Option Sample
  sample : Sample
  row : Row
  deriving DecidableEq

structure State where
  prev : Option Sample
  lastPrune : Int
  table : List Row
  /-- History: what was ever written. -/
  written : List Written

def State.initial : State := ⟨none, 0, [], []⟩

def hour : Int := 3600 * 10 ^ 6

/-- `MONITOR_RETENTION_DAYS` -/
structure Config where
  retentionDays : Int

def Config.retention (cfg : Config) : Int := cfg.retentionDays * (24 * hour)

/-- The rows a prune leaves. -/
def Config.kept (cfg : Config) (now : Int) (table : List Row) : List Row :=
  table.filter fun row => decide (now - cfg.retention ≤ row.takenAt)

/-- `snapshot_once` writes a row. -/
def State.insert (s : State) (t : Turn) (cur : Sample) : State :=
  { s with
    prev := some cur
    table := s.table ++ [rowOf t.insertedAt s.prev cur]
    written := s.written ++ [⟨s.prev, cur, rowOf t.insertedAt s.prev cur⟩] }

def State.forget (s : State) : State := { s with prev := none }

/-- A prune is due. -/
def State.due (s : State) (t : Turn) : Bool := decide (6 * hour < t.checkedAt - s.lastPrune)

/-- What follows when `snapshot_once` has returned. -/
def State.pruneOld (cfg : Config) (s : State) (t : Turn) : State :=
  if s.due t then
    match t.prune with
    | .fails => s.forget
    | .keeps => { s.forget with table := cfg.kept t.pruneNow s.table }
    | .returns => { s with table := cfg.kept t.pruneNow s.table, lastPrune := t.prunedAt }
  else s

/-- A turn of the loop. -/
def State.turn (cfg : Config) (s : State) (t : Turn) : State :=
  match t.replies with
  | none => s.forget
  | some replies =>
    match t.insert with
    | .fails => s.forget
    | .keeps => (s.insert t (readState replies)).forget
    | .returns => (s.insert t (readState replies)).pruneOld cfg t

def step (cfg : Config) (s : State) : Event → State
  | .turn t => s.turn cfg t
  | .restart => { s with prev := none, lastPrune := 0 }

/-- The state after the events. -/
def after (cfg : Config) (es : List Event) : State := es.foldl (step cfg) .initial

theorem after_concat (cfg : Config) (es : List Event) (e : Event) :
    after cfg (es ++ [e]) = step cfg (after cfg es) e := by
  simp [after]

/-! ## What a turn does -/

@[simp] theorem pruneOld_written (cfg : Config) (s : State) (t : Turn) :
    (s.pruneOld cfg t).written = s.written := by
  unfold State.pruneOld
  split
  · split <;> rfl
  · rfl

theorem pruneOld_prev (cfg : Config) (s : State) (t : Turn) :
    (s.pruneOld cfg t).prev = s.prev ∨ (s.pruneOld cfg t).prev = none := by
  unfold State.pruneOld
  split
  · split
    · exact Or.inr rfl
    · exact Or.inr rfl
    · exact Or.inl rfl
  · exact Or.inl rfl

/-- A step writes at most one row, and what it remembers is what it has written last. -/
theorem step_written (cfg : Config) (s : State) (e : Event) :
    ((step cfg s e).written = s.written ∧ (step cfg s e).prev = none) ∨
      ∃ cur row, (step cfg s e).written = s.written ++ [⟨s.prev, cur, row⟩] ∧
        (∃ takenAt, row = rowOf takenAt s.prev cur) ∧
        ((step cfg s e).prev = some cur ∨ (step cfg s e).prev = none) := by
  cases e with
  | restart => exact Or.inl ⟨rfl, rfl⟩
  | turn t =>
    change ((s.turn cfg t).written = s.written ∧ (s.turn cfg t).prev = none) ∨ ∃ cur row,
      (s.turn cfg t).written = s.written ++ [⟨s.prev, cur, row⟩] ∧
        (∃ takenAt, row = rowOf takenAt s.prev cur) ∧
        ((s.turn cfg t).prev = some cur ∨ (s.turn cfg t).prev = none)
    unfold State.turn
    split
    · exact Or.inl ⟨rfl, rfl⟩
    · rename_i replies _
      split
      · exact Or.inl ⟨rfl, rfl⟩
      · exact Or.inr ⟨readState replies, _, rfl, ⟨t.insertedAt, rfl⟩, Or.inr rfl⟩
      · refine Or.inr ⟨readState replies, _, pruneOld_written _ _ _, ⟨t.insertedAt, rfl⟩, ?_⟩
        exact pruneOld_prev cfg _ t

/-! ## Accounting -/

/-- The counters that are kept for each source. -/
inductive Counter where
  | produced
  | stored
  | rejected
  deriving DecidableEq

def Sample.counts : Counter → Sample → Counts
  | .produced => Sample.producedBySource
  | .stored => Sample.storedBySource
  | .rejected => Sample.rejectedBySource

def Delta.value : Counter → Delta → Int
  | .produced => Delta.producedDelta
  | .stored => Delta.storedDelta
  | .rejected => fun d => d.rejectedDelta.getD 0

/-- The delta of a source in a row; a source that is not there has none. -/
def Row.delta (k : Counter) (row : Row) (src : Str) : Int :=
  ((row.bySource.lookup src).map (Delta.value k)).getD 0

/-- The value of a counter of a source. -/
def Written.count (k : Counter) (src : Str) (w : Written) : Int := (w.sample.counts k).get src

/-- What the rows say a source has produced, stored or rejected. -/
def activity (k : Counter) (src : Str) (ws : List Written) : Int :=
  (ws.map fun w => w.row.delta k src).sum

/-- What a counter grew by before samples that follow none. -/
def missed (k : Counter) (src : Str) : List Written → Int
  | a :: b :: ws =>
    (if b.prev = none then b.count k src - a.count k src else 0) + missed k src (b :: ws)
  | _ => 0

/-- What a counter grew by from the first sample to the last. -/
def growth (k : Counter) (src : Str) : List Written → Int
  | a :: b :: ws => (b.count k src - a.count k src) + growth k src (b :: ws)
  | _ => 0

/-- The counter is not reset between a sample and the one that follows it. -/
def Steady (k : Counter) (src : Str) : List Written → Prop
  | a :: b :: ws => (b.prev ≠ none → a.count k src ≤ b.count k src) ∧ Steady k src (b :: ws)
  | _ => True

/-- The rows are those of the samples, and a sample follows the one written before it or
none. -/
def Linked : Option Written → List Written → Prop
  | _, [] => True
  | before, w :: ws =>
    (∃ takenAt, w.row = rowOf takenAt w.prev w.sample) ∧
      (∀ p, w.prev = some p → ∃ b, before = some b ∧ b.sample = p) ∧ Linked (some w) ws

/-- The event is a turn in which nothing raises. -/
def Succeeds (s : State) : Event → Prop
  | .turn t => t.replies ≠ none ∧ t.insert = .returns ∧ (s.due t → t.prune = .returns)
  | .restart => False

/-- A run without restarts in which nothing raises. -/
def Unbroken (cfg : Config) (es : List Event) : Prop :=
  ∀ bs e cs, es = bs ++ e :: cs → Succeeds (after cfg bs) e

theorem get_eq_zero {m : Counts} {src : Str} (h : src ∉ m.map Prod.fst) : m.get src = 0 := by
  have hnone : m.lookup src = none := by
    rw [List.lookup_eq_none_iff]
    intro x hx
    apply bne_iff_ne.mpr
    intro heq
    rw [heq] at h
    exact h (List.mem_map_of_mem hx)
  rw [Counts.get, hnone]
  rfl

/-- A source that no counter of two samples knows has none. -/
theorem get_counts_eq_zero {prev cur : Sample} {src : Str} (h : src ∉ sourcesOf prev cur)
    (k : Counter) : (prev.counts k).get src = 0 ∧ (cur.counts k).get src = 0 := by
  simp only [sourcesOf, List.mem_dedup, List.map_append, List.mem_append, not_or] at h
  obtain ⟨⟨⟨⟨⟨hpp, hcp⟩, hps⟩, hcs⟩, hpr⟩, hcr⟩ := h
  cases k with
  | produced => exact ⟨get_eq_zero hpp, get_eq_zero hcp⟩
  | stored => exact ⟨get_eq_zero hps, get_eq_zero hcs⟩
  | rejected => exact ⟨get_eq_zero hpr, get_eq_zero hcr⟩

/-- A row that follows a sample has the growth since then, unless it is negative. -/
theorem delta_some (k : Counter) (takenAt : Int) (prev cur : Sample) (src : Str) :
    (rowOf takenAt (some prev) cur).delta k src = delta (prev.counts k) (cur.counts k) src := by
  unfold Row.delta rowOf computeBySource
  rw [lookup_map]
  split
  · cases k <;> rfl
  · rename_i hsrc
    obtain ⟨hprev, hcur⟩ := get_counts_eq_zero hsrc k
    rw [delta, hprev, hcur]
    rfl

theorem delta_none (k : Counter) (takenAt : Int) (cur : Sample) (src : Str) :
    (rowOf takenAt none cur).delta k src = 0 := by
  unfold Row.delta rowOf firstBySource
  rw [lookup_map]
  split
  · cases k <;> rfl
  · rfl

/-- The last element of a list that something comes before. -/
def lastOr (before : Option Written) (ws : List Written) : Option Written := ws.getLast?.or before

theorem linked_concat {before : Option Written} {ws : List Written} {w : Written}
    (h : Linked before ws) (hrow : ∃ takenAt, w.row = rowOf takenAt w.prev w.sample)
    (hprev : ∀ p, w.prev = some p → ∃ b, lastOr before ws = some b ∧ b.sample = p) :
    Linked before (ws ++ [w]) := by
  induction ws generalizing before with
  | nil => exact ⟨hrow, hprev, trivial⟩
  | cons a ws ih =>
    obtain ⟨harow, haprev, hrest⟩ := h
    refine ⟨harow, haprev, ih hrest fun p hp => ?_⟩
    obtain ⟨b, hb, hsample⟩ := hprev p hp
    refine ⟨b, ?_, hsample⟩
    rw [← hb]
    cases ws with
    | nil => rfl
    | cons c ws =>
      have hlast := List.getLast?_eq_some_getLast (List.cons_ne_nil c ws)
      rw [lastOr, lastOr, List.getLast?_cons_cons, hlast]
      rfl

/-- What is written is linked, and what is remembered was written last. -/
structure Chained (s : State) : Prop where
  linked : Linked none s.written
  last : ∀ p, s.prev = some p → ∃ b, s.written.getLast? = some b ∧ b.sample = p

theorem Chained.step {cfg : Config} {s : State} (h : Chained s) (e : Event) :
    Chained (step cfg s e) := by
  rcases step_written cfg s e with ⟨hwritten, hnone⟩ | ⟨cur, row, hwritten, hrow, hprev⟩
  · refine ⟨?_, fun p hp => ?_⟩
    · rw [hwritten]
      exact h.linked
    · rw [hnone] at hp
      cases hp
  · constructor
    · rw [hwritten]
      refine linked_concat h.linked hrow fun p hp => ?_
      obtain ⟨b, hb, hsample⟩ := h.last p hp
      refine ⟨b, ?_, hsample⟩
      rw [lastOr, hb]
      rfl
    · intro p hp
      rw [hwritten, List.getLast?_concat]
      refine ⟨_, rfl, ?_⟩
      rcases hprev with hprev | hprev
      · rw [hprev] at hp
        exact Option.some.inj hp
      · rw [hprev] at hp
        cases hp

theorem chained (cfg : Config) (es : List Event) : Chained (after cfg es) := by
  induction es using List.reverseRecOn with
  | nil =>
    refine ⟨trivial, fun p hp => ?_⟩
    cases hp
  | append_singleton es e ih =>
    rw [after_concat]
    exact ih.step e

theorem activity_cons (k : Counter) (src : Str) (w : Written) (ws : List Written) :
    activity k src (w :: ws) = w.row.delta k src + activity k src ws := by
  rw [activity, List.map_cons, List.sum_cons]
  rfl

/-- The deltas of the samples after one of them account for what is not missed. -/
theorem linked_accounts (k : Counter) (src : Str) {a : Written} {ws : List Written}
    (h : Linked (some a) ws) :
    growth k src (a :: ws) ≤ activity k src ws + missed k src (a :: ws) ∧
      (activity k src ws + missed k src (a :: ws) = growth k src (a :: ws) ↔ Steady k src (a :: ws)) := by
  induction ws generalizing a with
  | nil => exact ⟨Int.le_refl _, iff_of_true rfl trivial⟩
  | cons b ws ih =>
    obtain ⟨⟨takenAt, hrow⟩, hprev, hrest⟩ := h
    obtain ⟨hle, hiff⟩ := ih hrest
    rw [activity_cons, growth, missed, Steady]
    cases hb : b.prev with
    | none =>
      have hzero : b.row.delta k src = 0 := by
        rw [hrow, hb]
        exact delta_none k takenAt b.sample src
      rw [if_pos rfl, hzero]
      refine ⟨by omega, ?_⟩
      rw [← hiff]
      constructor
      · exact fun h => ⟨fun hne => absurd rfl hne, by omega⟩
      · rintro ⟨-, h⟩
        omega
    | some p =>
      obtain ⟨a', ha', hsample⟩ := hprev p hb
      obtain rfl := Option.some.inj ha'
      have hdelta : b.row.delta k src = max 0 (b.count k src - a.count k src) := by
        rw [hrow, hb, delta_some, ← hsample]
        rfl
      rw [if_neg (by simp), hdelta]
      refine ⟨by omega, ?_⟩
      rw [← hiff]
      constructor
      · intro h
        refine ⟨fun _ => ?_, ?_⟩
        · omega
        · omega
      · rintro ⟨hmono, h⟩
        have := hmono (by simp)
        omega

theorem missed_eq_zero {k : Counter} {src : Str} {a : Written} {ws : List Written}
    (h : ∀ w ∈ ws, w.prev ≠ none) : missed k src (a :: ws) = 0 := by
  induction ws generalizing a with
  | nil => rfl
  | cons b ws ih =>
    rw [missed, if_neg (h b List.mem_cons_self), Int.zero_add]
    exact ih fun w hw => h w (List.mem_cons_of_mem _ hw)

theorem succeeds_prev {cfg : Config} {s : State} {e : Event} (h : Succeeds s e) :
    (step cfg s e).prev ≠ none := by
  cases e with
  | restart => cases h
  | turn t =>
    obtain ⟨hreplies, hinsert, hprune⟩ := h
    obtain ⟨replies, hreplies⟩ := Option.ne_none_iff_exists'.mp hreplies
    have hdue : (s.insert t (readState replies)).due t = s.due t := rfl
    rw [step, State.turn, hreplies, hinsert]
    change ((s.insert t (readState replies)).pruneOld cfg t).prev ≠ none
    rw [State.pruneOld, hdue]
    split
    · rw [hprune ‹_›]
      simp [State.insert]
    · simp [State.insert]

/-- While nothing raises, only the first sample follows none. -/
theorem unbroken_prev {cfg : Config} {es : List Event} (h : Unbroken cfg es) :
    (es ≠ [] → (after cfg es).prev ≠ none) ∧
      ∀ w ∈ (after cfg es).written.tail, w.prev ≠ none := by
  induction es using List.reverseRecOn with
  | nil =>
    refine ⟨fun hne => absurd rfl hne, fun w hw => ?_⟩
    cases hw
  | append_singleton es e ih =>
    have hrest : Unbroken cfg es := by
      intro bs e' cs hes
      apply h bs e' (cs ++ [e])
      rw [hes, List.append_assoc]
      rfl
    obtain ⟨hprev, htail⟩ := ih hrest
    have hlast := h es e [] rfl
    rw [after_concat]
    refine ⟨fun _ => succeeds_prev hlast, ?_⟩
    rcases step_written cfg (after cfg es) e with ⟨hwritten, -⟩ | ⟨cur, row, hwritten, -, -⟩
    · rw [hwritten]
      exact htail
    · rw [hwritten]
      intro w hw
      cases hws : (after cfg es).written with
      | nil =>
        rw [hws] at hw
        cases hw
      | cons a ws =>
        rw [hws, List.cons_append, List.tail_cons, List.mem_append, List.mem_singleton] at hw
        rw [hws] at htail
        rcases hw with hw | rfl
        · exact htail w hw
        · apply hprev
          rintro rfl
          cases hws

/-- Over every run of the sampler, with any failures and restarts, what each counter of a
source grew by from the first sample to the last is at most what the rows say and what
was missed together; it is exactly that when the counter is never reset between a sample
and the one that follows it; and nothing is missed while nothing raises. -/
theorem activity_accounts (cfg : Config) (es : List Event) (k : Counter) (src : Str) :
    growth k src (after cfg es).written ≤
      activity k src (after cfg es).written + missed k src (after cfg es).written ∧
    (activity k src (after cfg es).written + missed k src (after cfg es).written =
      growth k src (after cfg es).written ↔ Steady k src (after cfg es).written) ∧
    (Unbroken cfg es → missed k src (after cfg es).written = 0) := by
  have hlinked := (chained cfg es).linked
  cases hws : (after cfg es).written with
  | nil => exact ⟨Int.le_refl _, iff_of_true rfl trivial, fun _ => rfl⟩
  | cons a ws =>
    rw [hws] at hlinked
    obtain ⟨⟨takenAt, hrow⟩, hprev, hrest⟩ := hlinked
    have hfirst : a.prev = none := by
      rw [Option.eq_none_iff_forall_ne_some]
      intro p hp
      obtain ⟨b, hb, -⟩ := hprev p hp
      cases hb
    have hzero : a.row.delta k src = 0 := by
      rw [hrow, hfirst]
      exact delta_none k takenAt a.sample src
    obtain ⟨hle, hiff⟩ := linked_accounts k src hrest
    rw [activity_cons, hzero, Int.zero_add]
    refine ⟨hle, hiff, fun h => missed_eq_zero ?_⟩
    have htail := (unbroken_prev h).2
    rwa [hws] at htail

end WebSpider.Monitor
