import WebSpider.Monitor.Sampler

/-!
# The retention of the rows

The sampler prunes the table at the first turn and then when the last prune was more than
six hours ago. No row within the retention is ever lost, and after a turn in which
nothing raises none is older than the retention and the six hours, and the time a prune
takes (`rows_retained`). So the activity chart shows every row that was written in its window
when the window is not longer than the retention.
-/

namespace WebSpider.Monitor

open Text

/-! ## The clock -/

/-- The time after an event. -/
def tick (now : Int) : Event → Int
  | .turn t => t.prunedAt
  | .restart => now

def clock (now : Int) (es : List Event) : Int := es.foldl tick now

/-- The times of an event come after the time before it, in their order, and a prune takes
at most `d`. -/
def Timed (d now : Int) : Event → Prop
  | .turn t => now ≤ t.insertedAt ∧ t.insertedAt ≤ t.checkedAt ∧ t.checkedAt ≤ t.pruneNow ∧
      t.pruneNow ≤ t.prunedAt ∧ t.prunedAt - t.pruneNow ≤ d
  | .restart => True

def WellTimed (d : Int) : Int → List Event → Prop
  | _, [] => True
  | now, e :: es => Timed d now e ∧ WellTimed d (tick now e) es

instance (d now : Int) : (e : Event) → Decidable (Timed d now e)
  | .turn _ => inferInstanceAs (Decidable (_ ∧ _))
  | .restart => inferInstanceAs (Decidable True)

instance decidableWellTimed (d : Int) : (now : Int) → (es : List Event) → Decidable (WellTimed d now es)
  | _, [] => inferInstanceAs (Decidable True)
  | now, e :: es =>
    have := decidableWellTimed d (tick now e) es
    inferInstanceAs (Decidable (Timed d now e ∧ WellTimed d (tick now e) es))

/-- The rows taken from a time on. -/
def rowsFrom (start : Int) (rows : List Row) : List Row :=
  rows.filter fun row => decide (start ≤ row.takenAt)

/-- The rows that were ever written. -/
def State.rows (s : State) : List Row := s.written.map Written.row

/-- What holds of the table when the clock is at `now`. -/
structure Kept (cfg : Config) (d now : Int) (s : State) : Prop where
  pruned : s.lastPrune ≤ now
  recent : ∀ start, now - cfg.retention ≤ start → rowsFrom start s.table = rowsFrom start s.rows
  young : ∀ row ∈ s.table, s.lastPrune - d - cfg.retention ≤ row.takenAt
  taken : ∀ row ∈ s.rows, 0 ≤ row.takenAt ∧ row.takenAt ≤ now
  ordered : s.rows.Pairwise fun row row' => row.takenAt ≤ row'.takenAt
  written : s.table.Sublist s.rows

/-! ## A turn -/

theorem rowsFrom_append (start : Int) (rows rows' : List Row) :
    rowsFrom start (rows ++ rows') = rowsFrom start rows ++ rowsFrom start rows' :=
  List.filter_append _ _

/-- A prune keeps what was taken within the retention. -/
theorem rowsFrom_kept {cfg : Config} {now start : Int} (h : now - cfg.retention ≤ start)
    (rows : List Row) : rowsFrom start (cfg.kept now rows) = rowsFrom start rows := by
  unfold rowsFrom Config.kept
  rw [List.filter_filter]
  apply List.filter_congr
  intro row _
  rw [Bool.and_eq_left_iff_imp]
  intro hstart
  rw [decide_eq_true_eq] at hstart ⊢
  omega

section Steps

variable {cfg : Config} {d now : Int} {s : State}

theorem Kept.later (h : Kept cfg d now s) {later : Int} (hle : now ≤ later) :
    Kept cfg d later s where
  pruned := h.pruned.trans hle
  recent start hstart := h.recent start (by omega)
  young := h.young
  taken row hrow := ⟨(h.taken row hrow).1, (h.taken row hrow).2.trans hle⟩
  ordered := h.ordered
  written := h.written

theorem Kept.forget (h : Kept cfg d now s) : Kept cfg d now s.forget :=
  ⟨h.pruned, h.recent, h.young, h.taken, h.ordered, h.written⟩

theorem insert_rows (s : State) (t : Turn) (cur : Sample) :
    (s.insert t cur).rows = s.rows ++ [rowOf t.insertedAt s.prev cur] := by
  simp [State.rows, State.insert]

theorem Kept.insert (h : Kept cfg d now s) (hd : 0 ≤ d) (hretention : 0 ≤ cfg.retention) {t : Turn}
    (hnow : 0 ≤ now) (hle : now ≤ t.insertedAt) (cur : Sample) :
    Kept cfg d t.insertedAt (s.insert t cur) where
  pruned := h.pruned.trans hle
  recent start hstart := by
    rw [insert_rows, rowsFrom_append, ← h.recent start (by omega)]
    exact rowsFrom_append start s.table _
  young row hrow := by
    rcases List.mem_append.mp hrow with hrow | hrow
    · exact h.young row hrow
    · obtain rfl := List.mem_singleton.mp hrow
      have := h.pruned
      change s.lastPrune - d - cfg.retention ≤ t.insertedAt
      omega
  taken row hrow := by
    rw [insert_rows] at hrow
    rcases List.mem_append.mp hrow with hrow | hrow
    · exact ⟨(h.taken row hrow).1, (h.taken row hrow).2.trans hle⟩
    · obtain rfl := List.mem_singleton.mp hrow
      exact ⟨hnow.trans hle, Int.le_refl _⟩
  ordered := by
    rw [insert_rows, List.pairwise_append]
    refine ⟨h.ordered, List.pairwise_singleton _ _, fun row hrow row' hrow' => ?_⟩
    obtain rfl := List.mem_singleton.mp hrow'
    exact (h.taken row hrow).2.trans hle
  written := by
    rw [insert_rows]
    exact h.written.append (List.Sublist.refl _)

/-- A prune at a time that is not before now. -/
theorem Kept.prune (h : Kept cfg d now s) {pruneNow : Int} (hle : now ≤ pruneNow) :
    Kept cfg d pruneNow { s with table := cfg.kept pruneNow s.table } where
  pruned := h.pruned.trans hle
  recent start hstart := by
    change rowsFrom start (cfg.kept pruneNow s.table) = _
    rw [rowsFrom_kept hstart, h.recent start (by omega)]
    rfl
  young row hrow := h.young row (List.mem_of_mem_filter hrow)
  taken row hrow := ⟨(h.taken row hrow).1, (h.taken row hrow).2.trans hle⟩
  ordered := h.ordered
  written := List.filter_sublist.trans h.written

theorem Kept.pruneOld (h : Kept cfg d now s) {t : Turn} (hnow : now ≤ t.checkedAt)
    (hchecked : t.checkedAt ≤ t.pruneNow) (hpruned : t.pruneNow ≤ t.prunedAt)
    (htime : t.prunedAt - t.pruneNow ≤ d) : Kept cfg d t.prunedAt (s.pruneOld cfg t) := by
  have hkept := (h.prune (hnow.trans hchecked)).later hpruned
  unfold State.pruneOld
  split
  · split
    · exact (h.later (by omega)).forget
    · exact hkept.forget
    · refine ⟨Int.le_refl _, hkept.recent, fun row hrow => ?_, hkept.taken, hkept.ordered,
        hkept.written⟩
      have hrecent := of_decide_eq_true (List.mem_filter.mp hrow).2
      change t.prunedAt - d - cfg.retention ≤ row.takenAt
      omega
  · exact h.later (by omega)

theorem Kept.step (h : Kept cfg d now s) (hd : 0 ≤ d) (hretention : 0 ≤ cfg.retention)
    (hnow : 0 ≤ now) {e : Event} (htimed : Timed d now e) :
    Kept cfg d (tick now e) (step cfg s e) := by
  cases e with
  | restart =>
    refine ⟨hnow, h.recent, fun row hrow => ?_, h.taken, h.ordered, h.written⟩
    have := (h.taken row (h.written.subset hrow)).1
    change 0 - d - cfg.retention ≤ row.takenAt
    omega
  | turn t =>
    obtain ⟨hinserted, hchecked, hprune, hpruned, htime⟩ := htimed
    change Kept cfg d t.prunedAt (s.turn cfg t)
    unfold State.turn
    split
    · exact (h.later (by omega)).forget
    · split
      · exact (h.later (by omega)).forget
      · exact ((h.insert hd hretention hnow hinserted _).later (by omega)).forget
      · exact (h.insert hd hretention hnow hinserted _).pruneOld hchecked hprune hpruned htime

end Steps

/-! ## A run -/

theorem tick_ge {d now : Int} {e : Event} (h : Timed d now e) : now ≤ tick now e := by
  cases e with
  | restart => exact Int.le_refl _
  | turn t =>
    obtain ⟨hinserted, hchecked, hprune, hpruned, -⟩ := h
    change now ≤ t.prunedAt
    omega

theorem kept_foldl {cfg : Config} {d : Int} (hd : 0 ≤ d) (hretention : 0 ≤ cfg.retention)
    {now : Int} (hnow : 0 ≤ now) {s : State} (h : Kept cfg d now s) {es : List Event}
    (hes : WellTimed d now es) : Kept cfg d (clock now es) (es.foldl (step cfg) s) := by
  induction es generalizing now s with
  | nil => exact h
  | cons e es ih =>
    exact ih (hnow.trans (tick_ge hes.1)) (h.step hd hretention hnow hes.1) hes.2

theorem kept_after {cfg : Config} {d start : Int} (hd : 0 ≤ d) (hretention : 0 ≤ cfg.retention)
    (hstart : 0 ≤ start) {es : List Event} (hes : WellTimed d start es) :
    Kept cfg d (clock start es) (after cfg es) := by
  refine kept_foldl hd hretention hstart ?_ hes
  refine ⟨hstart, fun _ _ => rfl, ?_, ?_, List.Pairwise.nil, List.Sublist.refl _⟩
  · intro row hrow
    cases hrow
  · intro row hrow
    cases hrow

theorem wellTimed_append {d now : Int} {es es' : List Event} :
    WellTimed d now (es ++ es') ↔ WellTimed d now es ∧ WellTimed d (clock now es) es' := by
  induction es generalizing now with
  | nil => exact ⟨fun h => ⟨trivial, h⟩, fun h => h.2⟩
  | cons e es ih =>
    rw [List.cons_append, WellTimed, WellTimed, ih, and_assoc]
    rfl

/-- In every run, whatever fails and however often the process is started again, the table
has all rows taken within the retention. When the last event was a turn in which nothing
raised, it has no row that was older than the retention, six hours and the duration of a
prune when that turn looked at the clock. -/
theorem rows_retained (cfg : Config) (d start : Int) (es : List Event) (hd : 0 ≤ d)
    (hretention : 0 ≤ cfg.retention) (hstart : 0 ≤ start) (hes : WellTimed d start es) :
    (∀ x, clock start es - cfg.retention ≤ x →
      rowsFrom x (after cfg es).table = rowsFrom x (after cfg es).rows) ∧
    ∀ bs t, es = bs ++ [.turn t] → Succeeds (after cfg bs) (.turn t) →
      ∀ row ∈ (after cfg es).table,
        t.checkedAt - (cfg.retention + 6 * hour + d) ≤ row.takenAt := by
  have hkept := kept_after hd hretention hstart hes
  refine ⟨hkept.recent, ?_⟩
  rintro bs t rfl ⟨hreplies, hinsert, hprune⟩ row hrow
  obtain ⟨replies, hreplies⟩ := Option.ne_none_iff_exists'.mp hreplies
  obtain ⟨-, -, hchecked, hpruned, -⟩ := (wellTimed_append.mp hes).2.1
  have hyoung := hkept.young row hrow
  -- Either the turn has pruned the table, or the last prune was not long ago.
  have hlast : t.checkedAt - 6 * hour ≤ (after cfg (bs ++ [.turn t])).lastPrune := by
    rw [after_concat, step, State.turn, hreplies, hinsert]
    change _ ≤ (((after cfg bs).insert t (readState replies)).pruneOld cfg t).lastPrune
    have hdue : ((after cfg bs).insert t (readState replies)).due t = (after cfg bs).due t := rfl
    rw [State.pruneOld, hdue]
    split
    · rw [hprune ‹_›]
      change t.checkedAt - 6 * hour ≤ t.prunedAt
      unfold hour
      omega
    · rename_i hnot
      simp only [State.due, decide_eq_true_eq] at hnot
      change t.checkedAt - 6 * hour ≤ (after cfg bs).lastPrune
      omega
  omega

/-- A source has produced `n` articles. -/
def sampleReplies (n : Int) : Replies :=
  ⟨some n, none, none, some 0, 0, n, [(lit "devto", n)], [], []⟩

/-- A turn in which nothing raises. -/
def sampleTurn (n time : Int) : Turn where
  replies := some (sampleReplies n)
  insert := .returns
  insertedAt := time
  checkedAt := time + 1
  prune := .returns
  pruneNow := time + 2
  prunedAt := time + 3

def sampleConfig : Config := ⟨7⟩

/-- Two samples, eight days apart. -/
def distantTurns : List Event :=
  [.turn (sampleTurn 3 (8 * hour)), .turn (sampleTurn 5 (200 * hour))]

/-- The second turn prunes the row of the first one. -/
theorem rows_retained_sample :
    (after sampleConfig distantTurns).rows.map Row.takenAt = [8 * hour, 200 * hour] ∧
    200 * hour ∈ (after sampleConfig distantTurns).table.map Row.takenAt ∧
    8 * hour ∉ (after sampleConfig distantTurns).table.map Row.takenAt := by
  have hes : WellTimed 1 0 distantTurns := by decide +kernel
  obtain ⟨hall, hold⟩ := rows_retained sampleConfig 1 0 _ (by decide) (by decide) (by decide) hes
  have hrows : (after sampleConfig distantTurns).rows.map Row.takenAt = [8 * hour, 200 * hour] := by
    decide +kernel
  refine ⟨hrows, ?_, fun hmem => ?_⟩
  · have hlast : 200 * hour ∈ (after sampleConfig distantTurns).rows.map Row.takenAt := by
      rw [hrows]
      decide
    obtain ⟨row, hrow, htime⟩ := List.mem_map.mp hlast
    have hfrom : row ∈ rowsFrom (200 * hour) (after sampleConfig distantTurns).rows :=
      List.mem_filter.mpr ⟨hrow, decide_eq_true htime.ge⟩
    rw [← hall (200 * hour) (by decide)] at hfrom
    exact List.mem_map.mpr ⟨row, List.mem_of_mem_filter hfrom, htime⟩
  · obtain ⟨row, hrow, htime⟩ := List.mem_map.mp hmem
    have hle := hold [.turn (sampleTurn 3 (8 * hour))] (sampleTurn 5 (200 * hour)) rfl
      ⟨by simp [sampleTurn], rfl, fun _ => rfl⟩ row hrow
    rw [htime] at hle
    exact absurd hle (by decide)

end WebSpider.Monitor
