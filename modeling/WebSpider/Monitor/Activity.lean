import WebSpider.Monitor.Retention

/-!
# The activity chart

`health` selects the rows of a window, and the dashboard adds up their deltas in buckets
of five minutes, one line for each source. What a line adds up to is what the rows of the
window say, and when the sampler was not interrupted in it, it is what the counter in
Redis grew by since the last sample before the window (`chart_accounts`).
-/

namespace WebSpider.Monitor

open Text WebSpider.Lists

/-! ## health -/

/-- The start of the window of a request for some hours. -/
def windowStart (now hours : Int) : Int := now - max 1 (min hours 168) * hour

/-- The rows that `health` selects. -/
def healthRows (now hours : Int) (table : List Row) : List Row :=
  (rowsFrom (windowStart now hours) table).mergeSort fun row row' =>
    decide (row.takenAt ≤ row'.takenAt)

/-- `_with_prev` -/
def withPrev : Option (Int × Int) → List Row → List (Row × Int × Int)
  | _, [] => []
  | prev, row :: rows =>
    (row, prev.getD (row.produced, row.stored)) :: withPrev (some (row.produced, row.stored)) rows

/-- An element of `series`. -/
structure Entry where
  takenAt : Int
  producedDelta : Int
  storedDelta : Int
  pending : Int
  dlq : Int
  bySource : List (Str × Delta)
  deriving DecidableEq

def entryOf (x : Row × Int × Int) : Entry where
  takenAt := x.1.takenAt
  producedDelta := max 0 (x.1.produced - x.2.1)
  storedDelta := max 0 (x.1.stored - x.2.2)
  pending := x.1.pending
  dlq := x.1.dlq
  bySource := x.1.bySource

/-- `series` of the rows. -/
def series (rows : List Row) : List Entry := (withPrev none rows).map entryOf

/-! ## The chart -/

/-- The bucket of a time, in milliseconds. Its text has a fixed width and sorts like it. -/
def bucketOf (takenAt : Int) : Int := takenAt / 1000 / 300000 * 300000

def addDelta (bucket : Counts) (x : Str × Delta) : Counts :=
  upsert x.1 (fun n => n.getD 0 + x.2.producedDelta) bucket

def addEntry (buckets : List (Int × Counts)) (e : Entry) : List (Int × Counts) :=
  upsert (bucketOf e.takenAt) (fun bucket => e.bySource.foldl addDelta (bucket.getD [])) buckets

/-- The set of the sources, in the order of insertion. -/
def chartSources (es : List Entry) : List Str :=
  distinct (es.flatMap fun e => e.bySource.map Prod.fst)

def chartKeys (buckets : List (Int × Counts)) : List Int :=
  (buckets.map Prod.fst).mergeSort fun k k' => decide (k ≤ k')

/-- The lines that `loadHealth` draws. -/
def chart (es : List Entry) : List (Str × List Int) :=
  let buckets := es.foldl addEntry []
  (chartSources es).map fun src =>
    (src, (chartKeys buckets).map fun k => ((buckets.lookup k).getD []).get src)

/-- What the line of a source adds up to. -/
def lineTotal (lines : List (Str × List Int)) (src : Str) : Int :=
  ((lines.lookup src).getD []).sum

/-! ## The buckets -/

/-- The deltas of a source in an entry. -/
def Entry.deltaOf (src : Str) (e : Entry) : Int :=
  groupSum Prod.fst (fun x => x.2.producedDelta) e.bySource src

theorem get_addDelta (bucket : Counts) (x : Str × Delta) (src : Str) :
    (addDelta bucket x).get src = bucket.get src + if x.1 = src then x.2.producedDelta else 0 := by
  rw [Counts.get, addDelta, lookup_upsert]
  by_cases hsrc : src = x.1
  · subst hsrc
    simp [Counts.get]
  · rw [if_neg hsrc, if_neg (Ne.symm hsrc), Int.add_zero]
    rfl

theorem get_addDeltas (xs : List (Str × Delta)) (bucket : Counts) (src : Str) :
    (xs.foldl addDelta bucket).get src =
      bucket.get src + groupSum Prod.fst (fun x => x.2.producedDelta) xs src := by
  induction xs generalizing bucket with
  | nil => exact (Int.add_zero _).symm
  | cons x xs ih => rw [List.foldl_cons, ih, get_addDelta, groupSum_cons, Int.add_assoc]

/-- What stands in a bucket for a source. -/
def valueAt (buckets : List (Int × Counts)) (k : Int) (src : Str) : Int :=
  ((buckets.lookup k).getD []).get src

theorem valueAt_addEntry (buckets : List (Int × Counts)) (e : Entry) (k : Int) (src : Str) :
    valueAt (addEntry buckets e) k src =
      valueAt buckets k src + if bucketOf e.takenAt = k then e.deltaOf src else 0 := by
  rw [valueAt, addEntry, lookup_upsert]
  by_cases hk : k = bucketOf e.takenAt
  · subst hk
    rw [if_pos rfl, if_pos rfl, Option.getD_some, get_addDeltas]
    rfl
  · rw [if_neg hk, if_neg (Ne.symm hk), Int.add_zero]
    rfl

theorem valueAt_addEntries (es : List Entry) (buckets : List (Int × Counts)) (k : Int) (src : Str) :
    valueAt (es.foldl addEntry buckets) k src =
      valueAt buckets k src + groupSum (fun e => bucketOf e.takenAt) (Entry.deltaOf src) es k := by
  induction es generalizing buckets with
  | nil => exact (Int.add_zero _).symm
  | cons e es ih => rw [List.foldl_cons, ih, valueAt_addEntry, groupSum_cons, Int.add_assoc]

theorem keys_addEntries (es : List Entry) (buckets : List (Int × Counts)) :
    (es.foldl addEntry buckets).map Prod.fst =
      (es.map fun e => bucketOf e.takenAt).foldl addKey (buckets.map Prod.fst) := by
  induction es generalizing buckets with
  | nil => rfl
  | cons e es ih =>
    rw [List.foldl_cons, ih, addEntry, keys_upsert]
    rfl

/-- A source that is in no entry has no deltas. -/
theorem deltaOf_eq_zero {src : Str} {es : List Entry} (h : src ∉ chartSources es) {e : Entry}
    (he : e ∈ es) : e.deltaOf src = 0 := by
  have hnone : e.bySource.filter (fun x => decide (x.1 = src)) = [] := by
    rw [List.filter_eq_nil_iff]
    intro x hx hsrc
    apply h
    rw [chartSources, mem_distinct, List.mem_flatMap]
    exact ⟨e, he, List.mem_map.mpr ⟨x, hx, of_decide_eq_true hsrc⟩⟩
  rw [Entry.deltaOf, groupSum, hnone]
  rfl

/-- A line adds up to all deltas of its source. -/
theorem lineTotal_chart (es : List Entry) (src : Str) :
    lineTotal (chart es) src = (es.map (Entry.deltaOf src)).sum := by
  unfold lineTotal chart
  rw [lookup_map]
  split
  · have hkeys := keys_addEntries es []
    have hperm : (chartKeys (es.foldl addEntry [])).Perm
        (distinct (es.map fun e => bucketOf e.takenAt)) := by
      rw [chartKeys, hkeys]
      exact List.mergeSort_perm _ _
    have hvalue (k : Int) : (((es.foldl addEntry []).lookup k).getD []).get src =
        groupSum (fun e => bucketOf e.takenAt) (Entry.deltaOf src) es k := by
      have h := valueAt_addEntries es [] k src
      rw [valueAt] at h
      rw [h]
      exact Int.zero_add _
    rw [Option.getD_some, List.map_congr_left fun k _ => hvalue k, (hperm.map _).sum_eq]
    apply sum_groups (nodup_distinct _)
    intro e he
    exact mem_distinct.mpr (List.mem_map_of_mem he)
  · rename_i hsrc
    symm
    apply List.sum_eq_zero
    intro n hn
    obtain ⟨e, he, rfl⟩ := List.mem_map.mp hn
    exact deltaOf_eq_zero hsrc he

/-! ## The rows of the window -/

/-- In a dictionary the group of a key is its value. -/
theorem groupSum_lookup {xs : List (Str × Delta)} (h : (xs.map Prod.fst).Nodup) (src : Str) :
    groupSum Prod.fst (fun x => x.2.producedDelta) xs src =
      ((xs.lookup src).map Delta.producedDelta).getD 0 := by
  induction xs with
  | nil => rfl
  | cons x xs ih =>
    rw [List.map_cons, List.nodup_cons] at h
    rw [groupSum_cons, List.lookup_cons, ih h.2]
    by_cases hsrc : x.1 = src
    · have hnone : xs.lookup src = none := by
        rw [List.lookup_eq_none_iff]
        intro y hy
        apply bne_iff_ne.mpr
        rintro rfl
        apply h.1
        rw [hsrc]
        exact List.mem_map_of_mem hy
      subst hsrc
      rw [if_pos rfl, hnone]
      simp
    · simp [hsrc, beq_false_of_ne (Ne.symm hsrc)]

theorem nodup_bySource (takenAt : Int) (prev : Option Sample) (cur : Sample) :
    ((rowOf takenAt prev cur).bySource.map Prod.fst).Nodup := by
  cases prev with
  | none =>
    have hkeys := List.nodup_dedup
      ((cur.producedBySource ++ cur.storedBySource).map Prod.fst)
    simpa [rowOf, firstBySource, Function.comp_def] using hkeys
  | some prev =>
    have hkeys := List.nodup_dedup
      ((prev.producedBySource ++ cur.producedBySource ++ prev.storedBySource ++
        cur.storedBySource ++ prev.rejectedBySource ++ cur.rejectedBySource).map Prod.fst)
    simpa [rowOf, computeBySource, sourcesOf, Function.comp_def] using hkeys

theorem map_withPrev {β : Type} (f : Row → β) (prev : Option (Int × Int)) (rows : List Row) :
    (withPrev prev rows).map (fun x => f x.1) = rows.map f := by
  induction rows generalizing prev with
  | nil => rfl
  | cons row rows ih => rw [withPrev, List.map_cons, ih, List.map_cons]

/-- The deltas of the series are those of the rows. -/
theorem sum_series {src : Str} {rows : List Row}
    (h : ∀ row ∈ rows, (row.bySource.map Prod.fst).Nodup) :
    ((series rows).map (Entry.deltaOf src)).sum =
      (rows.map fun row => row.delta .produced src).sum := by
  have hseries : (series rows).map (Entry.deltaOf src) = rows.map fun row =>
      groupSum Prod.fst (fun x => x.2.producedDelta) row.bySource src := by
    rw [series, List.map_map]
    exact map_withPrev (fun row => groupSum Prod.fst (fun x => x.2.producedDelta) row.bySource src)
      none rows
  rw [hseries, List.map_congr_left fun row hrow => groupSum_lookup (h row hrow) src]
  rfl

/-- What was written from a time on. -/
def writtenFrom (start : Int) (ws : List Written) : List Written :=
  ws.filter fun w => decide (start ≤ w.row.takenAt)

theorem rows_writtenFrom (start : Int) (s : State) :
    rowsFrom start s.rows = (writtenFrom start s.written).map Written.row := by
  rw [rowsFrom, State.rows, List.filter_map]
  rfl

theorem linked_rows {before : Option Written} {ws : List Written} (h : Linked before ws) {w : Written}
    (hw : w ∈ ws) : ∃ takenAt, w.row = rowOf takenAt w.prev w.sample := by
  induction ws generalizing before with
  | nil => cases hw
  | cons a ws ih =>
    rcases List.mem_cons.mp hw with rfl | hw
    · exact h.1
    · exact ih h.2.2 hw

/-- The rows from a time on are the last ones, so they are linked too. -/
theorem linked_writtenFrom (start : Int) {before : Option Written} {ws : List Written}
    (h : Linked before ws)
    (hordered : ws.Pairwise fun w w' => w.row.takenAt ≤ w'.row.takenAt) :
    ∃ before', Linked before' (writtenFrom start ws) := by
  induction ws generalizing before with
  | nil => exact ⟨before, trivial⟩
  | cons w ws ih =>
    obtain ⟨hle, hrest⟩ := List.pairwise_cons.mp hordered
    by_cases hstart : start ≤ w.row.takenAt
    · have hall : writtenFrom start (w :: ws) = w :: ws := by
        rw [writtenFrom, List.filter_eq_self]
        intro w' hw'
        rw [decide_eq_true_eq]
        rcases List.mem_cons.mp hw' with rfl | hw'
        · exact hstart
        · exact hstart.trans (hle w' hw')
      rw [hall]
      exact ⟨before, h⟩
    · rw [writtenFrom, List.filter_cons_of_neg (by simpa using hstart)]
      exact ih h.2.2 hrest

theorem growth_cons (k : Counter) (src : Str) (a : Written) (ws : List Written) :
    growth k src (a :: ws) =
      ((a :: ws).getLast (List.cons_ne_nil a ws)).count k src - a.count k src := by
  induction ws generalizing a with
  | nil => exact (Int.sub_self _).symm
  | cons b ws ih =>
    rw [growth, ih, List.getLast_cons (List.cons_ne_nil b ws)]
    omega

/-- What linked samples say of a source that is never reset, when the first of them
follows a sample and the others follow each other. -/
theorem activity_eq {k : Counter} {src : Str} {before : Option Written} {w : Written}
    {ws : List Written} (h : Linked before (w :: ws)) {p : Sample} (hp : w.prev = some p)
    (hnone : ∀ v ∈ ws, v.prev ≠ none) (hfirst : (p.counts k).get src ≤ w.count k src)
    (hsteady : Steady k src (w :: ws)) : activity k src (w :: ws) =
      ((w :: ws).getLast (List.cons_ne_nil w ws)).count k src - (p.counts k).get src := by
  obtain ⟨⟨takenAt, hrow⟩, -, hrest⟩ := h
  have hsum := (linked_accounts k src hrest).2.mpr hsteady
  rw [missed_eq_zero hnone, growth_cons, Int.add_zero] at hsum
  have hdelta : w.row.delta k src = max 0 (w.count k src - (p.counts k).get src) := by
    rw [hrow, hp, delta_some]
    rfl
  rw [activity_cons, hsum, hdelta]
  omega

/-- The chart of a request while the sampler runs, with any failures and restarts, for a
window that is not longer than the rows are kept: a line adds up to what the rows written in
the window say. When each sample in the window follows one and the counter of the source was
not reset, that is what the counter grew by from the sample before the window to the last. -/
theorem chart_accounts (cfg : Config) (d start now hours : Int) (es : List Event) (src : Str)
    (hd : 0 ≤ d) (hretention : now - windowStart now hours ≤ cfg.retention) (hstart : 0 ≤ start)
    (hes : WellTimed d start es) (hnow : clock start es ≤ now) :
    lineTotal (chart (series (healthRows now hours (after cfg es).table))) src =
      activity .produced src (writtenFrom (windowStart now hours) (after cfg es).written) ∧
    ∀ w ws p, writtenFrom (windowStart now hours) (after cfg es).written = w :: ws →
      w.prev = some p → (∀ v ∈ ws, v.prev ≠ none) →
      p.producedBySource.get src ≤ w.count .produced src → Steady .produced src (w :: ws) →
      lineTotal (chart (series (healthRows now hours (after cfg es).table))) src =
        ((w :: ws).getLast (List.cons_ne_nil w ws)).count .produced src -
          p.producedBySource.get src := by
  -- The window is within the retention, so all its rows are there, in their order.
  have hwindow : clock start es - cfg.retention ≤ windowStart now hours := by omega
  have hpos : 0 ≤ cfg.retention := by
    refine le_trans ?_ hretention
    unfold windowStart hour
    omega
  have hkept := kept_after hd hpos hstart hes
  have hlinked := (chained cfg es).linked
  have hrows : healthRows now hours (after cfg es).table =
      (writtenFrom (windowStart now hours) (after cfg es).written).map Written.row := by
    rw [healthRows, hkept.recent _ hwindow, rows_writtenFrom]
    apply List.mergeSort_of_pairwise
    rw [← rows_writtenFrom]
    apply (hkept.ordered.sublist List.filter_sublist).imp
    exact fun hle => decide_eq_true hle
  have htotal : lineTotal (chart (series (healthRows now hours (after cfg es).table))) src =
      activity .produced src (writtenFrom (windowStart now hours) (after cfg es).written) := by
    rw [lineTotal_chart, hrows, sum_series, List.map_map]
    · rfl
    · intro row hrow
      obtain ⟨w, hw, rfl⟩ := List.mem_map.mp hrow
      obtain ⟨takenAt, heq⟩ := linked_rows hlinked (List.mem_of_mem_filter hw)
      rw [heq]
      exact nodup_bySource takenAt w.prev w.sample
  refine ⟨htotal, fun w ws p hws hp hnone hfirst hsteady => ?_⟩
  have hordered := hkept.ordered
  rw [State.rows, List.pairwise_map] at hordered
  obtain ⟨before, hbefore⟩ := linked_writtenFrom (windowStart now hours) hlinked hordered
  rw [hws] at hbefore
  rw [htotal, hws]
  exact activity_eq hbefore hp hnone hfirst hsteady

/-- Two samples, more than an hour apart. -/
def sampleEvents : List Event := [.turn (sampleTurn 3 (8 * hour)), .turn (sampleTurn 5 (10 * hour))]

/-- What the second turn writes. -/
def sampleSecond : Written where
  prev := some (readState (sampleReplies 3))
  sample := readState (sampleReplies 5)
  row := rowOf (10 * hour) (some (readState (sampleReplies 3))) (readState (sampleReplies 5))

theorem chart_accounts_sample : lineTotal
    (chart (series (healthRows (11 * hour) 2 (after sampleConfig sampleEvents).table)))
      (lit "devto") = 2 := by
  have haccounts := chart_accounts sampleConfig 1 0 (11 * hour) 2 sampleEvents (lit "devto")
    (by decide) (by decide) (by decide) (by decide +kernel) (by decide +kernel)
  have hprev : sampleSecond.prev = some (readState (sampleReplies 3)) := rfl
  exact haccounts.2 sampleSecond [] _ (by decide +kernel) hprev (fun v hv => by cases hv)
    (by decide +kernel) trivial

end WebSpider.Monitor
