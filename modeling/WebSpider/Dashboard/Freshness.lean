import WebSpider.Wire.Message
import WebSpider.Crawler.Cursor
import WebSpider.Fetcher.HostOverrides
import WebSpider.Floats.Monotone
import WebSpider.Json.Lines
import WebSpider.Lists.Grouped
import Mathlib.Data.Set.List

/-!
# The heartbeats on the dashboard

`RecordRun` keeps the summary of the last run of each source in a hash of Redis, as JSON with
the time it ended, in seconds. `health` reads the hash and calls a source stale when its last
run ended too long ago, which it computes in floating point. What it shows of a source is
exactly its last summary, and the floats never change the verdict (`health_exact`).
-/

namespace WebSpider.Dashboard.Freshness

open Text Json Floats WebSpider.Lists Wire
open Crawler (Time RunStats IsCivil format parseTime parseTime_format daysBeforeMonth
  daysBeforeYear daysIn daysIn_le)
open Processor (truthy)
open Overrides (Unicode rpartition)

/-! ## Recording -/

theorem isCivil_second (t : Time) :
    IsCivil t.year t.month t.day t.hour t.minute t.second 0 := by
  obtain ⟨hyear, hmonth, hday, hhour, hminute, hsecond, -⟩ := t.civil
  exact ⟨hyear, hmonth, hday, hhour, hminute, hsecond, Nat.pow_pos (by decide)⟩

/-- A time without its fraction of a second, as `time.RFC3339` prints it. -/
def toSecond (t : Time) : Time :=
  ⟨t.year, t.month, t.day, t.hour, t.minute, t.second, 0, isCivil_second t⟩

/-- The value of an `int` of Go. -/
def IsInt64 (n : ℤ) : Prop := -2 ^ 63 ≤ n ∧ n < 2 ^ 63

/-- A call of `RecordRun`, with the time it is made at. The sources have plain names. -/
structure Heartbeat where
  stats : RunStats
  durationMs : ℤ
  finished : Time
  ascii : ∀ c ∈ stats.source, c < 0x80
  pages : IsInt64 stats.pages
  published : IsInt64 stats.published
  failedPages : IsInt64 stats.failedPages
  publishErrors : IsInt64 stats.publishErrors
  duration : IsInt64 durationMs
  year : 1 ≤ finished.year

namespace Heartbeat

def source (h : Heartbeat) : Str := h.stats.source

def finishedAt (h : Heartbeat) : Str := format (toSecond h.finished)

/-- The fields of `RunStats` by their tags. -/
def fields (h : Heartbeat) : List (List Nat × Str) :=
  [(lit "source", goString h.stats.source), (lit "finished_at", goString h.finishedAt),
    (lit "pages", dumpInt h.stats.pages), (lit "published", dumpInt h.stats.published),
    (lit "failed_pages", dumpInt h.stats.failedPages),
    (lit "publish_errors", dumpInt h.stats.publishErrors),
    (lit "duration_ms", dumpInt h.durationMs)]

/-- `json.Marshal(s)` -/
def text (h : Heartbeat) : Str := goObject h.fields

end Heartbeat

/-- The hash `pipeline:runs`. -/
abbrev Runs := List (Str × Str)

/-- `RecordRun`, and whether Redis executes its `HSET`. -/
def recordRun (runs : Runs) (call : Heartbeat × Bool) : Runs :=
  if call.1.stats.source = [] then runs
  else if call.2 then upsert call.1.stats.source (fun _ => call.1.text) runs
  else runs

def recorded (calls : List (Heartbeat × Bool)) : Runs := calls.foldl recordRun []

/-! ## The limits -/

/-- `int(text)`. No value is a `ValueError`. -/
def int (decimal : Nat → Option (Fin 10)) (text : Str) : Option ℤ :=
  (removeUnderscores (trimBy isAsciiSpace (text.map (toAscii decimal)))).bind fun s =>
    let (negative, digits) := readSign s
    if digits.length ≤ maxDigits then
      (readDecimal digits).map fun n => if negative then -n else n
    else none

/-- `_stale_thresholds` of the setting. -/
def staleThresholds (u : Unicode) (spec : Str) : Str → Option ℤ :=
  (spec.splitOn 44).foldl (fun out part =>
    if 58 ∈ strip part then
      let (name, mins) := rpartition 58 (strip part)
      match int u.decimal mins with
      | some m => Function.update out name (some m)
      | none => out
    else out) fun _ => none

def staleAfter (u : Unicode) (spec source : Str) : ℤ := (staleThresholds u spec source).getD 180

/-! ## Reading -/

/-- `datetime.fromisoformat`, of the texts that `RecordRun` writes. -/
def fromisoformat (s : Str) : Option Time := (parseTime s).filter fun t => decide (1 ≤ t.year)

/-- A `datetime` counts microseconds. -/
def micros (t : Time) : ℤ := t.instant / 1000

/-- `delta.total_seconds()` -/
def totalSeconds (delta : ℤ) : Double := binary64.round (delta / 10 ^ 6)

/-- `delta.total_seconds() / 60` -/
def minutes (delta : ℤ) : Double := binary64.quotient (totalSeconds delta) (.finite 60)

inductive Status where
  | unknown
  | ok
  | stale
  deriving DecidableEq

/-- An entry of `runs` in the answer. -/
structure Run (F : Type) where
  source : Str
  lastRunAt : Value F
  ageMinutes : Option Double
  staleAfterMinutes : ℤ
  status : Status
  pages : Value F
  published : Value F
  failedPages : Value F
  publishErrors : Value F
  durationMs : Value F

/-- What makes `health` raise. -/
inductive Trouble where
  | attributeError
  | typeError
  | loads (e : LoadsError)

variable {F : Type}

/-- `rec.get(k)` -/
def get (rec : List (Str × Value F)) (k : Str) : Value F := (Json.lookup k rec).getD .null

section Health

variable [FloatText F]

/-- `age_min`, which is none when there is no time, or none that can be read. -/
def ageMin (now : Time) (finished : Value F) : Except Trouble (Option Double) :=
  if truthy finished then
    match finished with
    | .str s => .ok ((fromisoformat s).map fun t => minutes (micros now - micros t))
    | _ => .error .typeError
  else .ok none

def statusOf (limit : ℤ) : Option Double → Status
  | none => .unknown
  | some age => if age ≤ .finite limit then .ok else .stale

/-- The entry for a field of the hash; a text that is not JSON has none. -/
def runOf (F : Type) [FloatText F] (depth : Nat) (u : Unicode) (spec : Str) (now : Time)
    (field : Str × Str) : Except Trouble (Option (Run F)) :=
  match loads depth field.2 with
  | .error .decode => .ok none
  | .error e => .error (.loads e)
  | .ok (.obj rec) => do
    let finished := get rec (lit "finished_at")
    let age ← ageMin now finished
    let limit := staleAfter u spec field.1
    return some {
      source := field.1
      lastRunAt := finished
      ageMinutes := age.map (Double.roundDigits 1)
      staleAfterMinutes := limit
      status := statusOf limit age
      pages := get rec (lit "pages")
      published := get rec (lit "published")
      failedPages := get rec (lit "failed_pages")
      publishErrors := get rec (lit "publish_errors")
      durationMs := get rec (lit "duration_ms") }
  | .ok _ => .error .attributeError

/-- The runs in the answer of `health`. -/
def health (F : Type) [FloatText F] (depth : Nat) (u : Unicode) (spec : Str) (now : Time)
    (runs : Runs) : Except Trouble (List (Run F)) := do
  let entries ← runs.mapM (runOf F depth u spec now)
  return (entries.filterMap id).mergeSort fun a b => decide (a.source ≤ b.source)

end Health

/-! ## What is to be shown -/

/-- The last call for its source that Redis executed. -/
def Latest (calls : List (Heartbeat × Bool)) (h : Heartbeat) : Prop :=
  h.source ≠ [] ∧ ∃ before after, calls = before ++ (h, true) :: after ∧
    ∀ call ∈ after, call.2 = true → call.1.source ≠ h.source

/-- Microseconds from the second in which the run ended. -/
def Heartbeat.age (h : Heartbeat) (now : Time) : ℤ := micros now - micros (toSecond h.finished)

/-- The entry of a source by its last call. -/
def shown (F : Type) (u : Unicode) (spec : Str) (now : Time) (h : Heartbeat) : Run F where
  source := h.source
  lastRunAt := .str h.finishedAt
  ageMinutes := some ((minutes (h.age now)).roundDigits 1)
  staleAfterMinutes := staleAfter u spec h.source
  status := if h.age now ≤ staleAfter u spec h.source * (60 * 10 ^ 6) then .ok else .stale
  pages := .int h.stats.pages
  published := .int h.stats.published
  failedPages := .int h.stats.failedPages
  publishErrors := .int h.stats.publishErrors
  durationMs := .int h.durationMs

/-! ## The age in floating point -/

theorem abs_rounded_le {x : ℚ} {m : ℤ} (hm : |m| < 2 ^ 53) (h : |x| ≤ m) :
    |binary64.rounded x| ≤ m := by
  obtain ⟨hlow, hhigh⟩ := abs_le.mp h
  have hself := binary64_intCast hm
  have habove := Format.rounded_mono (f := binary64) hhigh
  have hbelow := Format.rounded_mono (f := binary64) hlow
  rw [Format.rounded_neg, hself] at hbelow
  rw [hself] at habove
  exact abs_le.mpr ⟨hbelow, habove⟩

theorem minutes_eq {delta : ℤ} (h : |delta| ≤ 2 ^ 60) :
    minutes delta = .finite (binary64.rounded (binary64.rounded (delta / 10 ^ 6) / 60)) := by
  have hdelta : |(delta : ℚ)| ≤ 2 ^ 60 := by exact_mod_cast h
  have hquotient : |(delta / 10 ^ 6 : ℚ)| ≤ ((2 ^ 52 : ℤ) : ℚ) := by
    rw [abs_div, abs_of_pos (by norm_num : (0 : ℚ) < 10 ^ 6)]
    norm_num at hdelta ⊢
    linarith
  have hseconds := abs_rounded_le (by norm_num) hquotient
  have hage : |binary64.rounded (delta / 10 ^ 6) / 60| ≤ 2 ^ 53 := by
    rw [abs_div, abs_of_pos (by norm_num : (0 : ℚ) < 60)]
    norm_num at hseconds ⊢
    linarith
  unfold minutes totalSeconds
  rw [binary64_round (hquotient.trans (by norm_num))]
  exact binary64_round hage

/-- The next numbers above the limit are so close that both roundings keep the order. -/
theorem minutes_le_iff {delta limit : ℤ} (hdelta : |delta| ≤ 2 ^ 60) (hlimit : |limit| < 2 ^ 27) :
    minutes delta ≤ .finite limit ↔ delta ≤ limit * (60 * 10 ^ 6) := by
  obtain ⟨hlow, hhigh⟩ := abs_lt.mp hlimit
  rw [minutes_eq hdelta, Double.finite_le]
  -- The limit, in minutes and in seconds, and a number a little greater than each.
  have hmin := binary64_intCast (m := limit) (by rw [abs_lt]; omega)
  have hsec := binary64_intCast (m := limit * 60) (by rw [abs_lt]; omega)
  have hmin' := binary64_between (n := limit) (k := 26) (by rw [abs_lt]; omega) (by decide)
  have hsec' := binary64_between (n := limit * 60) (k := 20) (by rw [abs_lt]; omega) (by decide)
  rw [Int.cast_mul, Int.cast_ofNat] at hsec hsec'
  constructor
  · intro h
    by_contra hlate
    have hone : (limit : ℚ) * (60 * 10 ^ 6) + 1 ≤ delta := by
      exact_mod_cast Int.add_one_le_iff.mpr (not_le.mp hlate)
    have hseconds : (limit : ℚ) * 60 + 1 / 2 ^ 20 ≤ binary64.rounded (delta / 10 ^ 6) := by
      rw [← hsec']
      apply Format.rounded_mono
      rw [le_div_iff₀ (by norm_num)]
      linarith
    have hminutes : (limit : ℚ) + 1 / 2 ^ 26 ≤
        binary64.rounded (binary64.rounded (delta / 10 ^ 6) / 60) := by
      rw [← hmin']
      apply Format.rounded_mono
      rw [le_div_iff₀ (by norm_num)]
      linarith
    linarith
  · intro h
    have hcast : (delta : ℚ) ≤ limit * (60 * 10 ^ 6) := by exact_mod_cast h
    have hseconds : binary64.rounded (delta / 10 ^ 6) ≤ limit * 60 := by
      rw [← hsec]
      apply Format.rounded_mono
      rw [div_le_iff₀ (by norm_num)]
      linarith
    rw [← hmin]
    apply Format.rounded_mono
    rw [div_le_iff₀ (by norm_num)]
    exact hseconds

theorem daysBeforeMonth_le (year month : Nat) (h : month ≤ 12) : daysBeforeMonth year month ≤ 341 := by
  have hsum := List.sum_le_card_nsmul ((List.range (month - 1)).map fun m => daysIn year (m + 1)) 31
  rw [List.length_map, List.length_range, Nat.nsmul_eq_mul] at hsum
  have hle : daysBeforeMonth year month ≤ (month - 1) * 31 := by
    apply hsum
    intro d hd
    obtain ⟨m, -, rfl⟩ := List.mem_map.mp hd
    exact daysIn_le year (m + 1)
  omega

/-- The times that `datetime` has are not far apart. -/
theorem abs_micros_le (t u : Time) : |micros t - micros u| ≤ 2 ^ 60 := by
  have hbound (t : Time) : 0 ≤ micros t + 2 ^ 55 ∧ micros t ≤ 2 ^ 59 := by
    obtain ⟨hyear, -, hday, hhour, hminute, hsecond, hnano⟩ := t.civil
    have hmonth := daysBeforeMonth_le t.year t.month t.civil.2.1.2
    have hdays := daysIn_le t.year t.month
    unfold micros Time.instant daysBeforeYear
    dsimp only
    omega
  have ht := hbound t
  have hu := hbound u
  rw [abs_le]
  omega

/-! ## The hash -/

theorem latest_snoc {calls : List (Heartbeat × Bool)} {call : Heartbeat × Bool} {h : Heartbeat} :
    Latest (calls ++ [call]) h ↔ h.source ≠ [] ∧ call = (h, true) ∨
      Latest calls h ∧ (call.2 = true → call.1.source ≠ h.source) := by
  constructor
  · rintro ⟨hne, before, after, hsplit, hlater⟩
    rcases Overrides.split_snoc hsplit with ⟨-, hlast⟩ | ⟨after', rfl, hcalls⟩
    · exact Or.inl ⟨hne, hlast.symm⟩
    · right
      refine ⟨⟨hne, before, after', hcalls, fun e he => ?_⟩, ?_⟩
      · exact hlater e (List.mem_append_left _ he)
      · exact hlater call (List.mem_append_right _ (List.mem_singleton.mpr rfl))
  · rintro (⟨hne, rfl⟩ | ⟨⟨hne, before, after, rfl, hlater⟩, hcall⟩)
    · exact ⟨hne, calls, [], rfl, fun _ he => nomatch he⟩
    · refine ⟨hne, before, after ++ [call], by simp, fun e he => ?_⟩
      rcases List.mem_append.mp he with he | he
      · exact hlater e he
      · obtain rfl := List.mem_singleton.mp he
        exact hcall

theorem recorded_snoc (calls : List (Heartbeat × Bool)) (call : Heartbeat × Bool) :
    recorded (calls ++ [call]) = recordRun (recorded calls) call := by
  rw [recorded, List.foldl_append]
  rfl

theorem nodup_recorded (calls : List (Heartbeat × Bool)) : ((recorded calls).map Prod.fst).Nodup := by
  induction calls using List.reverseRecOn with
  | nil => exact List.nodup_nil
  | append_singleton calls call ih =>
    rw [recorded_snoc, recordRun]
    split
    · exact ih
    · split
      · rw [keys_upsert]
        exact nodup_addKey ih _
      · exact ih

/-- The hash holds the last call of each source. -/
theorem mem_recorded {calls : List (Heartbeat × Bool)} {field : Str × Str} :
    field ∈ recorded calls ↔ ∃ h, Latest calls h ∧ field = (h.source, h.text) := by
  induction calls using List.reverseRecOn with
  | nil =>
    apply iff_of_false List.not_mem_nil
    rintro ⟨h, ⟨-, before, after, hsplit, -⟩, -⟩
    exact absurd (List.append_eq_nil_iff.mp hsplit.symm).2 (List.cons_ne_nil _ _)
  | append_singleton calls call ih =>
    obtain ⟨g, executed⟩ := call
    simp only [recorded_snoc, recordRun, latest_snoc]
    split
    · rename_i hnil
      rw [ih]
      apply exists_congr
      intro h
      apply and_congr_left'
      constructor
      · exact fun hh => Or.inr ⟨hh, fun _ heq => hh.1 (heq.symm.trans hnil)⟩
      · rintro (⟨hne, heq⟩ | ⟨hh, -⟩)
        · obtain ⟨rfl, -⟩ := Prod.mk.inj heq
          exact (hne hnil).elim
        · exact hh
    · rename_i hne
      cases executed with
      | false =>
        rw [if_neg Bool.false_ne_true, ih]
        simp
      | true =>
        rw [if_pos rfl, mem_upsert_const (nodup_recorded calls), ih]
        constructor
        · rintro (⟨⟨h, hh, rfl⟩, hother⟩ | rfl)
          · exact ⟨h, Or.inr ⟨hh, fun _ => Ne.symm hother⟩, rfl⟩
          · exact ⟨g, Or.inl ⟨hne, rfl⟩, rfl⟩
        · rintro ⟨h, ⟨-, heq⟩ | ⟨hh, hother⟩, rfl⟩
          · obtain ⟨rfl, -⟩ := Prod.mk.inj heq
            exact Or.inr rfl
          · exact Or.inl ⟨⟨h, hh, rfl⟩, Ne.symm (hother rfl)⟩

/-! ## The entries -/

section Entries

variable [FloatText F] {depth : Nat} {u : Unicode} {spec : Str} {now : Time}

omit [FloatText F] in
theorem finishedAt_ascii (h : Heartbeat) : ∀ c ∈ h.finishedAt, c < 0x80 :=
  format_ascii (toSecond h.finished)

theorem truthy_finishedAt (h : Heartbeat) : truthy (.str h.finishedAt : Value F) = true := by
  have hne : h.finishedAt ≠ [] := Crawler.format_ne_nil (toSecond h.finished)
  simpa [truthy] using hne

theorem fromisoformat_finishedAt (h : Heartbeat) :
    fromisoformat h.finishedAt = some (toSecond h.finished) := by
  rw [fromisoformat, Heartbeat.finishedAt, parseTime_format]
  exact Option.filter_some_pos (decide_eq_true h.year)

theorem reads_int64 {n : ℤ} (hn : IsInt64 n) : Reads depth (dumpInt n) (.int n : Value F) := by
  apply reads_int
  have hlength : (decimal n.natAbs).length ≤ 19 := by
    rw [length_decimal_le (by decide)]
    unfold IsInt64 at hn
    omega
  exact hlength.trans (by decide)

def Heartbeat.value (F : Type) (h : Heartbeat) : List (Str × Value F) :=
  [(lit "source", .str h.source), (lit "finished_at", .str h.finishedAt),
    (lit "pages", .int h.stats.pages), (lit "published", .int h.stats.published),
    (lit "failed_pages", .int h.stats.failedPages),
    (lit "publish_errors", .int h.stats.publishErrors), (lit "duration_ms", .int h.durationMs)]

/-- The decoder reads what `RecordRun` writes. -/
theorem loads_text (h : Heartbeat) : loads (depth + 1) h.text = .ok (.obj (h.value F)) := by
  have hsource := reads_string (F := F) depth h.stats.source
  have htime := reads_string (F := F) depth h.finishedAt
  rw [runes_ascii h.ascii] at hsource
  rw [runes_ascii (finishedAt_ascii h)] at htime
  apply Reads.loads
  apply reads_object
  · apply List.Forall₂.cons (readsField (by decide) hsource)
    apply List.Forall₂.cons (readsField (by decide) htime)
    apply List.Forall₂.cons (readsField (by decide) (reads_int64 h.pages))
    apply List.Forall₂.cons (readsField (by decide) (reads_int64 h.published))
    apply List.Forall₂.cons (readsField (by decide) (reads_int64 h.failedPages))
    apply List.Forall₂.cons (readsField (by decide) (reads_int64 h.publishErrors))
    exact .cons (readsField (by decide) (reads_int64 h.duration)) .nil
  · have hkeys : [lit "source", lit "finished_at", lit "pages", lit "published",
        lit "failed_pages", lit "publish_errors", lit "duration_ms"].Nodup := by decide +kernel
    exact hkeys

theorem ageMin_finishedAt (h : Heartbeat) :
    ageMin now (.str h.finishedAt : Value F) = .ok (some (minutes (h.age now))) := by
  rw [ageMin, if_pos (truthy_finishedAt h)]
  rw [fromisoformat_finishedAt]
  rfl

theorem runOf_text (h : Heartbeat) (hlimit : |staleAfter u spec h.source| < 2 ^ 27) :
    runOf F (depth + 1) u spec now (h.source, h.text) = .ok (some (shown F u spec now h)) := by
  have hage := minutes_le_iff (abs_micros_le now (toSecond h.finished)) hlimit
  have hstatus : statusOf (staleAfter u spec h.source) (some (minutes (h.age now))) =
      (shown F u spec now h).status := if_congr hage rfl rfl
  have hfinished : get (h.value F) (lit "finished_at") = .str h.finishedAt := rfl
  rw [runOf, loads_text (F := F)]
  simp only [hfinished, ageMin_finishedAt, bind, Except.bind, hstatus]
  rfl

end Entries

/-- The runs come in strict order when their sources are different. -/
theorem pairwise_sorted {runs : List (Run F)} (h : (runs.map Run.source).Nodup) :
    (runs.mergeSort fun a b => decide (a.source ≤ b.source)).Pairwise
      fun a b => a.source < b.source := by
  have hsorted : (runs.mergeSort fun a b => decide (a.source ≤ b.source)).Pairwise
      fun a b => decide (a.source ≤ b.source) = true := by
    apply List.pairwise_mergeSort
    · intro a b c hab hbc
      exact decide_eq_true (le_trans (of_decide_eq_true hab) (of_decide_eq_true hbc))
    · intro a b
      rw [Bool.or_eq_true, decide_eq_true_eq, decide_eq_true_eq]
      exact le_total a.source b.source
  have hdistinct : (runs.mergeSort fun a b => decide (a.source ≤ b.source)).Pairwise
      fun a b => a.source ≠ b.source :=
    ((List.mergeSort_perm runs _).pairwise_iff fun h => Ne.symm h).mpr (List.pairwise_map.mp h)
  exact (hsorted.and hdistinct).imp fun ⟨hle, hne⟩ => lt_of_le_of_ne (of_decide_eq_true hle) hne

/-- Whatever calls of `RecordRun` fail, `health` shows one entry for each source that one was
executed for, in order of the sources: the last, with its counts, and it is stale exactly when
more than the limit has passed since the second in which the run ended. -/
theorem health_exact [FloatText F] (depth : Nat) (u : Unicode) (spec : Str) (now : Time)
    (calls : List (Heartbeat × Bool)) (hlimit : ∀ source, |staleAfter u spec source| < 2 ^ 27) :
    ∃ runs, health F (depth + 1) u spec now (recorded calls) = .ok runs ∧
      runs.Pairwise (fun a b => a.source < b.source) ∧
      ∀ run, run ∈ runs ↔ ∃ h, Latest calls h ∧ run = shown F u spec now h := by
  have hsources : ∀ field ∈ recorded calls,
      field ∈ Set.range fun h : Heartbeat => (h.source, h.text) := by
    intro field hfield
    obtain ⟨h, -, rfl⟩ := mem_recorded.mp hfield
    exact ⟨h, rfl⟩
  have hrange : recorded calls ∈ Set.range (List.map fun h : Heartbeat => (h.source, h.text)) := by
    rw [Set.range_list_map]
    exact hsources
  obtain ⟨hs, hhs⟩ := hrange
  have hread (h : Heartbeat) : runOf F (depth + 1) u spec now (h.source, h.text) =
      .ok (some (shown F u spec now h)) := runOf_text h (hlimit h.source)
  -- The text says all that is shown.
  have hsame {h h' : Heartbeat} (heq : (h.source, h.text) = (h'.source, h'.text)) :
      shown F u spec now h = shown F u spec now h' := by
    have hboth := (hread h).symm.trans ((congrArg _ heq).trans (hread h'))
    exact Option.some.inj (Except.ok.inj hboth)
  have hentries : (recorded calls).mapM (runOf F (depth + 1) u spec now) =
      .ok (hs.map fun h => some (shown F u spec now h)) := by
    apply Json.Lines.mapM_ok
    rw [← hhs, List.forall₂_map_left_iff, List.forall₂_map_right_iff]
    exact List.forall₂_same.mpr fun h _ => hread h
  refine ⟨(hs.map (shown F u spec now)).mergeSort fun a b => decide (a.source ≤ b.source),
    ?_, ?_, fun run => ?_⟩
  · rw [health, hentries]
    simp [bind, Except.bind, pure, Except.pure, List.filterMap_map]
  · apply pairwise_sorted
    have hnodup := nodup_recorded calls
    rw [← hhs, List.map_map] at hnodup
    rw [List.map_map]
    exact hnodup
  · rw [List.mem_mergeSort, List.mem_map]
    constructor
    · rintro ⟨h, hh, rfl⟩
      have hfield : (h.source, h.text) ∈ recorded calls := by
        rw [← hhs]
        exact List.mem_map.mpr ⟨h, hh, rfl⟩
      obtain ⟨h', hlatest, heq⟩ := mem_recorded.mp hfield
      exact ⟨h', hlatest, hsame heq⟩
    · rintro ⟨h, hlatest, rfl⟩
      have hfield := mem_recorded.mpr ⟨h, hlatest, rfl⟩
      rw [← hhs] at hfield
      obtain ⟨h', hh', heq⟩ := List.mem_map.mp hfield
      exact ⟨h', hh', hsame heq⟩

/-- No letters but those of ASCII. -/
def plain : Unicode := ⟨id, fun _ => none⟩

/-- What `STALE_THRESHOLDS` is when it is not set. -/
def standardThresholds : Str := lit "devto:120,stackexchange:300,rss:180"

theorem staleAfter_standard (source : Str) : |staleAfter plain standardThresholds source| < 2 ^ 27 := by
  have hparts : standardThresholds.splitOn 44 =
      [lit "devto:120", lit "stackexchange:300", lit "rss:180"] := by decide +kernel
  have hlimits : staleThresholds plain standardThresholds =
      Function.update (Function.update (Function.update (fun _ => none) (lit "devto") (some 120))
        (lit "stackexchange") (some 300)) (lit "rss") (some 180) := by
    rw [staleThresholds, hparts]
    rfl
  rw [staleAfter, hlimits]
  simp only [Function.update_apply]
  split_ifs
  · decide
  · decide
  · decide
  · decide

theorem isInt64_small {n : Nat} (h : n < 1000) : IsInt64 n := by
  unfold IsInt64
  omega

theorem isCivil_noon : IsCivil 2024 1 2 12 0 0 500000000 := by decide

theorem isCivil_later (n : Nat) (h : n < 10 ^ 9) : IsCivil 2024 1 2 15 0 0 n := by
  unfold IsCivil
  exact ⟨by decide, by decide, by decide, by decide, by decide, by decide, h⟩

theorem rss_ascii : ∀ c ∈ lit "rss", c < 0x80 := by decide

/-- A run of three pages, at noon and a half second. -/
def noonBeat : Heartbeat where
  stats := ⟨lit "rss", 3, 12, 0, 0⟩
  durationMs := 900
  finished := ⟨2024, 1, 2, 12, 0, 0, 500000000, isCivil_noon⟩
  ascii := rss_ascii
  pages := isInt64_small (Nat.le_of_ble_eq_true rfl)
  published := isInt64_small (Nat.le_of_ble_eq_true rfl)
  failedPages := isInt64_small (Nat.le_of_ble_eq_true rfl)
  publishErrors := isInt64_small (Nat.le_of_ble_eq_true rfl)
  duration := isInt64_small (Nat.le_of_ble_eq_true rfl)
  year := Nat.le_of_ble_eq_true rfl

/-- A time shortly after three. -/
def threeOClock (nanosecond : Nat) (h : nanosecond < 10 ^ 9) : Time :=
  ⟨2024, 1, 2, 15, 0, 0, nanosecond, isCivil_later nanosecond h⟩

/-- Three hours later the source is not yet stale, and a microsecond after that it is. -/
theorem health_exact_sample : ∃ runs runs' : List (Run TextFloat),
    health TextFloat 2 plain standardThresholds (threeOClock 0 (by decide))
      (recorded [(noonBeat, true), (noonBeat, false)]) = .ok runs ∧
    health TextFloat 2 plain standardThresholds (threeOClock 1000 (by decide))
      (recorded [(noonBeat, true), (noonBeat, false)]) = .ok runs' ∧
    (∃ run ∈ runs, run.source = lit "rss" ∧ run.status = .ok) ∧
    ∃ run ∈ runs', run.source = lit "rss" ∧ run.status = .stale := by
  have hlatest : Latest [(noonBeat, true), (noonBeat, false)] noonBeat := by
    refine ⟨by decide, [], [(noonBeat, false)], rfl, fun call hcall hexecuted => ?_⟩
    obtain rfl := List.mem_singleton.mp hcall
    cases hexecuted
  obtain ⟨runs, hruns, -, hmem⟩ := health_exact (F := TextFloat) 1 plain standardThresholds
    (threeOClock 0 (by decide)) [(noonBeat, true), (noonBeat, false)] staleAfter_standard
  obtain ⟨runs', hruns', -, hmem'⟩ := health_exact (F := TextFloat) 1 plain standardThresholds
    (threeOClock 1000 (by decide)) [(noonBeat, true), (noonBeat, false)] staleAfter_standard
  refine ⟨runs, runs', hruns, hruns', ⟨_, (hmem _).mpr ⟨noonBeat, hlatest, rfl⟩, rfl, ?_⟩,
    ⟨_, (hmem' _).mpr ⟨noonBeat, hlatest, rfl⟩, rfl, ?_⟩⟩
  · decide +kernel
  · decide +kernel

end WebSpider.Dashboard.Freshness
