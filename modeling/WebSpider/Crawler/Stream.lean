import WebSpider.Crawler.Time
import WebSpider.Effects.Program
import Mathlib.Data.List.Lex

/-!
# The producer

`stream.go`: `Publish` with its dedup script and its cursor, and `GetCursor`. A
publication is up to four calls to Redis, and other workers may call in between,
so it is modelled call by call.
-/

namespace WebSpider.Crawler

open Text Effects

/-- The fields of an article the crawler looks at, and its JSON text. -/
structure ArticleRaw where
  url : Str
  sourceType : Str
  published : Time
  payload : Str
  deriving DecidableEq

/-- What `RecordRun` stores about a run. -/
structure RunStats where
  source : Str
  pages : Nat
  published : Nat
  failedPages : Nat
  publishErrors : Nat
  deriving DecidableEq

/-- The keys of Redis the crawler uses. `marks` is history: the times that were
handed to an executed cursor script, with their source types. -/
structure Redis where
  /-- The hashes in `seen:<stream>`. -/
  seen : List Str
  /-- The payloads on the stream. -/
  entries : List Str
  produced : Nat
  producedBySource : Str → Nat
  /-- The hash `crawler:cursor:<stream>`. -/
  cursor : Str → Option Str
  /-- The hash `pipeline:runs`. -/
  runs : Str → Option RunStats
  marks : List (Str × Time)

def Redis.initial : Redis := ⟨[], [], 0, fun _ => 0, fun _ => none, fun _ => none, []⟩

/-- The configuration of the producer, with the hash of a URL. -/
structure Producer where
  sha256 : Str → Str
  maxLen : Nat

/-! ## Scripts -/

/-- `dedupScript`; `trimmed` entries past the limit are dropped. -/
def dedupScript (p : Producer) (trimmed : Nat) (a : ArticleRaw) (r : Redis) : Bool × Redis :=
  if p.sha256 a.url ∈ r.seen then (false, r)
  else
    let entries := r.entries ++ [a.payload]
    (true, { r with
      seen := r.seen ++ [p.sha256 a.url]
      entries := if 0 < p.maxLen then entries.drop (min trimmed (entries.length - p.maxLen))
        else entries })

/-- `cursorScript`: texts are compared byte by byte. -/
def cursorScript (sourceType : Str) (t : Time) (r : Redis) : Redis :=
  { r with
    cursor := fun k =>
      if k = sourceType then
        match r.cursor sourceType with
        | none => some (format t)
        | some cur => if cur < format t then some (format t) else some cur
      else r.cursor k
    marks := r.marks ++ [(sourceType, t)] }

/-- `GetCursor`: a missing, empty or unreadable cursor counts as none. -/
def getCursor (r : Redis) (sourceName : Str) : Option Time :=
  match r.cursor sourceName with
  | none => none
  | some v => if v = [] then none else parseTime v

/-! ## Publish -/

/-- The next call of `Publish`. -/
inductive Stage where
  | script
  | produced
  | bySource
  | cursor
  deriving DecidableEq

/-- What follows a call of `Publish`. -/
inductive Published where
  | next (stage : Stage)
  | done (new : Bool)
  | error
  deriving DecidableEq

/-- Whether a command was executed. -/
def applied (o : Outcome) (f : Redis → Redis) (r : Redis) : Redis := if o.executed then f r else r

/-- One call of `Publish`. Only the failure of the script is reported; the
counters and the cursor are best effort. -/
def publishCall (p : Producer) (a : ArticleRaw) (stage : Stage) (o : Outcome) (trimmed : Nat)
    (r : Redis) : Published × Redis :=
  match stage with
  | .script =>
    (match o with
      | .raises _ => .error
      | .returns => if (dedupScript p trimmed a r).1 then .next .produced else .done false,
    applied o (fun r => (dedupScript p trimmed a r).2) r)
  | .produced =>
    (if a.sourceType = [] then .done true else .next .bySource,
    applied o (fun r => { r with produced := r.produced + 1 }) r)
  | .bySource =>
    (.next .cursor,
    applied o (fun r => { r with
      producedBySource := fun k =>
        if k = a.sourceType then r.producedBySource k + 1 else r.producedBySource k }) r)
  | .cursor =>
    -- `advanceCursor` returns at once for the zero time
    (.done true, if a.published.isZero then r
      else applied o (cursorScript a.sourceType a.published) r)

/-- `RecordRun`: best effort. -/
def recordRun (stats : RunStats) (o : Outcome) (r : Redis) : Redis :=
  if stats.source = [] then r
  else applied o (fun r => { r with
    runs := fun k => if k = stats.source then some stats else r.runs k }) r

end WebSpider.Crawler
