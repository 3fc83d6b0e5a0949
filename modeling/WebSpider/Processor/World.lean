import WebSpider.Json.Dumps
import WebSpider.Effects.Program

/-!
# The world of the processor

The data the processor reads and changes: the stream with its pending list, the
LSH index, the dead-letter stream and the counters in Redis, the `articles`
table in Postgres, and the fingerprints the process remembers. Calls to Redis
and Postgres, the fetcher, the extractor and the language detector belong to
the surroundings of one `process_batch` call, which say how each of them ends.

The last three fields of `State` record history. No function reads them.
-/

namespace WebSpider.Processor

open Text Json Effects

/-- The constants of `config.py` the processor uses, the `maxlen` of the deque in
`main`, and the nesting the JSON decoder allows. -/
structure Config where
  batchSize : Nat
  langKeep : List Str
  simhashBits : Nat
  simhashBands : Nat
  simhashHamming : Nat
  neardupTtl : Nat
  dlqMaxlen : Nat
  seenMaxlen : Nat
  nesting : Nat

/-- The default configuration. -/
def Config.standard : Config where
  batchSize := 100
  langKeep := [lit "en"]
  simhashBits := 64
  simhashBands := 4
  simhashHamming := 3
  neardupTtl := 0
  dlqMaxlen := 20000
  seenMaxlen := 10000
  nesting := 1000

/-- The exceptions that can end `process_batch`. -/
inductive PyExn where
  | attributeError
  | typeError
  | valueError
  | zeroDivisionError
  | unicodeEncodeError
  | recursionError
  | redisError
  | databaseError
  | fetchError
  | extractError
  | detectError
  deriving DecidableEq

/-- What the processor takes from libraries, and the quality gate. -/
structure Toolkit (F : Type) where
  /-- `text.lower()` -/
  lower : Str → Str
  /-- The 8-byte `blake2b` digest of a token as a big-endian number. -/
  blake2b : Str → Nat
  /-- `hashlib.sha256(url.encode()).hexdigest()` -/
  sha256 : Str → Str
  /-- `str(v)` of a value that is not a string. -/
  str : Value F → Str
  /-- `quality.assess` of a nonempty text: keep, reason and quality score. -/
  assess : Str → Bool × Str × F
  /-- `quality.strip_code` -/
  stripCode : Str → Str

/-- A toolkit read off tables: the digests of some tokens and URLs, the texts the
quality gate keeps with what `strip_code` leaves of them and their scores. Texts
are taken as ASCII. -/
def Toolkit.ofTables (digests : List (Str × Nat)) (urlHashes : List (Str × Str))
    (kept : List (Str × Str × TextFloat)) : Toolkit TextFloat where
  lower text := text.map fun c => if 65 ≤ c ∧ c ≤ 90 then c + 32 else c
  blake2b token := (digests.lookup token).getD 0
  sha256 url := (urlHashes.lookup url).getD []
  str _ := []
  assess text := match kept.lookup text with
    | some entry => (true, lit "code_rich", entry.2)
    | none => (false, lit "too_short", ⟨lit "0.0", by decide⟩)
  stripCode text := ((kept.lookup text).map Prod.fst).getD text

/-! ## Messages and rows -/

abbrev MsgId := Nat

/-- A stream message: its id and its `article` field. -/
structure Message where
  id : MsgId
  article : Option Str
  deriving DecidableEq

/-- The fields of a decoded article. -/
abbrev Article (F : Type) := List (Str × Value F)

/-- `article.get(key, default)` -/
def getField {F : Type} (article : Article F) (key : Str) (default : Value F) : Value F :=
  (lookup key article).getD default

/-- A row of `articles`, in the column order of `_INSERT`. -/
structure Row (F : Type) where
  url : Str
  urlHash : Str
  title : Value F
  contentMd : Str
  author : Value F
  publishedAt : Value F
  tags : Value F
  sourceType : Value F
  language : Str
  contentHash : Nat
  qualityScore : F

/-- An entry of the dead-letter stream. -/
structure DlqEntry (F : Type) where
  entryId : Nat
  streamMsgId : MsgId
  url : Value F
  title : Value F
  reason : Str
  detail : Str
  article : Str

/-- What `process_batch` decided about a message. -/
inductive Verdict where
  | malformed
  | notFound
  | extractFail
  | rejected (reason : Str)
  | lang
  | dup (fingerprint : Nat)
  | kept (fingerprint : Nat)
  deriving DecidableEq

/-- The counters under `metrics:articles:`. -/
inductive Counter (F : Type) where
  | stored
  | storedBySource (source : Value F)
  | rejected
  | rejectedByReason (reason : Str)
  | rejectedBySource (source : Value F)
  | dlq
  deriving DecidableEq

/-! ## State -/

structure State (F : Type) where
  /-- The next stream id. -/
  nextId : MsgId
  /-- Messages not delivered yet. -/
  queue : List Message
  /-- Messages delivered to the consumer and not acknowledged. -/
  pending : List Message
  /-- The members of each bucket of the LSH index. -/
  buckets : Str → List Str
  /-- Bucket keys with a time to live. -/
  volatile : Str → Bool
  /-- The key `simhash:warmed:v1` exists. -/
  warmed : Bool
  dlqSeen : List MsgId
  nextEntry : Nat
  dlq : List (DlqEntry F)
  metrics : Counter F → Nat
  articles : List (Row F)
  /-- The deque `seen_hashes` of the running process. -/
  seenHashes : List Nat
  /-- History: fingerprints this process remembered whose rows were not committed. -/
  inFlight : List Nat
  /-- History: the messages added to the dead-letter stream. -/
  parked : List MsgId
  /-- History: the acknowledged messages with what was decided about them. -/
  acked : List (MsgId × Verdict)

/-- Everything is empty. -/
def State.initial (F : Type) : State F where
  nextId := 0
  queue := []
  pending := []
  buckets := fun _ => []
  volatile := fun _ => false
  warmed := false
  dlqSeen := []
  nextEntry := 0
  dlq := []
  metrics := fun _ => 0
  articles := []
  seenHashes := []
  inFlight := []
  parked := []
  acked := []

variable {F : Type}

/-- `seen_hashes.append(chash)`: a full deque drops its oldest element. -/
def pushSeen (maxlen : Nat) (seen : List Nat) (chash : Nat) : List Nat :=
  (seen ++ [chash]).drop ((seen ++ [chash]).length - maxlen)

namespace State

def remember (maxlen chash : Nat) (s : State F) : State F :=
  { s with
    seenHashes := pushSeen maxlen s.seenHashes chash
    inFlight := s.inFlight ++ [chash] }

/-- `SADD key member` -/
def sadd (key member : Str) (s : State F) : State F :=
  { s with buckets := fun k =>
      if k = key ∧ member ∉ s.buckets key then s.buckets key ++ [member] else s.buckets k }

/-- `EXPIRE key ttl` -/
def expire (key : Str) (s : State F) : State F :=
  { s with volatile := fun k => if k = key then true else s.volatile k }

/-- `INCRBY` and `HINCRBY` on a counter. -/
def incrby [DecidableEq F] (c : Counter F) (n : Nat) (s : State F) : State F :=
  { s with metrics := fun c' => if c' = c then s.metrics c' + n else s.metrics c' }

/-- `XACK` of the messages of a batch. -/
def xack (ids : List MsgId) (outcomes : List (MsgId × Verdict)) (s : State F) : State F :=
  { s with
    pending := s.pending.filter fun m => decide (m.id ∉ ids)
    acked := s.acked ++ outcomes }

end State

/-! ## Surroundings of one call -/

/-- The calls `process_batch`, `recover_pending` and `warm_from_db` make to Redis
and Postgres. -/
inductive Site where
  | dlqPush (i : MsgId)
  | dlqIncr (i : MsgId)
  | smembers (i : MsgId) (band : Nat)
  | insert
  | incrStored
  | storedBySource
  | index (k : Nat)
  | rejections
  | xack
  | xpending
  | xreadgroup
  | warmExists
  | warmSelect
  | warmPage (count : Nat)
  | warmRest
  | warmSentinel
  deriving DecidableEq

/-- The result of `fetch_many`: only strings can be fetched. -/
structure Fetched where
  htmls : Str → Option Str
  gone : Str → Bool

/-- The result of `detect`: a language, `LangDetectException` or another exception. -/
inductive Detection where
  | language (l : Str)
  | undetected
  | raises
  deriving DecidableEq

structure Surroundings where
  plan : Site → Outcome
  /-- `none`: `fetch_many` raises. -/
  fetched : Option Fetched
  /-- `trafilatura.extract`; the outer `none`: it raises. -/
  extract : Str → Option (Option Str)
  detect : MsgId → Str → Detection
  /-- How many entries past its limit an `XADD` trims from the dead-letter stream. -/
  trimmed : Nat

/-- Nothing fails, no page is found, every text is in one language. -/
def Surroundings.calm (language : Str) : Surroundings where
  plan := fun _ => .returns
  fetched := some ⟨fun _ => none, fun _ => false⟩
  extract := fun _ => some none
  detect := fun _ _ => .language language
  trimmed := 0

/-! ## Python values -/

/-- The truth value of a JSON value. -/
def truthy [FloatText F] : Value F → Bool
  | .null => false
  | .bool b => b
  | .int n => n != 0
  | .float x => !FloatText.isZero x
  | .str s => !s.isEmpty
  | .arr xs => !xs.isEmpty
  | .obj kvs => !kvs.isEmpty

/-- Lists and dictionaries cannot be dictionary keys. -/
def hashable : Value F → Bool
  | .arr _ => false
  | .obj _ => false
  | _ => true

/-- `d[k] = d.get(k, 0) + 1` -/
def bump {α : Type} [DecidableEq α] (d : List (α × Nat)) (k : α) : List (α × Nat) :=
  if k ∈ d.map Prod.fst then d.map fun e => if e.1 = k then (k, e.2 + 1) else e else d ++ [(k, 1)]

end WebSpider.Processor
