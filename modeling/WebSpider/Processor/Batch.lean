import WebSpider.Processor.Neardup
import WebSpider.Lists.Pages

/-!
# One batch

`process_batch` and `push_dlq` of `main.py` with `insert_articles` of
`store.py`: parse, fetch, extract, quality gate, language filter, duplicate
check, store, index, metrics, acknowledgement. The accumulators of the source
are kept, with a record of what was decided about each message beside them.
-/

namespace WebSpider.Processor

open Text Json Bits Effects

variable {F : Type} [FloatText F]

/-! ## Parsing -/

/-- Phase 1: messages without a payload and payloads that are not JSON are skipped. -/
def parse (cfg : Config) : List Message → Except PyExn (List (MsgId × Value F))
  | [] => .ok []
  | m :: messages =>
    match m.article with
    | none => parse cfg messages
    | some [] => parse cfg messages
    | some raw =>
      match loads cfg.nesting raw with
      | .error .decode => parse cfg messages
      | .error .tooManyDigits => .error .valueError
      | .error .tooDeep => .error .recursionError
      -- never the case, see `loads_ne_fuel`
      | .error .fuel => .error .recursionError
      | .ok article => do
        let parsed ← parse cfg messages
        .ok ((m.id, article) :: parsed)

/-- The messages with inline content, with that content. -/
abbrev Direct (F : Type) := List (MsgId × Article F × Value F)

/-- Phase 2: `content_md` decides between the inline content and the fetch. Only
dictionaries have `get`. -/
def splitDirect : List (MsgId × Value F) → Except PyExn (Direct F × List (MsgId × Article F))
  | [] => .ok ([], [])
  | (i, .obj article) :: parsed => do
    let (direct, toFetch) ← splitDirect parsed
    let md := getField article (lit "content_md") .null
    if truthy md then .ok ((i, article, md) :: direct, toFetch)
    else .ok (direct, (i, article) :: toFetch)
  | _ :: _ => .error .attributeError

/-! ## Dead-letter parking -/

/-- `article.get("url", "")` -/
def urlOf (article : Article F) : Value F := getField article (lit "url") (.str [])

/-- `article.get("source_type", "?")` -/
def sourceOf (article : Article F) : Value F :=
  getField article (lit "source_type") (.str (lit "?"))

/-- The entry `_DLQ_PUSH_LUA` adds. -/
def dlqEntry (tk : Toolkit F) (entryId : Nat) (i : MsgId) (article : Article F) (reason : Str)
    (detail : Value F) : DlqEntry F where
  entryId := entryId
  streamMsgId := i
  url := urlOf article
  title := getField article (lit "title") (.str [])
  reason := reason
  detail := (match detail with | .str s => s | v => tk.str v).take 500
  article := (dumps (.obj article)).take 10000

/-- `_DLQ_PUSH_LUA`: executed as a whole. -/
def dlqPushScript (cfg : Config) (trimmed : Nat) (i : MsgId) (entry : Nat → DlqEntry F)
    (s : State F) : Nat × State F :=
  if i ∈ s.dlqSeen then (0, s)
  else
    let dlq := s.dlq ++ [entry s.nextEntry]
    (1, { s with
      dlqSeen := s.dlqSeen ++ [i]
      nextEntry := s.nextEntry + 1
      dlq := dlq.drop (min trimmed (dlq.length - cfg.dlqMaxlen))
      parked := s.parked ++ [i] })

/-- `push_dlq` never raises. -/
def pushDlq [DecidableEq F] (cfg : Config) (tk : Toolkit F) (env : Surroundings) (i : MsgId)
    (article : Article F) (reason : Str) (detail : Value F) : Prog (State F) PyExn Bool :=
  Prog.attempt
    (do
      let first ← call .redisError (env.plan (.dlqPush i)) (dlqPushScript cfg env.trimmed i
        fun entryId => dlqEntry tk entryId i article reason detail)
      if first = 1 then
        call .redisError (env.plan (.dlqIncr i)) fun s => (true, s.incrby .dlq 1)
      else pure false)
    fun _ => pure false

/-! ## Statistics -/

/-- `stats`, `src_rej`, and what was decided about each message. -/
structure Tally (F : Type) where
  stats : List (Str × Nat)
  srcRej : List (Value F × Nat)
  outcomes : List (MsgId × Verdict)

def Tally.empty : Tally F := ⟨[], [], []⟩

/-- `stats[reason] += 1` -/
def Tally.count (t : Tally F) (reason : Str) (i : MsgId) (v : Verdict) : Tally F :=
  { t with stats := bump t.stats reason, outcomes := t.outcomes ++ [(i, v)] }

/-- `stats[reason] += 1` and `src_rej[source] += 1`; a source that is a list or a
dictionary cannot be a key. -/
def Tally.reject [DecidableEq F] (t : Tally F) (reason : Str) (source : Value F) (i : MsgId)
    (v : Verdict) : Except PyExn (Tally F) :=
  if hashable source then .ok { t.count reason i v with srcRej := bump t.srcRej source }
  else .error .typeError

def Tally.keep (t : Tally F) (i : MsgId) (v : Verdict) : Tally F :=
  { t with outcomes := t.outcomes ++ [(i, v)] }

/-! ## Fetch and extraction -/

/-- What the fetch and the extraction yield for one article. -/
inductive Content where
  | gone
  | missing
  | text (content : Str)
  deriving DecidableEq

/-- `extract_content(htmls.get(url))`: no page, an empty page, no text and an
empty text all count as missing. -/
def extractContent (env : Surroundings) : Option Str → Except PyExn Content
  | none => .ok .missing
  | some [] => .ok .missing
  | some html =>
    match env.extract html with
    | none => .error .extractError
    | some none => .ok .missing
    | some (some []) => .ok .missing
    | some (some content) => .ok (.text content)

def fetchContent (env : Surroundings) (fetched : Fetched) (url : Value F) :
    Except PyExn Content :=
  match url with
  | .str u => if fetched.gone u then .ok .gone else extractContent env (fetched.htmls u)
  | v => if hashable v then .ok .missing else .error .typeError

/-- The loop over `to_fetch`. -/
def extractStep [DecidableEq F] (cfg : Config) (tk : Toolkit F) (env : Surroundings)
    (fetched : Fetched) (acc : Tally F × Direct F) (x : MsgId × Article F) :
    Prog (State F) PyExn (Tally F × Direct F) := do
  let (i, article) := x
  let content ← Prog.lift (fetchContent env fetched (urlOf article))
  match content with
  | .gone => do
    let tally ← Prog.lift (acc.1.reject (lit "not_found") (sourceOf article) i .notFound)
    pure (tally, acc.2)
  | .missing => do
    let tally ← Prog.lift (acc.1.reject (lit "extract_fail") (sourceOf article) i .extractFail)
    let _ ← pushDlq cfg tk env i article (lit "extract_fail") (urlOf article)
    pure (tally, acc.2)
  | .text text => pure (acc.1, acc.2 ++ [(i, article, .str text)])

/-! ## Gates and duplicates -/

/-- What the quality and the language gate decide. -/
inductive Gate (F : Type) where
  | rejected (reason : Str)
  | lang
  | passed (language : Str) (score : F)

/-- `strip_code(content) or content` -/
def probeText (tk : Toolkit F) (content : Str) : Str :=
  if tk.stripCode content = [] then content else tk.stripCode content

/-- The language of the probe, `unknown` when none is detected. -/
def detectLang (tk : Toolkit F) (env : Surroundings) (i : MsgId) (content : Str) :
    Except PyExn Str :=
  match env.detect i (probeText tk content) with
  | .language l => .ok l
  | .undetected => .ok (lit "unknown")
  | .raises => .error .detectError

/-- `assess`, then the language filter. Content that is not a string makes
`assess` raise. -/
def gate (cfg : Config) (tk : Toolkit F) (env : Surroundings) (i : MsgId) (content : Value F) :
    Except PyExn (Gate F) :=
  match content with
  | .str text =>
    match tk.assess text with
    | (false, reason, _) => .ok (.rejected reason)
    | (true, _, score) =>
      match detectLang tk env i text with
      | .error e => .error e
      | .ok language =>
        if language ∈ cfg.langKeep then .ok (.passed language score) else .ok .lang
  | _ => .error .typeError

/-- `url.encode()` -/
def encodeUrl (url : Value F) : Except PyExn Str :=
  match url with
  | .str u => if encodable u then .ok u else .error .unicodeEncodeError
  | _ => .error .attributeError

/-- The tuple appended to `rows`. -/
def rowOf (tk : Toolkit F) (article : Article F) (url content language : Str) (chash : Nat)
    (score : F) : Row F where
  url := url
  urlHash := tk.sha256 url
  title := getField article (lit "title") .null
  contentMd := content
  author := getField article (lit "author") .null
  publishedAt := getField article (lit "published_at") .null
  tags := getField article (lit "tags") (.arr [])
  sourceType := getField article (lit "source_type") (.str (lit "devto"))
  language := language
  contentHash := chash
  qualityScore := score

/-- The text of a content value. -/
def contentText : Value F → Str
  | .str s => s
  | _ => []

/-- The loop of phase 3. -/
def judgeStep [DecidableEq F] (cfg : Config) (tk : Toolkit F) (env : Surroundings)
    (acc : Tally F × List (Row F)) (x : MsgId × Article F × Value F) :
    Prog (State F) PyExn (Tally F × List (Row F)) := do
  let (i, article, content) := x
  let decision ← Prog.lift (gate cfg tk env i content)
  match decision with
  | .rejected reason => do
    let tally ← Prog.lift (acc.1.reject reason (sourceOf article) i (.rejected reason))
    pure (tally, acc.2)
  | .lang => pure (acc.1.count (lit "lang") i .lang, acc.2)
  | .passed language score => do
    let (dup, chash) ← isDuplicate cfg tk env i (contentText content)
    if dup then pure (acc.1.count (lit "dup") i (.dup chash), acc.2)
    else do
      let s ← Prog.read
      if chash ∈ s.seenHashes then pure (acc.1.count (lit "dup") i (.dup chash), acc.2)
      else do
        Prog.update (State.remember cfg.seenMaxlen chash)
        let url ← Prog.lift (encodeUrl (urlOf article))
        pure (acc.1.keep i (.kept chash),
          acc.2 ++ [rowOf tk article url (contentText content) language chash score])

/-! ## Storing -/

/-- `ON CONFLICT (url_hash) DO NOTHING` for one row. -/
def insertRow (table : List (Row F)) (row : Row F) : List (Row F) :=
  if row.urlHash ∈ table.map Row.urlHash then table else table ++ [row]

/-- `execute_values` with pages of 200: the row count of the last page, and the table. -/
def insertPages (table : List (Row F)) (rows : List (Row F)) : Nat × List (Row F) :=
  (Lists.pages 200 rows).foldl (fun acc page =>
    ((page.foldl insertRow acc.2).length - acc.2.length, page.foldl insertRow acc.2)) (0, table)

/-- The committed transaction of `insert_articles`. -/
def State.commit (rows : List (Row F)) (s : State F) : State F :=
  { s with
    articles := (insertPages s.articles rows).2
    inFlight := s.inFlight.filter fun h => decide (h ∉ rows.map Row.contentHash) }

/-- `insert_articles` -/
def insertArticles (env : Surroundings) (rows : List (Row F)) : Prog (State F) PyExn Nat :=
  call .databaseError (env.plan .insert) fun s => ((insertPages s.articles rows).1, s.commit rows)

/-- `by_source`; a source that is a list or a dictionary cannot be a key. -/
def countSources [DecidableEq F] (rows : List (Row F)) : Except PyExn (List (Value F × Nat)) :=
  rows.foldlM (fun d row =>
    if hashable row.sourceType then .ok (bump d row.sourceType) else .error .typeError) []

/-- The counters of a batch that stored something. -/
def countStored [DecidableEq F] (env : Surroundings) (rows : List (Row F)) (stored : Nat) :
    Prog (State F) PyExn Unit :=
  if stored = 0 then pure ()
  else do
    call .redisError (env.plan .incrStored) fun s => ((), s.incrby .stored stored)
    let bySource ← Prog.lift (countSources rows)
    pipeline .redisError (env.plan .storedBySource)
      (bySource.map fun x => State.incrby (.storedBySource x.1) x.2)

/-- The part of `process_batch` under `if rows`: insert, count, index. -/
def storeRows [DecidableEq F] (cfg : Config) (env : Surroundings) (rows : List (Row F)) :
    Prog (State F) PyExn Unit :=
  if rows = [] then pure ()
  else do
    let stored ← insertArticles env rows
    countStored env rows stored
    rows.zipIdx.foldlM (fun _ x => index cfg env x.2 x.1.contentHash) ()

/-- The rejection counters, written when something was rejected. -/
def writeRejections [DecidableEq F] (env : Surroundings) (t : Tally F) :
    Prog (State F) PyExn Unit :=
  if t.stats = [] then pure ()
  else pipeline .redisError (env.plan .rejections)
    (State.incrby .rejected (t.stats.map Prod.snd).sum ::
      (t.stats.map fun x => State.incrby (.rejectedByReason x.1) x.2) ++
      t.srcRej.map fun x => State.incrby (.rejectedBySource x.1) x.2)

/-- `XACK` of every message of the batch. -/
def acknowledge (env : Surroundings) (messages : List Message) (t : Tally F) :
    Prog (State F) PyExn Unit :=
  if messages = [] then pure ()
  else call .redisError (env.plan .xack) fun s =>
    ((), s.xack (messages.map Message.id) t.outcomes)

/-! ## The batch -/

/-- Phases 1 and 2: the tally so far and the articles with their contents. -/
def extractBatch [DecidableEq F] (cfg : Config) (tk : Toolkit F) (env : Surroundings)
    (messages : List Message) : Prog (State F) PyExn (Tally F × Direct F) := do
  let parsed ← Prog.lift (parse cfg messages)
  let (direct, toFetch) ← Prog.lift (splitDirect parsed)
  let fetched ← Prog.lift (match env.fetched with
    | none => .error .fetchError
    | some f => .ok f)
  toFetch.foldlM (extractStep cfg tk env fetched) (.empty, direct)

def processBatch [DecidableEq F] (cfg : Config) (tk : Toolkit F) (env : Surroundings)
    (messages : List Message) : Prog (State F) PyExn Unit := do
  let (tally, extracted) ← extractBatch cfg tk env messages
  let (tally, rows) ← extracted.foldlM (judgeStep cfg tk env) (tally, [])
  storeRows cfg env rows
  writeRejections env tally
  acknowledge env messages tally

end WebSpider.Processor
