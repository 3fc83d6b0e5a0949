import WebSpider.Sources.Source
import WebSpider.Effects.Retry

/-!
# The DEV.to source

`DevTo.FetchSince`. The loop over the attempts to get a page remembers the error of the
last failed attempt, and does not forget it when a later attempt succeeds: the page is
then thrown away and the error returned. So the first decodable response is the result,
and an error means that there was none, exactly when such a response comes with the
first attempt or not at all (`recovers_iff`).
-/

namespace WebSpider.Sources

open Text Effects

namespace DevTo

/-- `devToArticle` -/
structure Item where
  id : Int
  url : Str
  title : Str
  publishedAt : Int
  tagList : Str
  bodyMarkdown : Str
  userName : Str
  deriving DecidableEq

/-- What `encoding/json` makes of a `tag_list` and of an item. -/
structure Json where
  /-- `json.Unmarshal` into a slice of strings; the inner none is a nil slice. -/
  strings : Str → Option (Option (List Str))
  /-- `json.Unmarshal` into a slice of objects: their names. -/
  names : Str → Option (List Str)
  marshal : Item → Str

/-- `parseTags` -/
def parseTags (json : Json) (raw : Str) : Option (List Str) :=
  if raw = [] then none
  else match json.strings raw with
    | some strs => strs
    | none => (json.names raw).map fun names => names.filter fun name => decide (name ≠ [])

/-- The network and the clock during a call: the list requests by attempt, and the body
requests by item and attempt. -/
structure Surroundings where
  untilDate : Str → Option Int
  pages : Nat → Attempt (List Item)
  interrupts : Interrupts
  /-- Whether `bodyLimiter.Wait` returns nil. -/
  limiter : Nat → Nat → Bool
  bodies : Nat → Nat → Attempt Str
  bodyInterrupts : Nat → Interrupts

def maxDevToRetries : Nat := 3

/-- How long the loop waits after a response that is not a success. -/
def retryWait (untilDate : Str → Option Int) (attempt : Nat) (retryAfter : Str) : Int :=
  if parseRetryAfter untilDate retryAfter ≤ 0 then backoffSeconds attempt
  else parseRetryAfter untilDate retryAfter

/-- The text of a failure. -/
def statusError (status : Nat) : Str := lit "devto status " ++ decimal status

/-- The loop of `FetchSince`: `lastErr` and the items after it, or the error it returns. -/
def fetchPage (w : Surroundings) : Nat → Nat → Option Str → Except Str (Option Str × List Item)
  | 0, _, lastErr => .ok (lastErr, [])
  | left + 1, attempt, lastErr =>
    match w.pages attempt with
    | .transportError err =>
      if sleepBackoff (w.interrupts attempt) (backoffSeconds attempt) then
        fetchPage w left (attempt + 1) (some err)
      else .error contextDone
    | .response status retryAfter decoded =>
      if status = 200 then
        match decoded with
        | .error err => .error err
        | .ok items => .ok (lastErr, items)
      else if sleepBackoff (w.interrupts attempt) (retryWait w.untilDate attempt retryAfter) then
        fetchPage w left (attempt + 1) (some (statusError status))
      else .error contextDone

/-- The loop of `fetchBodyMarkdown` for the `k`-th item. -/
def bodyMarkdown (w : Surroundings) (k : Nat) : Nat → Nat → Str
  | 0, _ => []
  | left + 1, attempt =>
    if w.limiter k attempt = false then []
    else match w.bodies k attempt with
      | .transportError _ =>
        if sleepBackoff (w.bodyInterrupts k attempt) (backoffSeconds attempt) then
          bodyMarkdown w k left (attempt + 1)
        else []
      | .response status retryAfter decoded =>
        if status = 200 then
          match decoded with
          | .error _ => []
          | .ok body => body
        else if status ≠ 429 ∧ 400 ≤ status ∧ status < 500 then []
        else if sleepBackoff (w.bodyInterrupts k attempt)
            (retryWait w.untilDate attempt retryAfter) then
          bodyMarkdown w k left (attempt + 1)
        else []

/-- `fetchBodyMarkdown` -/
def fetchBodyMarkdown (w : Surroundings) (k : Nat) : Str := bodyMarkdown w k maxDevToRetries 0

/-- The article of the `k`-th item. -/
def articleOf (fetchBody : Bool) (json : Json) (w : Surroundings) (it : Item) (k : Nat) :
    ArticleRaw where
  url := it.url
  title := it.title
  author := it.userName
  published := it.publishedAt
  tags := parseTags json it.tagList
  sourceType := lit "devto"
  payload := json.marshal it
  contentMd :=
    if it.bodyMarkdown = [] ∧ fetchBody = true ∧ 0 < it.id then fetchBodyMarkdown w k
    else it.bodyMarkdown

/-- One turn of the loop over the items. -/
def collect (fetchBody : Bool) (json : Json) (w : Surroundings) (since : Int)
    (acc : List ArticleRaw × Int) (x : Item × Nat) : List ArticleRaw × Int :=
  if since ≠ 0 ∧ x.1.publishedAt < since then acc
  else (acc.1 ++ [articleOf fetchBody json w x.1 x.2],
    if acc.2 = 0 ∨ x.1.publishedAt < acc.2 then x.1.publishedAt else acc.2)

/-- What `FetchSince` returns for the items of a page. -/
def pageOf (fetchBody : Bool) (json : Json) (w : Surroundings) (since : Int) (items : List Item) :
    Page :=
  if items = [] then ⟨[], 0, true⟩
  else
    let acc := items.zipIdx.foldl (collect fetchBody json w since) ([], 0)
    ⟨acc.1, acc.2, acc.1.isEmpty⟩

/-- `FetchSince` -/
def fetchSince (fetchBody : Bool) (json : Json) (w : Surroundings) (since : Int) :
    Except Str Page := do
  let (lastErr, items) ← fetchPage w maxDevToRetries 0 none
  match lastErr with
  | some err => .error (lit "devto after " ++ decimal maxDevToRetries ++ lit " attempts: " ++ err)
  | none => pure (pageOf fetchBody json w since items)

/-! ## The property and the condition -/

/-- The first response with status 200 among the attempts is the `k`-th, and decodes to
these items. -/
def FirstPage (pages : Nat → Attempt (List Item)) (k : Nat) (items : List Item) : Prop :=
  k < maxDevToRetries ∧ (∃ retryAfter, pages k = .response 200 retryAfter (.ok items)) ∧
    ∀ j < k, ∀ retryAfter decoded, pages j ≠ .response 200 retryAfter decoded

/-- The item is in the window. -/
def inWindow (since : Int) (it : Item) : Bool := decide (since = 0 ∨ since ≤ it.publishedAt)

/-- The first page is the result, as if it had come with the first attempt, and there is
an error only when there is none. -/
structure Recovers (fetchBody : Bool) (json : Json) (w : Surroundings) (since : Int) : Prop where
  result : ∀ k items, FirstPage w.pages k items → ∃ page,
    fetchSince fetchBody json w since = .ok page ∧
    page.articles = (items.zipIdx.filter fun x => inWindow since x.1).map
      (fun x => articleOf fetchBody json w x.1 x.2) ∧
    fetchSince fetchBody json { w with pages := fun _ => .response 200 [] (.ok items) } since =
      .ok page
  error : (∃ err, fetchSince fetchBody json w since = .error err) ↔
    ¬ ∃ k items, FirstPage w.pages k items

/-- A page comes with the first attempt or not at all. -/
def Immediate (pages : Nat → Attempt (List Item)) : Prop :=
  ∀ k items, FirstPage pages k items → k = 0

/-! ## The items -/

theorem collect_filter (fetchBody : Bool) (json : Json) (w : Surroundings) (since : Int)
    (xs : List (Item × Nat)) (acc : List ArticleRaw × Int) :
    (xs.foldl (collect fetchBody json w since) acc).1 =
      acc.1 ++ (xs.filter fun x => inWindow since x.1).map
        fun x => articleOf fetchBody json w x.1 x.2 := by
  induction xs generalizing acc with
  | nil => simp
  | cons x xs ih =>
    rw [List.foldl_cons, ih, collect]
    by_cases hold : since ≠ 0 ∧ x.1.publishedAt < since
    · have hout : inWindow since x.1 = false := by
        simp only [inWindow, decide_eq_false_iff_not]
        omega
      rw [if_pos hold, List.filter_cons_of_neg (by simp [hout])]
    · have hin : inWindow since x.1 = true := by
        simp only [inWindow, decide_eq_true_eq]
        omega
      rw [if_neg hold, List.filter_cons_of_pos (by simp [hin]), List.map_cons, List.append_assoc]
      rfl

theorem pageOf_articles (fetchBody : Bool) (json : Json) (w : Surroundings) (since : Int)
    (items : List Item) : (pageOf fetchBody json w since items).articles =
      (items.zipIdx.filter fun x => inWindow since x.1).map
        fun x => articleOf fetchBody json w x.1 x.2 := by
  unfold pageOf
  split
  · rename_i hnil
    rw [hnil]
    rfl
  · exact collect_filter fetchBody json w since items.zipIdx ([], 0)

/-! ## The attempts -/

/-- What an attempt decides: a response with status 200 ends the loop. -/
def decision (pages : Nat → Attempt (List Item)) (attempt : Nat) : Option (Except Str (List Item)) :=
  match pages attempt with
  | .transportError _ => none
  | .response status _ decoded => if status = 200 then some decoded else none

theorem decision_eq_some {pages : Nat → Attempt (List Item)} {k : Nat}
    {decoded : Except Str (List Item)} :
    decision pages k = some decoded ↔ ∃ retryAfter, pages k = .response 200 retryAfter decoded := by
  unfold decision
  cases hk : pages k with
  | transportError err => simp
  | response status retryAfter decoded' =>
    by_cases hstatus : status = 200
    · subst hstatus
      simp
    · simp [hstatus]

theorem firstPage_iff {pages : Nat → Attempt (List Item)} {k : Nat} {items : List Item} :
    FirstPage pages k items ↔
      firstDecision (decision pages) 0 maxDevToRetries = some (k, .ok items) := by
  have hnone (j : Nat) : (∀ retryAfter decoded, pages j ≠ .response 200 retryAfter decoded) ↔
      decision pages j = none := by
    rw [Option.eq_none_iff_forall_ne_some]
    constructor
    · intro h decoded hdecoded
      obtain ⟨retryAfter, hj⟩ := decision_eq_some.mp hdecoded
      exact h retryAfter decoded hj
    · exact fun h retryAfter decoded hj => h decoded (decision_eq_some.mpr ⟨retryAfter, hj⟩)
  rw [firstDecision_eq_some, FirstPage, decision_eq_some]
  simp only [hnone, Nat.zero_le, true_and, Nat.zero_add, true_implies]

/-- The error a failed attempt leaves in `lastErr`. -/
def failureText : Attempt (List Item) → Str
  | .transportError err => err
  | .response status _ _ => statusError status

/-- `lastErr` when the attempts from `start` to before `k` have failed. -/
def remembered (pages : Nat → Attempt (List Item)) (start k : Nat) (lastErr : Option Str) :
    Option Str :=
  if k = start then lastErr else some (failureText (pages (k - 1)))

/-- What the loop gives for the first decision among its attempts. -/
def decided (pages : Nat → Attempt (List Item)) (start left : Nat) (lastErr : Option Str) :
    Option (Nat × Except Str (List Item)) → Except Str (Option Str × List Item)
  | none => .ok (remembered pages start (start + left) lastErr, [])
  | some (_, .error err) => .error err
  | some (k, .ok items) => .ok (remembered pages start k lastErr, items)

theorem remembered_step {pages : Nat → Attempt (List Item)} {start k : Nat} (hk : start < k)
    (lastErr : Option Str) :
    remembered pages (start + 1) k (some (failureText (pages start))) =
      remembered pages start k lastErr := by
  unfold remembered
  rw [if_neg (by omega : ¬ k = start)]
  split
  · rename_i hsame
    rw [hsame, Nat.add_sub_cancel]
  · rfl

theorem decided_step {pages : Nat → Attempt (List Item)} {start left : Nat} {lastErr : Option Str} :
    decided pages (start + 1) left (some (failureText (pages start)))
        (firstDecision (decision pages) (start + 1) left) =
      decided pages start (left + 1) lastErr (firstDecision (decision pages) (start + 1) left) := by
  cases hfirst : firstDecision (decision pages) (start + 1) left with
  | none =>
    have hend : start + 1 + left = start + (left + 1) := by omega
    simp only [decided, hend]
    rw [remembered_step (by omega)]
  | some d =>
    obtain ⟨k, decoded⟩ := d
    have hk := (firstDecision_eq_some.mp hfirst).1.1
    cases decoded with
    | error err => rfl
    | ok items =>
      simp only [decided]
      rw [remembered_step (by omega)]

/-- The loop gives what its first decision says, and remembers the last failure before
it. -/
theorem fetchPage_decided {w : Surroundings} (hctx : ∀ attempt d, w.interrupts attempt d = false)
    (left attempt : Nat) (lastErr : Option Str) :
    fetchPage w left attempt lastErr =
      decided w.pages attempt left lastErr (firstDecision (decision w.pages) attempt left) := by
  induction left generalizing attempt lastErr with
  | zero => simp [fetchPage, firstDecision, decided, remembered]
  | succ left ih =>
    rw [fetchPage, firstDecision]
    cases hattempt : w.pages attempt with
    | transportError err =>
      have hnone : decision w.pages attempt = none := by simp [decision, hattempt]
      have htext : err = failureText (w.pages attempt) := by rw [hattempt]; rfl
      simp only [sleepBackoff_uninterrupted (hctx attempt), if_true, hnone]
      rw [ih, htext, decided_step]
    | response status retryAfter decoded =>
      by_cases hstatus : status = 200
      · have hsome : decision w.pages attempt = some decoded := by
          simp [decision, hattempt, hstatus]
        simp only [hstatus, if_true, hsome]
        cases decoded with
        | error err => rfl
        | ok items => simp [decided, remembered]
      · have hnone : decision w.pages attempt = none := by simp [decision, hattempt, hstatus]
        have htext : statusError status = failureText (w.pages attempt) := by rw [hattempt]; rfl
        simp only [if_neg hstatus, sleepBackoff_uninterrupted (hctx attempt), if_true, hnone]
        rw [ih, htext, decided_step]

/-- A page of the first attempt is returned. -/
theorem fetchSince_first (fetchBody : Bool) (json : Json) {w : Surroundings}
    (hctx : ∀ attempt d, w.interrupts attempt d = false) (since : Int) {items : List Item}
    (h : FirstPage w.pages 0 items) :
    fetchSince fetchBody json w since = .ok (pageOf fetchBody json w since items) := by
  rw [fetchSince, fetchPage_decided hctx, firstPage_iff.mp h]
  rfl

/-- A page of a later attempt is thrown away. -/
theorem fetchSince_later (fetchBody : Bool) (json : Json) {w : Surroundings}
    (hctx : ∀ attempt d, w.interrupts attempt d = false) (since : Int) {k : Nat} {items : List Item}
    (h : FirstPage w.pages k items) (hk : 0 < k) :
    ∃ err, fetchSince fetchBody json w since = .error err := by
  rw [fetchSince, fetchPage_decided hctx, firstPage_iff.mp h, decided, remembered,
    if_neg (by omega)]
  exact ⟨_, rfl⟩

/-- Without a page there is an error. -/
theorem fetchSince_none (fetchBody : Bool) (json : Json) {w : Surroundings}
    (hctx : ∀ attempt d, w.interrupts attempt d = false) (since : Int)
    (h : ¬ ∃ k items, FirstPage w.pages k items) :
    ∃ err, fetchSince fetchBody json w since = .error err := by
  rw [fetchSince, fetchPage_decided hctx]
  cases hfirst : firstDecision (decision w.pages) 0 maxDevToRetries with
  | none => exact ⟨_, rfl⟩
  | some d =>
    obtain ⟨k, decoded⟩ := d
    cases decoded with
    | error err => exact ⟨err, rfl⟩
    | ok items => exact (h ⟨k, items, firstPage_iff.mpr hfirst⟩).elim

theorem recovers_of_immediate {fetchBody : Bool} {json : Json} {w : Surroundings}
    (hctx : ∀ attempt d, w.interrupts attempt d = false) {since : Int} (h : Immediate w.pages) :
    Recovers fetchBody json w since := by
  refine ⟨fun k items hpage => ?_, fun ⟨err, herr⟩ => ?_, fetchSince_none fetchBody json hctx since⟩
  · obtain rfl := h k items hpage
    have hfirst : FirstPage (fun _ => .response 200 [] (.ok items)) 0 items :=
      ⟨by decide, ⟨[], rfl⟩, fun j hj => by omega⟩
    refine ⟨pageOf fetchBody json w since items, fetchSince_first fetchBody json hctx since hpage,
      pageOf_articles fetchBody json w since items, ?_⟩
    exact fetchSince_first (w := { w with pages := fun _ => .response 200 [] (.ok items) })
      fetchBody json hctx since hfirst
  · rintro ⟨k, items, hpage⟩
    obtain rfl := h k items hpage
    rw [fetchSince_first fetchBody json hctx since hpage] at herr
    cases herr

theorem immediate_of_recovers {fetchBody : Bool} {json : Json} {w : Surroundings}
    (hctx : ∀ attempt d, w.interrupts attempt d = false) {since : Int}
    (h : Recovers fetchBody json w since) : Immediate w.pages := by
  intro k items hpage
  by_contra hk
  obtain ⟨page, hok, -⟩ := h.result k items hpage
  obtain ⟨err, herr⟩ := fetchSince_later fetchBody json hctx since hpage (Nat.pos_of_ne_zero hk)
  rw [hok] at herr
  cases herr

/-- While the context is not cancelled, the first page is the result and an error means
that there was none exactly when a page comes with the first attempt or not at all. -/
theorem recovers_iff (fetchBody : Bool) (json : Json) (w : Surroundings)
    (hctx : ∀ attempt d, w.interrupts attempt d = false) (since : Int) :
    Recovers fetchBody json w since ↔ Immediate w.pages :=
  ⟨immediate_of_recovers hctx, recovers_of_immediate hctx⟩

/-! ## A page with the first attempt, and one after a failure -/

/-- An item with its body. -/
def sampleItem : Item where
  id := 1
  url := lit "https://dev.to/a/1"
  title := lit "Retries"
  publishedAt := 1
  tagList := []
  bodyMarkdown := lit "Use exponential backoff."
  userName := lit "a"

/-- Tags are not listed, and payloads are empty objects. -/
def sampleJson : Json := ⟨fun _ => none, fun _ => none, fun _ => lit "\x7b\x7d"⟩

/-- The page comes after some failures with status 503. -/
def recoveringAfter (failures : Nat) : Surroundings where
  untilDate := fun _ => none
  pages := fun attempt =>
    if attempt < failures then .response 503 [] (.error []) else .response 200 [] (.ok [sampleItem])
  interrupts := fun _ _ => false
  limiter := fun _ _ => true
  bodies := fun _ _ => .response 404 [] (.error [])
  bodyInterrupts := fun _ _ _ => false

theorem recovers_iff_at_once :
    Recovers true sampleJson (recoveringAfter 0) 0 ↔ Immediate (recoveringAfter 0).pages :=
  recovers_iff true sampleJson (recoveringAfter 0) (fun _ _ => rfl) 0

/-- The second attempt gives a page, and the error of the first one is returned. -/
theorem page_thrown_away :
    fetchSince true sampleJson (recoveringAfter 1) 0 =
        .error (lit "devto after 3 attempts: devto status 503") ∧
      ¬ Recovers true sampleJson (recoveringAfter 1) 0 := by
  refine ⟨by decide +kernel, fun h => ?_⟩
  have hpage : FirstPage (recoveringAfter 1).pages 1 [sampleItem] := by
    refine ⟨by decide, ⟨[], rfl⟩, fun j hj retryAfter decoded hok => ?_⟩
    obtain rfl : j = 0 := by omega
    cases hok
  exact absurd (immediate_of_recovers (fun _ _ => rfl) h 1 [sampleItem] hpage) (by decide)

end DevTo

end WebSpider.Sources
