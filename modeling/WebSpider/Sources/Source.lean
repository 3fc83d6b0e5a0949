import WebSpider.Text.Decimal

/-!
# The sources of the crawler

What `source.go` and the retry helpers of `devto.go` share: the articles and pages a
source gives, and how long it waits between two attempts. Times are nanoseconds since
the zero time, and durations nanoseconds.
-/

namespace WebSpider.Sources

open Text

/-- `ArticleRaw` -/
structure ArticleRaw where
  url : Str
  title : Str
  author : Str
  published : Int
  /-- A nil slice is none. -/
  tags : Option (List Str)
  sourceType : Str
  payload : Str
  contentMd : Str
  deriving DecidableEq

/-- What `FetchSince` returns beside its error. -/
structure Page where
  articles : List ArticleRaw
  oldest : Int
  empty : Bool
  deriving DecidableEq

/-- How an HTTP request ends: the transport fails, or there is a response with a status,
a `Retry-After` header and a body, which may be decoded. -/
inductive Attempt (α : Type) where
  | transportError (err : Str)
  | response (status : Nat) (retryAfter : Str) (decoded : Except Str α)

/-- Whether the context is done before a sleep is over, for each attempt and duration. -/
abbrev Interrupts := Nat → Int → Bool

/-- `strconv.Atoi` -/
def atoi (s : Str) : Option Int :=
  let value : Option Int :=
    match s with
    | 45 :: digits => (readDecimal digits).map fun n => -(n : Int)
    | 43 :: digits => (readDecimal digits).map fun n => (n : Int)
    | digits => (readDecimal digits).map fun n => (n : Int)
  value.filter fun n => decide (-2 ^ 63 ≤ n ∧ n < 2 ^ 63)

/-- `parseRetryAfter`; `untilDate` is the time from now until an HTTP date. The product
with a second is one of 64 bits. -/
def parseRetryAfter (untilDate : Str → Option Int) (v : Str) : Int :=
  if v = [] then 0
  else match atoi v with
    | some secs => if secs ≤ 0 then 0 else (secs * 10 ^ 9).bmod (2 ^ 64)
    | none =>
      match untilDate v with
      | some d => if 0 < d then d else 0
      | none => 0

/-- `backoffSeconds` -/
def backoffSeconds (attempt : Nat) : Int := 2 ^ min attempt 5 * 10 ^ 9

/-- `sleepBackoff`: whether the sleep is not cut short. -/
def sleepBackoff (interrupted : Int → Bool) (d : Int) : Bool :=
  !interrupted (if d ≤ 0 then 5 * 10 ^ 8 else d)

/-- The error of a context that is done. -/
def contextDone : Str := lit "context canceled"

theorem sleepBackoff_uninterrupted {interrupted : Int → Bool} (h : ∀ d, interrupted d = false)
    (d : Int) : sleepBackoff interrupted d = true := by
  rw [sleepBackoff, h]
  rfl

end WebSpider.Sources
