import WebSpider.Sources.Source
import WebSpider.Json.Dumps
import WebSpider.Sft.Pairs
import Mathlib.Data.List.Perm.Subperm

/-!
# The Stack Exchange source

`StackExchange.FetchSince`. The answers of all keepers of a page come in one call that
lists at most 100 of them, the highest scores first; `has_more` is decoded and not
looked at. So a question gets the best of those of its answers that are among the first
100, and a document without an answer section is written when that answer converts to
nothing. The documents are those of the best answers of the site exactly when neither
happens to a question that can be converted (`selects_iff`).
-/

namespace WebSpider.Sources.StackExchange

open Text Sft

/-! ## Questions, answers and the site -/

/-- `seQuestion` -/
structure SeQuestion where
  questionId : Int
  title : Str
  body : Str
  link : Str
  score : Int
  creationDate : Int
  isAnswered : Bool
  tags : Option (List Str)
  ownerName : Str
  deriving DecidableEq

/-- `seAnswer` -/
structure SeAnswer where
  answerId : Int
  questionId : Int
  body : Str
  score : Int
  accepted : Bool
  deriving DecidableEq

/-- `seEnvelope` without an error. -/
structure Envelope (α : Type) where
  items : List α
  hasMore : Bool

/-- The questions of the site with the seconds of their last activity, latest first, and
its answers, highest score first. -/
structure Site where
  questions : List (SeQuestion × Int)
  answers : List SeAnswer
  distinct : (questions.map fun x => x.1.questionId).Nodup
  byActivity : questions.Pairwise fun x y => y.2 ≤ x.2
  byVotes : answers.Pairwise fun a b => b.score ≤ a.score

/-- A page of a listing. -/
def paged {α : Type} (page size : Nat) (xs : List α) : Envelope α :=
  ⟨(xs.drop ((page - 1) * size)).take size, decide ((page - 1) * size + size < xs.length)⟩

/-- A question as the default filter gives it. -/
def SeQuestion.bare (q : SeQuestion) : SeQuestion := { q with body := [] }

namespace Site

/-- `/questions` by activity from `min` on, with the default filter. -/
def listing (site : Site) (page size : Nat) (min : Option Int) : Envelope SeQuestion :=
  paged page size ((site.questions.filter fun x => match min with
    | none => true
    | some since => decide (since ≤ x.2)).map fun x => x.1.bare)

/-- `/questions/{ids}` with bodies. -/
def bodies (site : Site) (size : Nat) (ids : List Int) : Envelope SeQuestion :=
  paged 1 size ((site.questions.map Prod.fst).filter fun q => decide (q.questionId ∈ ids))

/-- `/questions/{ids}/answers` by votes, with bodies. -/
def answersTo (site : Site) (size : Nat) (ids : List Int) : Envelope SeAnswer :=
  paged 1 size (site.answers.filter fun a => decide (a.questionId ∈ ids))

end Site

/-! ## Calls -/

/-- How an attempt ends: the transport fails, the body is no JSON, the envelope has an
error, or the items are there. -/
inductive Reply where
  | transportError (err : Str)
  | undecodable (err : Str)
  | refused (errorId backoff : Int) (name message : Str)
  | answered

def maxSERetries : Nat := 3

/-- The text of an error of the API. -/
def apiError (errorId : Int) (name message : Str) : Str :=
  lit "se api error " ++ Json.dumpInt errorId ++ lit " (" ++ name ++ lit "): " ++ message

/-- The loop of `getJSON`. -/
def getJson {α : Type} (replies : Nat → Reply) (interrupts : Interrupts) (env : Envelope α) :
    Nat → Nat → Str → Except Str (List α)
  | 0, _, lastErr =>
    .error (lit "se after " ++ decimal maxSERetries ++ lit " attempts: " ++ lastErr)
  | left + 1, attempt, _ =>
    match replies attempt with
    | .transportError err =>
      if sleepBackoff (interrupts attempt) (backoffSeconds attempt) then
        getJson replies interrupts env left (attempt + 1) err
      else .error contextDone
    | .undecodable err =>
      if sleepBackoff (interrupts attempt) (backoffSeconds attempt) then
        getJson replies interrupts env left (attempt + 1) err
      else .error contextDone
    | .refused errorId backoff name message =>
      if sleepBackoff (interrupts attempt) ((max backoff 5 * 10 ^ 9).bmod (2 ^ 64)) then
        getJson replies interrupts env left (attempt + 1) (apiError errorId name message)
      else .error contextDone
    | .answered => .ok env.items

/-- The replies to one call, and the interruptions of its sleeps. -/
structure Line where
  replies : Nat → Reply
  interrupts : Interrupts

/-- The three calls of `FetchSince`. -/
structure Network where
  listing : Line
  bodies : Line
  answers : Line

def Line.get {α : Type} (l : Line) (env : Envelope α) : Except Str (List α) :=
  getJson l.replies l.interrupts env maxSERetries 0 []

/-! ## FetchSince -/

/-- The settings, the converter, and `json.Marshal` of a string. -/
structure Config where
  site : Str
  minScore : Int
  requireAnswered : Bool
  conv : Converter
  quote : Str → Str

/-- `time.Unix(s, 0)` -/
def unixTime (seconds : Int) : Int := (seconds + 62135596800) * 10 ^ 9

/-- The oldest creation time of the listed questions. -/
def oldestOf (questions : List SeQuestion) : Int :=
  questions.foldl (fun oldest q =>
    if oldest = 0 ∨ unixTime q.creationDate < oldest then unixTime q.creationDate else oldest) 0

/-- The triage of a listed question. -/
def keeps (s : Config) (q : SeQuestion) : Bool :=
  !decide (q.score < s.minScore) && !(s.requireAnswered && !q.isAnswered)

/-- The map of the bodies: the last one of an id counts. -/
def bodyMap (full : List SeQuestion) : Int → Str :=
  full.foldl (fun m q => fun id => if id = q.questionId then q.body else m id) fun _ => []

/-- The map of the answers. -/
def answerMap (items : List SeAnswer) : Int → List SeAnswer :=
  items.foldl (fun m a => fun id => if id = a.questionId then m id ++ [a] else m id) fun _ => []

/-- An answer as `bestAnswer` and `composeDoc` look at it. -/
def SeAnswer.answer (a : SeAnswer) : Answer := ⟨a.score, a.accepted, a.body⟩

/-- `json.Marshal` of the payload, whose keys are sorted. -/
def payloadOf (s : Config) (q : SeQuestion) : Str :=
  lit "\x7b\"question_id\":" ++ (Json.dumpInt q.questionId ++ 44 :: (lit "\"score\":" ++
    (Json.dumpInt q.score ++ 44 :: (lit "\"site\":" ++ (s.quote s.site ++ lit "\x7d")))))

def articleOf (s : Config) (q : SeQuestion) (content : Str) : ArticleRaw where
  url := q.link
  title := s.conv.unescapeString q.title
  author := s.conv.unescapeString q.ownerName
  published := unixTime q.creationDate
  tags := q.tags
  sourceType := lit "stackexchange"
  payload := payloadOf s q
  contentMd := content

/-- The document of a keeper, if there is one. -/
def documentOf (s : Config) (bodies : Int → Str) (answers : Int → List SeAnswer) (q : SeQuestion) :
    Option ArticleRaw :=
  (composeDoc s.conv s.requireAnswered ⟨q.title, bodies q.questionId⟩
    ((answers q.questionId).map SeAnswer.answer)).map (articleOf s q)

/-- `sort.SliceStable`, the latest first. -/
def sortByPublished (articles : List ArticleRaw) : List ArticleRaw :=
  articles.mergeSort fun a b => decide (b.published ≤ a.published)

/-- A call of `FetchSince`; the start of the window is in seconds, if there is one. -/
structure Request where
  page : Nat
  perPage : Nat
  since : Option Int

/-- The page of the listing. -/
def Request.listed (r : Request) (site : Site) : Envelope SeQuestion :=
  site.listing r.page (min r.perPage 100) r.since

def fetchSince (s : Config) (site : Site) (net : Network) (r : Request) : Except Str Page := do
  let questions ← net.listing.get (r.listed site)
  if questions = [] then pure ⟨[], 0, true⟩
  else
    let keepers := questions.filter (keeps s)
    if keepers = [] then pure ⟨[], oldestOf questions, false⟩
    else
      let ids := keepers.map SeQuestion.questionId
      let full ← net.bodies.get (site.bodies 100 ids)
      let items ← net.answers.get (site.answersTo 100 ids)
      let out := keepers.filterMap (documentOf s (bodyMap full) (answerMap items))
      pure ⟨sortByPublished out, oldestOf questions, false⟩

/-! ## The property and the condition -/

/-- The keepers of a call. -/
def keepersOf (s : Config) (site : Site) (r : Request) : List SeQuestion :=
  (r.listed site).items.filter (keeps s)

/-- All answers of a question on the site. -/
def allAnswers (site : Site) (q : SeQuestion) : List Answer :=
  (site.answers.filter fun a => decide (a.questionId = q.questionId)).map SeAnswer.answer

/-- The answers of a question among the first hundred to all keepers. -/
def listedAnswers (s : Config) (site : Site) (r : Request) (q : SeQuestion) : List Answer :=
  (((site.answers.filter fun a =>
    decide (a.questionId ∈ (keepersOf s site r).map SeQuestion.questionId)).take 100).filter
      fun a => decide (a.questionId = q.questionId)).map SeAnswer.answer

/-- A text in Markdown, if it can be converted and is not blank. -/
def markdown (conv : Converter) (html : Str) : Option Str :=
  (conv.convertString html).bind fun md => if trimSpace md = [] then none else some (trimSpace md)

/-- The document of a question with an answer. -/
def documentWith (s : Config) (q : SeQuestion) (qMd aMd : Str) : Str :=
  questionPart (s.conv.unescapeString q.title) qMd ++ answerPart (some aMd)

/-- The keepers of the site. -/
def Keeps (s : Config) (site : Site) (r : Request) (q : SeQuestion) : Prop :=
  (∃ activity, (q, activity) ∈ site.questions) ∧ q.bare ∈ keepersOf s site r

/-- Each keeper whose text and best answer have Markdown is written with that answer,
and no document lacks its answer. -/
structure Selects (s : Config) (site : Site) (net : Network) (r : Request) : Prop where
  emits : ∀ q, Keeps s site r q → ∀ a, bestAnswer (allAnswers site q) = some a →
    ∀ qMd aMd, s.conv.convertString q.body = some qMd → trimSpace qMd ≠ [] →
      s.conv.convertString a.body = some aMd → trimSpace aMd ≠ [] →
        ∃ page, fetchSince s site net r = .ok page ∧
          articleOf s q (documentWith s q qMd aMd) ∈ page.articles
  answered : ∀ page, fetchSince s site net r = .ok page → ∀ q, Keeps s site r q →
    ∀ content, articleOf s q content ∈ page.articles →
      ∃ qMd aMd, s.conv.convertString q.body = some qMd ∧ trimSpace aMd ≠ [] ∧
        content = documentWith s q qMd aMd

/-- For each keeper whose text has Markdown: its best answer, if that has Markdown, is
among the first hundred answers or has the Markdown of the best one there; and the best
one there has Markdown. -/
def Reached (s : Config) (site : Site) (r : Request) : Prop :=
  ∀ q, Keeps s site r q → markdown s.conv q.body ≠ none →
    (∀ a aMd, bestAnswer (allAnswers site q) = some a → markdown s.conv a.body = some aMd →
      a ∈ listedAnswers s site r q ∨
        (bestAnswer (listedAnswers s site r q)).bind (fun b => markdown s.conv b.body) = some aMd) ∧
    ∀ b, bestAnswer (listedAnswers s site r q) = some b → markdown s.conv b.body ≠ none

/-- Each call is answered by one of its attempts, and no sleep is interrupted. -/
structure Answered (l : Line) : Prop where
  reply : ∃ k < maxSERetries, l.replies k = .answered
  uninterrupted : ∀ attempt d, l.interrupts attempt d = false

/-! ## The best answer -/

/-- The better one of the best answer so far and one with a positive score. -/
def better (b : Option Answer) (x : Answer) : Answer :=
  b.elim x fun c => if c.score < x.score then x else c

theorem bestFrom_cons (b : Option Answer) (x : Answer) (xs : List Answer) :
    bestFrom b (x :: xs) = if x.accepted then some x
      else if x.score ≤ 0 then bestFrom b xs else bestFrom (some (better b x)) xs := by
  cases b <;> rfl

theorem score_le_better (b : Option Answer) (x : Answer) :
    x.score ≤ (better b x).score ∧ ∀ c, b = some c → c.score ≤ (better b x).score := by
  cases b with
  | none => exact ⟨Int.le_refl _, fun c hc => by cases hc⟩
  | some c =>
    change x.score ≤ (if c.score < x.score then x else c).score ∧
      ∀ d, some c = some d → d.score ≤ (if c.score < x.score then x else c).score
    split
    · refine ⟨Int.le_refl _, fun d hd => ?_⟩
      cases hd
      omega
    · refine ⟨by omega, fun d hd => ?_⟩
      cases hd
      exact Int.le_refl _

theorem bestFrom_accepted {xs : List Answer} (h : ∃ a ∈ xs, a.accepted = true) (b : Option Answer)
    (ys : List Answer) : bestFrom b (xs ++ ys) = bestFrom b xs := by
  induction xs generalizing b with
  | nil =>
    obtain ⟨a, ha, -⟩ := h
    cases ha
  | cons x xs ih =>
    rw [List.cons_append, bestFrom_cons, bestFrom_cons]
    by_cases hx : x.accepted = true
    · rw [if_pos hx, if_pos hx]
    · have hrest : ∃ a ∈ xs, a.accepted = true := by
        obtain ⟨a, ha, haccepted⟩ := h
        rcases List.mem_cons.mp ha with rfl | ha
        · exact (hx haccepted).elim
        · exact ⟨a, ha, haccepted⟩
      rw [if_neg hx, if_neg hx, ih hrest, ih hrest]

theorem bestFrom_append {xs : List Answer} (h : ∀ a ∈ xs, a.accepted = false) (b : Option Answer)
    (ys : List Answer) : bestFrom b (xs ++ ys) = bestFrom (bestFrom b xs) ys := by
  induction xs generalizing b with
  | nil => cases b <;> rfl
  | cons x xs ih =>
    have hrest : ∀ a ∈ xs, a.accepted = false := fun a ha => h a (List.mem_cons_of_mem _ ha)
    have hx : ¬ x.accepted = true := by simp [h x List.mem_cons_self]
    rw [List.cons_append, bestFrom_cons, bestFrom_cons, if_neg hx, if_neg hx, ih hrest, ih hrest]
    split <;> rfl

/-- What replaces an answer is accepted or has a higher positive score. -/
theorem bestFrom_better {xs : List Answer} {b : Option Answer} {a : Answer}
    (h : bestFrom b xs = some a) :
    b = some a ∨ a.accepted = true ∨ 0 < a.score ∧ ∀ c, b = some c → c.score < a.score := by
  induction xs generalizing b with
  | nil =>
    left
    cases b with
    | none => cases h
    | some b => exact h
  | cons x xs ih =>
    rw [bestFrom_cons] at h
    split at h
    · rename_i hx
      cases h
      exact Or.inr (Or.inl hx)
    · split at h
      · exact ih h
      · rename_i hpositive
        obtain ⟨hx, hb⟩ := score_le_better b x
        rcases ih h with hsame | haccepted | ⟨hscore, hbetter⟩
        · obtain rfl := Option.some.inj hsame
          cases b with
          | none => exact Or.inr (Or.inr ⟨by omega, fun c hc => by cases hc⟩)
          | some c =>
            by_cases hless : c.score < x.score
            · have hnew : better (some c) x = x := if_pos hless
              rw [hnew]
              refine Or.inr (Or.inr ⟨by omega, fun d hd => ?_⟩)
              cases hd
              exact hless
            · exact Or.inl (congrArg some (if_neg hless : better (some c) x = c).symm)
        · exact Or.inr (Or.inl haccepted)
        · refine Or.inr (Or.inr ⟨hscore, fun c hc => ?_⟩)
          have := hb c hc
          have := hbetter _ rfl
          omega

/-- Without an accepted answer the score of the best is at least each positive one. -/
theorem bestFrom_score {xs : List Answer} (h : ∀ a ∈ xs, a.accepted = false) (b : Option Answer) :
    (∀ c, b = some c → ∃ d, bestFrom b xs = some d ∧ c.score ≤ d.score) ∧
      ∀ a ∈ xs, 0 < a.score → ∃ d, bestFrom b xs = some d ∧ a.score ≤ d.score := by
  induction xs generalizing b with
  | nil =>
    refine ⟨fun c hc => ⟨c, ?_, Int.le_refl _⟩, fun a ha => by cases ha⟩
    rw [hc]
    rfl
  | cons x xs ih =>
    have hrest : ∀ a ∈ xs, a.accepted = false := fun a ha => h a (List.mem_cons_of_mem _ ha)
    have hx : ¬ x.accepted = true := by simp [h x List.mem_cons_self]
    rw [bestFrom_cons, if_neg hx]
    by_cases hscore : x.score ≤ 0
    · rw [if_pos hscore]
      refine ⟨(ih hrest b).1, fun a ha hpositive => ?_⟩
      rcases List.mem_cons.mp ha with rfl | ha
      · omega
      · exact (ih hrest b).2 a ha hpositive
    · rw [if_neg hscore]
      obtain ⟨hkept, hothers⟩ := ih hrest (some (better b x))
      obtain ⟨d, hd, hle⟩ := hkept _ rfl
      obtain ⟨hnew, hold⟩ := score_le_better b x
      refine ⟨fun c hc => ⟨d, hd, Int.le_trans (hold c hc) hle⟩, fun a ha hpositive => ?_⟩
      rcases List.mem_cons.mp ha with rfl | ha
      · exact ⟨d, hd, Int.le_trans hnew hle⟩
      · exact hothers a ha hpositive

/-- A best answer that is listed is the best of those listed. -/
theorem bestAnswer_of_prefix {xs ys : List Answer} {a : Answer}
    (h : bestAnswer (xs ++ ys) = some a) (ha : a ∈ xs) : bestAnswer xs = some a := by
  unfold bestAnswer at *
  by_cases haccepted : ∃ a ∈ xs, a.accepted = true
  · rwa [bestFrom_accepted haccepted] at h
  · have hnone : ∀ a ∈ xs, a.accepted = false := by
      intro a ha
      cases hx : a.accepted with
      | false => rfl
      | true => exact (haccepted ⟨a, ha, hx⟩).elim
    rw [bestFrom_append hnone] at h
    rcases bestFrom_better h with hsame | hyes | ⟨hpositive, hbetter⟩
    · exact hsame
    · rw [hnone a ha] at hyes
      cases hyes
    · obtain ⟨d, hd, hle⟩ := (bestFrom_score hnone none).2 a ha hpositive
      have := hbetter d hd
      omega

/-! ## The calls -/

theorem getJson_answered {α : Type} {replies : Nat → Reply} {interrupts : Interrupts}
    (h : ∀ attempt d, interrupts attempt d = false) (env : Envelope α) (left attempt : Nat)
    (lastErr : Str) (hreply : ∃ k, attempt ≤ k ∧ k < attempt + left ∧ replies k = .answered) :
    getJson replies interrupts env left attempt lastErr = .ok env.items := by
  induction left generalizing attempt lastErr with
  | zero =>
    obtain ⟨k, hle, hlt, -⟩ := hreply
    omega
  | succ left ih =>
    obtain ⟨k, hle, hlt, hk⟩ := hreply
    have hlater (hne : replies attempt ≠ .answered) :
        ∃ k, attempt + 1 ≤ k ∧ k < attempt + 1 + left ∧ replies k = .answered := by
      have hother : k ≠ attempt := by
        rintro rfl
        exact hne hk
      exact ⟨k, by omega, by omega, hk⟩
    rw [getJson]
    cases hattempt : replies attempt with
    | answered => rfl
    | transportError err =>
      simp only [sleepBackoff_uninterrupted (h attempt), if_true]
      exact ih _ _ (hlater (by simp [hattempt]))
    | undecodable err =>
      simp only [sleepBackoff_uninterrupted (h attempt), if_true]
      exact ih _ _ (hlater (by simp [hattempt]))
    | refused errorId backoff name message =>
      simp only [sleepBackoff_uninterrupted (h attempt), if_true]
      exact ih _ _ (hlater (by simp [hattempt]))

/-- An answered call gives the items, whatever failed before. -/
theorem Answered.get {α : Type} {l : Line} (h : Answered l) (env : Envelope α) :
    l.get env = .ok env.items := by
  obtain ⟨k, hk, hanswered⟩ := h.reply
  exact getJson_answered h.uninterrupted env maxSERetries 0 [] ⟨k, Nat.zero_le k, by omega, hanswered⟩

/-! ## The maps -/

theorem bodyMap_of_mem {full : List SeQuestion} (h : (full.map SeQuestion.questionId).Nodup)
    {q : SeQuestion} (hq : q ∈ full) : bodyMap full q.questionId = q.body := by
  induction full using List.reverseRecOn with
  | nil => cases hq
  | append_singleton full x ih =>
    rw [List.map_append, List.nodup_append] at h
    rw [bodyMap, List.foldl_append, List.foldl_cons, List.foldl_nil]
    rcases List.mem_append.mp hq with hq | hq
    · have hne : q.questionId ≠ x.questionId :=
        h.2.2 _ (List.mem_map_of_mem hq) _ (by simp)
      rw [if_neg hne]
      exact ih h.1 hq
    · rw [List.mem_singleton.mp hq, if_pos rfl]

theorem answerMap_eq (items : List SeAnswer) (id : Int) :
    answerMap items id = items.filter fun a => decide (a.questionId = id) := by
  induction items using List.reverseRecOn with
  | nil => rfl
  | append_singleton items a ih =>
    rw [answerMap, List.foldl_append, List.foldl_cons, List.foldl_nil, List.filter_append]
    by_cases hid : id = a.questionId
    · rw [if_pos hid, List.filter_cons_of_pos (by simp [hid]), List.filter_nil, ← ih]
      rfl
    · rw [if_neg hid, List.filter_cons_of_neg (by simpa using fun h => hid h.symm), List.filter_nil,
        List.append_nil, ← ih]
      rfl

/-! ## The keepers -/

section Keepers

variable {s : Config} {site : Site} {r : Request}

theorem exists_bare {k : SeQuestion} (h : k ∈ keepersOf s site r) :
    ∃ q, Keeps s site r q ∧ k = q.bare := by
  have hlisted : k ∈ (r.listed site).items := (List.mem_filter.mp h).1
  obtain ⟨x, hx, rfl⟩ := List.mem_map.mp (List.mem_of_mem_drop (List.mem_of_mem_take hlisted))
  exact ⟨x.1, ⟨⟨x.2, (List.mem_filter.mp hx).1⟩, h⟩, rfl⟩

/-- Questions of the site with one id are the same. -/
theorem Keeps.unique {q q' : SeQuestion} (h : Keeps s site r q) (h' : Keeps s site r q')
    (hid : q.questionId = q'.questionId) : q = q' := by
  obtain ⟨⟨activity, hq⟩, -⟩ := h
  obtain ⟨⟨activity', hq'⟩, -⟩ := h'
  exact congrArg Prod.fst (List.inj_on_of_nodup_map site.distinct hq hq' hid)

/-- At most a hundred ids are asked for, so all their questions come. -/
theorem bodyMap_keeper {q : SeQuestion} (h : Keeps s site r q) :
    bodyMap (site.bodies 100 ((keepersOf s site r).map SeQuestion.questionId)).items q.questionId =
      q.body := by
  obtain ⟨⟨activity, hq⟩, hkeeper⟩ := h
  let ids := (keepersOf s site r).map SeQuestion.questionId
  let asked := (site.questions.map Prod.fst).filter fun q => decide (q.questionId ∈ ids)
  have hids : ids.length ≤ 100 := by
    have hkept : (keepersOf s site r).length ≤ (r.listed site).items.length := List.length_filter_le _ _
    have hpage : (r.listed site).items.length ≤ min r.perPage 100 := List.length_take_le _ _
    have hlength : ids.length = (keepersOf s site r).length := List.length_map _
    omega
  have hdistinct : (asked.map SeQuestion.questionId).Nodup := by
    have hsub : (asked.map SeQuestion.questionId).Sublist
        (site.questions.map fun x => x.1.questionId) := by
      have := (List.filter_sublist (l := site.questions.map Prod.fst)
        (p := fun q => decide (q.questionId ∈ ids))).map SeQuestion.questionId
      rwa [List.map_map] at this
    exact hsub.nodup site.distinct
  have hfew : asked.length ≤ 100 := by
    have hsubset : asked.map SeQuestion.questionId ⊆ ids := by
      intro id hid
      obtain ⟨q', hq', rfl⟩ := List.mem_map.mp hid
      exact of_decide_eq_true (List.mem_filter.mp hq').2
    have hle := (List.subperm_of_subset hdistinct hsubset).length_le
    rw [List.length_map] at hle
    omega
  have hitems : (site.bodies 100 ids).items = asked := by
    change (asked.drop ((1 - 1) * 100)).take 100 = asked
    rw [Nat.sub_self, Nat.zero_mul, List.drop_zero, List.take_of_length_le hfew]
  change bodyMap (site.bodies 100 ids).items q.questionId = q.body
  rw [hitems]
  refine bodyMap_of_mem hdistinct (List.mem_filter.mpr ⟨?_, ?_⟩)
  · exact List.mem_map.mpr ⟨(q, activity), hq, rfl⟩
  · exact decide_eq_true (List.mem_map.mpr ⟨q.bare, hkeeper, rfl⟩)

/-- The answers a keeper gets start its answers on the site. -/
theorem listedAnswers_prefix {q : SeQuestion} (h : Keeps s site r q) :
    listedAnswers s site r q <+: allAnswers site q := by
  have hid : q.questionId ∈ (keepersOf s site r).map SeQuestion.questionId :=
    List.mem_map.mpr ⟨q.bare, h.2, rfl⟩
  have hall : (site.answers.filter fun a =>
      decide (a.questionId ∈ (keepersOf s site r).map SeQuestion.questionId)).filter
        (fun a => decide (a.questionId = q.questionId)) =
      site.answers.filter fun a => decide (a.questionId = q.questionId) := by
    rw [List.filter_filter]
    apply List.filter_congr
    intro a _
    by_cases hsame : a.questionId = q.questionId
    · rw [decide_eq_true hsame, Bool.true_and, decide_eq_true (hsame ▸ hid)]
    · rw [decide_eq_false hsame, Bool.false_and]
  unfold listedAnswers allAnswers
  rw [← hall]
  exact ((List.take_prefix 100 _).filter _).map _

/-- The document of a keeper is composed of its text and the answers it gets. -/
theorem documentOf_keeper {q : SeQuestion} (h : Keeps s site r q) :
    documentOf s (bodyMap (site.bodies 100 ((keepersOf s site r).map SeQuestion.questionId)).items)
        (answerMap (site.answersTo 100 ((keepersOf s site r).map SeQuestion.questionId)).items)
        q.bare =
      (composeDoc s.conv s.requireAnswered ⟨q.title, q.body⟩ (listedAnswers s site r q)).map
        (articleOf s q) := by
  unfold documentOf
  change (composeDoc s.conv s.requireAnswered ⟨q.title, bodyMap _ q.questionId⟩
    ((answerMap _ q.questionId).map SeAnswer.answer)).map (articleOf s q) = _
  rw [bodyMap_keeper h, answerMap_eq]
  rfl

/-- What is returned when all calls are answered: the documents of the keepers. -/
theorem fetchSince_articles {net : Network} (hlisting : Answered net.listing)
    (hbodies : Answered net.bodies) (hanswers : Answered net.answers) :
    ∃ page, fetchSince s site net r = .ok page ∧ ∀ article, article ∈ page.articles ↔
      ∃ q, Keeps s site r q ∧ ∃ content, composeDoc s.conv s.requireAnswered ⟨q.title, q.body⟩
        (listedAnswers s site r q) = some content ∧ article = articleOf s q content := by
  have hdocuments (article : ArticleRaw) : (∃ k ∈ keepersOf s site r, documentOf s
      (bodyMap (site.bodies 100 ((keepersOf s site r).map SeQuestion.questionId)).items)
      (answerMap (site.answersTo 100 ((keepersOf s site r).map SeQuestion.questionId)).items) k =
        some article) ↔ ∃ q, Keeps s site r q ∧ ∃ content, composeDoc s.conv s.requireAnswered
          ⟨q.title, q.body⟩ (listedAnswers s site r q) = some content ∧
            article = articleOf s q content := by
    constructor
    · rintro ⟨k, hk, hdocument⟩
      obtain ⟨q, hq, rfl⟩ := exists_bare hk
      rw [documentOf_keeper hq] at hdocument
      obtain ⟨content, hcontent, harticle⟩ := Option.map_eq_some_iff.mp hdocument
      exact ⟨q, hq, content, hcontent, harticle.symm⟩
    · rintro ⟨q, hq, content, hcontent, rfl⟩
      refine ⟨q.bare, hq.2, ?_⟩
      rw [documentOf_keeper hq, hcontent]
      rfl
  have hnone (hempty : keepersOf s site r = []) (article : ArticleRaw) :
      article ∈ ([] : List ArticleRaw) ↔ ∃ q, Keeps s site r q ∧ ∃ content, composeDoc s.conv
        s.requireAnswered ⟨q.title, q.body⟩ (listedAnswers s site r q) = some content ∧
          article = articleOf s q content := by
    rw [← hdocuments, hempty]
    simp
  unfold fetchSince
  rw [hlisting.get]
  change ∃ page, (if (r.listed site).items = [] then _ else _) = Except.ok page ∧ _
  by_cases hquestions : (r.listed site).items = []
  · rw [if_pos hquestions]
    refine ⟨_, rfl, hnone ?_⟩
    rw [keepersOf, hquestions]
    rfl
  · rw [if_neg hquestions]
    by_cases hkeepers : keepersOf s site r = []
    · have hfilter : (r.listed site).items.filter (keeps s) = [] := hkeepers
      simp only [hfilter, if_true]
      exact ⟨_, rfl, hnone hkeepers⟩
    · have hfilter : (r.listed site).items.filter (keeps s) = keepersOf s site r := rfl
      simp only [hfilter, if_neg hkeepers, hbodies.get, hanswers.get]
      refine ⟨_, rfl, fun article => ?_⟩
      rw [← hdocuments article]
      change article ∈ sortByPublished _ ↔ _
      rw [sortByPublished, (List.mergeSort_perm _ _).mem_iff, List.mem_filterMap]

end Keepers

/-! ## The documents -/

theorem dumpInt_injective : Function.Injective Json.dumpInt := by
  intro m n h
  have hminus (k : Nat) : (45 : Nat) ∉ decimal k := notMem_decimal (by decide) k
  have hmixed {m n : Int} (hm : m < 0) (hn : ¬ n < 0) : Json.dumpInt m ≠ Json.dumpInt n := by
    intro h
    rw [Json.dumpInt, Json.dumpInt, if_pos hm, if_neg hn] at h
    exact hminus n.natAbs (h ▸ List.mem_cons_self)
  by_cases hm : m < 0
  · by_cases hn : n < 0
    · rw [Json.dumpInt, Json.dumpInt, if_pos hm, if_pos hn] at h
      have := decimal_injective (List.cons.inj h).2
      omega
    · exact (hmixed hm hn h).elim
  · by_cases hn : n < 0
    · exact (hmixed hn hm h.symm).elim
    · rw [Json.dumpInt, Json.dumpInt, if_neg hm, if_neg hn] at h
      have := decimal_injective h
      omega

theorem notMem_dumpInt (n : Int) : (44 : Nat) ∉ Json.dumpInt n := by
  have hdigits := notMem_decimal (show isDigit 44 = false by decide) n.natAbs
  unfold Json.dumpInt
  split
  · simpa using hdigits
  · exact hdigits

/-- An article tells its question and its document. -/
theorem articleOf_inj {s : Config} {q q' : SeQuestion} {content content' : Str}
    (h : articleOf s q content = articleOf s q' content') :
    q.questionId = q'.questionId ∧ content = content' := by
  refine ⟨?_, congrArg ArticleRaw.contentMd h⟩
  have hpayload : payloadOf s q = payloadOf s q' := congrArg ArticleRaw.payload h
  exact dumpInt_injective (append_sep_inj (notMem_dumpInt _) (notMem_dumpInt _)
    (List.append_cancel_left hpayload)).1

theorem markdown_eq_some {conv : Converter} {html t : Str} : markdown conv html = some t ↔
    ∃ md, conv.convertString html = some md ∧ trimSpace md ≠ [] ∧ t = trimSpace md := by
  unfold markdown
  rw [Option.bind_eq_some_iff]
  refine exists_congr fun md => and_congr_right fun _ => ?_
  by_cases hblank : trimSpace md = []
  · simp [hblank]
  · rw [if_neg hblank, Option.some.injEq, and_iff_right hblank]
    exact eq_comm

/-- The part of an answer is that of an answer with the same Markdown. -/
theorem answerPart_eq_iff {conv : Converter} {html aMd : Str} (haMd : trimSpace aMd ≠ []) :
    answerPart (conv.convertString html) = answerPart (some aMd) ↔
      markdown conv html = some (trimSpace aMd) := by
  have hpart : answerPart (some aMd) = answerSep ++ [10] ++ trimSpace aMd ++ [10] := if_neg haMd
  rw [markdown_eq_some, hpart]
  cases hconv : conv.convertString html with
  | none =>
    refine iff_of_false (fun h => ?_) (by simp)
    have := congrArg List.length h
    simp [answerPart] at this
  | some md =>
    by_cases hblank : trimSpace md = []
    · refine iff_of_false (fun h => ?_) ?_
      · have := congrArg List.length h
        simp [answerPart, hblank] at this
      · rintro ⟨md', hmd', hne, -⟩
        obtain rfl := Option.some.inj hmd'
        exact hne hblank
    · have hmd : answerPart (some md) = answerSep ++ [10] ++ trimSpace md ++ [10] := if_neg hblank
      rw [hmd]
      constructor
      · intro h
        have hsame := List.append_cancel_left (List.append_cancel_right h)
        exact ⟨md, rfl, hblank, hsame.symm⟩
      · rintro ⟨md', hmd', -, htrim⟩
        obtain rfl := Option.some.inj hmd'
        rw [htrim]

/-- What `composeDoc` writes when an answer is required. -/
theorem composeDoc_required {conv : Converter} {q : Question} {answers : List Answer}
    {content : Str} : composeDoc conv true q answers = some content ↔
      ∃ b qMd, bestAnswer answers = some b ∧ conv.convertString q.body = some qMd ∧
        trimSpace qMd ≠ [] ∧ content =
          questionPart (conv.unescapeString q.title) qMd ++ answerPart (conv.convertString b.body) := by
  unfold composeDoc
  cases hbest : bestAnswer answers with
  | none => simp
  | some b =>
    cases hconv : conv.convertString q.body with
    | none => simp
    | some qMd =>
      by_cases hblank : trimSpace qMd = []
      · simp [hblank]
      · simp only [reduceCtorEq, and_false, if_false, hblank, Option.bind_some, Option.some.injEq]
        constructor
        · rintro rfl
          exact ⟨b, qMd, rfl, rfl, hblank, rfl⟩
        · rintro ⟨b', qMd', rfl, rfl, -, rfl⟩
          rfl

section Selection

variable {s : Config} {site : Site} {net : Network} {r : Request}
  (hrequired : s.requireAnswered = true) (hlisting : Answered net.listing)
  (hbodies : Answered net.bodies) (hanswers : Answered net.answers)

include hrequired hlisting hbodies hanswers

theorem selects_of_reached (h : Reached s site r) : Selects s site net r := by
  obtain ⟨page, hpage, harticles⟩ :=
    @fetchSince_articles s site r net hlisting hbodies hanswers
  rw [hrequired] at harticles
  refine ⟨fun q hq a ha qMd aMd hqMd hqText haMd haText => ?_,
    fun page' hpage' q hq content hcontent => ?_⟩
  · have hmarkdown : markdown s.conv a.body = some (trimSpace aMd) :=
      markdown_eq_some.mpr ⟨aMd, haMd, haText, rfl⟩
    have hquestion : markdown s.conv q.body ≠ none := by
      rw [markdown_eq_some.mpr ⟨qMd, hqMd, hqText, rfl⟩]
      simp
    obtain ⟨b, hb, htext⟩ : ∃ b, bestAnswer (listedAnswers s site r q) = some b ∧
        markdown s.conv b.body = some (trimSpace aMd) := by
      rcases (h q hq hquestion).1 a _ ha hmarkdown with hlisted | hsame
      · obtain ⟨more, hmore⟩ := listedAnswers_prefix hq
        exact ⟨a, bestAnswer_of_prefix (hmore.symm ▸ ha) hlisted, hmarkdown⟩
      · exact Option.bind_eq_some_iff.mp hsame
    refine ⟨page, hpage, (harticles _).mpr ⟨q, hq, _, composeDoc_required.mpr
      ⟨b, qMd, hb, hqMd, hqText, rfl⟩, ?_⟩⟩
    rw [documentWith, (answerPart_eq_iff haText).mpr htext]
  · rw [hpage] at hpage'
    obtain rfl := Except.ok.inj hpage'
    obtain ⟨q', hq', content', hcompose, harticle⟩ := (harticles _).mp hcontent
    obtain ⟨hid, rfl⟩ := articleOf_inj harticle
    obtain rfl := hq.unique hq' hid
    obtain ⟨b, qMd, hb, hqMd, hqText, hcontent'⟩ := composeDoc_required.mp hcompose
    have hquestion : markdown s.conv q.body ≠ none := by
      rw [markdown_eq_some.mpr ⟨qMd, hqMd, hqText, rfl⟩]
      simp
    obtain ⟨t, ht⟩ := Option.ne_none_iff_exists'.mp ((h q hq hquestion).2 b hb)
    obtain ⟨aMd, haMd, haText, -⟩ := markdown_eq_some.mp ht
    refine ⟨qMd, aMd, hqMd, haText, ?_⟩
    rw [hcontent', documentWith, haMd]

theorem reached_of_selects (h : Selects s site net r) : Reached s site r := by
  obtain ⟨page, hpage, harticles⟩ :=
    @fetchSince_articles s site r net hlisting hbodies hanswers
  rw [hrequired] at harticles
  intro q hq hquestion
  obtain ⟨t, ht⟩ := Option.ne_none_iff_exists'.mp hquestion
  obtain ⟨qMd, hqMd, hqText, -⟩ := markdown_eq_some.mp ht
  refine ⟨fun a aText ha haText => Or.inr ?_, fun b hb hblank => ?_⟩
  · obtain ⟨aMd, haMd, hne, rfl⟩ := markdown_eq_some.mp haText
    obtain ⟨page', hpage', hmem⟩ := h.emits q hq a ha qMd aMd hqMd hqText haMd hne
    rw [hpage] at hpage'
    obtain rfl := Except.ok.inj hpage'
    obtain ⟨q', hq', content, hcompose, harticle⟩ := (harticles _).mp hmem
    obtain ⟨hid, hcontent⟩ := articleOf_inj harticle
    obtain rfl := hq.unique hq' hid
    obtain ⟨b, qMd', hb, hqMd', -, hwritten⟩ := composeDoc_required.mp hcompose
    obtain rfl := Option.some.inj (hqMd.symm.trans hqMd')
    have hparts := List.append_cancel_left (hwritten.symm.trans hcontent.symm)
    rw [hb, Option.bind_some]
    exact (answerPart_eq_iff hne).mp hparts
  · have hmem := (harticles _).mpr ⟨q, hq, _, composeDoc_required.mpr
      ⟨b, qMd, hb, hqMd, hqText, rfl⟩, rfl⟩
    obtain ⟨qMd', aMd, hqMd', haText, hcontent⟩ := h.answered page hpage q hq _ hmem
    obtain rfl := Option.some.inj (hqMd.symm.trans hqMd')
    have hsame := (answerPart_eq_iff haText).mp (List.append_cancel_left hcontent)
    rw [hblank] at hsame
    cases hsame

end Selection

/-- When the calls are answered, each keeper is written with its best answer on the site
and no document lacks its answer exactly when these answers are reached. -/
theorem selects_iff (s : Config) (site : Site) (net : Network) (r : Request)
    (hrequired : s.requireAnswered = true) (hlisting : Answered net.listing)
    (hbodies : Answered net.bodies) (hanswers : Answered net.answers) :
    Selects s site net r ↔ Reached s site r :=
  ⟨reached_of_selects hrequired hlisting hbodies hanswers,
    selects_of_reached hrequired hlisting hbodies hanswers⟩

/-! ## Sites whose answers are reached, and sites where they are not -/

/-- The settings with a converter that changes nothing. -/
def Config.plain : Config :=
  ⟨lit "stackoverflow", 0, true, plainConverter, fun text => 34 :: (text ++ [34])⟩

def quiet : Line := ⟨fun _ => .answered, fun _ _ => false⟩

theorem quiet_answered : Answered quiet := ⟨⟨0, by decide, rfl⟩, fun _ _ => rfl⟩

/-- The first page, without a window. -/
def firstPage : Request := ⟨1, 100, none⟩

/-- A question with a score of one. -/
def askedQuestion (id : Int) : SeQuestion where
  questionId := id
  title := lit "Retries"
  body := lit "How long?"
  link := lit "https://stackoverflow.com/q/" ++ Json.dumpInt id
  score := 1
  creationDate := 1785801600
  isAnswered := true
  tags := none
  ownerName := lit "a"

def givenAnswer (id question : Int) (body : Str) (score : Int) (accepted : Bool) : SeAnswer :=
  ⟨id, question, body, score, accepted⟩

/-- Two questions; the first has one answer, and the accepted answer of the second has fewer
votes than the other one. -/
def smallSite (body : Str) : Site where
  questions := [(askedQuestion 1, 1785801600), (askedQuestion 2, 1785801600)]
  answers := [givenAnswer 3 2 (lit "Ten seconds.") 5 false, givenAnswer 4 1 body 2 false,
    givenAnswer 5 2 (lit "Honor Retry-After.") 1 true]
  distinct := by decide
  byActivity := by decide
  byVotes := by simp [givenAnswer]

/-- A hundred answers to one question, and an accepted one with fewer votes to another. -/
def crowdedSite : Site where
  questions := [(askedQuestion 1, 1785801600), (askedQuestion 2, 1785801600)]
  answers := (List.range 100).map (fun k => givenAnswer (k + 3) 1 (lit "Ten seconds.") 5 false) ++
    [givenAnswer 103 2 (lit "Honor Retry-After.") 1 true]
  distinct := by decide
  byActivity := by decide
  byVotes := by decide +kernel

theorem selects_iff_small :
    Selects .plain (smallSite (lit "Back off.")) ⟨quiet, quiet, quiet⟩ firstPage := by
  refine (selects_iff .plain (smallSite (lit "Back off.")) ⟨quiet, quiet, quiet⟩ firstPage rfl
    quiet_answered quiet_answered quiet_answered).mpr ?_
  rintro q ⟨⟨activity, hq⟩, -⟩ -
  have hall : ∀ x ∈ (smallSite (lit "Back off.")).questions, ∃ best,
      bestAnswer (allAnswers (smallSite (lit "Back off.")) x.1) = some best ∧
      bestAnswer (listedAnswers .plain (smallSite (lit "Back off.")) firstPage x.1) = some best ∧
      best ∈ listedAnswers .plain (smallSite (lit "Back off.")) firstPage x.1 ∧
      markdown Config.plain.conv best.body ≠ none := by
    intro x hx
    rcases List.mem_cons.mp hx with rfl | hx
    · exact ⟨⟨2, false, lit "Back off."⟩, by decide +kernel⟩
    · obtain rfl := List.mem_singleton.mp hx
      exact ⟨⟨1, true, lit "Honor Retry-After."⟩, by decide +kernel⟩
  obtain ⟨best, hbest, hlisted, hmem, htext⟩ := hall _ hq
  refine ⟨fun a aMd ha _ => ?_, fun b hb => ?_⟩
  · rw [hbest] at ha
    obtain rfl := Option.some.inj ha
    exact Or.inl hmem
  · rw [hlisted] at hb
    obtain rfl := Option.some.inj hb
    exact htext

/-- The accepted answer of the second question is not among the first hundred; and an
answer that converts to nothing leaves its document without an answer. -/
theorem answers_cut_off :
    ¬ Selects .plain crowdedSite ⟨quiet, quiet, quiet⟩ firstPage ∧
    ¬ Selects .plain (smallSite (lit " ")) ⟨quiet, quiet, quiet⟩ firstPage := by
  constructor
  · intro h
    have hreached := reached_of_selects rfl quiet_answered quiet_answered quiet_answered h
    have hkeeps : Keeps .plain crowdedSite firstPage (askedQuestion 2) :=
      ⟨⟨1785801600, by decide⟩, by decide +kernel⟩
    have hbest := (hreached _ hkeeps (by decide +kernel)).1
      ⟨1, true, lit "Honor Retry-After."⟩ (lit "Honor Retry-After.") (by decide +kernel)
      (by decide +kernel)
    have hnone : listedAnswers .plain crowdedSite firstPage (askedQuestion 2) = [] := by
      decide +kernel
    rw [hnone] at hbest
    rcases hbest with hmem | hother
    · cases hmem
    · cases hother
  · intro h
    have hreached := reached_of_selects rfl quiet_answered quiet_answered quiet_answered h
    have hkeeps : Keeps .plain (smallSite (lit " ")) firstPage (askedQuestion 1) :=
      ⟨⟨1785801600, by decide⟩, by decide +kernel⟩
    exact (hreached _ hkeeps (by decide +kernel)).2 ⟨2, false, lit " "⟩ (by decide +kernel)
      (by decide +kernel)

end WebSpider.Sources.StackExchange
