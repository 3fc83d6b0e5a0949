import WebSpider.Crawler.Scheduler

/-!
# The cursor and the articles it skips

With `use_cursor` a run starts five minutes before the newest article published
so far. The cursor says nothing about the articles below it: one that a run gives
up, because its page or its publication fails or the run stops before it, is
before the next window when it is more than five minutes older
(`failed_page_skipped`). Every article listed is published, given up or
unfinished after each step (`unfinished_step`), so a run that keeps up with what
it gives up leaves nothing behind the next window (`left_behind_considered`).
-/

namespace WebSpider.Crawler

open Text Effects

/-! ## Runs of the crawler -/

/-- Five minutes. -/
def overlap : Int := 5 * 60 * 10 ^ 9

def resolveSince (base cursor : Int) (hasCursor : Bool) (overlap : Int) : Int :=
  if ¬ hasCursor ∨ cursor = 0 then base
  else if base = 0 ∨ base < cursor - overlap then cursor - overlap
  else base

/-- `buildScheduler` with `use_cursor`: the start of the window of a run. -/
def buildSince (base : Int) (sourceName : Str) (r : Redis) : Int :=
  match getCursor r sourceName with
  | some cursor => resolveSince base cursor.instant true overlap
  | none => base

/-- What does not change between the runs. -/
structure Setup where
  sourceName : Str
  producer : Producer
  maxPages : Nat
  maxConcurrency : Nat
  pageFailures : Nat

/-- One run: the `since_hours` base, what the source lists, and the steps taken.
The process may be killed anywhere, so the steps need not be complete. -/
structure Crawl where
  base : Int
  listing : List (List ArticleRaw)
  steps : List Event

def Crawl.job (w : Setup) (c : Crawl) (r : Redis) : Job where
  sourceName := w.sourceName
  listing := c.listing
  producer := w.producer
  maxPages := w.maxPages
  maxConcurrency := w.maxConcurrency
  pageFailures := w.pageFailures
  since := buildSince c.base w.sourceName r

/-- What a run leaves in Redis. -/
def crawl (w : Setup) (r : Redis) (c : Crawl) : Option Redis :=
  (run (step (c.job w r)) (.start r) c.steps).map Sched.redis

/-! ## Articles left behind -/

/-- The articles the source listed in a run that no run has published, and that
are not before the next base. -/
def LeftBehind (w : Setup) (c : Crawl) (r : Redis) (base : Int) (b : ArticleRaw) : Prop :=
  b ∈ c.listing.flatten ∧ w.producer.sha256 b.url ∉ r.seen ∧ base ≤ b.published.instant

/-! ## What a run gives up -/

namespace Sched

/-- The main loop goes on. -/
def looping (s : Sched) : Bool :=
  match s.pc with
  | .wait | .acquire _ | .select => true
  | _ => false

/-- The articles of the pages that the main loop has not come to. -/
def ahead (j : Job) (s : Sched) : List ArticleRaw := (j.listing.drop (s.nextPage - 1)).flatten

end Sched

/-- The articles a worker loses: their page is not fetched, they are before the window, or the
script of `Publish` fails without having been executed. -/
def lost (j : Job) (s : Sched) : Event → List ArticleRaw
  | .fetch k ok =>
    match s.tasks[k]? with
    | some (.fetching page) =>
      if ok then (pageItems j.listing page).filter fun a =>
        decide (¬ (j.since = 0 ∨ j.since ≤ a.published.instant))
      else pageItems j.listing page
    | _ => []
  | .call k o _ =>
    match s.tasks[k]? with
    | some (.publishing a _ .script _) => if o.executed then [] else [a]
    | _ => []
  | _ => []

/-- The articles a step gives up. The main loop gives up those ahead when it stops: at the page
limit, on a cancelled context, after too many failures or after an empty page. -/
def givenUp (j : Job) (s : Sched) (e : Event) : List ArticleRaw :=
  (if s.looping && (step j s e).any (fun t => !t.looping) then s.ahead j else []) ++ lost j s e

/-- The article with which a step moves the cursor of the source. -/
def advanced (j : Job) (s : Sched) : Event → Option ArticleRaw
  | .call k o _ =>
    match s.tasks[k]? with
    | some (.publishing a _ .cursor _) =>
      if o.executed ∧ a.sourceType = j.sourceName ∧ a.published.isZero = false ∧
          (s.redis.cursor j.sourceName).all (fun cur => decide (cur < format a.published)) then
        some a
      else none
    | _ => none
  | _ => none

/-- The articles a worker has not published yet. -/
def Task.unfinished (listing : List (List ArticleRaw)) : Task → List ArticleRaw
  | .fetching page => pageItems listing page
  | .publishing a rest .script _ => a :: rest
  | .publishing _ rest _ _ => rest
  | _ => []

/-- The articles a run has not come to the end of. -/
def Sched.unfinished (j : Job) (s : Sched) : List ArticleRaw :=
  (if s.looping then s.ahead j else []) ++
  (match s.pc with
    | .acquire page => pageItems j.listing page
    | _ => []) ++
  s.tasks.flatMap (Task.unfinished j.listing)

/-! ## The condition on a run -/

section Condition

variable (j : Job) (base : Int)

/-- No run has published the article, and it is not before the next base. -/
def Due (s : Sched) (b : ArticleRaw) : Prop :=
  j.producer.sha256 b.url ∉ s.redis.seen ∧ base ≤ b.published.instant

/-- The article is at most five minutes older than the cursor. -/
def Near (s : Sched) (b : ArticleRaw) : Prop :=
  ∀ t ∈ getCursor s.redis j.sourceName, t.instant - overlap ≤ b.published.instant

/-- The condition on a step of a run that has given up the articles `x.2`: the articles it
gives up are near the cursor as it is then, and an article that moves the cursor is at most
five minutes newer than those given up before. -/
structure Heeds (x : Sched × List ArticleRaw) (e : Event) : Prop where
  gives : ∀ b ∈ givenUp j x.1 e, Due j base x.1 b → Near j x.1 b
  moves : ∀ a ∈ advanced j x.1 e, ∀ b ∈ x.2, Due j base x.1 b →
    a.published.instant - overlap ≤ b.published.instant

/-- A step of a run, with the articles given up so far. -/
def watch (x : Sched × List ArticleRaw) (e : Event) : Option (Sched × List ArticleRaw) :=
  (step j x.1 e).map fun t => (t, x.2 ++ givenUp j x.1 e)

end Condition

/-- All steps of a run heed what is given up, and so does its end: the process is killed with
articles that are not finished. -/
structure KeepsUp (w : Setup) (r : Redis) (c : Crawl) (base : Int) : Prop where
  steps : Along (watch (c.job w r)) (Heeds (c.job w r) base) (.start r, []) c.steps
  ends : ∀ s, run (step (c.job w r)) (.start r) c.steps = some s →
    ∀ b ∈ s.unfinished (c.job w r), Due (c.job w r) base s b → Near (c.job w r) s b

/-! ## One step -/

section Step

variable {j : Job} {s t : Sched} {e : Event}

theorem seen_step {hash : Str} (h : step j s e = some t) (hseen : hash ∈ s.redis.seen) :
    hash ∈ t.redis.seen := by
  have happly {o : Outcome} {f : Redis → Redis} (hf : hash ∈ (f s.redis).seen) :
      hash ∈ (applied o f s.redis).seen := by
    unfold applied
    split
    · exact hf
    · exact hseen
  cases writes_of_step h with
  | same hredis => exact hredis ▸ hseen
  | record stats o hredis =>
    rw [hredis, recordRun]
    split
    · exact hseen
    · exact happly hseen
  | call k o trimmed a rest stage res htask hredis =>
    rw [hredis]
    cases stage with
    | script =>
      apply happly
      unfold dedupScript
      split
      · exact hseen
      · exact List.mem_append_left _ hseen
    | produced => exact happly hseen
    | bySource => exact happly hseen
    | cursor =>
      simp only [publishCall]
      split
      · exact hseen
      · exact happly hseen

/-- A step leaves the cursor of the source, or moves it to the time of an article. -/
theorem cursor_step (h : step j s e = some t) :
    t.redis.cursor j.sourceName = s.redis.cursor j.sourceName ∨
      ∃ a, advanced j s e = some a ∧
        t.redis.cursor j.sourceName = some (format a.published) := by
  have happly {o : Outcome} {f : Redis → Redis}
      (hf : (f s.redis).cursor j.sourceName = s.redis.cursor j.sourceName) :
      (applied o f s.redis).cursor j.sourceName = s.redis.cursor j.sourceName := by
    unfold applied
    split
    · exact hf
    · rfl
  cases writes_of_step h with
  | same hredis => exact Or.inl (by rw [hredis])
  | record stats o hredis =>
    left
    rw [hredis, recordRun]
    split
    · rfl
    · exact happly rfl
  | call k o trimmed a rest stage res htask hredis =>
    rw [hredis]
    cases stage with
    | script =>
      left
      apply happly
      unfold dedupScript
      split <;> rfl
    | produced => exact Or.inl (happly rfl)
    | bySource => exact Or.inl (happly rfl)
    | cursor =>
      simp only [publishCall, applied, advanced, htask]
      cases hzero : a.published.isZero with
      | true => exact Or.inl rfl
      | false =>
        by_cases hexec : o.executed = true
        · by_cases hname : a.sourceType = j.sourceName
          · cases hcur : s.redis.cursor j.sourceName with
            | none => exact Or.inr ⟨a, by simp [hexec, hname],
                by simp [hexec, hname, cursorScript, hcur]⟩
            | some cur =>
              by_cases hlt : cur < format a.published
              · exact Or.inr ⟨a, by simp [hexec, hname, hlt],
                  by simp [hexec, hname, cursorScript, hcur, hlt]⟩
              · exact Or.inl (by simp [hexec, hname, cursorScript, hcur, hlt])
          · left
            have hother : ¬ j.sourceName = a.sourceType := fun hsame => hname hsame.symm
            simp [hexec, cursorScript, hother]
        · exact Or.inl (by simp [hexec])

/-- What the main loop has ahead stays ahead, unless it stops. -/
theorem ahead_step {b : ArticleRaw} (h : step j s e = some t) (hloop : s.looping = true)
    (hb : b ∈ s.ahead j) (hpage : t.nextPage = s.nextPage) :
    b ∈ givenUp j s e ∨ t.looping = true ∧ b ∈ t.ahead j := by
  cases hstays : t.looping with
  | true =>
    right
    refine ⟨rfl, ?_⟩
    unfold Sched.ahead
    rw [hpage]
    exact hb
  | false =>
    left
    apply List.mem_append_left
    rw [h, hloop]
    simpa [hstays] using hb

theorem mem_unfinished {b : ArticleRaw} : b ∈ s.unfinished j ↔
    (s.looping = true ∧ b ∈ s.ahead j) ∨
      (∃ page, s.pc = .acquire page ∧ b ∈ pageItems j.listing page) ∨
      ∃ task ∈ s.tasks, b ∈ task.unfinished j.listing := by
  unfold Sched.unfinished
  rw [List.mem_append, List.mem_append, List.mem_flatMap, or_assoc]
  refine or_congr ?_ (or_congr ?_ Iff.rfl)
  · cases s.looping <;> simp
  · cases s.pc <;> simp

/-- The next page and what comes after it. -/
theorem mem_ahead {b : ArticleRaw} (hb : b ∈ s.ahead j) :
    b ∈ pageItems j.listing s.nextPage ∨ b ∈ (j.listing.drop s.nextPage).flatten := by
  unfold Sched.ahead at hb
  cases hn : s.nextPage with
  | zero =>
    rw [hn] at hb
    exact Or.inr hb
  | succ n =>
    rw [hn, Nat.add_sub_cancel] at hb
    unfold pageItems
    rw [Nat.add_sub_cancel]
    cases hget : j.listing[n]? with
    | none =>
      rw [List.drop_eq_nil_of_le (List.getElem?_eq_none_iff.mp hget)] at hb
      cases hb
    | some items =>
      obtain ⟨hlt, hitem⟩ := List.getElem?_eq_some_iff.mp hget
      rw [List.drop_eq_getElem_cons hlt, hitem, List.flatten_cons] at hb
      exact List.mem_append.mp hb

/-- A step of the main loop that launches nothing. -/
theorem unfinished_main {b : ArticleRaw} (h : step j s e = some t) (htasks : t.tasks = s.tasks)
    (hnext : t.nextPage = s.nextPage) (hpc : ∀ page, s.pc = .acquire page → t.pc = .acquire page)
    (hb : b ∈ s.unfinished j) : b ∈ givenUp j s e ∨ b ∈ t.unfinished j := by
  rcases mem_unfinished.mp hb with ⟨hloop, hahead⟩ | ⟨page, hacquire, hitems⟩ | ⟨task, htask, hb⟩
  · exact (ahead_step h hloop hahead hnext).imp_right fun hleft => mem_unfinished.mpr (Or.inl hleft)
  · exact Or.inr (mem_unfinished.mpr (Or.inr (Or.inl ⟨page, hpc page hacquire, hitems⟩)))
  · exact Or.inr (mem_unfinished.mpr (Or.inr (Or.inr ⟨task, htasks ▸ htask, hb⟩)))

/-- A step of the `k`-th worker, which leaves of its articles those in `gone`. -/
theorem unfinished_worker {b : ArticleRaw} {k : Nat} {task task' : Task}
    (hk : s.tasks[k]? = some task) {gone : Prop} (hpc : t.pc = s.pc)
    (hnext : t.nextPage = s.nextPage)
    (htasks : t.tasks = s.tasks.set k task' ∨
      t.tasks = s.tasks.eraseIdx k ∧ task'.unfinished j.listing = [])
    (hown : b ∈ task.unfinished j.listing → gone ∨ b ∈ task'.unfinished j.listing)
    (hb : b ∈ s.unfinished j) : gone ∨ b ∈ t.unfinished j := by
  have hlooping : t.looping = s.looping := by rw [Sched.looping, Sched.looping, hpc]
  rcases mem_unfinished.mp hb with ⟨hloop, hahead⟩ | ⟨page, hacquire, hitems⟩ | ⟨old, hold, hb⟩
  · refine Or.inr (mem_unfinished.mpr (Or.inl ⟨hlooping.trans hloop, ?_⟩))
    rwa [Sched.ahead, hnext]
  · exact Or.inr (mem_unfinished.mpr (Or.inr (Or.inl ⟨page, hpc.trans hacquire, hitems⟩)))
  · obtain ⟨i, hi⟩ := List.mem_iff_getElem?.mp hold
    by_cases hik : i = k
    · subst hik
      obtain rfl : task = old := Option.some.inj (hk.symm.trans hi)
      rcases hown hb with hgone | hleft
      · exact Or.inl hgone
      · rcases htasks with hset | ⟨-, hempty⟩
        · refine Or.inr (mem_unfinished.mpr (Or.inr (Or.inr ⟨task', ?_, hleft⟩)))
          rw [hset]
          exact List.mem_set (List.getElem?_eq_some_iff.mp hk).1 task'
        · rw [hempty] at hleft
          cases hleft
    · refine Or.inr (mem_unfinished.mpr (Or.inr (Or.inr ⟨old, ?_, hb⟩)))
      rcases htasks with hset | ⟨herase, -⟩
      · rw [hset]
        exact List.mem_iff_getElem?.mpr ⟨i, by rw [List.getElem?_set_ne (Ne.symm hik), hi]⟩
      · rw [herase]
        exact List.mem_eraseIdx_iff_getElem?.mpr ⟨i, hik, hi⟩

@[simp] theorem unfinished_publishAll (listing : List (List ArticleRaw))
    (articles : List ArticleRaw) (res : PageResult) :
    (publishAll articles res).unfinished listing = articles := by
  cases articles <;> rfl

/-- After a call of `Publish` the rest of the page is to be published, and the article itself
is seen unless its script was lost. -/
theorem unfinished_call (p : Producer) (listing : List (List ArticleRaw)) (a : ArticleRaw)
    (rest : List ArticleRaw) (res : PageResult) (stage : Stage) (o : Outcome) (trimmed : Nat)
    (r : Redis) :
    (afterCall a rest res (publishCall p a stage o trimmed r).1).unfinished listing = rest ∧
      (stage = .script → o.executed = true →
        p.sha256 a.url ∈ (publishCall p a stage o trimmed r).2.seen) := by
  cases stage with
  | script =>
    refine ⟨?_, fun _ hexec => ?_⟩
    · cases o with
      | raises done => simp [publishCall, afterCall]
      | returns =>
        simp only [publishCall]
        split
        · rfl
        · exact unfinished_publishAll _ _ _
    · simp only [publishCall, applied, hexec, if_true]
      unfold dedupScript
      split
      · assumption
      · exact List.mem_append_right _ List.mem_cons_self
  | produced =>
    refine ⟨?_, fun hstage => by cases hstage⟩
    simp only [publishCall]
    split
    · exact unfinished_publishAll _ _ _
    · rfl
  | bySource => exact ⟨rfl, fun hstage => by cases hstage⟩
  | cursor => exact ⟨by simp [publishCall, afterCall], fun hstage => by cases hstage⟩

section Unfinished

variable {b : ArticleRaw} (hb : b ∈ s.unfinished j)

include hb

/-- A step of the main loop that launches nothing, when no page waits for a slot. -/
theorem unfinished_idle (h : step j s e = some t) (htasks : t.tasks = s.tasks)
    (hnext : t.nextPage = s.nextPage) (hpc : ∀ page, s.pc ≠ .acquire page) :
    b ∈ givenUp j s e ∨ b ∈ t.unfinished j :=
  unfinished_main h htasks hnext (fun page hacquire => absurd hacquire (hpc page)) hb

/-- The limiter launches the next page, unless the main loop stops. -/
theorem unfinished_limiter (h : step j s .limiter = some t) :
    b ∈ givenUp j s .limiter ∨ b ∈ t.unfinished j := by
  have hstep := h
  simp only [step, mainStep] at h
  split at h
  · rename_i hpc
    have hpage : ∀ page, s.pc ≠ .acquire page := by simp [hpc]
    split at h
    · cases h
      exact unfinished_idle hb hstep rfl rfl hpage
    · split at h
      · cases h
        exact unfinished_idle hb hstep rfl rfl hpage
      · cases h
        right
        rcases mem_unfinished.mp hb with ⟨-, hahead⟩ | ⟨page, hacquire, -⟩ | htask
        · rcases mem_ahead hahead with hitems | hlater
          · exact mem_unfinished.mpr (Or.inr (Or.inl ⟨_, rfl, hitems⟩))
          · exact mem_unfinished.mpr (Or.inl ⟨rfl, hlater⟩)
        · exact absurd hacquire (hpage page)
        · exact mem_unfinished.mpr (Or.inr (Or.inr htask))
  · cases h

/-- The page that waits for a slot gets a worker. -/
theorem unfinished_spawn (h : step j s .spawn = some t) :
    b ∈ givenUp j s .spawn ∨ b ∈ t.unfinished j := by
  have hstep := h
  simp only [step, mainStep] at h
  split at h
  · rename_i page hpc
    split at h
    · have hkept : t.tasks = s.tasks ++ [Task.fetching page] ∧ t.nextPage = s.nextPage := by
        simp only [Option.some.injEq] at h
        split at h
        · cases h
          exact ⟨rfl, rfl⟩
        · cases h
          exact ⟨rfl, rfl⟩
      rcases mem_unfinished.mp hb with ⟨hloop, hahead⟩ | ⟨page', hacquire, hitems⟩ | ⟨task, htask, hb⟩
      · exact (ahead_step hstep hloop hahead hkept.2).imp_right fun hleft =>
          mem_unfinished.mpr (Or.inl hleft)
      · obtain rfl : page = page' := Pc.acquire.inj (hpc.symm.trans hacquire)
        refine Or.inr (mem_unfinished.mpr (Or.inr (Or.inr ⟨.fetching page, ?_, hitems⟩)))
        rw [hkept.1]
        exact List.mem_append_right _ List.mem_cons_self
      · refine Or.inr (mem_unfinished.mpr (Or.inr (Or.inr ⟨task, ?_, hb⟩)))
        rw [hkept.1]
        exact List.mem_append_left _ htask
    · cases h
  · cases h

/-- The articles of a fetched page that are in the window are to be published. -/
theorem unfinished_fetch {k : Nat} {ok : Bool} (h : step j s (.fetch k ok) = some t) :
    b ∈ givenUp j s (.fetch k ok) ∨ b ∈ t.unfinished j := by
  simp only [step, workerStep] at h
  split at h
  · rename_i page hk
    have hgone : b ∈ lost j s (.fetch k ok) → b ∈ givenUp j s (.fetch k ok) :=
      fun hlost => List.mem_append_right _ hlost
    rw [lost] at hgone
    simp only [hk] at hgone
    split at h
    · rename_i hok
      cases h
      refine unfinished_worker hk rfl rfl (Or.inl rfl) (fun hitem => ?_) hb
      rw [unfinished_publishAll]
      by_cases hin : j.since = 0 ∨ j.since ≤ b.published.instant
      · exact Or.inr (List.mem_filter.mpr ⟨hitem, decide_eq_true hin⟩)
      · rw [if_pos hok] at hgone
        exact Or.inl (hgone (List.mem_filter.mpr ⟨hitem, decide_eq_true hin⟩))
    · rename_i hok
      cases h
      refine unfinished_worker hk rfl rfl (Or.inl rfl) (fun hitem => ?_) hb
      rw [if_neg hok] at hgone
      exact Or.inl (hgone hitem)
  · cases h

/-- The script of `Publish` marks the article as seen, or it is lost. -/
theorem unfinished_publication {k trimmed : Nat} {o : Outcome}
    (h : step j s (.call k o trimmed) = some t) : j.producer.sha256 b.url ∈ t.redis.seen ∨
      b ∈ givenUp j s (.call k o trimmed) ∨ b ∈ t.unfinished j := by
  simp only [step, workerStep] at h
  split at h
  · rename_i a rest stage res hk
    cases h
    obtain ⟨hrest, hseen⟩ := unfinished_call j.producer j.listing a rest res stage o trimmed s.redis
    rw [← or_assoc]
    refine unfinished_worker hk rfl rfl (Or.inl rfl) (fun hown => ?_) hb
    rw [hrest]
    cases stage with
    | script =>
      rcases List.mem_cons.mp hown with rfl | hown
      · left
        by_cases hexec : o.executed = true
        · exact Or.inl (hseen rfl hexec)
        · right
          apply List.mem_append_right
          simp [lost, hk, hexec]
      · exact Or.inr hown
    | produced => exact Or.inr hown
    | bySource => exact Or.inr hown
    | cursor => exact Or.inr hown
  · cases h

/-- An unfinished article is published or given up in a step, or stays unfinished. -/
theorem unfinished_step (h : step j s e = some t) : j.producer.sha256 b.url ∈ t.redis.seen ∨
    b ∈ givenUp j s e ∨ b ∈ t.unfinished j := by
  have hstep := h
  cases e with
  | cancel =>
    cases h
    exact Or.inr (unfinished_main hstep rfl rfl (fun _ hpc => hpc) hb)
  | limiter => exact Or.inr (unfinished_limiter hb h)
  | spawn => exact Or.inr (unfinished_spawn hb h)
  | take =>
    simp only [step, mainStep] at h
    split at h
    · rename_i hpc _
      cases h
      exact Or.inr (unfinished_idle hb hstep rfl rfl (by simp [hpc]))
    · cases h
  | done =>
    simp only [step, mainStep] at h
    split at h
    · rename_i hpc
      cases h
      exact Or.inr (unfinished_idle hb hstep rfl rfl (by simp [hpc.1]))
    · cases h
  | default =>
    simp only [step, mainStep] at h
    split at h
    · rename_i hpc
      cases h
      exact Or.inr (unfinished_idle hb hstep rfl rfl (by simp [hpc.1]))
    · cases h
  | drain =>
    simp only [step, mainStep] at h
    split at h
    · rename_i hpc _
      cases h
      exact Or.inr (unfinished_idle hb hstep rfl rfl (by simp [hpc]))
    · rename_i hpc _
      split at h
      · cases h
        exact Or.inr (unfinished_idle hb hstep rfl rfl (by simp [hpc]))
      · cases h
    · cases h
  | record o =>
    simp only [step, mainStep] at h
    split at h
    · rename_i hpc
      cases h
      exact Or.inr (unfinished_idle hb hstep rfl rfl (by simp [hpc]))
    · cases h
  | fetch k ok => exact Or.inr (unfinished_fetch hb h)
  | call k o trimmed => exact unfinished_publication hb h
  | send k =>
    simp only [step, workerStep] at h
    split at h
    · rename_i res hk
      split at h
      · cases h
        exact Or.inr (unfinished_worker hk rfl rfl (Or.inl rfl) (fun hown => by cases hown) hb)
      · cases h
    · cases h
  | release k =>
    simp only [step, workerStep] at h
    split at h
    · rename_i hk
      cases h
      have hempty : Task.releasing.unfinished j.listing = [] := rfl
      refine Or.inr (unfinished_worker hk rfl rfl (Or.inr ⟨rfl, hempty⟩) (fun hown => ?_) hb)
      cases hown
    · cases h

end Unfinished

theorem getCursor_congr {r r' : Redis} {sourceName : Str}
    (h : r'.cursor sourceName = r.cursor sourceName) :
    getCursor r' sourceName = getCursor r sourceName := by
  rw [getCursor, getCursor, h]

/-- An article near the cursor stays near it when the cursor is moved no further than to
five minutes after it. -/
theorem near_step {b : ArticleRaw} (h : step j s e = some t) (hnear : Near j s b)
    (hmoves : ∀ a ∈ advanced j s e, a.published.instant - overlap ≤ b.published.instant) :
    Near j t b := by
  intro u hu
  rcases cursor_step h with hsame | ⟨a, ha, hcursor⟩
  · exact hnear u (getCursor_congr hsame ▸ hu)
  · have hread : getCursor t.redis j.sourceName = some a.published := by
      unfold getCursor
      rw [hcursor]
      dsimp only
      rw [if_neg (format_ne_nil _), parseTime_format]
    obtain rfl : u = a.published := Option.some.inj (Eq.trans (Eq.symm hu) hread)
    exact hmoves a ha

/-- The step that moves the cursor gives up nothing. -/
theorem givenUp_of_advanced {a : ArticleRaw} (ha : advanced j s e = some a) :
    givenUp j s e = [] := by
  cases e with
  | call k o trimmed =>
    simp only [advanced] at ha
    split at ha
    · rename_i hk
      have hlost : lost j s (.call k o trimmed) = [] := by simp [lost, hk]
      have hstays : (s.looping && (step j s (.call k o trimmed)).any fun t => !t.looping) = false := by
        simp only [step, workerStep, hk]
        cases hloop : s.looping with
        | true =>
          change (true && !s.looping) = false
          rw [hloop]
          rfl
        | false => rfl
      rw [givenUp, hlost, hstays]
      rfl
    · cases ha
  | cancel | limiter | spawn | take | done | default | drain | record | fetch | send | release =>
    cases ha

end Step

/-! ## A whole run -/

/-- Every article listed is published, given up or unfinished. -/
def Accounted (j : Job) (x : Sched × List ArticleRaw) : Prop :=
  ∀ b ∈ j.listing.flatten, j.producer.sha256 b.url ∈ x.1.redis.seen ∨ b ∈ x.2 ∨
    b ∈ x.1.unfinished j

/-- Every article listed is accounted for, and those given up are near the cursor. -/
structure Watched (j : Job) (base : Int) (x : Sched × List ArticleRaw) : Prop where
  accounted : Accounted j x
  near : ∀ b ∈ x.2, Due j base x.1 b → Near j x.1 b

theorem watched_start (j : Job) (base : Int) (r : Redis) : Watched j base (.start r, []) := by
  refine ⟨fun b hb => Or.inr (Or.inr ?_), fun b hb => by cases hb⟩
  exact mem_unfinished.mpr (Or.inl ⟨rfl, hb⟩)

theorem watched_step {j : Job} {base : Int} {x y : Sched × List ArticleRaw} {e : Event}
    (hx : Watched j base x) (hheeds : Heeds j base x e) (h : watch j x e = some y) :
    Watched j base y := by
  obtain ⟨t, ht, rfl⟩ := Option.map_eq_some_iff.mp h
  refine ⟨fun b hb => ?_, fun b hb hdue => ?_⟩
  · rcases hx.accounted b hb with hseen | hgone | hleft
    · exact Or.inl (seen_step ht hseen)
    · exact Or.inr (Or.inl (List.mem_append_left _ hgone))
    · rcases unfinished_step hleft ht with hseen | hgone | hleft
      · exact Or.inl hseen
      · exact Or.inr (Or.inl (List.mem_append_right _ hgone))
      · exact Or.inr (Or.inr hleft)
  · have hdue' : Due j base x.1 b := ⟨fun hseen => hdue.1 (seen_step ht hseen), hdue.2⟩
    rcases List.mem_append.mp hb with hb | hb
    · exact near_step ht (hx.near b hb hdue') fun a ha => hheeds.moves a ha b hb hdue'
    · refine near_step ht (hheeds.gives b hb hdue') fun a ha => ?_
      rw [givenUp_of_advanced ha] at hb
      cases hb

/-- A run can be watched. -/
theorem run_watch {j : Job} {s t : Sched} {es : List Event} (h : run (step j) s es = some t)
    (gone : List ArticleRaw) : ∃ gone', run (watch j) (s, gone) es = some (t, gone') := by
  induction es generalizing s gone with
  | nil =>
    cases h
    exact ⟨gone, rfl⟩
  | cons e es ih =>
    rw [run_cons] at h
    obtain ⟨u, hu, h⟩ := Option.bind_eq_some_iff.mp h
    obtain ⟨gone', hgone⟩ := ih h (gone ++ givenUp j s e)
    refine ⟨gone', ?_⟩
    rw [run_cons, watch, hu]
    exact hgone

/-- The next window starts no later than an article near the cursor. -/
theorem buildSince_le {r : Redis} {sourceName : Str} {base instant : Int} (hbase : base ≤ instant)
    (hnear : ∀ t ∈ getCursor r sourceName, t.instant - overlap ≤ instant) :
    buildSince base sourceName r ≤ instant := by
  unfold buildSince
  split
  · rename_i t ht
    have hle := hnear t ht
    unfold resolveSince
    split
    · exact hbase
    · split
      · exact hle
      · exact hbase
  · exact hbase

/-- After any runs, when a run keeps up with what it gives up, the next run considers every
article left behind. -/
theorem left_behind_considered (w : Setup) (crawls : List Crawl) (c : Crawl) (r : Redis)
    (hrun : run (crawl w) .initial (crawls ++ [c]) = some r) (base : Int)
    (hkeeps : ∀ r', run (crawl w) .initial crawls = some r' → KeepsUp w r' c base) (b : ArticleRaw)
    (hb : LeftBehind w c r base b) : buildSince base w.sourceName r ≤ b.published.instant := by
  rw [run_append] at hrun
  obtain ⟨r', hr', hrun⟩ := Option.bind_eq_some_iff.mp hrun
  rw [run_cons] at hrun
  obtain ⟨r'', hcrawl, hrun⟩ := Option.bind_eq_some_iff.mp hrun
  cases hrun
  obtain ⟨s, hs, rfl⟩ := Option.map_eq_some_iff.mp hcrawl
  obtain ⟨hsteps, hends⟩ := hkeeps r' hr'
  obtain ⟨gone, hgone⟩ := run_watch hs []
  have hwatched : Watched (c.job w r') base (s, gone) :=
    run_invariant (fun _ _ _ hx hheeds => watched_step hx hheeds) (watched_start _ base r')
      hsteps hgone
  have hdue : Due (c.job w r') base s b := hb.2
  apply buildSince_le hb.2.2
  rcases hwatched.accounted b hb.1 with hseen | hmem | hleft
  · exact absurd hseen hb.2.1
  · exact hwatched.near b hmem hdue
  · exact hends s hs b hleft hdue

/-! ## A failed page -/

section Decidable

variable (j : Job) (base : Int)

instance (s : Sched) (b : ArticleRaw) : Decidable (Due j base s b) :=
  inferInstanceAs (Decidable (_ ∧ _))

instance (s : Sched) (b : ArticleRaw) : Decidable (Near j s b) :=
  inferInstanceAs (Decidable (∀ t ∈ getCursor s.redis j.sourceName, _))

theorem heeds_iff {x : Sched × List ArticleRaw} {e : Event} : Heeds j base x e ↔
    (∀ b ∈ givenUp j x.1 e, Due j base x.1 b → Near j x.1 b) ∧
      ∀ a ∈ advanced j x.1 e, ∀ b ∈ x.2, Due j base x.1 b →
        a.published.instant - overlap ≤ b.published.instant :=
  ⟨fun h => ⟨h.gives, h.moves⟩, fun h => ⟨h.1, h.2⟩⟩

instance (x : Sched × List ArticleRaw) (e : Event) : Decidable (Heeds j base x e) :=
  decidable_of_iff' _ (heeds_iff j base)

end Decidable

/-- An article published on the fourth of August 2026. -/
def articleAt (url : String) (hour minute : Nat)
    (h : IsCivil 2026 8 4 hour minute 0 0 := by decide) : ArticleRaw where
  url := lit url
  sourceType := lit "devto"
  published := ⟨2026, 8, 4, hour, minute, 0, 0, h⟩
  payload := []

def fresh : ArticleRaw := articleAt "https://dev.to/a/1" 12 0

def stale : ArticleRaw := articleAt "https://dev.to/a/2" 11 50

def recent : ArticleRaw := articleAt "https://dev.to/a/3" 11 57

/-- The SHA-256 digests of the URLs. -/
def sampleHash (url : Str) : Str :=
  ([(fresh.url, lit "727e190f36b3f6599efe4924ee17e4bbfa10556980d2920d57990cbd831a3390"),
    (stale.url, lit "b4b85c6446d2855614635e11c33a6062b0e28c4bb80ec6353a7a61dd89cc2d35"),
    (recent.url, lit "c7cefd9ebb290a3ed134ab3ff6e2519b9bebc0e3ad336c5d9c032c36809223e6")].lookup
      url).getD []

def sampleSetup : Setup := ⟨lit "devto", ⟨sampleHash, 20000⟩, 0, 8, 3⟩

/-- The source lists two pages. The article of the first is published, the fetch of the second
fails, and the third is empty. -/
def failedPage (older : ArticleRaw) : Crawl where
  base := stale.published.instant - overlap
  listing := [[fresh], [older]]
  steps := [.limiter, .spawn, .default, .limiter, .spawn, .fetch 0 true, .fetch 1 false] ++
    List.replicate 4 (.call 0 .returns 0) ++
    [.send 0, .send 1, .release 0, .release 0, .take, .limiter, .spawn, .fetch 0 true, .send 0,
      .release 0, .take, .limiter, .spawn, .take, .fetch 0 true, .send 0, .release 0, .drain,
      .drain, .record .returns]

/-- The article of the failed page is three minutes older than the published one. -/
theorem left_behind_considered_recent : ∃ r,
    run (crawl sampleSetup) .initial ([] ++ [failedPage recent]) = some r ∧
    LeftBehind sampleSetup (failedPage recent) r 1 recent ∧
    buildSince 1 (lit "devto") r ≤ recent.published.instant := by
  have hend : (run (crawl sampleSetup) .initial ([] ++ [failedPage recent])).map Redis.seen =
      some [sampleHash fresh.url] := by decide +kernel
  obtain ⟨r, hrun, hseen⟩ := Option.map_eq_some_iff.mp hend
  have hleft : LeftBehind sampleSetup (failedPage recent) r 1 recent := by
    refine ⟨by decide, ?_, by decide⟩
    rw [hseen]
    decide
  refine ⟨r, hrun, hleft, left_behind_considered sampleSetup [] (failedPage recent) r hrun 1
    (fun r' hr' => ?_) recent hleft⟩
  cases hr'
  refine ⟨by decide +kernel, fun s hs b hb _ => ?_⟩
  have hfinished : (run (step ((failedPage recent).job sampleSetup .initial)) (.start .initial)
      (failedPage recent).steps).map
        (Sched.unfinished ((failedPage recent).job sampleSetup .initial)) = some [] := by
    decide +kernel
  rw [hs] at hfinished
  rw [Option.some.inj hfinished] at hb
  cases hb

/-- The newest article is published and the fetch of the second page fails: the
next run starts five minutes before the former, after the latter. -/
theorem failed_page_skipped :
    ¬ ∀ (crawls : List Crawl) (c : Crawl) (r : Redis),
      (∀ c' ∈ crawls ++ [c], c'.listing.flatten.Pairwise fun a b =>
        b.published.instant ≤ a.published.instant) →
      run (crawl sampleSetup) .initial (crawls ++ [c]) = some r →
      ∀ base b, LeftBehind sampleSetup c r base b →
        buildSince base (lit "devto") r ≤ b.published.instant := by
  intro hconsidered
  have hend : (run (crawl sampleSetup) .initial ([] ++ [failedPage stale])).map
      (fun r => (r.seen, buildSince stale.published.instant (lit "devto") r)) =
        some ([sampleHash fresh.url], fresh.published.instant - overlap) := by
    decide +kernel
  obtain ⟨r, hrun, hview⟩ := Option.map_eq_some_iff.mp hend
  obtain ⟨hseen, hsince⟩ := Prod.mk.inj hview
  have hsorted : ∀ c' ∈ [] ++ [failedPage stale], c'.listing.flatten.Pairwise fun a b =>
      b.published.instant ≤ a.published.instant := by
    intro c' hc'
    obtain rfl := List.mem_singleton.mp hc'
    decide
  have hleft : LeftBehind sampleSetup (failedPage stale) r stale.published.instant stale := by
    refine ⟨by decide, ?_, Int.le_refl _⟩
    rw [hseen]
    decide
  have hle := hconsidered [] (failedPage stale) r hsorted hrun _ _ hleft
  rw [hsince] at hle
  exact absurd hle (by decide)

end WebSpider.Crawler
