import WebSpider.Crawler.Workers
import Mathlib.Algebra.BigOperators.Group.List.Basic
import Mathlib.Algebra.Order.Group.Multiset
import Mathlib.Tactic.Abel

/-!
# Conservation along a run

What a run gains by some of its acts is held by the workers and the channel until
other acts give it out. `Balance` names such a quantity, by what each act gains and
loses and what each task and each result holds; it is conserved under every
interleaving. The instances are the pages under way, the three counts of a page, the
articles to publish and the pages to fetch.
-/

namespace WebSpider.Crawler.Workers

open Effects

variable {α M : Type}

/-! ## Balances -/

/-- A quantity that tasks and results hold between the acts which gain and lose it. -/
structure Balance (α M : Type) [AddCommMonoid M] where
  gain : Act α → M
  loss : Act α → M
  inTask : Task α → M
  inResult : PageResult → M
  launch : ∀ page, gain (.launch page) = loss (.launch page) + inTask (.fetching page)
  fetch : ∀ page answer, inTask (.fetching page) + gain (.fetch page answer) =
    loss (.fetch page answer) + inTask (afterFetch page answer)
  publish : ∀ a rest res answer, inTask (.publishing a rest res) + gain (.publish a answer) =
    loss (.publish a answer) + inTask (publishAll rest (tally res answer))
  send : ∀ res, inTask (.sending res) = inTask .releasing + inResult res
  release : inTask .releasing = inTask .finishing
  exit : inTask .finishing = 0
  absorb : ∀ r, inResult r + gain (.absorb r) = loss (.absorb r)
  record : ∀ stats, gain (.record stats) = loss (.record stats)

/-- What the acts amount to. -/
def total [AddCommMonoid M] (f : Act α → M) (acts : List (Act α)) : M := (acts.map f).sum

namespace Balance

variable [AddCommMonoid M]

@[simp] theorem total_nil (f : Act α → M) : total f [] = 0 := rfl

@[simp] theorem total_append (f : Act α → M) (acts acts' : List (Act α)) :
    total f (acts ++ acts') = total f acts + total f acts' := by
  simp [total]

@[simp] theorem total_singleton (f : Act α → M) (act : Act α) : total f [act] = f act := by
  simp [total]

/-- What the tasks and the results hold. -/
def held (b : Balance α M) (s : State α) : M :=
  (s.tasks.map b.inTask).sum + (s.results.map b.inResult).sum

/-- A worker's step conserves the quantity. -/
theorem works (b : Balance α M) {cfg : Settings} {s : State α} {task : Task α}
    {acts : List (Act α)} {sent : List PageResult} {next : Option (Task α)}
    (h : Works cfg s task acts sent next) :
    b.inTask task + total b.gain acts =
      total b.loss acts + ((next.toList.map b.inTask).sum + (sent.map b.inResult).sum) := by
  cases h with
  | fetch page answer => simpa using b.fetch page answer
  | publish a rest res answer => simpa using b.publish a rest res answer
  | send res => simpa using b.send res
  | release => simpa using b.release
  | exit => simpa using b.exit

/-- Every step conserves the quantity. -/
theorem conserved_step (b : Balance α M) {cfg : Settings} {s t : State α}
    (hs : total b.gain s.acts = total b.loss s.acts + b.held s) (h : Stepped cfg s t) :
    total b.gain t.acts = total b.loss t.acts + b.held t := by
  cases h with
  | cancel => exact hs
  | refused => exact hs
  | limited => exact hs
  | next => exact hs
  | launch page hpc hslots =>
    simp only [held, total_append, total_singleton, List.map_append, List.sum_append,
      List.map_cons, List.map_nil, List.sum_cons, List.sum_nil] at hs ⊢
    rw [hs, b.launch page]
    abel
  | take r results hpc hresults =>
    simp only [held, State.take_acts, State.take_tasks, State.take_results, total_append,
      total_singleton, hresults, List.map_cons, List.sum_cons] at hs ⊢
    rw [hs, ← b.absorb r]
    abel
  | done => exact hs
  | default => exact hs
  | close => exact hs
  | drain r results hpc hresults =>
    simp only [held, State.absorb_acts, State.absorb_tasks, State.absorb_results, total_append,
      total_singleton, hresults, List.map_cons, List.sum_cons] at hs ⊢
    rw [hs, ← b.absorb r]
    abel
  | finish => exact hs
  | record =>
    simp only [held, total_append, total_singleton] at hs ⊢
    rw [hs, b.record]
    abel
  | work task rest tasks acts sent next hworks hbefore hafter =>
    have hlocal := b.works hworks
    have htasks := (hbefore.map b.inTask).sum_eq
    have htasks' := (hafter.map b.inTask).sum_eq
    simp only [held, total_append, List.map_append, List.sum_append, List.map_cons,
      List.sum_cons] at hs htasks htasks' ⊢
    rw [htasks] at hs
    rw [htasks', hs]
    calc total b.loss s.acts + (b.inTask task + (rest.map b.inTask).sum
            + (s.results.map b.inResult).sum) + total b.gain acts
        = total b.loss s.acts + ((rest.map b.inTask).sum + (s.results.map b.inResult).sum)
            + (b.inTask task + total b.gain acts) := by abel
      _ = _ := by
        rw [hlocal]
        abel
  | panic => exact hs

/-- What was gained was lost again or is still held. -/
theorem conserved (b : Balance α M) {cfg : Settings} {s : State α} {es : List (Event α)}
    (hrun : run (step cfg) start es = some s) :
    total b.gain s.acts = total b.loss s.acts + b.held s := by
  refine state_invariant ?_ (fun _ _ hs h => b.conserved_step hs h) hrun
  simp [held, start]

end Balance

/-! ## Counts -/

namespace Act

def isLaunch : Act α → Bool
  | .launch _ => true
  | _ => false

def isAbsorb : Act α → Bool
  | .absorb _ => true
  | _ => false

/-- The page a worker is started for. -/
def launchedPage : Act α → Option Nat
  | .launch page => some page
  | _ => none

/-- The page of a call of `FetchSince`. -/
def fetchedPage : Act α → Option Nat
  | .fetch page _ => some page
  | _ => none

/-- The articles a call of `FetchSince` returned. -/
def fetchedArticles : Act α → List α
  | .fetch _ (some (articles, _)) => articles
  | _ => []

/-- The article of a call of `Publish`. -/
def publishedArticle : Act α → Option α
  | .publish a _ => some a
  | _ => none

/-- The page of an absorbed result. -/
def absorbedPage : Act α → Option Nat
  | .absorb r => some r.page
  | _ => none

/-- A call of `Publish` that returned true. -/
def isPublished : Act α → Bool
  | .publish _ (some true) => true
  | _ => false

/-- A call of `Publish` that returned an error. -/
def isPublishError : Act α → Bool
  | .publish _ none => true
  | _ => false

/-- A call of `FetchSince` that returned an error. -/
def isFetchError : Act α → Bool
  | .fetch _ none => true
  | _ => false

/-- What an absorbed result counts for. -/
def absorbed [AddCommMonoid M] (f : PageResult → M) : Act α → M
  | .absorb r => f r
  | _ => 0

/-- What an act of the given kind counts for. -/
def one (p : Act α → Bool) (act : Act α) : Nat := if p act then 1 else 0

end Act

theorem total_one (p : Act α → Bool) (acts : List (Act α)) :
    total (Act.one p) acts = acts.countP p := by
  unfold total
  induction acts with
  | nil => rfl
  | cons act acts ih =>
    rw [List.map_cons, List.sum_cons, ih, List.countP_cons, Act.one, Nat.add_comm]

/-- What an act counts for in a multiset. -/
def Act.each {β : Type} (g : Act α → Option β) (act : Act α) : Multiset β := ((g act).toList : List β)

theorem total_coe {β : Type} (g : Act α → List β) (acts : List (Act α)) :
    total (fun act => (g act : Multiset β)) acts = (acts.flatMap g : List β) := by
  unfold total
  induction acts with
  | nil => rfl
  | cons act acts ih => rw [List.map_cons, List.sum_cons, ih, List.flatMap_cons, Multiset.coe_add]

theorem total_each {β : Type} (g : Act α → Option β) (acts : List (Act α)) :
    total (Act.each g) acts = (acts.filterMap g : List β) := by
  rw [List.filterMap_eq_flatMap_toList]
  exact total_coe (fun act => (g act).toList) acts

/-- What a task holds of the result it is working on. -/
def Task.sofar [AddCommMonoid M] (f : PageResult → M) (fetching : Nat → M) : Task α → M
  | .fetching page => fetching page
  | .publishing _ _ res => f res
  | .sending res => f res
  | .releasing | .finishing => 0

theorem sofar_publishAll [AddCommMonoid M] (f : PageResult → M) (fetching : Nat → M)
    (articles : List α) (res : PageResult) :
    (publishAll articles res).sofar f fetching = f res := by
  cases articles with
  | nil => rfl
  | cons a rest => rfl

/-- A quantity of results: a page starts with what it is launched for, `FetchSince` and
`Publish` add to it, and it is given out when the result is absorbed. -/
def ofResults [AddCommMonoid M] (f : PageResult → M) (fetching : Nat → M) (gain : Act α → M)
    (hlaunch : ∀ page, gain (.launch page) = fetching page)
    (hfail : ∀ page, fetching page + gain (.fetch page none) = f ⟨page, false, true, 0, 0⟩)
    (hfetch : ∀ page articles empty, fetching page + gain (.fetch page (some (articles, empty))) =
      f ⟨page, empty, false, 0, 0⟩)
    (hpublish : ∀ a res answer, f res + gain (.publish a answer) = f (tally res answer))
    (habsorb : ∀ r, gain (.absorb r) = 0) (hrecord : ∀ stats, gain (.record stats) = 0) :
    Balance α M where
  gain := gain
  loss := Act.absorbed f
  inTask := Task.sofar f fetching
  inResult := f
  launch page := by simp [Act.absorbed, Task.sofar, hlaunch]
  fetch page answer := by
    cases answer with
    | none => simpa [Act.absorbed, Task.sofar, afterFetch] using hfail page
    | some answer =>
      change fetching page + _ = 0 + (publishAll _ _).sofar f fetching
      rw [sofar_publishAll, zero_add]
      exact hfetch page answer.1 answer.2
  publish a rest res answer := by
    change f res + _ = 0 + (publishAll _ _).sofar f fetching
    rw [sofar_publishAll, zero_add]
    exact hpublish a res answer
  send res := by simp [Task.sofar]
  release := rfl
  exit := rfl
  absorb r := by simp [Act.absorbed, habsorb]
  record stats := by simp [Act.absorbed, hrecord]

/-- The pages launched and not drained. -/
def underway : Balance α Nat :=
  ofResults (fun _ => 1) (fun _ => 1) (Act.one Act.isLaunch) (fun _ => rfl) (fun _ => rfl)
    (fun _ _ _ => rfl) (fun _ _ _ => rfl) (fun _ => rfl) fun _ => rfl

/-- The same pages by their numbers. -/
def pagesUnderway : Balance α (Multiset Nat) :=
  ofResults (fun r => {r.page}) (fun page => {page}) (Act.each Act.launchedPage) (fun _ => rfl)
    (fun _ => add_zero _) (fun _ _ _ => add_zero _)
    (fun _ _ answer => by
      rcases answer with _ | _ | _
      · exact add_zero _
      · exact add_zero _
      · exact add_zero _)
    (fun _ => rfl) fun _ => rfl

/-- The articles published, of those the workers have in hand. -/
def publishedOnes : Balance α Nat :=
  ofResults PageResult.published (fun _ => 0) (Act.one Act.isPublished) (fun _ => rfl)
    (fun _ => rfl) (fun _ _ _ => rfl)
    (fun _ _ answer => by
      rcases answer with _ | _ | _
      · rfl
      · rfl
      · rfl)
    (fun _ => rfl) fun _ => rfl

/-- The failed publications. -/
def publishErrors : Balance α Nat :=
  ofResults PageResult.pubErrs (fun _ => 0) (Act.one Act.isPublishError) (fun _ => rfl)
    (fun _ => rfl) (fun _ _ _ => rfl)
    (fun _ _ answer => by
      rcases answer with _ | _ | _
      · rfl
      · rfl
      · rfl)
    (fun _ => rfl) fun _ => rfl

/-- The failed fetches. -/
def fetchErrors : Balance α Nat :=
  ofResults (fun r => if r.failed then 1 else 0) (fun _ => 0) (Act.one Act.isFetchError)
    (fun _ => rfl) (fun _ => rfl) (fun _ _ _ => rfl)
    (fun _ _ answer => by
      rcases answer with _ | _ | _
      · rfl
      · rfl
      · rfl)
    (fun _ => rfl) fun _ => rfl

/-- What a task has still to fetch. -/
def Task.unfetched : Task α → Multiset Nat
  | .fetching page => {page}
  | _ => 0

/-- What a task has still to publish. -/
def Task.unpublished : Task α → List α
  | .publishing a rest _ => a :: rest
  | _ => []

theorem unfetched_publishAll (articles : List α) (res : PageResult) :
    (publishAll articles res).unfetched = 0 := by
  cases articles with
  | nil => rfl
  | cons a rest => rfl

theorem unpublished_publishAll (articles : List α) (res : PageResult) :
    (publishAll articles res).unpublished = articles := by
  cases articles with
  | nil => rfl
  | cons a rest => rfl

/-- The pages to fetch: a page launched is fetched once. -/
def pagesToFetch : Balance α (Multiset Nat) where
  gain := Act.each Act.launchedPage
  loss := Act.each Act.fetchedPage
  inTask := Task.unfetched
  inResult _ := 0
  launch _ := rfl
  fetch page answer := by
    change {page} + 0 = {page} + (afterFetch page answer).unfetched
    cases answer with
    | none => rfl
    | some answer => rw [afterFetch, unfetched_publishAll]
  publish a rest res answer := by
    change 0 + 0 = 0 + (publishAll rest (tally res answer)).unfetched
    rw [unfetched_publishAll]
  send _ := rfl
  release := rfl
  exit := rfl
  absorb _ := rfl
  record _ := rfl

/-- The articles to publish: an article fetched is passed to `Publish` once. -/
def articlesToPublish : Balance α (Multiset α) where
  gain act := (act.fetchedArticles : Multiset α)
  loss := Act.each Act.publishedArticle
  inTask task := (task.unpublished : Multiset α)
  inResult _ := 0
  launch _ := rfl
  fetch page answer := by
    cases answer with
    | none => rfl
    | some answer =>
      change 0 + (answer.1 : Multiset α) = 0 + ((publishAll _ _).unpublished : List α)
      rw [unpublished_publishAll]
  publish a rest res answer := by
    change ((a :: rest : List α) : Multiset α) + 0 =
      ([a] : List α) + ((publishAll _ _).unpublished : List α)
    rw [unpublished_publishAll, add_zero]
    rfl
  send _ := rfl
  release := rfl
  exit := rfl
  absorb _ := rfl
  record _ := rfl

end WebSpider.Crawler.Workers
