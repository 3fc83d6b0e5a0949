import WebSpider.Crawler.Coverage
import Mathlib.Data.List.Flatten

/-!
# Sources with finitely many pages

What a run has done when it returns. It leaves the loop for a reason, each result
tells what the source answered for its page, and by the balances every page launched
was fetched and every article fetched was passed to `Publish`. With a source whose
pages end, this gives all articles, and the length of the run is bounded.
-/

namespace WebSpider.Crawler.Workers

open Text Effects

variable {α : Type}

/-! ## Definitions -/

/-- The result a task is working on. -/
def Task.result : Task α → Option PageResult
  | .publishing _ _ res => some res
  | .sending res => some res
  | _ => none

/-- The result tells what `FetchSince` answered for its page. -/
def Honest (acts : List (Act α)) (r : PageResult) : Prop :=
  if r.failed then Act.fetch r.page none ∈ acts
  else ∃ articles, Act.fetch r.page (some (articles, r.empty)) ∈ acts

/-- All results under way and drained are honest. -/
structure Answered (s : State α) : Prop where
  tasks : ∀ task ∈ s.tasks, ∀ res, task.result = some res → Honest s.acts res
  results : ∀ r ∈ s.results, Honest s.acts r
  absorbed : ∀ r, Act.absorb r ∈ s.acts → Honest s.acts r

/-- Why the loop may be left: the context is cancelled, the limiter admits nothing, the
page limit is reached, or a drained result stops the run. -/
def Reason (cfg : Settings) (s : State α) : Prop :=
  s.cancelled ∨ cfg.ratePerSec ≤ 0 ∨ (0 < cfg.maxPages ∧ cfg.maxPages < s.nextPage) ∨
    ∃ pre r post, s.acts = pre ++ Act.absorb r :: post ∧ Stops cfg pre r

/-- A run leaves the loop for a reason, and when it returns all workers are gone or one of
the first two reasons applies. -/
structure Ended (cfg : Settings) (s : State α) : Prop where
  stop : s.stop → Reason cfg s
  left : Left s.pc → Reason cfg s
  finished : s.pc = .returned →
    s.cancelled ∨ cfg.ratePerSec ≤ 0 ∨ (s.tasks = [] ∧ s.results = [])

/-! ## Results -/

theorem Honest.mono {acts acts' : List (Act α)} {r : PageResult} (h : Honest acts r)
    (hsub : acts ⊆ acts') : Honest acts' r := by
  unfold Honest at h ⊢
  split
  · rw [if_pos ‹_›] at h
    exact hsub h
  · rw [if_neg ‹_›] at h
    obtain ⟨articles, hmem⟩ := h
    exact ⟨articles, hsub hmem⟩

/-- `Publish` changes what is counted, not what is told of the page. -/
theorem honest_tally {acts : List (Act α)} {r : PageResult} (h : Honest acts r)
    (answer : Option Bool) : Honest acts (tally r answer) := by
  rcases answer with _ | _ | _
  · exact h
  · exact h
  · exact h

theorem result_publishAll (articles : List α) (r : PageResult) :
    (publishAll articles r).result = some r := by
  cases articles with
  | nil => rfl
  | cons a rest => rfl

/-- A worker's step keeps results honest. -/
theorem works_honest {cfg : Settings} {s : State α} {task : Task α} {acts acts₀ : List (Act α)}
    {sent : List PageResult} {next : Option (Task α)} (h : Works cfg s task acts sent next)
    (htask : ∀ res, task.result = some res → Honest acts₀ res) :
    (∀ task' ∈ next.toList, ∀ res, task'.result = some res → Honest (acts₀ ++ acts) res) ∧
      ∀ r ∈ sent, Honest (acts₀ ++ acts) r := by
  cases h with
  | fetch page answer =>
    refine ⟨?_, fun _ h => absurd h List.not_mem_nil⟩
    intro task' htask' res hres
    cases List.mem_singleton.mp htask'
    have hmem : Act.fetch page answer ∈ acts₀ ++ [Act.fetch page answer] :=
      List.mem_append_right _ List.mem_cons_self
    cases answer with
    | none =>
      cases hres
      exact hmem
    | some answer =>
      rw [afterFetch, result_publishAll] at hres
      cases hres
      exact ⟨answer.1, hmem⟩
  | publish a rest res answer =>
    refine ⟨?_, fun _ h => absurd h List.not_mem_nil⟩
    intro task' htask' res' hres
    cases List.mem_singleton.mp htask'
    rw [result_publishAll] at hres
    cases hres
    exact honest_tally ((htask res rfl).mono (List.subset_append_left _ _)) answer
  | send res =>
    refine ⟨?_, ?_⟩
    · intro task' htask' res' hres
      cases List.mem_singleton.mp htask'
      cases hres
    · intro r hr
      cases List.mem_singleton.mp hr
      exact (htask res rfl).mono (List.subset_append_left _ _)
  | release =>
    refine ⟨?_, fun _ h => absurd h List.not_mem_nil⟩
    intro task' htask' res hres
    cases List.mem_singleton.mp htask'
    cases hres
  | exit => exact ⟨fun _ h => absurd h List.not_mem_nil, fun _ h => absurd h List.not_mem_nil⟩

/-- A step of the main loop: it starts workers and absorbs results of the channel. -/
theorem Answered.main {s t : State α} {acts : List (Act α)} (hs : Answered s)
    (hacts : t.acts = s.acts ++ acts)
    (htasks : ∀ task ∈ t.tasks, task ∈ s.tasks ∨ task.result = none)
    (hresults : ∀ r ∈ t.results, r ∈ s.results)
    (habsorb : ∀ r, Act.absorb r ∈ acts → r ∈ s.results) : Answered t := by
  have hsub : s.acts ⊆ t.acts := by
    rw [hacts]
    exact List.subset_append_left _ _
  refine ⟨?_, fun r hr => (hs.results r (hresults r hr)).mono hsub, ?_⟩
  · intro task htask res hres
    rcases htasks task htask with hmem | hnone
    · exact (hs.tasks task hmem res hres).mono hsub
    · exact nomatch hnone.symm.trans hres
  · intro r hr
    rw [hacts] at hr
    rcases List.mem_append.mp hr with hr | hr
    · exact (hs.absorbed r hr).mono hsub
    · exact (hs.results r (habsorb r hr)).mono hsub

theorem Answered.step {cfg : Settings} {s t : State α} (hs : Answered s) (h : Stepped cfg s t) :
    Answered t := by
  have hidle : t.acts = s.acts → t.tasks = s.tasks → t.results = s.results → Answered t := by
    intro hacts htasks hresults
    rw [← List.append_nil s.acts] at hacts
    exact hs.main hacts (fun task h => .inl (htasks ▸ h)) (fun r h => hresults ▸ h)
      fun _ h => absurd h List.not_mem_nil
  cases h with
  | launch page hpc =>
    refine hs.main rfl ?_ (fun _ h => h) (by simp)
    intro task htask
    rcases List.mem_append.mp htask with htask | htask
    · exact .inl htask
    · cases List.mem_singleton.mp htask
      exact .inr rfl
  | take r results hpc hresults =>
    refine hs.main rfl (fun _ h => .inl h) (fun r' h => ?_) fun r' h => ?_
    · rw [hresults]
      exact List.mem_cons_of_mem _ h
    · cases List.mem_singleton.mp h
      rw [hresults]
      exact List.mem_cons_self
  | drain r results hpc hresults =>
    refine hs.main rfl (fun _ h => .inl h) (fun r' h => ?_) fun r' h => ?_
    · rw [hresults]
      exact List.mem_cons_of_mem _ h
    · cases List.mem_singleton.mp h
      rw [hresults]
      exact List.mem_cons_self
  | record => exact hs.main rfl (fun _ h => .inl h) (fun _ h => h) (by simp)
  | work task rest tasks acts sent next hworks hbefore hafter =>
    have htask : task ∈ s.tasks := hbefore.mem_iff.mpr List.mem_cons_self
    obtain ⟨hnext, hsent⟩ := works_honest hworks (hs.tasks task htask)
    have hsub : s.acts ⊆ s.acts ++ acts := List.subset_append_left _ _
    refine ⟨?_, ?_, ?_⟩
    · intro task' htask'
      rcases List.mem_append.mp (hafter.mem_iff.mp htask') with hmem | hmem
      · exact hnext task' hmem
      · intro res hres
        exact (hs.tasks task' (hbefore.mem_iff.mpr (List.mem_cons_of_mem _ hmem)) res hres).mono hsub
    · intro r hr
      rcases List.mem_append.mp hr with hr | hr
      · exact (hs.results r hr).mono hsub
      · exact hsent r hr
    · intro r hr
      rcases List.mem_append.mp hr with hr | hr
      · exact (hs.absorbed r hr).mono hsub
      · exact absurd hr (not_mem_of_works hworks r)
  | _ => exact hidle rfl rfl rfl

theorem answered {cfg : Settings} {s : State α} {es : List (Event α)}
    (hrun : run (step cfg) start es = some s) : Answered s :=
  state_invariant ⟨nofun, nofun, nofun⟩ (fun _ _ hs h => hs.step h) hrun

/-! ## The end of a run -/

theorem Reason.mono {cfg : Settings} {s t : State α} {acts : List (Act α)} (h : Reason cfg s)
    (hcancelled : s.cancelled → t.cancelled) (hnext : s.nextPage ≤ t.nextPage)
    (hacts : t.acts = s.acts ++ acts) : Reason cfg t := by
  rcases h with h | h | ⟨hpos, h⟩ | ⟨pre, r, post, h, hstop⟩
  · exact .inl (hcancelled h)
  · exact .inr (.inl h)
  · exact .inr (.inr (.inl ⟨hpos, by omega⟩))
  · refine .inr (.inr (.inr ⟨pre, r, post ++ acts, ?_, hstop⟩))
    rw [hacts, h, List.append_assoc]
    rfl

/-- A step that gives no new reason to leave the loop. -/
theorem Ended.keep {cfg : Settings} {s t : State α} {acts : List (Act α)} (hs : Ended cfg s)
    (hcancelled : s.cancelled → t.cancelled) (hnext : s.nextPage ≤ t.nextPage)
    (hacts : t.acts = s.acts ++ acts) (hstop : t.stop → s.stop)
    (hleft : Left t.pc → Left s.pc ∨ s.stop)
    (hfinished : t.pc = .returned → s.pc = .returned ∧ t.tasks ⊆ s.tasks ∧ t.results ⊆ s.results) :
    Ended cfg t := by
  refine ⟨fun h => (hs.stop (hstop h)).mono hcancelled hnext hacts, fun h => ?_, fun h => ?_⟩
  · rcases hleft h with h | h
    · exact (hs.left h).mono hcancelled hnext hacts
    · exact (hs.stop h).mono hcancelled hnext hacts
  · obtain ⟨hpc, htasks, hresults⟩ := hfinished h
    rcases hs.finished hpc with h | h | ⟨hnil, hnil'⟩
    · exact .inl (hcancelled h)
    · exact .inr (.inl h)
    · rw [hnil] at htasks
      rw [hnil'] at hresults
      exact .inr (.inr ⟨List.subset_nil.mp htasks, List.subset_nil.mp hresults⟩)

/-- The flag is set by a result that stops the run only. -/
theorem stops_of_absorb {cfg : Settings} {s : State α} (hcounted : Counted s) {r : PageResult}
    (hstop : (s.absorb cfg r).stop) : s.stop ∨ Stops cfg s.acts r := by
  rw [State.absorb_stop, Bool.or_eq_true, Bool.and_eq_true, decide_eq_true_eq] at hstop
  refine hstop.imp_right fun ⟨hfailed, hlimit⟩ => .inr ⟨hfailed, ?_⟩
  unfold failures
  rw [Balance.total_append, Balance.total_singleton, Act.absorbed, ← hcounted.failedPages,
    if_pos hfailed]
  rwa [if_pos hfailed] at hlimit

theorem Ended.step {cfg : Settings} {s t : State α} {es : List (Event α)}
    (hrun : run (Workers.step cfg) start es = some s) (hs : Ended cfg s) (h : Stepped cfg s t) :
    Ended cfg t := by
  have hidle : t.acts = s.acts → (s.cancelled → t.cancelled) → s.nextPage ≤ t.nextPage →
      (t.stop → s.stop) → (Left t.pc → Left s.pc ∨ s.stop) →
      (t.pc = .returned → s.pc = .returned ∧ t.tasks ⊆ s.tasks ∧ t.results ⊆ s.results) →
      Ended cfg t := by
    intro hacts hcancelled hnext
    rw [← List.append_nil s.acts] at hacts
    exact hs.keep hcancelled hnext hacts
  -- A result that stops the run is a reason from now on.
  have hreason : ∀ {u : State α} {r : PageResult}, u.acts = s.acts ++ [Act.absorb r] →
      Stops cfg s.acts r → Reason cfg u := fun hacts hstops =>
    .inr (.inr (.inr ⟨_, _, [], hacts, hstops⟩))
  cases h with
  | cancel =>
    exact hidle rfl (fun _ => rfl) (Nat.le_refl _) id .inl
      fun h => ⟨h, List.Subset.refl _, List.Subset.refl _⟩
  | refused hpc hfail =>
    have hwhy : Reason cfg { s with pc := .returned } := hfail.imp_right .inl
    exact ⟨fun _ => hwhy, fun _ => hwhy, fun _ => hfail.imp_right .inl⟩
  | limited hpc hlimit =>
    have hwhy : Reason cfg { s with stop := true, pc := .drain } := .inr (.inr (.inl hlimit))
    exact ⟨fun _ => hwhy, fun _ => hwhy, by simp⟩
  | next hpc => exact hidle rfl id (Nat.le_succ _) id (by simp [Left]) (by simp)
  | launch page hpc =>
    have hpending := ((flowing hrun).2.acquiring page hpc).2
    rw [if_pos hpending]
    exact hs.keep id (Nat.le_refl _) rfl id (by simp [Left]) (by simp)
  | take r results hpc hresults =>
    have hwhy : (s.take cfg r results).stop → Reason cfg (s.take cfg r results) := by
      intro hstop
      change (s.absorb cfg r).stop || r.empty at hstop
      rcases Bool.or_eq_true _ _ ▸ hstop with hstop | hempty
      · rcases stops_of_absorb (counted hrun) hstop with hstop | hstops
        · exact (hs.stop hstop).mono id (Nat.le_refl _) rfl
        · exact hreason rfl hstops
      · exact hreason rfl (.inl hempty)
    refine ⟨hwhy, fun hleft => hwhy ?_, fun hreturned => ?_⟩
    · by_contra hstop
      have hpc' : (s.take cfg r results).pc = .wait := if_neg hstop
      rw [hpc'] at hleft
      simp [Left] at hleft
    · rcases s.take_pc_or cfg r results with hpc' | hpc'
      · cases hpc'.symm.trans hreturned
      · cases hpc'.symm.trans hreturned
  | done hpc hcancelled =>
    have hwhy : Reason cfg { s with stop := true, pc := .drain } := .inl hcancelled
    exact ⟨fun _ => hwhy, fun _ => hwhy, by simp⟩
  | default hpc =>
    refine hidle rfl id (Nat.le_refl _) id (fun hleft => .inr ?_) fun hreturned => ?_
    · by_contra hstop
      have hpc' : s.top.pc = .wait := if_neg hstop
      rw [hpc'] at hleft
      simp [Left] at hleft
    · rcases s.top_pc_or with hpc' | hpc'
      · cases hpc'.symm.trans hreturned
      · cases hpc'.symm.trans hreturned
  | close =>
    exact hidle rfl id (Nat.le_refl _) id .inl
      fun h => ⟨h, List.Subset.refl _, List.Subset.refl _⟩
  | drain r results hpc =>
    have hwhy : Reason cfg ({ s with results := results }.absorb cfg r) :=
      (hs.left (.inl hpc)).mono id (Nat.le_refl _) rfl
    exact ⟨fun _ => hwhy, fun _ => hwhy, fun h => by cases hpc.symm.trans h⟩
  | finish hpc =>
    exact hidle rfl id (Nat.le_refl _) id (fun _ => .inl (.inl hpc)) (by simp)
  | record hpc =>
    obtain ⟨hclosed, hresults⟩ := (shut hrun).record hpc
    have hwhy := (hs.left (.inr (.inl hpc))).mono (t := { s with
      acts := s.acts ++ [.record (s.stats cfg)], pc := .returned }) id (Nat.le_refl _) rfl
    exact ⟨fun _ => hwhy, fun _ => hwhy, fun _ => .inr (.inr ⟨(shut hrun).tasks hclosed, hresults⟩)⟩
  | work task rest tasks acts sent next hworks hbefore =>
    refine ⟨fun h => (hs.stop h).mono id (Nat.le_refl _) rfl,
      fun h => (hs.left h).mono id (Nat.le_refl _) rfl, fun hpc => ?_⟩
    rcases hs.finished hpc with h | h | ⟨hnil, -⟩
    · exact .inl h
    · exact .inr (.inl h)
    · rw [hnil] at hbefore
      exact absurd hbefore.symm.eq_nil (List.cons_ne_nil _ _)
  | panic =>
    exact hidle rfl id (Nat.le_refl _) id .inl
      fun h => ⟨h, List.Subset.refl _, List.Subset.refl _⟩

theorem ended {cfg : Settings} {s : State α} {es : List (Event α)}
    (hrun : run (step cfg) start es = some s) : Ended cfg s := by
  refine reached_state_invariant ⟨nofun, ?_, nofun⟩ (fun _ _ _ hs hI h => hI.step hs h) hrun
  simp [Left, start]

/-! ## Pages -/

theorem launches_nodup {cfg : Settings} {s : State α} {es : List (Event α)}
    (hrun : run (step cfg) start es = some s) : (launches s.acts).Nodup := by
  rw [(numbered hrun).order]
  exact List.nodup_range'

/-- The pages drained are launched pages, each once. -/
theorem absorbed_subperm {cfg : Settings} {s : State α} {es : List (Event α)}
    (hrun : run (step cfg) start es = some s) :
    (s.acts.filterMap Act.absorbedPage).Subperm (launches s.acts) := by
  have h := pagesUnderway.conserved hrun
  have hloss : (pagesUnderway (α := α)).loss = Act.each Act.absorbedPage := by
    funext act
    cases act <;> rfl
  have hgain : total (pagesUnderway (α := α)).gain s.acts = (launches s.acts : List Nat) :=
    total_each _ _
  rw [hloss, hgain, total_each] at h
  apply Multiset.coe_le.mp
  rw [h]
  exact Multiset.le_add_right _ _

/-- The pages fetched are launched pages, each once; when the workers are gone, all. -/
theorem fetched_eq {cfg : Settings} {s : State α} {es : List (Event α)}
    (hrun : run (step cfg) start es = some s) :
    (launches s.acts : Multiset Nat) =
      (s.acts.filterMap Act.fetchedPage : List Nat) + pagesToFetch.held s := by
  have h := pagesToFetch.conserved hrun
  have hgain : total (pagesToFetch (α := α)).gain s.acts = (launches s.acts : List Nat) :=
    total_each _ _
  have hloss : total (pagesToFetch (α := α)).loss s.acts =
      (s.acts.filterMap Act.fetchedPage : List Nat) := total_each _ _
  rw [hgain, hloss] at h
  exact h

/-- The articles passed to `Publish` are the articles fetched, each once; when the workers
are gone, all. -/
theorem published_eq {cfg : Settings} {s : State α} {es : List (Event α)}
    (hrun : run (step cfg) start es = some s) :
    (s.acts.flatMap Act.fetchedArticles : Multiset α) =
      (s.acts.filterMap Act.publishedArticle : List α) + articlesToPublish.held s := by
  have h := articlesToPublish.conserved hrun
  have hgain : total (articlesToPublish (α := α)).gain s.acts =
      (s.acts.flatMap Act.fetchedArticles : List α) := total_coe _ _
  have hloss : total (articlesToPublish (α := α)).loss s.acts =
      (s.acts.filterMap Act.publishedArticle : List α) := total_each _ _
  rw [hgain, hloss] at h
  exact h

/-! ## Sources -/

/-- The source answers as the function says. -/
def Serves (src : Nat → List α × Bool) (acts : List (Act α)) : Prop :=
  ∀ page answer, Act.fetch page answer ∈ acts → answer = some (src page)

/-- The pages before `k` are not empty, and those from `k` on are. -/
structure EndsAt (src : Nat → List α × Bool) (k : Nat) : Prop where
  pos : 1 ≤ k
  before : ∀ page, 1 ≤ page → page < k → (src page).2 = false
  after : ∀ page, k ≤ page → src page = ([], true)

/-- The articles on the pages before `k`. -/
def allArticles (src : Nat → List α × Bool) (k : Nat) : List α :=
  (List.range' 1 (k - 1)).flatMap fun page => (src page).1

theorem absorbed_of_serves {src : Nat → List α × Bool} {cfg : Settings} {s : State α}
    {es : List (Event α)} (hrun : run (step cfg) start es = some s) (hsrc : Serves src s.acts)
    {r : PageResult} (hr : Act.absorb r ∈ s.acts) : r.failed = false ∧ r.empty = (src r.page).2 := by
  have honest := (answered hrun).absorbed r hr
  unfold Honest at honest
  split at honest
  · exact nomatch hsrc _ _ honest
  · obtain ⟨articles, hmem⟩ := honest
    have heq := Option.some.inj (hsrc _ _ hmem)
    exact ⟨Bool.eq_false_iff.mpr ‹_›, by rw [← heq]⟩

theorem launched_of_absorbed {cfg : Settings} {s : State α} {es : List (Event α)}
    (hrun : run (step cfg) start es = some s) {r : PageResult} (hr : Act.absorb r ∈ s.acts) :
    r.page ∈ launches s.acts := by
  apply (absorbed_subperm hrun).subset
  exact List.mem_filterMap.mpr ⟨_, hr, rfl⟩

theorem length_absorbed (acts : List (Act α)) :
    (acts.filterMap Act.absorbedPage).length = acts.countP Act.isAbsorb := by
  induction acts with
  | nil => rfl
  | cons act acts ih =>
    rw [List.countP_cons, ← ih]
    cases act <;> rfl

/-- Fewer pages than `k` are drained while none of them is empty. -/
theorem absorbs_lt {src : Nat → List α × Bool} {k : Nat} (hends : EndsAt src k) {cfg : Settings}
    {s : State α} {es : List (Event α)} (hrun : run (step cfg) start es = some s)
    (hsrc : Serves src s.acts) {pre : List (Act α)} (hpre : pre.Sublist s.acts)
    (hfull : ∀ r, Act.absorb r ∈ pre → r.empty = false) : pre.countP Act.isAbsorb + 1 ≤ k := by
  obtain ⟨pages, hperm, hpages⟩ := absorbed_subperm hrun
  have hnodup : (pre.filterMap Act.absorbedPage).Nodup :=
    (hperm.nodup_iff.mp ((launches_nodup hrun).sublist hpages)).sublist (hpre.filterMap _)
  have hsub : pre.filterMap Act.absorbedPage ⊆ List.range' 1 (k - 1) := by
    intro page hpage
    obtain ⟨act, hact, hpage⟩ := List.mem_filterMap.mp hpage
    cases act with
    | absorb r =>
      cases hpage
      have hr := hpre.subset hact
      have hone : 1 ≤ r.page := by
        have hmem := launched_of_absorbed hrun hr
        rw [(numbered hrun).order] at hmem
        exact (List.mem_range'_1.mp hmem).1
      have hempty := (absorbed_of_serves hrun hsrc hr).2
      rw [hfull r hact] at hempty
      refine List.mem_range'_1.mpr ⟨hone, ?_⟩
      by_contra hge
      rw [hends.after r.page (by omega)] at hempty
      cases hempty
    | _ => cases hpage
  have hlength := (hnodup.subperm hsub).length_le
  rw [length_absorbed, List.length_range'] at hlength
  have hpos := hends.pos
  omega

/-- An empty page was drained. -/
def Act.isEmpty : Act α → Bool
  | .absorb r => r.empty
  | _ => false

/-- The workers are at most so far ahead of the last page. -/
theorem launches_le_of_ends {src : Nat → List α × Bool} {k : Nat} (hends : EndsAt src k)
    {cfg : Settings} {s : State α} {es : List (Event α)}
    (hrun : run (step cfg) start es = some s) (hsrc : Serves src s.acts) :
    (launches s.acts).length ≤ k + cfg.concurrency := by
  cases hfind : s.acts.find? Act.isEmpty with
  | none =>
    have hfull : ∀ r, Act.absorb r ∈ s.acts → r.empty = false := fun r hr =>
      Bool.eq_false_iff.mpr (List.find?_eq_none.mp hfind _ hr)
    have hlt := absorbs_lt hends hrun hsrc (List.Sublist.refl _) hfull
    have hlaunched := launched_eq hrun
    have hbound := undrained_le_succ hrun
    rw [length_launches]
    omega
  | some act =>
    obtain ⟨hact, pre, post, hsplit, hpre⟩ := List.find?_eq_some_iff_append.mp hfind
    cases act with
    | absorb r =>
      obtain ⟨-, hnone, hbound⟩ := halted hrun pre r post hsplit (.inl hact)
      have hsub : pre.Sublist s.acts := by
        rw [hsplit]
        exact List.sublist_append_left _ _
      have hlt := absorbs_lt hends hrun hsrc hsub fun r hr => by simpa [Act.isEmpty] using hpre _ hr
      have hlaunches : launches s.acts = launches pre := by
        rw [hsplit, launches_append]
        change launches pre ++ launches post = launches pre
        rw [hnone, List.append_nil]
      have habsorb : (pre ++ [Act.absorb r]).countP Act.isAbsorb = pre.countP Act.isAbsorb + 1 :=
        List.countP_append
      rw [hlaunches]
      omega
    | _ => cases hact

/-- The articles fetched are those of the pages fetched. -/
theorem fetchedArticles_eq {src : Nat → List α × Bool} {acts : List (Act α)}
    (hsrc : Serves src acts) : acts.flatMap Act.fetchedArticles =
      (acts.filterMap Act.fetchedPage).flatMap fun page => (src page).1 := by
  induction acts with
  | nil => rfl
  | cons act acts ih =>
    have ih := ih fun page answer h => hsrc page answer (List.mem_cons_of_mem _ h)
    cases act with
    | fetch page answer =>
      have hanswer := hsrc page answer List.mem_cons_self
      rw [hanswer, List.flatMap_cons, ih]
      rfl
    | _ => exact ih

/-- The pages up to the `n`-th hold no more than all articles, and all of them when they
reach the page before `k`. -/
theorem articles_upTo {src : Nat → List α × Bool} {k : Nat} (hends : EndsAt src k) (n : Nat) :
    (((List.range' 1 n).flatMap fun page => (src page).1).length ≤ (allArticles src k).length) ∧
      (k ≤ n + 1 → ((List.range' 1 n).flatMap fun page => (src page).1) = allArticles src k) := by
  have hpos := hends.pos
  have heq : k ≤ n + 1 →
      ((List.range' 1 n).flatMap fun page => (src page).1) = allArticles src k := by
    intro hle
    have hsplit : List.range' 1 n = List.range' 1 (k - 1) ++ List.range' k (n - (k - 1)) := by
      have happend := @List.range'_append_1 1 (k - 1) (n - (k - 1))
      rw [show 1 + (k - 1) = k by omega, show k - 1 + (n - (k - 1)) = n by omega] at happend
      exact happend.symm
    have hnone : ((List.range' k (n - (k - 1))).flatMap fun page => (src page).1) = [] := by
      apply List.flatMap_eq_nil_iff.mpr
      intro page hpage
      rw [hends.after page (List.mem_range'_1.mp hpage).1]
    rw [hsplit, List.flatMap_append, hnone, List.append_nil, allArticles]
  refine ⟨?_, heq⟩
  by_cases hle : k ≤ n + 1
  · rw [heq hle]
  · have hsub : (List.range' 1 n).Sublist (List.range' 1 (k - 1)) :=
      List.range'_sublist_right.mpr (by omega)
    exact (hsub.flatMap _).length_le

/-- No more articles are passed to `Publish` than there are. -/
theorem publishes_le {src : Nat → List α × Bool} {k : Nat} (hends : EndsAt src k) {cfg : Settings}
    {s : State α} {es : List (Event α)} (hrun : run (step cfg) start es = some s)
    (hsrc : Serves src s.acts) :
    (s.acts.filterMap Act.publishedArticle).length ≤ (allArticles src k).length := by
  have hpublished := congrArg Multiset.card (published_eq hrun)
  rw [Multiset.card_add, Multiset.coe_card, Multiset.coe_card, fetchedArticles_eq hsrc]
    at hpublished
  have hfetched : (s.acts.filterMap Act.fetchedPage).Subperm (launches s.acts) := by
    apply Multiset.coe_le.mp
    rw [fetched_eq hrun]
    exact Multiset.le_add_right _ _
  obtain ⟨pages, hperm, hpages⟩ := hfetched
  have hlength := (hperm.flatMap_right fun page => (src page).1).length_eq
  have hle := (hpages.flatMap fun page => (src page).1).length_le
  have hall := (articles_upTo hends (launches s.acts).length).1
  rw [← (numbered hrun).order] at hall
  omega

/-- When the run returns, its reason is an empty page, so all pages have been fetched and
all articles published. -/
theorem published_perm {src : Nat → List α × Bool} {k : Nat} (hends : EndsAt src k)
    {cfg : Settings} {s : State α} {es : List (Event α)}
    (hrun : run (step cfg) start es = some s) (hsrc : Serves src s.acts)
    (hpages : cfg.maxPages = 0) (hrate : 0 < cfg.ratePerSec) (hcancelled : ¬ s.cancelled)
    (hover : s.pc = .returned) :
    (s.acts.filterMap Act.publishedArticle).Perm (allArticles src k) := by
  have hend := ended hrun
  -- The run has drained an empty page, so it has launched all pages before `k`.
  have hlast : k ≤ (launches s.acts).length + 1 := by
    rcases hend.left (.inr (.inr hover)) with h | h | ⟨h, -⟩ | ⟨pre, r, post, hsplit, hstop⟩
    · contradiction
    · omega
    · omega
    · have hr : Act.absorb r ∈ s.acts := by
        rw [hsplit]
        exact List.mem_append_right _ List.mem_cons_self
      obtain ⟨hfailed, hempty⟩ := absorbed_of_serves hrun hsrc hr
      have hpage := launched_of_absorbed hrun hr
      rw [(numbered hrun).order] at hpage
      obtain ⟨hone, hlt⟩ := List.mem_range'_1.mp hpage
      rcases hstop with hstop | ⟨hstop, -⟩
      · by_contra hshort
        rw [hends.before r.page hone (by omega), hstop] at hempty
        cases hempty
      · rw [hfailed] at hstop
        cases hstop
  have htasks : s.tasks = [] := by
    rcases hend.finished hover with h | h | ⟨h, -⟩
    · contradiction
    · omega
    · exact h
  have hresults : s.results = [] := by
    rcases hend.finished hover with h | h | ⟨-, h⟩
    · contradiction
    · omega
    · exact h
  have hfetched := fetched_eq hrun
  have hpublished := published_eq hrun
  simp only [Balance.held, htasks, hresults, List.map_nil, List.sum_nil, add_zero] at hfetched
  rw [fetchedArticles_eq hsrc] at hpublished
  simp only [Balance.held, htasks, hresults, List.map_nil, List.sum_nil, add_zero] at hpublished
  have hperm : (launches s.acts).Perm (s.acts.filterMap Act.fetchedPage) :=
    Multiset.coe_eq_coe.mp hfetched
  have hall := (articles_upTo hends (launches s.acts).length).2 hlast
  rw [← (numbered hrun).order] at hall
  rw [← hall]
  exact (Multiset.coe_eq_coe.mp hpublished).symm.trans (hperm.symm.flatMap_right _)

/-! ## The length of a run -/

/-- The steps a task and its result still take, the calls of `Publish` apart. -/
def Task.credit : Task α → Nat
  | .fetching _ => 5
  | .publishing _ _ _ => 4
  | .sending _ => 4
  | .releasing => 2
  | .finishing => 1

/-- The steps the main loop still takes before the next page is launched. -/
def loopCredit (s : State α) : Nat :=
  match s.pc with
  | .wait => 4
  | .acquire _ => 3
  | .select => 5
  | .drain => if s.closed then 2 else 3
  | .record => 1
  | .returned => 0

def credit (s : State α) : Nat := loopCredit s + (s.tasks.map Task.credit).sum + s.results.length

/-- The steps a run is granted: eight for a page launched, one for a call of `Publish`. -/
def granted (s : State α) : Nat :=
  8 * (launches s.acts).length + (s.acts.filterMap Act.publishedArticle).length

theorem credit_publishAll (articles : List α) (res : PageResult) :
    (publishAll articles res).credit = 4 := by
  cases articles with
  | nil => rfl
  | cons a rest => rfl

theorem credit_afterFetch (page : Nat) (answer : Answer α) :
    (afterFetch page answer).credit = 4 := by
  cases answer with
  | none => rfl
  | some answer => exact credit_publishAll _ _

/-- A worker pays for its step. -/
theorem works_credit {cfg : Settings} {s : State α} {task : Task α} {acts : List (Act α)}
    {sent : List PageResult} {next : Option (Task α)} (h : Works cfg s task acts sent next) :
    (next.toList.map Task.credit).sum + sent.length + 1 ≤
      task.credit + (acts.filterMap Act.publishedArticle).length := by
  cases h with
  | fetch page answer =>
    rw [Option.toList_some, List.map_singleton, List.sum_singleton, credit_afterFetch]
    exact Nat.le_refl _
  | publish a rest res answer =>
    rw [Option.toList_some, List.map_singleton, List.sum_singleton, credit_publishAll]
    exact Nat.le_refl _
  | send => exact Nat.le_refl _
  | release => exact Nat.le_refl _
  | exit => exact Nat.le_refl _

/-- A step that only moves the main loop on. -/
theorem credit_move {s t : State α} (htasks : t.tasks = s.tasks) (hresults : t.results = s.results)
    (hacts : granted t = granted s) (hloop : loopCredit t + 1 ≤ loopCredit s) :
    credit t + 1 + granted s ≤ credit s + granted t := by
  unfold credit
  rw [htasks, hresults, hacts]
  omega

/-- The main loop pays for the result it absorbs, or the result does. -/
theorem credit_absorb {s t : State α} {r : PageResult} {results : List PageResult}
    (hresults : s.results = r :: results) (htasks : t.tasks = s.tasks)
    (hresults' : t.results = results) (hacts : t.acts = s.acts ++ [Act.absorb r])
    (hloop : loopCredit t ≤ loopCredit s) : credit t + 1 + granted s ≤ credit s + granted t := by
  have hgranted : granted t = granted s := by
    unfold granted
    rw [hacts, launches_append, List.filterMap_append, List.length_append,
      List.length_append]
    rfl
  unfold credit
  rw [htasks, hresults', hresults, hgranted, List.length_cons]
  omega

theorem loopCredit_le_of_left {s : State α} (hpc : s.pc = .drain ∨ s.pc = .wait) :
    loopCredit s ≤ 4 := by
  unfold loopCredit
  rcases hpc with hpc | hpc
  · rw [hpc]
    dsimp only
    split
    · omega
    · omega
  · rw [hpc]

/-- Every step is paid for. -/
theorem credit_step {cfg : Settings} {s t : State α} {es : List (Event α)}
    (hrun : run (step cfg) start es = some s) (h : Stepped cfg s t) (hcancelled : ¬ t.cancelled) :
    credit t + 1 + granted s ≤ credit s + granted t := by
  cases h with
  | cancel => exact absurd rfl hcancelled
  | refused hpc => exact credit_move rfl rfl rfl (by simp [loopCredit, hpc])
  | limited hpc =>
    refine credit_move rfl rfl rfl ?_
    simp only [loopCredit, hpc]
    split
    · omega
    · omega
  | next hpc => exact credit_move rfl rfl rfl (by simp [loopCredit, hpc])
  | launch page hpc =>
    have hpending := ((flowing hrun).2.acquiring page hpc).2
    rw [if_pos hpending]
    simp only [credit, loopCredit, granted, hpc, launches_append, List.map_append, List.sum_append,
      List.filterMap_append, List.length_append]
    simp only [launches, Act.launchedPage, Act.publishedArticle, Task.credit, List.filterMap_cons,
      List.filterMap_nil, List.map_cons, List.map_nil, List.sum_cons, List.sum_nil, List.length_cons,
      List.length_nil]
    omega
  | take r results hpc hresults =>
    refine credit_absorb hresults rfl rfl rfl ?_
    have hle := loopCredit_le_of_left (s.take_pc_or cfg r results)
    have hloop : loopCredit s = 5 := by simp [loopCredit, hpc]
    omega
  | done hpc =>
    refine credit_move rfl rfl rfl ?_
    simp only [loopCredit, hpc]
    split
    · omega
    · omega
  | default hpc =>
    refine credit_move rfl rfl rfl ?_
    have hle := loopCredit_le_of_left s.top_pc_or
    have hloop : loopCredit s = 5 := by simp [loopCredit, hpc]
    omega
  | close hpc htasks hclosed =>
    refine credit_move rfl rfl rfl ?_
    simp [loopCredit, hpc, hclosed]
  | drain r results hpc hresults =>
    exact credit_absorb hresults rfl rfl rfl (Nat.le_refl _)
  | finish hpc hresults hclosed =>
    refine credit_move rfl rfl rfl ?_
    simp [loopCredit, hpc, hclosed]
  | record hpc =>
    refine credit_move rfl rfl ?_ (by simp [loopCredit, hpc])
    unfold granted
    dsimp only
    rw [launches_append, List.filterMap_append, List.length_append, List.length_append]
    rfl
  | work task rest tasks acts sent next hworks hbefore hafter =>
    have hpaid := works_credit hworks
    have htasks := (hbefore.map Task.credit).sum_eq
    have htasks' := (hafter.map Task.credit).sum_eq
    have hloop : loopCredit { s with
      tasks := tasks, results := s.results ++ sent, acts := s.acts ++ acts } = loopCredit s := rfl
    rw [List.map_cons, List.sum_cons] at htasks
    rw [List.map_append, List.sum_append] at htasks'
    unfold credit granted
    rw [hloop]
    simp only [launches_append, works_launches hworks, List.append_nil, List.filterMap_append,
      List.length_append]
    omega
  | panic res hclosed htask =>
    rw [(shut hrun).tasks hclosed] at htask
    cases htask

/-- A run without a cancelled context is no longer than what it is granted. -/
theorem length_le_granted {cfg : Settings} {s : State α} {es : List (Event α)}
    (hrun : run (step cfg) start es = some s) (hes : Event.cancel ∉ es) :
    ¬ s.cancelled ∧ es.length + credit s ≤ granted s + 4 := by
  have hall := run_history (I := fun es s => run (step cfg) start es = some s ∧
    (Event.cancel ∉ es → ¬ s.cancelled ∧ es.length + credit s ≤ granted s + 4))
    (fun es s e t hs h => ?_) ⟨rfl, fun _ => ⟨nofun, Nat.le_refl _⟩⟩ hrun
  · exact hall.2 hes
  obtain ⟨hrun, hbound⟩ := hs
  refine ⟨run_snoc hrun h, fun hes => ?_⟩
  rw [List.mem_append, not_or, List.mem_singleton] at hes
  obtain ⟨hcancelled, hle⟩ := hbound hes.1
  have hcancelled' : ¬ t.cancelled := by
    rwa [cancelled_of_step h (Ne.symm hes.2)]
  have hstep := credit_step hrun (stepped_of_step h) hcancelled'
  refine ⟨hcancelled', ?_⟩
  rw [List.length_append, List.length_singleton]
  omega

/-! ## Coverage -/

/-- Pages are launched in order, each once and within the page limit. A drained result that
is empty or trips the circuit breaker ends the launching, with at most as many pages
launched and not drained as there are slots. With a source whose pages end before `k`, no
page limit and no cancelled context, `FetchSince` is called for at most `k + C` pages,
the run takes a bounded number of steps, and when it returns every article has been passed
to `Publish` once. -/
theorem coverage {cfg : Settings} {s : State α} {es : List (Event α)}
    (hrun : run (step cfg) start es = some s) :
    launches s.acts = List.range' 1 (launches s.acts).length ∧
    (0 < cfg.maxPages → (launches s.acts).length ≤ cfg.maxPages) ∧
    (∀ pre r post, s.acts = pre ++ Act.absorb r :: post → Stops cfg pre r → launches post = [] ∧
      (launches pre).length ≤ (pre ++ [Act.absorb r]).countP Act.isAbsorb + cfg.concurrency) ∧
    ∀ src k, EndsAt src k → Serves src s.acts → cfg.maxPages = 0 → 0 < cfg.ratePerSec →
      Event.cancel ∉ es →
      (s.acts.filterMap Act.fetchedPage).length ≤ k + cfg.concurrency ∧
      es.length ≤ 8 * (k + cfg.concurrency) + (allArticles src k).length + 4 ∧
      (s.pc = .returned →
        (s.acts.filterMap Act.publishedArticle).Perm (allArticles src k)) := by
  refine ⟨(numbered hrun).order, (numbered hrun).limit, fun pre r post hsplit hstop =>
    (halted hrun pre r post hsplit hstop).2, ?_⟩
  intro src k hends hsrc hpages hrate hes
  have hlaunches := launches_le_of_ends hends hrun hsrc
  obtain ⟨hcancelled, hlength⟩ := length_le_granted hrun hes
  refine ⟨?_, ?_, published_perm hends hrun hsrc hpages hrate hcancelled⟩
  · have hfetched := congrArg Multiset.card (fetched_eq hrun)
    rw [Multiset.card_add, Multiset.coe_card, Multiset.coe_card] at hfetched
    omega
  · have hpublishes := publishes_le hends hrun hsrc
    unfold granted at hlength
    omega

/-- Two articles on the first page and one on the second. -/
def twoPages (page : Nat) : List Nat × Bool :=
  if page = 1 then ([1, 2], false) else if page = 2 then ([3], false) else ([], true)

theorem twoPages_ends : EndsAt twoPages 3 where
  pos := by omega
  before page hone hlt := by
    obtain rfl | rfl : page = 1 ∨ page = 2 := by omega
    · rfl
    · rfl
  after page hge := by rw [twoPages, if_neg (by omega), if_neg (by omega)]

/-- What the source answered, if it was asked, is what it has. -/
def Act.servedBy (src : Nat → List Nat × Bool) : Act Nat → Bool
  | .fetch page answer => answer == some (src page)
  | _ => true

/-- The parameters of the sample, with two slots. -/
def twoSlots : Settings := new (lit "fake") 0 2 1000 3

/-- Both slots are taken, the second page is published before the first, and two empty pages are
fetched at the end. -/
def overlappingRun : List (Event Nat) :=
  [.limiter true, .spawn, .default, .limiter true, .spawn, .fetch 0 (some ([1, 2], false)),
    .fetch 1 (some ([3], false)), .publish 1 (some true), .publish 0 (some true), .send 1,
    .publish 0 (some true), .send 0, .release 0, .release 1, .exit 0, .exit 0, .take,
    .limiter true, .spawn, .take, .limiter true, .spawn, .fetch 1 (some ([], true)),
    .fetch 0 (some ([], true)), .send 1, .send 0, .release 0, .release 1, .exit 0, .exit 0,
    .take, .drain, .close, .finish, .record]

theorem overlappingRun_covers : ∃ s, run (step twoSlots) start overlappingRun = some s ∧
    (s.acts.filterMap Act.publishedArticle).Perm (allArticles twoPages 3) := by
  have hview : (run (step twoSlots) start overlappingRun).map (fun s =>
      (s.pc, s.acts.all (Act.servedBy twoPages))) = some (.returned, true) := by decide +kernel
  obtain ⟨s, hs, heq⟩ := Option.map_eq_some_iff.mp hview
  obtain ⟨hpc, hall⟩ := Prod.mk.inj heq
  have hsrc : Serves twoPages s.acts := fun page answer h =>
    eq_of_beq (List.all_eq_true.mp hall _ h)
  exact ⟨s, hs, ((coverage hs).2.2.2 twoPages 3 twoPages_ends hsrc rfl (by decide)
    (by decide)).2.2 hpc⟩

end WebSpider.Crawler.Workers
