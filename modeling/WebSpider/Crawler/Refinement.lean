import WebSpider.Crawler.Coverage

/-!
# The scheduler with Redis refines the worker pool

`Sched` runs the scheduler on a listing and cuts each call of `Publish` into the
commands it sends to Redis; `Workers.State` leaves source and publisher open and
takes a call as one step. A state of the one is seen as a state of the other by
forgetting Redis and the command a worker is at (`Sched.view`). Each step of a run
with Redis is then a run of the worker pool: a command in the middle of a call is
no step of it, the return of a worker is two, the end of the drain is the close of
the channel and the end of the loop (`refines_step`). What is proved of the pool
over any interleaving so holds of the runs with Redis (`refines_run`).
-/

namespace WebSpider.Crawler

open Text Effects

/-! ## Definitions -/

/-- The scheduler that `New` builds for the job. -/
def Job.settings (j : Job) (ratePerSec : Int) : Workers.Settings :=
  Workers.new j.sourceName j.maxPages j.maxConcurrency ratePerSec j.pageFailures

/-- The task of a worker, whatever command of `Publish` it is at. -/
def Task.view : Task → Workers.Task ArticleRaw
  | .fetching page => .fetching page
  | .publishing a rest _ res => .publishing a rest res
  | .sending res => .sending res
  | .releasing => .releasing

/-- The state of the pool, with the state of the channel and the history given. -/
def Sched.view (closed : Bool) (acts : List (Workers.Act ArticleRaw)) (s : Sched) :
    Workers.State ArticleRaw where
  pc := s.pc
  nextPage := s.nextPage
  pending := s.pending
  stop := s.stop
  pages := s.pages
  published := s.published
  pubErrs := s.pubErrs
  failedPages := s.failedPages
  cancelled := s.cancelled
  tasks := s.tasks.map Task.view
  results := s.results
  closed := closed
  panicked := false
  acts := acts

/-- The pool is in the state seen; it has closed the channel only behind the drain. -/
structure Refines (s : Sched) (t : Workers.State ArticleRaw) : Prop where
  view : t = s.view t.closed t.acts
  closed : t.closed → s.tasks = [] ∧ (s.pc = .record ∨ s.pc = .returned)

/-! ## The settings -/

theorem settings_concurrency (j : Job) (ratePerSec : Int) :
    (j.settings ratePerSec).concurrency = j.concurrency := by
  simp only [Job.settings, Workers.new, Workers.orDefault, Job.concurrency]
  split <;> split <;> omega

theorem settings_maxPageFailures (j : Job) (ratePerSec : Int) :
    (j.settings ratePerSec).maxPageFailures = j.maxPageFailures := by
  simp only [Job.settings, Workers.new, Workers.orDefault, Job.maxPageFailures]
  split <;> split <;> omega

theorem settings_limit_iff (j : Job) (ratePerSec : Int) (page : Nat) :
    (0 < (j.settings ratePerSec).maxPages ∧ (j.settings ratePerSec).maxPages < page) ↔
      0 < j.maxPages ∧ j.maxPages < page := by
  simp only [Job.settings, Workers.new]
  omega

/-! ## What the view keeps -/

theorem view_publishAll (articles : List ArticleRaw) (res : PageResult) :
    (publishAll articles res).view = Workers.publishAll articles res := by
  cases articles with
  | nil => rfl
  | cons a rest => rfl

theorem view_absorb (j : Job) (ratePerSec : Int) (r : PageResult) (closed : Bool)
    (acts : List (Workers.Act ArticleRaw)) (s : Sched) :
    (s.absorb j r).view closed (acts ++ [.absorb r]) =
      (s.view closed acts).absorb (j.settings ratePerSec) r := by
  simp only [Sched.view, Sched.absorb, Workers.State.absorb, settings_maxPageFailures]

theorem slots_view (closed : Bool) (acts : List (Workers.Act ArticleRaw)) (s : Sched) :
    (s.view closed acts).slots = s.tasks.length := by
  have hholds : ∀ task : Task, task.view.holds = true := by
    intro task
    cases task with
    | _ => rfl
  simp [Workers.State.slots, Sched.view, List.countP_map, Function.comp_def, hholds]

theorem undrained_view (closed : Bool) (acts : List (Workers.Act ArticleRaw)) (s : Sched) :
    Workers.undrained (s.view closed acts) =
      s.tasks.countP (· ≠ .releasing) + s.results.length := by
  have hunsent : ∀ task : Task, task.view.unsent = decide (task ≠ .releasing) := by
    intro task
    cases task with
    | _ => rfl
  simp [Workers.undrained, Sched.view, List.countP_map, Function.comp_def, hunsent]

theorem view_task {closed : Bool} {acts : List (Workers.Act ArticleRaw)} {s : Sched} {k : Nat}
    {task : Task} (h : s.tasks[k]? = some task) :
    (s.view closed acts).tasks[k]? = some task.view := by
  simp [Sched.view, h]

theorem map_view_set {tasks : List Task} {k : Nat} {task next : Task} (h : tasks[k]? = some task)
    (hview : next.view = task.view) : (tasks.set k next).map Task.view = tasks.map Task.view := by
  obtain ⟨hk, rfl⟩ := List.getElem?_eq_some_iff.mp h
  rw [List.map_set, hview, ← List.getElem_map Task.view (h := by simpa using hk),
    List.set_getElem_self]

theorem view_assign (closed : Bool) (acts acts' : List (Workers.Act ArticleRaw)) (k : Nat)
    (task : Task) (s : Sched) :
    (s.assign k task).view closed (acts ++ acts') =
      (s.view closed acts).assign k task.view acts' := by
  simp [Sched.view, Sched.assign, Workers.State.assign, List.map_set]

/-! ## One step -/

/-- A step of the pool from the state seen to the next state seen. -/
theorem Refines.one {cfg : Workers.Settings} {s s' : Sched} {t : Workers.State ArticleRaw}
    (h : Refines s t) (e : Workers.Event ArticleRaw) (acts : List (Workers.Act ArticleRaw))
    (hclosed : t.closed → s'.tasks = [] ∧ (s'.pc = .record ∨ s'.pc = .returned))
    (hstep : Workers.step cfg (s.view t.closed t.acts) e = some (s'.view t.closed acts)) :
    ∃ fs t', run (Workers.step cfg) t fs = some t' ∧ Refines s' t' := by
  rw [← h.view] at hstep
  exact ⟨[e], s'.view t.closed acts, run_snoc (run_nil t) hstep, rfl, hclosed⟩

/-- The channel is open while the main loop is before the end of the drain. -/
theorem Refines.opened {s : Sched} {t : Workers.State ArticleRaw} (h : Refines s t)
    (hrecord : s.pc ≠ .record) (hreturned : s.pc ≠ .returned) : t.closed = false := by
  by_contra hopen
  rcases (h.closed (by simpa using hopen)).2 with hpc | hpc
  · exact hrecord hpc
  · exact hreturned hpc

/-- The channel is open while a worker has something to do. -/
theorem Refines.opened_of_task {s : Sched} {t : Workers.State ArticleRaw} (h : Refines s t)
    {k : Nat} {task : Task} (htask : s.tasks[k]? = some task) : t.closed = false := by
  by_contra hopen
  rw [(h.closed (by simpa using hopen)).1] at htask
  cases htask

section Main

variable {j : Job} {ratePerSec : Int} {s s' : Sched} {t : Workers.State ArticleRaw}

theorem refines_limiter (hrate : 0 < ratePerSec) (h : Refines s t)
    (hstep : mainStep j s .limiter = some s') :
    ∃ fs t', run (Workers.step (j.settings ratePerSec)) t fs = some t' ∧ Refines s' t' := by
  simp only [mainStep] at hstep
  split at hstep
  · rename_i hpc
    have hopen := h.opened (by simp [hpc]) (by simp [hpc])
    have hadmits : ¬ (j.settings ratePerSec).ratePerSec ≤ 0 := Int.not_le.mpr hrate
    split at hstep
    · rename_i hcancelled
      cases hstep
      apply h.one (.limiter false) t.acts (by simp [hopen])
      simp [Workers.step, Workers.mainStep, Sched.view, hpc, hcancelled]
    · split at hstep
      · rename_i hlimit
        cases hstep
        apply h.one (.limiter true) t.acts (by simp [hopen])
        rw [← settings_limit_iff j ratePerSec] at hlimit
        simp [Workers.step, Workers.mainStep, Sched.view, hpc, hadmits, hlimit]
      · rename_i hlimit
        cases hstep
        apply h.one (.limiter true) t.acts (by simp [hopen])
        rw [← settings_limit_iff j ratePerSec] at hlimit
        simp only [Workers.step, Workers.mainStep, Sched.view, hpc, if_neg hadmits, if_neg hlimit]
        rfl
  · cases hstep

theorem refines_spawn (h : Refines s t) (hstep : mainStep j s .spawn = some s') :
    ∃ fs t', run (Workers.step (j.settings ratePerSec)) t fs = some t' ∧ Refines s' t' := by
  simp only [mainStep] at hstep
  split at hstep
  · rename_i page hpc
    have hopen := h.opened (by simp [hpc]) (by simp [hpc])
    split at hstep
    · rename_i hroom
      cases hstep
      apply h.one .spawn (t.acts ++ [.launch page]) (by simp [hopen])
      rw [← settings_concurrency j ratePerSec, ← slots_view t.closed t.acts] at hroom
      have hpc' : (s.view t.closed t.acts).pc = .acquire page := hpc
      have hpending : (s.view t.closed t.acts).pending = s.pending := rfl
      simp only [Workers.step, Workers.mainStep, hpc', if_pos hroom, hpending]
      split
      · simp [Sched.view, Task.view]
      · simp only [Sched.view, Sched.top, Workers.State.top, List.map_append]
        rfl
    · cases hstep
  · cases hstep

theorem refines_take (h : Refines s t) (hstep : mainStep j s .take = some s') :
    ∃ fs t', run (Workers.step (j.settings ratePerSec)) t fs = some t' ∧ Refines s' t' := by
  simp only [mainStep] at hstep
  split at hstep
  · rename_i r results hpc hresults
    have hopen := h.opened (by simp [hpc]) (by simp [hpc])
    cases hstep
    apply h.one .take (t.acts ++ [.absorb r]) (by simp [hopen])
    simp [Workers.step, Workers.mainStep, Sched.view, hpc, hresults, Workers.State.take, Sched.top,
      Sched.absorb, settings_maxPageFailures, Workers.State.top, Workers.State.absorb]
  · cases hstep

theorem refines_done (h : Refines s t) (hstep : mainStep j s .done = some s') :
    ∃ fs t', run (Workers.step (j.settings ratePerSec)) t fs = some t' ∧ Refines s' t' := by
  simp only [mainStep] at hstep
  split at hstep
  · rename_i hpc
    have hopen := h.opened (by simp [hpc]) (by simp [hpc])
    cases hstep
    apply h.one .done t.acts (by simp [hopen])
    simp [Workers.step, Workers.mainStep, Sched.view, hpc, Sched.top, Workers.State.top]
  · cases hstep

theorem refines_default (h : Refines s t) (hstep : mainStep j s .default = some s') :
    ∃ fs t', run (Workers.step (j.settings ratePerSec)) t fs = some t' ∧ Refines s' t' := by
  simp only [mainStep] at hstep
  split at hstep
  · rename_i hpc
    have hopen := h.opened (by simp [hpc]) (by simp [hpc])
    cases hstep
    apply h.one .default t.acts (by simp [hopen])
    simp [Workers.step, Workers.mainStep, Sched.view, hpc, Sched.top, Workers.State.top]
  · cases hstep

/-- The end of the drain is the close of the channel and the end of the loop over it. -/
theorem refines_drain (h : Refines s t) (hstep : mainStep j s .drain = some s') :
    ∃ fs t', run (Workers.step (j.settings ratePerSec)) t fs = some t' ∧ Refines s' t' := by
  simp only [mainStep] at hstep
  split at hstep
  · rename_i r results hpc hresults
    have hopen := h.opened (by simp [hpc]) (by simp [hpc])
    cases hstep
    apply h.one .drain (t.acts ++ [.absorb r]) (by simp [hopen])
    rw [view_absorb j ratePerSec]
    simp only [Workers.step, Workers.mainStep, Sched.view, hpc, hresults]
  · rename_i hpc hresults
    have hopen := h.opened (by simp [hpc]) (by simp [hpc])
    split at hstep
    · rename_i htasks
      cases hstep
      refine ⟨[.close, .finish], { s with pc := .record }.view true t.acts, ?_, rfl,
        fun _ => ⟨htasks, .inl rfl⟩⟩
      rw [h.view]
      simp [run_cons, Workers.step, Workers.mainStep, Sched.view, hpc, hresults, htasks, hopen]
    · cases hstep
  · cases hstep

theorem refines_record {o : Outcome} (h : Refines s t)
    (hstep : mainStep j s (.record o) = some s') :
    ∃ fs t', run (Workers.step (j.settings ratePerSec)) t fs = some t' ∧ Refines s' t' := by
  simp only [mainStep] at hstep
  split at hstep
  · rename_i hpc
    cases hstep
    refine h.one .record (t.acts ++ [.record (s.stats j)])
      (fun hclosed => ⟨(h.closed hclosed).1, .inr rfl⟩) ?_
    simp only [Workers.step, Workers.mainStep, Sched.view, hpc]
    rfl
  · cases hstep

end Main

section Worker

variable {j : Job} {cfg : Workers.Settings} {s s' : Sched} {t : Workers.State ArticleRaw} {k : Nat}

/-- A worker that goes on to its next task. -/
theorem Refines.assign {task next : Task} (h : Refines s t) (e : Workers.Event ArticleRaw)
    (acts : List (Workers.Act ArticleRaw)) (r : Redis) (htask : s.tasks[k]? = some task)
    (hstep : Workers.step cfg (s.view t.closed t.acts) e =
      some ((s.view t.closed t.acts).assign k next.view acts)) :
    ∃ fs t', run (Workers.step cfg) t fs = some t' ∧
      Refines { s.assign k next with redis := r } t' := by
  apply h.one e (t.acts ++ acts) (by simp [h.opened_of_task htask])
  rw [hstep, ← view_assign]
  rfl

theorem refines_fetch {ok : Bool} (h : Refines s t)
    (hstep : workerStep j s (.fetch k ok) = some s') :
    ∃ fs t', run (Workers.step cfg) t fs = some t' ∧ Refines s' t' := by
  simp only [workerStep] at hstep
  split at hstep
  · rename_i page htask
    have hview : (s.view t.closed t.acts).tasks[k]? = some (.fetching page) := view_task htask
    split at hstep
    · cases hstep
      let answer : Workers.Answer ArticleRaw :=
        some ((fetchSince j.listing page j.since).1, (fetchSince j.listing page j.since).2.2)
      apply h.assign (.fetch k answer) [.fetch page answer] s.redis htask
      rw [view_publishAll]
      simp only [Workers.step, Workers.workerStep, hview]
      rfl
    · cases hstep
      apply h.assign (.fetch k none) [.fetch page none] s.redis htask
      simp only [Workers.step, Workers.workerStep, hview]
      rfl
  · cases hstep

/-- A command in the middle of a call of `Publish` is no step of the pool. -/
theorem refines_call {o : Outcome} {trimmed : Nat} (h : Refines s t)
    (hstep : workerStep j s (.call k o trimmed) = some s') :
    ∃ fs t', run (Workers.step cfg) t fs = some t' ∧ Refines s' t' := by
  simp only [workerStep] at hstep
  split at hstep
  · rename_i a rest stage res htask
    have hview : (s.view t.closed t.acts).tasks[k]? = some (.publishing a rest res) :=
      view_task htask
    cases hstep
    cases (publishCall j.producer a stage o trimmed s.redis).1 with
    | next stage' =>
      refine ⟨[], t, rfl, ?_, by simp [h.opened_of_task htask]⟩
      have htasks : (s.tasks.set k (.publishing a rest stage' res)).map Task.view =
          s.tasks.map Task.view := map_view_set htask rfl
      rw [h.view]
      simp only [Sched.view, Sched.assign, afterCall, htasks]
    | done new =>
      apply h.assign (.publish k (some new)) [.publish a (some new)] _ htask
      have hnext : (afterCall a rest res (.done new)).view =
          Workers.publishAll rest (Workers.tally res (some new)) := by
        cases new with
        | true => exact view_publishAll _ _
        | false => exact view_publishAll _ _
      simp only [Workers.step, Workers.workerStep, hview, hnext]
    | error =>
      apply h.assign (.publish k none) [.publish a none] _ htask
      have hnext : (afterCall a rest res .error).view =
          Workers.publishAll rest (Workers.tally res none) := view_publishAll _ _
      simp only [Workers.step, Workers.workerStep, hview, hnext]
  · cases hstep

theorem refines_send (hcfg : cfg.concurrency = j.concurrency) (h : Refines s t)
    (hstep : workerStep j s (.send k) = some s') :
    ∃ fs t', run (Workers.step cfg) t fs = some t' ∧ Refines s' t' := by
  simp only [workerStep] at hstep
  split at hstep
  · rename_i res htask
    have hview : (s.view t.closed t.acts).tasks[k]? = some (.sending res) := view_task htask
    have hopen := h.opened_of_task htask
    split at hstep
    · rename_i hroom
      cases hstep
      rw [← hcfg] at hroom
      have hroom' : (s.view t.closed t.acts).results.length < cfg.concurrency := hroom
      have hclosed : (s.view t.closed t.acts).closed = false := hopen
      apply h.one (.send k) t.acts (by simp [hopen])
      simp only [Workers.step, Workers.workerStep, hview, hclosed, if_pos hroom']
      simp [Workers.State.assign, Sched.view, Sched.assign, List.map_set, Task.view]
    · cases hstep
  · cases hstep

/-- The return of a worker gives back its slot and counts down the group. -/
theorem refines_release (h : Refines s t) (hstep : workerStep j s (.release k) = some s') :
    ∃ fs t', run (Workers.step cfg) t fs = some t' ∧ Refines s' t' := by
  simp only [workerStep] at hstep
  split at hstep
  · rename_i htask
    have hview : (s.view t.closed t.acts).tasks[k]? = some .releasing := view_task htask
    have hopen := h.opened_of_task htask
    cases hstep
    refine ⟨[.release k, .exit k], { s with tasks := s.tasks.eraseIdx k }.view t.closed t.acts, ?_,
      rfl, by simp [Sched.view, hopen]⟩
    rw [h.view]
    have hk : k < (s.view t.closed t.acts).tasks.length := (List.getElem?_eq_some_iff.mp hview).1
    simp only [run_cons, Workers.step, Workers.workerStep, hview, Option.bind_some,
      Workers.State.assign, List.getElem?_set_self hk]
    simp [Sched.view, List.eraseIdx_set_eq, List.eraseIdx_map]
  · cases hstep

end Worker

theorem refines_step {j : Job} {ratePerSec : Int} (hrate : 0 < ratePerSec) (s : Sched)
    (t : Workers.State ArticleRaw) (e : Event) (s' : Sched) (h : Refines s t)
    (hstep : step j s e = some s') :
    ∃ fs t', run (Workers.step (j.settings ratePerSec)) t fs = some t' ∧ Refines s' t' := by
  cases e with
  | cancel =>
    cases hstep
    exact h.one .cancel t.acts h.closed rfl
  | limiter => exact refines_limiter hrate h hstep
  | spawn => exact refines_spawn h hstep
  | take => exact refines_take h hstep
  | done => exact refines_done h hstep
  | default => exact refines_default h hstep
  | drain => exact refines_drain h hstep
  | record o => exact refines_record h hstep
  | fetch k ok => exact refines_fetch h hstep
  | call k o trimmed => exact refines_call h hstep
  | send k => exact refines_send (settings_concurrency j ratePerSec) h hstep
  | release k => exact refines_release (j := j) h hstep

/-! ## Runs -/

/-- A run with Redis is a run of the pool. -/
theorem refines_run {j : Job} {ratePerSec : Int} (hrate : 0 < ratePerSec) {r : Redis} {s : Sched}
    {es : List Event} (hrun : run (step j) (Sched.start r) es = some s) :
    ∃ fs t, run (Workers.step (j.settings ratePerSec)) Workers.start fs = some t ∧ Refines s t :=
  run_simulates (refines_step hrate) ⟨rfl, nofun⟩ hrun

/-- There are never more workers than slots, and at most one page more is under way. -/
theorem tasks_le {j : Job} {r : Redis} {s : Sched} {es : List Event}
    (hrun : run (step j) (Sched.start r) es = some s) :
    s.tasks.length ≤ j.concurrency ∧
      s.tasks.countP (· ≠ .releasing) + s.results.length ≤ j.concurrency + 1 := by
  obtain ⟨fs, t, hfs, href⟩ := refines_run Int.one_pos hrun
  have hslots := (Workers.flowing hfs).2.slots
  have hundrained := Workers.undrained_le_succ hfs
  rw [settings_concurrency] at hslots hundrained
  rw [href.view, slots_view] at hslots
  rw [href.view, undrained_view] at hundrained
  exact ⟨hslots, hundrained⟩

/-- No page is asked for beyond the limit. -/
theorem nextPage_le {j : Job} {r : Redis} {s : Sched} {es : List Event}
    (hrun : run (step j) (Sched.start r) es = some s) (hlimit : 0 < j.maxPages) :
    s.nextPage ≤ j.maxPages + 1 := by
  obtain ⟨fs, t, hfs, href⟩ := refines_run Int.one_pos hrun
  have hnumbered := Workers.numbered hfs
  have hmax : 0 < (j.settings 1).maxPages := Int.natCast_pos.mpr hlimit
  have hnext : t.nextPage = s.nextPage := by rw [href.view]; rfl
  by_cases hpc : ∃ page, t.pc = .acquire page
  · obtain ⟨page, hpc⟩ := hpc
    obtain ⟨_, hpage, hle⟩ := hnumbered.acquiring page hpc
    have hle := Int.ofNat_le.mp (hle hmax)
    omega
  · have hnext' := hnumbered.next (not_exists.mp hpc)
    have hle := Int.ofNat_le.mp (hnumbered.limit hmax)
    omega

end WebSpider.Crawler
