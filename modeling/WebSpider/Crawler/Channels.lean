import WebSpider.Crawler.Heartbeat

/-!
# The channels of the scheduler

The main loop waits for the semaphore, whose slots are held by workers that may wait
for room in `results`, which the main loop empties. The bound that breaks the circle
is on the pages launched and not drained: when the main loop waits for a slot there
are at most as many as the channel holds, so a worker with a result has room for it.
-/

namespace WebSpider.Crawler.Workers

open Text Effects

variable {α : Type}

/-! ## Definitions -/

/-- The worker a step belongs to. -/
def Event.worker : Event α → Option Nat
  | .fetch k _ => some k
  | .publish k _ => some k
  | .send k => some k
  | .release k => some k
  | .exit k => some k
  | _ => none

/-- The pages launched and not drained. -/
def undrained (s : State α) : Nat := s.tasks.countP Task.unsent + s.results.length

/-- The invariant of the channel protocol. -/
structure Flowing (cfg : Settings) (s : State α) : Prop where
  slots : s.slots ≤ cfg.concurrency
  waiting : s.pc = .wait → undrained s ≤ cfg.concurrency
  acquiring : ∀ page, s.pc = .acquire page → undrained s ≤ cfg.concurrency ∧ 0 < s.pending
  selecting : s.pc = .select → undrained s ≤ cfg.concurrency + 1
  returned : s.pc = .returned → undrained s ≤ cfg.concurrency
  unpanicked : s.panicked = false

/-! ## The pages under way -/

theorem unsent_publishAll (articles : List α) (res : PageResult) :
    (publishAll articles res).unsent = true := by
  cases articles with
  | nil => rfl
  | cons a rest => rfl

theorem unsent_afterFetch (page : Nat) (answer : Answer α) :
    (afterFetch page answer).unsent = true := by
  cases answer with
  | none => rfl
  | some answer => exact unsent_publishAll _ _

theorem holds_of_unsent {task : Task α} (h : task.unsent = true) : task.holds = true := by
  cases task with
  | releasing => cases h
  | finishing => cases h
  | _ => rfl

/-- A worker keeps its page until it sends the result. -/
theorem works_unsent {cfg : Settings} {s : State α} {task : Task α} {acts : List (Act α)}
    {sent : List PageResult} {next : Option (Task α)} (h : Works cfg s task acts sent next) :
    [task].countP Task.unsent = next.toList.countP Task.unsent + sent.length := by
  cases h with
  | fetch page answer =>
    rw [Option.toList_some, List.countP_singleton, List.countP_singleton, unsent_afterFetch]
    rfl
  | publish a rest res answer =>
    rw [Option.toList_some, List.countP_singleton, List.countP_singleton, unsent_publishAll]
    rfl
  | send res => rfl
  | release => rfl
  | exit => rfl

/-- A worker takes no further slot. -/
theorem works_holds {cfg : Settings} {s : State α} {task : Task α} {acts : List (Act α)}
    {sent : List PageResult} {next : Option (Task α)} (h : Works cfg s task acts sent next) :
    next.toList.countP Task.holds ≤ [task].countP Task.holds := by
  cases h with
  | fetch page answer => exact List.countP_le_length
  | publish a rest res answer => exact List.countP_le_length
  | send res => exact Nat.le_refl _
  | release => exact Nat.zero_le _
  | exit => exact Nat.le_refl _

theorem countP_cons_eq (p : Task α → Bool) (task : Task α) (rest : List (Task α)) :
    (task :: rest).countP p = [task].countP p + rest.countP p := by
  rw [← List.countP_append]
  rfl

/-- A page not drained is a slot held or a result in the channel. -/
theorem undrained_le (s : State α) : undrained s ≤ s.slots + s.results.length :=
  Nat.add_le_add_right (List.countP_mono_left fun _ _ h => holds_of_unsent h) _

theorem held_underway (s : State α) : underway.held s = undrained s := by
  have htasks : (s.tasks.map (underway (α := α)).inTask).sum = s.tasks.countP Task.unsent := by
    induction s.tasks with
    | nil => rfl
    | cons task tasks ih =>
      rw [List.map_cons, List.sum_cons, ih, countP_cons_eq]
      cases task <;> rfl
  have hresults : (s.results.map (underway (α := α)).inResult).sum = s.results.length := by
    induction s.results with
    | nil => rfl
    | cons r results ih => rw [List.map_cons, List.sum_cons, ih, List.length_cons, Nat.add_comm]; rfl
  rw [Balance.held, htasks, hresults, undrained]

/-- A page launched was drained or is under way. -/
theorem launched_eq {cfg : Settings} {s : State α} {es : List (Event α)}
    (hrun : run (step cfg) start es = some s) :
    s.acts.countP Act.isLaunch = s.acts.countP Act.isAbsorb + undrained s := by
  have h := underway.conserved hrun
  have hloss : total (underway (α := α)).loss s.acts = s.acts.countP Act.isAbsorb := by
    rw [← total_one]
    unfold total
    congr 1
    apply List.map_congr_left
    intro act _
    cases act <;> rfl
  rw [hloss, held_underway] at h
  rw [← h, ← total_one]
  rfl

/-! ## The invariant -/

/-- A step that touches neither the workers nor the channel. -/
theorem Flowing.idle {cfg : Settings} {s t : State α} (hs : Flowing cfg s)
    (htasks : t.tasks = s.tasks) (hresults : t.results = s.results)
    (hpanicked : t.panicked = s.panicked)
    (hbound : t.pc = .wait ∨ (∃ page, t.pc = .acquire page) ∨ t.pc = .returned →
      undrained s ≤ cfg.concurrency)
    (hpending : ∀ page, t.pc = .acquire page → 0 < t.pending)
    (hselect : t.pc = .select → undrained s ≤ cfg.concurrency + 1) : Flowing cfg t := by
  have heq : undrained t = undrained s := by
    unfold undrained
    rw [htasks, hresults]
  refine ⟨?_, ?_, ?_, ?_, ?_, ?_⟩
  · unfold State.slots
    rw [htasks]
    exact hs.slots
  · intro hpc
    rw [heq]
    exact hbound (.inl hpc)
  · intro page hpc
    rw [heq]
    exact ⟨hbound (.inr (.inl ⟨page, hpc⟩)), hpending page hpc⟩
  · intro hpc
    rw [heq]
    exact hselect hpc
  · intro hpc
    rw [heq]
    exact hbound (.inr (.inr hpc))
  · rw [hpanicked]
    exact hs.unpanicked

/-- A step that leaves the page count of the places in the loop as it was, or lowers it. -/
theorem Flowing.lower {cfg : Settings} {s t : State α} (hs : Flowing cfg s) (hpc : t.pc = s.pc)
    (hpending : t.pending = s.pending) (hpanicked : t.panicked = s.panicked)
    (hslots : t.slots ≤ s.slots) (hundrained : undrained t ≤ undrained s) : Flowing cfg t := by
  refine ⟨hslots.trans hs.slots, ?_, ?_, ?_, ?_, hpanicked.trans hs.unpanicked⟩
  · intro hat
    exact hundrained.trans (hs.waiting (hpc.symm.trans hat))
  · intro page hat
    obtain ⟨hbound, hpos⟩ := hs.acquiring page (hpc.symm.trans hat)
    exact ⟨hundrained.trans hbound, hpending ▸ hpos⟩
  · intro hat
    exact hundrained.trans (hs.selecting (hpc.symm.trans hat))
  · intro hat
    exact hundrained.trans (hs.returned (hpc.symm.trans hat))

/-- The end of a pass of the loop with at most as many pages under way as there are slots. -/
theorem Flowing.pass {cfg : Settings} {s t : State α} (hs : Flowing cfg s)
    (hpc : t.pc = if t.stop then .drain else .wait) (htasks : t.tasks = s.tasks)
    (hpanicked : t.panicked = s.panicked) (hundrained : undrained t ≤ cfg.concurrency) :
    Flowing cfg t := by
  have hslots : t.slots ≤ cfg.concurrency := by
    unfold State.slots
    rw [htasks]
    exact hs.slots
  refine ⟨hslots, fun _ => hundrained, ?_, ?_, fun _ => hundrained, hpanicked.trans hs.unpanicked⟩
  · intro page hat
    rw [hpc] at hat
    split_ifs at hat
  · intro hat
    rw [hpc] at hat
    split_ifs at hat

/-- With an empty channel the pages under way are within the slots. -/
theorem Flowing.undrained_le_of_nil {cfg : Settings} {s : State α} (hs : Flowing cfg s)
    (hresults : s.results = []) : undrained s ≤ cfg.concurrency := by
  have hle := undrained_le s
  rw [hresults, List.length_nil, Nat.add_zero] at hle
  exact hle.trans hs.slots

/-- The result taken in the select makes up for the page launched before it. -/
theorem Flowing.undrained_take {cfg : Settings} {s : State α} (hs : Flowing cfg s)
    (hpc : s.pc = .select) {r : PageResult} {results : List PageResult}
    (hresults : s.results = r :: results) :
    undrained (s.take cfg r results) ≤ cfg.concurrency := by
  have hbound := hs.selecting hpc
  unfold undrained at hbound ⊢
  rw [hresults, List.length_cons] at hbound
  rw [State.take_tasks, State.take_results]
  omega

/-- After a pass of the select other than the one of a cancelled context. -/
theorem Flowing.undrained_select {cfg : Settings} {s t : State α} {e : Event α}
    (hs : Flowing cfg s) (he : e = .take ∨ e = .default) (h : Workers.step cfg s e = some t) :
    undrained t ≤ cfg.concurrency := by
  rcases he with rfl | rfl
  · change mainStep cfg s .take = some t at h
    unfold mainStep at h
    dsimp only at h
    split at h
    · cases h
      exact hs.undrained_take ‹_› ‹_›
    · cases h
  · change mainStep cfg s .default = some t at h
    unfold mainStep at h
    dsimp only at h
    split_ifs at h with hdefault
    cases h
    exact hs.undrained_le_of_nil hdefault.2.1

theorem Flowing.step {cfg : Settings} {s t : State α} (hshut : Shut s) (hs : Flowing cfg s)
    (h : Stepped cfg s t) : Flowing cfg t := by
  cases h with
  | cancel => exact hs.lower rfl rfl rfl (Nat.le_refl _) (Nat.le_refl _)
  | refused hpc => exact hs.idle rfl rfl rfl (fun _ => hs.waiting hpc) nofun nofun
  | limited => exact hs.idle rfl rfl rfl (by simp) nofun nofun
  | next hpc =>
    exact hs.idle rfl rfl rfl (fun _ => hs.waiting hpc) (fun _ _ => Nat.succ_pos _) nofun
  | launch page hpc hslots =>
    obtain ⟨hbound, hpending⟩ := hs.acquiring page hpc
    rw [if_pos hpending]
    refine ⟨?_, nofun, nofun, fun _ => ?_, nofun, hs.unpanicked⟩
    · unfold State.slots at hslots ⊢
      rw [List.countP_append]
      exact hslots
    · unfold undrained at hbound ⊢
      rw [List.countP_append, List.countP_singleton]
      simp only [Task.unsent, if_true]
      omega
  | take r results hpc hresults =>
    exact hs.pass (by simp) rfl rfl (hs.undrained_take hpc hresults)
  | done hpc => exact hs.idle rfl rfl rfl (by simp) nofun nofun
  | default hpc hresults => exact hs.pass rfl rfl rfl (hs.undrained_le_of_nil hresults)
  | close => exact hs.lower rfl rfl rfl (Nat.le_refl _) (Nat.le_refl _)
  | drain r results hpc hresults =>
    refine hs.lower rfl rfl rfl (Nat.le_refl _) ?_
    unfold undrained
    rw [hresults, State.absorb_tasks, State.absorb_results, List.length_cons]
    dsimp only
    omega
  | finish => exact hs.idle rfl rfl rfl (by simp) nofun nofun
  | record hpc =>
    obtain ⟨hclosed, hresults⟩ := hshut.record hpc
    exact hs.idle rfl rfl rfl (fun _ => hs.undrained_le_of_nil hresults) nofun nofun
  | work task rest tasks acts sent next hworks hbefore hafter =>
    have hunsent := works_unsent hworks
    have hholds := works_holds hworks
    refine hs.lower rfl rfl rfl ?_ ?_
    · unfold State.slots
      rw [hbefore.countP_eq, hafter.countP_eq, countP_cons_eq, List.countP_append]
      omega
    · unfold undrained
      rw [hbefore.countP_eq, hafter.countP_eq, countP_cons_eq, List.countP_append,
        List.length_append]
      omega
  | panic res hclosed htask =>
    rw [hshut.tasks hclosed] at htask
    cases htask

theorem flowing_start (cfg : Settings) : Flowing cfg (start : State α) :=
  ⟨Nat.zero_le _, fun _ => Nat.zero_le _, nofun, nofun, nofun, rfl⟩

theorem flowing {cfg : Settings} {s : State α} {es : List (Event α)}
    (hrun : run (step cfg) start es = some s) : Shut s ∧ Flowing cfg s :=
  state_invariant (I := fun s => Shut s ∧ Flowing cfg s) ⟨shut_start, flowing_start cfg⟩
    (fun _ _ hs h => ⟨hs.1.step h, hs.2.step hs.1 h⟩) hrun

/-! ## Progress -/

/-- The calls of the workers are answered as given. -/
def Obeys (fetches : Nat → Answer α) (publishes : α → Option Bool) (s : State α) : Event α → Prop
  | .fetch k answer => ∀ page, s.tasks[k]? = some (.fetching page) → answer = fetches page
  | .publish k answer =>
    ∀ a rest res, s.tasks[k]? = some (.publishing a rest res) → answer = publishes a
  | _ => True

/-- The steps a worker has left. -/
def Task.work (fetches : Nat → Answer α) : Task α → Nat
  | .fetching page => ((fetches page).elim 0 fun answer => answer.1.length) + 4
  | .publishing _ rest _ => rest.length + 4
  | .sending _ => 3
  | .releasing => 2
  | .finishing => 1

/-- The steps all workers have left. -/
def work (fetches : Nat → Answer α) (s : State α) : Nat := (s.tasks.map (Task.work fetches)).sum

theorem work_publishAll (fetches : Nat → Answer α) (articles : List α) (res : PageResult) :
    (publishAll articles res).work fetches = articles.length + 3 := by
  cases articles with
  | nil => rfl
  | cons a rest => simp [publishAll, Task.work]

theorem work_afterFetch (fetches : Nat → Answer α) (page : Nat) :
    (afterFetch page (fetches page)).work fetches < (Task.fetching page).work fetches := by
  have hwork : (Task.fetching page).work fetches =
      ((fetches page).elim 0 fun answer => answer.1.length) + 4 := rfl
  rw [hwork]
  cases fetches page with
  | none => exact Nat.lt_succ_self 3
  | some answer =>
    have hafter := work_publishAll fetches answer.1 ⟨page, answer.2, false, 0, 0⟩
    exact hafter.trans_lt (Nat.lt_succ_self _)

theorem work_set {fetches : Nat → Answer α} {tasks : List (Task α)} {k : Nat} {task next : Task α}
    (htask : tasks[k]? = some task) (hlt : next.work fetches < task.work fetches) :
    ((tasks.set k next).map (Task.work fetches)).sum < (tasks.map (Task.work fetches)).sum := by
  have hbefore := ((perm_of_getElem? htask).map (Task.work fetches)).sum_eq
  have hafter := ((set_perm htask next).map (Task.work fetches)).sum_eq
  rw [List.map_cons, List.sum_cons] at hbefore hafter
  omega

theorem work_erase {fetches : Nat → Answer α} {tasks : List (Task α)} {k : Nat}
    (htask : tasks[k]? = some .finishing) :
    ((tasks.eraseIdx k).map (Task.work fetches)).sum < (tasks.map (Task.work fetches)).sum := by
  have hbefore := ((perm_of_getElem? htask).map (Task.work fetches)).sum_eq
  rw [List.map_cons, List.sum_cons] at hbefore
  simp only [Task.work] at hbefore
  omega

/-- A worker with room for its result can take a step, which leaves less to do. -/
theorem worker_enabled {cfg : Settings} {s : State α} {k : Nat} {task : Task α}
    (htask : s.tasks[k]? = some task) (hclosed : ¬ s.closed)
    (hroom : task.unsent → s.results.length < cfg.concurrency)
    (fetches : Nat → Answer α) (publishes : α → Option Bool) :
    ∃ e t, e.worker = some k ∧ Obeys fetches publishes s e ∧ step cfg s e = some t ∧
      work fetches t < work fetches s := by
  cases task with
  | fetching page =>
    refine ⟨.fetch k (fetches page),
      s.assign k (afterFetch page (fetches page)) [.fetch page (fetches page)], rfl, ?_, ?_, ?_⟩
    · intro page' htask'
      cases htask.symm.trans htask'
      rfl
    · simp only [step, workerStep, htask]
    · exact work_set htask (work_afterFetch fetches page)
  | publishing a rest res =>
    refine ⟨.publish k (publishes a),
      s.assign k (publishAll rest (tally res (publishes a))) [.publish a (publishes a)], rfl,
      ?_, ?_, ?_⟩
    · intro a' rest' res' htask'
      cases htask.symm.trans htask'
      rfl
    · simp only [step, workerStep, htask]
    · apply work_set htask
      rw [work_publishAll]
      exact Nat.lt_succ_self _
  | sending res =>
    refine ⟨.send k, { s.assign k .releasing [] with results := s.results ++ [res] }, rfl, trivial,
      ?_, ?_⟩
    · have hlt := hroom rfl
      simp only [step, workerStep, htask, hclosed, hlt, Bool.false_eq_true, if_true, if_false]
    · exact work_set htask (Nat.lt_succ_self 2)
  | releasing =>
    refine ⟨.release k, s.assign k .finishing [], rfl, trivial, ?_, ?_⟩
    · simp only [step, workerStep, htask]
    · exact work_set htask (Nat.lt_succ_self 1)
  | finishing =>
    refine ⟨.exit k, { s with tasks := s.tasks.eraseIdx k }, rfl, trivial, ?_, ?_⟩
    · simp only [step, workerStep, htask]
    · exact work_erase htask

/-- A worker whose page is not drained leaves room in the channel when at most as many
pages are under way as it holds. -/
theorem room_of_undrained {cfg : Settings} {s : State α} {k : Nat} {task : Task α}
    (htask : s.tasks[k]? = some task) (hbound : undrained s ≤ cfg.concurrency)
    (hunsent : task.unsent) : s.results.length < cfg.concurrency := by
  have hpos : 0 < s.tasks.countP Task.unsent :=
    List.countP_pos_iff.mpr ⟨task, List.mem_of_getElem? htask, hunsent⟩
  unfold undrained at hbound
  omega

theorem not_closed_of_task {s : State α} (hshut : Shut s) {k : Nat} {task : Task α}
    (htask : s.tasks[k]? = some task) : ¬ s.closed := by
  intro hclosed
  rw [hshut.tasks hclosed] at htask
  cases htask

/-- While a run is active some party can go on. -/
theorem progress {cfg : Settings} {s : State α} (hshut : Shut s) (hs : Flowing cfg s)
    (hactive : s.pc ≠ .returned) (fetches : Nat → Answer α) (publishes : α → Option Bool) :
    ∃ e, e ≠ .cancel ∧ Obeys fetches publishes s e ∧ (step cfg s e).isSome := by
  -- Where the main loop waits for the workers, the first of them can go on.
  have hworker : undrained s ≤ cfg.concurrency → s.tasks ≠ [] →
      ∃ e, e ≠ .cancel ∧ Obeys fetches publishes s e ∧ (step cfg s e).isSome := by
    intro hbound hne
    obtain ⟨task, rest, htasks⟩ := List.exists_cons_of_ne_nil hne
    have htask : s.tasks[0]? = some task := by
      rw [htasks]
      rfl
    obtain ⟨e, t, he, hobeys, hstep, -⟩ := worker_enabled htask (not_closed_of_task hshut htask)
      (room_of_undrained htask hbound) fetches publishes
    refine ⟨e, ?_, hobeys, by rw [hstep]; rfl⟩
    rintro rfl
    cases he
  cases hpc : s.pc with
  | wait =>
    by_cases hrate : cfg.ratePerSec ≤ 0
    · refine ⟨.limiter false, by simp, trivial, ?_⟩
      simp [step, mainStep, hpc, hrate]
    · refine ⟨.limiter true, by simp, trivial, ?_⟩
      simp only [step, mainStep, hpc, hrate, ne_eq, not_true, if_true, if_false]
      split
      · rfl
      · rfl
  | acquire page =>
    by_cases hslots : s.slots < cfg.concurrency
    · refine ⟨.spawn, by simp, trivial, ?_⟩
      simp [step, mainStep, hpc, hslots]
    · refine hworker (hs.acquiring page hpc).1 fun htasks => hslots ?_
      unfold State.slots
      rw [htasks]
      exact cfg.concurrency_pos
  | select =>
    cases hresults : s.results with
    | cons r results =>
      refine ⟨.take, by simp, trivial, ?_⟩
      simp [step, mainStep, hpc, hresults]
    | nil =>
      by_cases hcancelled : s.cancelled
      · refine ⟨.done, by simp, trivial, ?_⟩
        simp [step, mainStep, hpc, hcancelled]
      · refine ⟨.default, by simp, trivial, ?_⟩
        simp [step, mainStep, hpc, hresults, hcancelled]
  | drain =>
    cases hresults : s.results with
    | cons r results =>
      refine ⟨.drain, by simp, trivial, ?_⟩
      simp [step, mainStep, hpc, hresults]
    | nil =>
      by_cases htasks : s.tasks = []
      · by_cases hclosed : s.closed
        · refine ⟨.finish, by simp, trivial, ?_⟩
          simp [step, mainStep, hpc, hresults, hclosed]
        · refine ⟨.close, by simp, trivial, ?_⟩
          simp [step, mainStep, hpc, htasks, hclosed]
      · exact hworker (hs.undrained_le_of_nil hresults) htasks
  | record =>
    refine ⟨.record, by simp, trivial, ?_⟩
    simp [step, mainStep, hpc]
  | returned => exact absurd hpc hactive

theorem step_worker {cfg : Settings} {s : State α} {e : Event α} {k : Nat}
    (he : e.worker = some k) : step cfg s e = workerStep cfg s e := by
  cases e with
  | fetch => rfl
  | publish => rfl
  | send => rfl
  | release => rfl
  | exit => rfl
  | _ => cases he

/-- The workers of a run that is over finish, whatever their calls return. -/
theorem workers_finish {cfg : Settings} (fetches : Nat → Answer α) (publishes : α → Option Bool)
    {s : State α} (hshut : Shut s) (hs : Flowing cfg s) (hover : s.pc = .returned) :
    ∃ es t, (∀ e ∈ es, e.worker.isSome) ∧ Along (step cfg) (Obeys fetches publishes) s es ∧
      run (step cfg) s es = some t ∧ t.tasks = [] := by
  induction hn : work fetches s using Nat.strong_induction_on generalizing s with
  | _ n ih =>
    subst hn
    cases htasks : s.tasks with
    | nil => exact ⟨[], s, nofun, trivial, rfl, htasks⟩
    | cons task rest =>
      have htask : s.tasks[0]? = some task := by
        rw [htasks]
        rfl
      obtain ⟨e, t, he, hobeys, hstep, hlt⟩ := worker_enabled htask
        (not_closed_of_task hshut htask) (room_of_undrained htask (hs.returned hover)) fetches
        publishes
      have hstepped := stepped_of_step hstep
      obtain ⟨es, u, hes, halong, hrun, hdone⟩ := ih _ hlt (hshut.step hstepped)
        (hs.step hshut hstepped)
        ((pc_of_workerStep ((step_worker he).symm.trans hstep)).trans hover) rfl
      refine ⟨e :: es, u, ?_, ⟨hobeys, fun t' ht' => ?_⟩, ?_, hdone⟩
      · intro e' he'
        rcases List.mem_cons.mp he' with rfl | he'
        · rw [he]
          rfl
        · exact hes e' he'
      · rw [hstep] at ht'
        cases ht'
        exact halong
      · rw [run_cons, hstep]
        exact hrun

/-- The channel protocol cannot get stuck. After a pass of the select that drained a page
or found none ready, at most as many pages are launched and not drained as there are
slots; while the run is active some party can go on; nothing is sent on the closed
channel; and once the run is over no worker is blocked and all of them can finish. -/
theorem never_stuck {cfg : Settings} {s : State α} {es : List (Event α)}
    (hrun : run (step cfg) start es = some s) (fetches : Nat → Answer α)
    (publishes : α → Option Bool) :
    (∀ e t, e = .take ∨ e = .default → step cfg s e = some t →
      t.acts.countP Act.isLaunch ≤ t.acts.countP Act.isAbsorb + cfg.concurrency) ∧
    (s.pc ≠ .returned → ∃ e, e ≠ .cancel ∧ Obeys fetches publishes s e ∧ (step cfg s e).isSome) ∧
    s.panicked = false ∧
    (s.pc = .returned →
      (∀ k task, s.tasks[k]? = some task →
        ∃ e, e.worker = some k ∧ Obeys fetches publishes s e ∧ (step cfg s e).isSome) ∧
      ∃ fs t, (∀ e ∈ fs, e.worker.isSome) ∧ Along (step cfg) (Obeys fetches publishes) s fs ∧
        run (step cfg) s fs = some t ∧ t.tasks = []) := by
  obtain ⟨hshut, hs⟩ := flowing hrun
  refine ⟨?_, fun hactive => progress hshut hs hactive fetches publishes, hs.unpanicked,
    fun hover => ⟨?_, workers_finish fetches publishes hshut hs hover⟩⟩
  · intro e t he hstep
    have hbound := hs.undrained_select he hstep
    have hlaunched := launched_eq (run_snoc hrun hstep)
    omega
  · intro k task htask
    obtain ⟨e, t, he, hobeys, hstep, -⟩ := worker_enabled htask (not_closed_of_task hshut htask)
      (room_of_undrained htask (hs.returned hover)) fetches publishes
    exact ⟨e, he, hobeys, by rw [hstep]; rfl⟩

/-- The context is cancelled while the worker of the first page is publishing. -/
def abandonedRun : List (Event Nat) :=
  [.limiter true, .spawn, .fetch 0 (some ([1, 2], false)), .default, .cancel, .limiter false]

theorem abandoned_workers_finish :
    ∃ s, run (step sampleSettings) start abandonedRun = some s ∧ s.pc = .returned ∧
      s.tasks.length = 1 ∧ ∃ fs t, run (step sampleSettings) s fs = some t ∧ t.tasks = [] := by
  have hview : (run (step sampleSettings) start abandonedRun).map
      (fun s => (s.pc, s.tasks.length)) = some (.returned, 1) := by decide +kernel
  obtain ⟨s, hs, heq⟩ := Option.map_eq_some_iff.mp hview
  obtain ⟨hpc, htasks⟩ := Prod.mk.inj heq
  obtain ⟨fs, t, -, -, hrun, hdone⟩ :=
    ((never_stuck hs (fun _ => none) fun _ => none).2.2.2 hpc).2
  exact ⟨s, hs, hpc, htasks, fs, t, hrun, hdone⟩

end WebSpider.Crawler.Workers
