import WebSpider.Crawler.Ledger

/-!
# The heartbeat of a run

What `RecordRun` is handed. The counters of the main loop are what the absorbed
results count for, and the record is made when nothing is under way, so by the
balances it is exact. A run whose `limiter.Wait` fails returns without a record.
-/

namespace WebSpider.Crawler.Workers

open Text Effects

variable {α : Type}

/-! ## Definitions -/

/-- The calls of `RecordRun`. -/
def records (acts : List (Act α)) : List RunStats :=
  acts.filterMap fun
    | .record stats => some stats
    | _ => none

/-- The pages launched and the calls of `Publish` and `FetchSince` by their results. -/
def exactStats (cfg : Settings) (acts : List (Act α)) : RunStats where
  source := cfg.sourceName
  pages := acts.countP Act.isLaunch
  published := acts.countP Act.isPublished
  failedPages := acts.countP Act.isFetchError
  publishErrors := acts.countP Act.isPublishError

/-! ## The counters -/

/-- The counters of the main loop. -/
structure Counted (s : State α) : Prop where
  pages : s.pages = total (Act.absorbed fun _ => 1) s.acts
  published : s.published = total (Act.absorbed PageResult.published) s.acts
  pubErrs : s.pubErrs = total (Act.absorbed PageResult.pubErrs) s.acts
  failedPages : s.failedPages = total (Act.absorbed fun r => if r.failed then 1 else 0) s.acts

theorem works_absorbed {cfg : Settings} {s : State α} {task : Task α} {acts : List (Act α)}
    {sent : List PageResult} {next : Option (Task α)} (h : Works cfg s task acts sent next)
    (f : PageResult → Nat) : total (Act.absorbed f) acts = 0 := by
  cases h with
  | fetch => rfl
  | publish => rfl
  | send => rfl
  | release => rfl
  | exit => rfl

/-- Acts that absorb nothing leave the counters as they are. -/
theorem Counted.append {s t : State α} {acts : List (Act α)} (hs : Counted s)
    (hacts : t.acts = s.acts ++ acts) (hnone : ∀ f, total (Act.absorbed f) acts = (0 : Nat))
    (hpages : t.pages = s.pages) (hpublished : t.published = s.published)
    (hpubErrs : t.pubErrs = s.pubErrs) (hfailed : t.failedPages = s.failedPages) : Counted t where
  pages := by rw [hacts, Balance.total_append, hnone, hpages, hs.pages, Nat.add_zero]
  published := by rw [hacts, Balance.total_append, hnone, hpublished, hs.published, Nat.add_zero]
  pubErrs := by rw [hacts, Balance.total_append, hnone, hpubErrs, hs.pubErrs, Nat.add_zero]
  failedPages := by
    rw [hacts, Balance.total_append, hnone, hfailed, hs.failedPages, Nat.add_zero]

/-- `absorb` adds the result to the counters. -/
theorem Counted.absorb {s t : State α} {r : PageResult} (hs : Counted s)
    (hacts : t.acts = s.acts ++ [.absorb r]) (hpages : t.pages = s.pages + 1)
    (hpublished : t.published = s.published + r.published)
    (hpubErrs : t.pubErrs = s.pubErrs + r.pubErrs)
    (hfailed : t.failedPages = if r.failed then s.failedPages + 1 else s.failedPages) :
    Counted t where
  pages := by rw [hacts, Balance.total_append, hpages, hs.pages, Balance.total_singleton, Act.absorbed]
  published := by
    rw [hacts, Balance.total_append, hpublished, hs.published, Balance.total_singleton, Act.absorbed]
  pubErrs := by
    rw [hacts, Balance.total_append, hpubErrs, hs.pubErrs, Balance.total_singleton, Act.absorbed]
  failedPages := by
    rw [hacts, Balance.total_append, hfailed, hs.failedPages, Balance.total_singleton, Act.absorbed]
    split
    · rfl
    · rfl

theorem Counted.step {cfg : Settings} {s t : State α} (hs : Counted s) (h : Stepped cfg s t) :
    Counted t := by
  have hquiet : ∀ f : PageResult → Nat, total (Act.absorbed f) ([] : List (Act α)) = 0 :=
    fun _ => rfl
  cases h with
  | cancel => exact ⟨hs.pages, hs.published, hs.pubErrs, hs.failedPages⟩
  | refused => exact ⟨hs.pages, hs.published, hs.pubErrs, hs.failedPages⟩
  | limited => exact ⟨hs.pages, hs.published, hs.pubErrs, hs.failedPages⟩
  | next => exact ⟨hs.pages, hs.published, hs.pubErrs, hs.failedPages⟩
  | launch => exact hs.append rfl (fun _ => rfl) rfl rfl rfl rfl
  | take => exact hs.absorb rfl rfl rfl rfl rfl
  | done => exact ⟨hs.pages, hs.published, hs.pubErrs, hs.failedPages⟩
  | default => exact ⟨hs.pages, hs.published, hs.pubErrs, hs.failedPages⟩
  | close => exact ⟨hs.pages, hs.published, hs.pubErrs, hs.failedPages⟩
  | drain => exact hs.absorb rfl rfl rfl rfl rfl
  | finish => exact ⟨hs.pages, hs.published, hs.pubErrs, hs.failedPages⟩
  | record => exact hs.append rfl (fun _ => rfl) rfl rfl rfl rfl
  | work task rest tasks acts sent next hworks =>
    exact hs.append rfl (works_absorbed hworks) rfl rfl rfl rfl
  | panic => exact ⟨hs.pages, hs.published, hs.pubErrs, hs.failedPages⟩

theorem counted {cfg : Settings} {s : State α} {es : List (Event α)}
    (hrun : run (step cfg) start es = some s) : Counted s :=
  state_invariant ⟨rfl, rfl, rfl, rfl⟩ (fun _ _ hs h => hs.step h) hrun

/-- With nothing under way the counters are the counts of the calls. -/
theorem stats_exact {cfg : Settings} {s : State α} {es : List (Event α)}
    (hrun : run (step cfg) start es = some s) (htasks : s.tasks = []) (hresults : s.results = []) :
    s.stats cfg = exactStats cfg s.acts := by
  have hcounted := counted hrun
  have hnone : ∀ b : Balance α Nat, b.held s = 0 := by
    intro b
    simp [Balance.held, htasks, hresults]
  have hpages := underway.conserved hrun
  have hpublished := publishedOnes.conserved hrun
  have hpubErrs := publishErrors.conserved hrun
  have hfailed := fetchErrors.conserved hrun
  rw [hnone, Nat.add_zero] at hpages hpublished hpubErrs hfailed
  unfold State.stats exactStats
  rw [hcounted.pages, hcounted.published, hcounted.pubErrs, hcounted.failedPages,
    ← total_one, ← total_one, ← total_one, ← total_one]
  exact congr (congr (congr (congrArg _ hpages.symm) hpublished.symm) hfailed.symm) hpubErrs.symm

/-! ## The end of a run -/

/-- The channel is closed when the workers are gone, and the record is made when the
closed channel is empty. -/
structure Shut (s : State α) : Prop where
  tasks : s.closed → s.tasks = []
  loop : s.closed → s.pc = .drain ∨ s.pc = .record ∨ s.pc = .returned
  record : s.pc = .record → s.closed ∧ s.results = []

theorem Shut.step {cfg : Settings} {s t : State α} (hs : Shut s) (h : Stepped cfg s t) : Shut t := by
  -- A closed channel leaves the main loop behind.
  have hopen : ∀ pc, s.pc = pc → pc ≠ .drain → pc ≠ .record → pc ≠ .returned → ¬ s.closed := by
    rintro pc rfl hdrain hrecord hreturned hclosed
    rcases hs.loop hclosed with hpc | hpc | hpc
    · exact hdrain hpc
    · exact hrecord hpc
    · exact hreturned hpc
  cases h with
  | cancel => exact ⟨hs.tasks, hs.loop, hs.record⟩
  | refused => exact ⟨hs.tasks, fun _ => .inr (.inr rfl), nofun⟩
  | limited => exact ⟨hs.tasks, fun _ => .inl rfl, nofun⟩
  | next hpc =>
    have hnot := hopen _ hpc nofun nofun nofun
    exact ⟨hs.tasks, fun hclosed => absurd hclosed hnot, nofun⟩
  | launch page hpc =>
    have hnot := hopen _ hpc nofun nofun nofun
    refine ⟨fun hclosed => absurd hclosed hnot, fun hclosed => absurd hclosed hnot, ?_⟩
    intro hrecord
    dsimp only at hrecord
    split_ifs at hrecord
  | take r results hpc =>
    have hnot := hopen _ hpc nofun nofun nofun
    refine ⟨fun hclosed => absurd hclosed hnot, fun hclosed => absurd hclosed hnot, ?_⟩
    intro hrecord
    rw [State.take_pc] at hrecord
    split_ifs at hrecord
  | done => exact ⟨hs.tasks, fun _ => .inl rfl, nofun⟩
  | default hpc =>
    have hnot := hopen _ hpc nofun nofun nofun
    refine ⟨fun hclosed => absurd hclosed hnot, fun hclosed => absurd hclosed hnot, ?_⟩
    intro hrecord
    rw [State.top_pc] at hrecord
    split_ifs at hrecord
  | close hpc htasks => exact ⟨fun _ => htasks, fun _ => .inl hpc, fun h => nomatch hpc.symm.trans h⟩
  | drain r results hpc =>
    exact ⟨hs.tasks, fun _ => .inl hpc, fun h => nomatch hpc.symm.trans h⟩
  | finish hpc hresults hclosed => exact ⟨hs.tasks, fun _ => .inr (.inl rfl), fun _ => ⟨hclosed, hresults⟩⟩
  | record => exact ⟨hs.tasks, fun _ => .inr (.inr rfl), nofun⟩
  | work task rest tasks acts sent next hworks hbefore =>
    have hnot : ¬ s.closed := by
      intro hclosed
      rw [hs.tasks hclosed] at hbefore
      exact absurd hbefore.symm.eq_nil (List.cons_ne_nil _ _)
    exact ⟨fun hclosed => absurd hclosed hnot, hs.loop, fun h => absurd (hs.record h).1 hnot⟩
  | panic => exact ⟨hs.tasks, hs.loop, hs.record⟩

theorem shut_start : Shut (start : State α) := ⟨nofun, nofun, nofun⟩

theorem shut {cfg : Settings} {s : State α} {es : List (Event α)}
    (hrun : run (step cfg) start es = some s) : Shut s :=
  state_invariant shut_start (fun _ _ hs h => hs.step h) hrun

theorem pc_of_workerStep {cfg : Settings} {s t : State α} {e : Event α}
    (h : workerStep cfg s e = some t) : t.pc = s.pc := by
  unfold workerStep at h
  split at h
  · split at h
    · cases h
      rfl
    · cases h
  · split at h
    · cases h
      rfl
    · cases h
  · split at h
    · split at h
      · cases h
        rfl
      · split at h
        · cases h
          rfl
        · cases h
    · cases h
  · split at h
    · cases h
      rfl
    · cases h
  · split at h
    · cases h
      rfl
    · cases h
  · cases h

/-- From its wait the main loop goes on with the limiter only. -/
theorem limiter_of_wait {cfg : Settings} {s t : State α} {e : Event α}
    (h : mainStep cfg s e = some t) (hpc : s.pc = .wait) : ∃ ok, e = .limiter ok := by
  cases e with
  | limiter ok => exact ⟨ok, rfl⟩
  | spawn => simp [mainStep, hpc] at h
  | take => simp [mainStep, hpc] at h
  | done => simp [mainStep, hpc] at h
  | default => simp [mainStep, hpc] at h
  | close => simp [mainStep, hpc] at h
  | drain => simp [mainStep, hpc] at h
  | finish => simp [mainStep, hpc] at h
  | record => simp [mainStep, hpc] at h
  | _ => cases h

/-- A failing `limiter.Wait` is the one step from the wait out of the run. -/
theorem limiter_false_iff {cfg : Settings} {s t : State α} {e : Event α}
    (h : step cfg s e = some t) : e = .limiter false ↔ s.pc = .wait ∧ t.pc = .returned := by
  constructor
  · rintro rfl
    change mainStep cfg s (.limiter false) = some t at h
    simp only [mainStep, Bool.false_eq_true, if_false] at h
    split_ifs at h with hpc hfail
    cases h
    exact ⟨not_not.mp hpc, rfl⟩
  · rintro ⟨hwait, hreturned⟩
    have hworker : ¬ workerStep cfg s e = some t := by
      intro hw
      rw [pc_of_workerStep hw, hwait] at hreturned
      cases hreturned
    unfold step at h
    split at h
    · cases h
      exact nomatch hwait.symm.trans hreturned
    · contradiction
    · contradiction
    · contradiction
    · contradiction
    · contradiction
    · obtain ⟨ok, rfl⟩ := limiter_of_wait h hwait
      cases ok with
      | false => rfl
      | true =>
        simp only [mainStep, if_true] at h
        split_ifs at h
        · cases h
          cases hreturned
        · cases h
          cases hreturned

/-! ## The report -/

theorem records_append (acts acts' : List (Act α)) :
    records (acts ++ acts') = records acts ++ records acts' := List.filterMap_append

theorem works_records {cfg : Settings} {s : State α} {task : Task α} {acts : List (Act α)}
    {sent : List PageResult} {next : Option (Task α)} (h : Works cfg s task acts sent next) :
    records acts = [] := by
  cases h with
  | fetch => rfl
  | publish => rfl
  | send => rfl
  | release => rfl
  | exit => rfl

/-- An active run has recorded nothing and waited without an error. A run that is over has
either failed to wait, or made its record with nothing left under way. -/
structure Reported (cfg : Settings) (es : List (Event α)) (s : State α) : Prop where
  active : s.pc ≠ .returned → Event.limiter false ∉ es ∧ records s.acts = []
  ended : s.pc = .returned → (Event.limiter false ∈ es ∧ records s.acts = []) ∨
    (Event.limiter false ∉ es ∧ records s.acts = [s.stats cfg] ∧ s.tasks = [] ∧ s.results = [])

theorem Reported.stay {cfg : Settings} {es : List (Event α)} {s t : State α} {e : Event α}
    (hs : Reported cfg es s) (h : step cfg s e = some t) (hpc : s.pc ≠ .returned)
    (hpc' : t.pc ≠ .returned) (hrecords : records t.acts = records s.acts) :
    Reported cfg (es ++ [e]) t := by
  obtain ⟨hes, hnone⟩ := hs.active hpc
  refine ⟨fun _ => ⟨?_, hrecords.trans hnone⟩, fun hover => absurd hover hpc'⟩
  have hne : Event.limiter false ≠ e := fun he => hpc' ((limiter_false_iff h).mp he.symm).2
  simp [hes, hne]

/-- A step that leaves the place in the loop, the acts and the work as they are. -/
theorem Reported.idle {cfg : Settings} {es : List (Event α)} {s t : State α} {e : Event α}
    (hs : Reported cfg es s) (h : step cfg s e = some t) (hpc : t.pc = s.pc)
    (hacts : t.acts = s.acts) (hstats : t.stats cfg = s.stats cfg) (htasks : t.tasks = s.tasks)
    (hresults : t.results = s.results) : Reported cfg (es ++ [e]) t := by
  have hne : Event.limiter false ≠ e := by
    intro he
    obtain ⟨hwait, hreturned⟩ := (limiter_false_iff h).mp he.symm
    exact nomatch hwait.symm.trans (hpc.symm.trans hreturned)
  have hmem : Event.limiter false ∈ es ++ [e] ↔ Event.limiter false ∈ es := by simp [hne]
  constructor
  · rw [hpc, hmem, hacts]
    exact hs.active
  · rw [hpc, hmem, hacts, hstats, htasks, hresults]
    exact hs.ended

theorem reported_step {cfg : Settings} {es : List (Event α)} {s t : State α} {e : Event α}
    (hshut : Shut s) (hs : Reported cfg es s) (h : step cfg s e = some t) :
    Reported cfg (es ++ [e]) t := by
  have hfalse := limiter_false_iff h
  have hstepped := stepped_of_step h
  cases hstepped with
  | cancel => exact hs.idle h rfl rfl rfl rfl rfl
  | refused hpc =>
    refine ⟨fun hactive => absurd rfl hactive, fun _ => .inl ⟨?_, ?_⟩⟩
    · rw [hfalse.mpr ⟨hpc, rfl⟩]
      exact List.mem_append_right _ List.mem_cons_self
    · exact (hs.active (by rw [hpc]; exact nofun)).2
  | limited hpc => exact hs.stay h (by rw [hpc]; exact nofun) nofun rfl
  | next hpc => exact hs.stay h (by rw [hpc]; exact nofun) nofun rfl
  | launch page hpc =>
    refine hs.stay h (by rw [hpc]; exact nofun) ?_ ?_
    · intro hover
      dsimp only at hover
      split_ifs at hover
    · rw [records_append]
      exact List.append_nil _
  | take r results hpc =>
    refine hs.stay h (by rw [hpc]; exact nofun) ?_ ?_
    · intro hover
      rw [State.take_pc] at hover
      split_ifs at hover
    · rw [State.take_acts, records_append]
      exact List.append_nil _
  | done hpc => exact hs.stay h (by rw [hpc]; exact nofun) nofun rfl
  | default hpc =>
    refine hs.stay h (by rw [hpc]; exact nofun) ?_ rfl
    intro hover
    rw [State.top_pc] at hover
    split_ifs at hover
  | close => exact hs.idle h rfl rfl rfl rfl rfl
  | drain r results hpc =>
    refine hs.stay h (by rw [hpc]; exact nofun) ?_ ?_
    · rw [State.absorb_pc]
      exact fun hover => nomatch hpc.symm.trans hover
    · rw [State.absorb_acts, records_append]
      exact List.append_nil _
  | finish hpc => exact hs.stay h (by rw [hpc]; exact nofun) nofun rfl
  | record hpc =>
    obtain ⟨hes, hnone⟩ := hs.active (by rw [hpc]; exact nofun)
    obtain ⟨hclosed, hresults⟩ := hshut.record hpc
    refine ⟨fun hactive => absurd rfl hactive, fun _ => .inr ⟨?_, ?_, hshut.tasks hclosed, hresults⟩⟩
    · have hne : Event.limiter false ≠ e := fun he =>
        nomatch hpc.symm.trans (hfalse.mp he.symm).1
      simp [hes, hne]
    · rw [records_append, hnone]
      rfl
  | work task rest tasks acts sent next hworks hbefore =>
    have hrecords : records (s.acts ++ acts) = records s.acts := by
      rw [records_append, works_records hworks, List.append_nil]
    by_cases hpc : s.pc = .returned
    · have hne : Event.limiter false ≠ e := fun he =>
        nomatch hpc.symm.trans (hfalse.mp he.symm).1
      refine ⟨fun hactive => absurd hpc hactive, fun _ => ?_⟩
      rcases hs.ended hpc with ⟨hes, hnone⟩ | ⟨-, -, htasks, -⟩
      · exact .inl ⟨List.mem_append_left _ hes, hrecords.trans hnone⟩
      · rw [htasks] at hbefore
        exact absurd hbefore.symm.eq_nil (List.cons_ne_nil _ _)
    · exact hs.stay h hpc hpc hrecords
  | panic => exact hs.idle h rfl rfl rfl rfl rfl

theorem reported_start (cfg : Settings) : Reported cfg [] (start : State α) :=
  ⟨fun _ => ⟨List.not_mem_nil, rfl⟩, nofun⟩

theorem reported {cfg : Settings} {s : State α} {es : List (Event α)}
    (hrun : run (step cfg) start es = some s) : Reported cfg es s := by
  have hboth := run_history (I := fun es s => Shut s ∧ Reported cfg es s)
    (fun es s e t hs h => ⟨hs.1.step (stepped_of_step h), reported_step hs.1 hs.2 h⟩)
    ⟨shut_start, reported_start cfg⟩ hrun
  exact hboth.2

/-- A run that returned has recorded itself once and exactly if no `limiter.Wait` of it
failed, and otherwise not at all. -/
theorem recorded_iff {cfg : Settings} {s : State α} {es : List (Event α)}
    (hrun : run (step cfg) start es = some s) (hover : s.pc = .returned) :
    records s.acts = [exactStats cfg s.acts] ↔ Event.limiter false ∉ es := by
  rcases (reported hrun).ended hover with ⟨hes, hnone⟩ | ⟨hes, hrecords, htasks, hresults⟩
  · rw [hnone]
    exact ⟨nofun, fun hnot => absurd hes hnot⟩
  · rw [hrecords, stats_exact hrun htasks hresults]
    exact ⟨fun _ => hes, fun _ => rfl⟩

/-- The parameters of the test of an ordinary run. -/
def sampleSettings : Settings := new (lit "fake") 0 1 1000 3

/-- One page, which holds one article, and then an empty page. -/
def ordinaryRun : List (Event Nat) :=
  [.limiter true, .spawn, .fetch 0 (some ([1], false)), .publish 0 (some true), .send 0, .release 0,
    .exit 0, .take, .limiter true, .spawn, .fetch 0 (some ([], true)), .send 0, .release 0, .exit 0,
    .take, .close, .finish, .record]

theorem ordinaryRun_recorded : ∃ s, run (step sampleSettings) start ordinaryRun = some s ∧
    s.pc = .returned ∧ records s.acts = [exactStats sampleSettings s.acts] := by
  have hrun : (run (step sampleSettings) start ordinaryRun).isSome := by decide +kernel
  obtain ⟨s, hs⟩ := Option.isSome_iff_exists.mp hrun
  have hover : (run (step sampleSettings) start ordinaryRun).map State.pc = some .returned := by
    decide +kernel
  rw [hs] at hover
  have hpc : s.pc = .returned := Option.some.inj hover
  exact ⟨s, hs, hpc, (recorded_iff hs hpc).mpr (by decide)⟩

/-- The first page is published, and the context is cancelled before the second. -/
def interruptedRun : List (Event Nat) :=
  [.limiter true, .spawn, .fetch 0 (some ([1], false)), .publish 0 (some true), .send 0, .release 0,
    .exit 0, .take, .cancel, .limiter false]

theorem interrupted_run_unrecorded :
    ¬ ∀ (cfg : Settings) (es : List (Event Nat)) (s : State Nat),
      run (step cfg) start es = some s → s.pc = .returned →
        records s.acts = [exactStats cfg s.acts] := by
  intro hall
  have hview : (run (step sampleSettings) start interruptedRun).map
      (fun s => (s.pc, records s.acts)) = some (.returned, []) := by decide +kernel
  obtain ⟨s, hs, heq⟩ := Option.map_eq_some_iff.mp hview
  obtain ⟨hpc, hrecords⟩ := Prod.mk.inj heq
  have hrecord := hall _ _ s hs hpc
  rw [hrecords] at hrecord
  cases hrecord

end WebSpider.Crawler.Workers
