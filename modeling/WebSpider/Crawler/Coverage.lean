import WebSpider.Crawler.Channels
import Mathlib.Data.List.Nodup

/-!
# Coverage of the scheduler

Which pages a run launches and when it stops. The pages come in order, a result that
stops the run ends the launching at once, and from the bound on the pages under way
follows how far the workers are ahead at that moment. For a source with finitely many
pages all of them are fetched and their articles published once, and the run ends.
-/

namespace WebSpider.Crawler.Workers

open Text Effects

variable {α : Type}

/-! ## Definitions -/

/-- The pages launched, in order. -/
def launches (acts : List (Act α)) : List Nat := acts.filterMap Act.launchedPage

/-- The failed pages among the drained results. -/
def failures (acts : List (Act α)) : Nat :=
  total (Act.absorbed fun r => if r.failed then 1 else 0) acts

/-- The result drained after these acts stops the run: it is empty, or it brings the
failures to the limit of the circuit breaker. -/
def Stops (cfg : Settings) (pre : List (Act α)) (r : PageResult) : Prop :=
  r.empty ∨ (r.failed ∧ cfg.maxPageFailures ≤ failures (pre ++ [Act.absorb r]))

/-- The main loop is left. -/
def Left (pc : Pc) : Prop := pc = .drain ∨ pc = .record ∨ pc = .returned

/-! ## The order of the pages -/

theorem launches_append (acts acts' : List (Act α)) :
    launches (acts ++ acts') = launches acts ++ launches acts' := List.filterMap_append

theorem length_launches (acts : List (Act α)) :
    (launches acts).length = acts.countP Act.isLaunch := by
  induction acts with
  | nil => rfl
  | cons act acts ih =>
    rw [List.countP_cons, ← ih]
    cases act <;> rfl

theorem works_launches {cfg : Settings} {s : State α} {task : Task α} {acts : List (Act α)}
    {sent : List PageResult} {next : Option (Task α)} (h : Works cfg s task acts sent next) :
    launches acts = [] := by
  cases h with
  | fetch => rfl
  | publish => rfl
  | send => rfl
  | release => rfl
  | exit => rfl

/-- A worker absorbs nothing. -/
theorem not_mem_of_works {cfg : Settings} {s : State α} {task : Task α} {acts : List (Act α)}
    {sent : List PageResult} {next : Option (Task α)} (h : Works cfg s task acts sent next)
    (r : PageResult) : Act.absorb r ∉ acts := by
  cases h with
  | fetch => simp
  | publish => simp
  | send => simp
  | release => simp
  | exit => simp

/-- The pages launched are numbered from 1 on, and the next page follows them. -/
structure Numbered (cfg : Settings) (s : State α) : Prop where
  order : launches s.acts = List.range' 1 (launches s.acts).length
  next : (∀ page, s.pc ≠ .acquire page) → s.nextPage = (launches s.acts).length + 1
  acquiring : ∀ page, s.pc = .acquire page → page = (launches s.acts).length + 1 ∧
    s.nextPage = page + 1 ∧ (0 < cfg.maxPages → page ≤ cfg.maxPages)
  limit : 0 < cfg.maxPages → (launches s.acts).length ≤ cfg.maxPages

/-- A step that launches nothing and moves between other places than the wait for a slot. -/
theorem Numbered.move {cfg : Settings} {s t : State α} (hs : Numbered cfg s)
    (hlaunches : launches t.acts = launches s.acts) (hnext : t.nextPage = s.nextPage)
    (hpc : ∀ page, s.pc ≠ .acquire page) (hpc' : ∀ page, t.pc ≠ .acquire page) :
    Numbered cfg t where
  order := hlaunches.symm ▸ hs.order
  next _ := by
    rw [hlaunches, hnext]
    exact hs.next hpc
  acquiring page h := absurd h (hpc' page)
  limit := hlaunches.symm ▸ hs.limit

/-- A step that launches nothing and leaves the main loop where it is. -/
theorem Numbered.stay {cfg : Settings} {s t : State α} (hs : Numbered cfg s)
    (hlaunches : launches t.acts = launches s.acts) (hnext : t.nextPage = s.nextPage)
    (hpc : t.pc = s.pc) : Numbered cfg t where
  order := hlaunches.symm ▸ hs.order
  next h := by
    rw [hlaunches, hnext]
    exact hs.next (hpc ▸ h)
  acquiring page h := by
    rw [hlaunches, hnext]
    exact hs.acquiring page (hpc ▸ h)
  limit := hlaunches.symm ▸ hs.limit

theorem Numbered.step {cfg : Settings} {s t : State α} (hs : Numbered cfg s)
    (h : Stepped cfg s t) : Numbered cfg t := by
  have hquiet : ∀ acts : List (Act α), launches acts = [] →
      launches (s.acts ++ acts) = launches s.acts := by
    intro acts hacts
    rw [launches_append, hacts, List.append_nil]
  cases h with
  | cancel => exact hs.stay rfl rfl rfl
  | refused hpc => exact hs.move rfl rfl (by simp [hpc]) nofun
  | limited hpc => exact hs.move rfl rfl (by simp [hpc]) nofun
  | next hpc hlimit =>
    have hnext := hs.next (by simp [hpc])
    refine ⟨hs.order, fun hnot => absurd rfl (hnot s.nextPage), ?_, hs.limit⟩
    intro page hpage
    cases hpage
    exact ⟨hnext, rfl, fun hpos => by omega⟩
  | launch page hpc =>
    obtain ⟨hpage, hnext, hlimit⟩ := hs.acquiring page hpc
    have hlaunches : launches (s.acts ++ [.launch page]) = launches s.acts ++ [page] :=
      launches_append _ _
    have hlength : (launches s.acts ++ [page]).length = (launches s.acts).length + 1 := by simp
    constructor
    · rw [hlaunches, hlength, List.range'_concat, ← hs.order, Nat.one_mul, Nat.add_comm 1,
        ← hpage]
    · intro _
      rw [hlaunches, hlength, hnext, hpage]
    · intro page' hpage'
      dsimp only at hpage'
      split_ifs at hpage'
    · intro hpos
      rw [hlaunches, hlength]
      have hle := hlimit hpos
      omega
  | take r results hpc =>
    refine hs.move (hquiet _ rfl) rfl (by simp [hpc]) ?_
    intro page
    rcases s.take_pc_or cfg r results with hpc' | hpc'
    · rw [hpc']
      exact nofun
    · rw [hpc']
      exact nofun
  | done hpc => exact hs.move rfl rfl (by simp [hpc]) nofun
  | default hpc =>
    refine hs.move rfl rfl (by simp [hpc]) ?_
    intro page
    rcases s.top_pc_or with hpc' | hpc'
    · rw [hpc']
      exact nofun
    · rw [hpc']
      exact nofun
  | close => exact hs.stay rfl rfl rfl
  | drain => exact hs.stay (hquiet _ rfl) rfl rfl
  | finish hpc => exact hs.move rfl rfl (by simp [hpc]) nofun
  | record hpc => exact hs.move (hquiet _ rfl) rfl (by simp [hpc]) nofun
  | work task rest tasks acts sent next hworks => exact hs.stay (hquiet _ (works_launches hworks)) rfl rfl
  | panic => exact hs.stay rfl rfl rfl

theorem numbered {cfg : Settings} {s : State α} {es : List (Event α)}
    (hrun : run (step cfg) start es = some s) : Numbered cfg s :=
  state_invariant ⟨rfl, fun _ => rfl, nofun, fun h => Int.le_of_lt h⟩ (fun _ _ hs h => hs.step h) hrun

/-! ## The end of the launching -/

/-- At most one page more than there are slots is under way at any time. -/
theorem undrained_le_succ {cfg : Settings} {s : State α} {es : List (Event α)}
    (hrun : run (step cfg) start es = some s) : undrained s ≤ cfg.concurrency + 1 := by
  refine reached_state_invariant (I := fun s => undrained s ≤ cfg.concurrency + 1) (Nat.zero_le _)
    (fun es s t hs hbound h => ?_) hrun
  obtain ⟨hshut, hflow⟩ := flowing hs
  cases h with
  | launch page hpc hslots =>
    have hpending := (hflow.acquiring page hpc).2
    exact (hflow.step hshut (.launch page hpc hslots)).selecting (if_pos hpending)
  | take r results hpc hresults => exact (hflow.undrained_take hpc hresults).trans (Nat.le_succ _)
  | drain r results hpc hresults =>
    unfold undrained at hbound ⊢
    rw [hresults, List.length_cons] at hbound
    rw [State.absorb_tasks, State.absorb_results]
    dsimp only
    omega
  | work task rest tasks acts sent next hworks hbefore hafter =>
    have hunsent := works_unsent hworks
    unfold undrained at hbound ⊢
    rw [hbefore.countP_eq, countP_cons_eq] at hbound
    rw [hafter.countP_eq, List.countP_append, List.length_append]
    omega
  | _ => exact hbound

/-- A result that stops the run leaves the loop: nothing is launched after it, and at that
moment at most as many pages are launched and not drained as there are slots. -/
def Halted (cfg : Settings) (s : State α) : Prop :=
  ∀ pre r post, s.acts = pre ++ Act.absorb r :: post → Stops cfg pre r →
    Left s.pc ∧ launches post = [] ∧
      (launches pre).length ≤ (pre ++ [Act.absorb r]).countP Act.isAbsorb + cfg.concurrency

/-- Acts that absorb nothing. -/
theorem Halted.append {cfg : Settings} {s t : State α} {acts : List (Act α)} (hs : Halted cfg s)
    (hacts : t.acts = s.acts ++ acts) (hquiet : ∀ r, Act.absorb r ∉ acts)
    (hleft : Left s.pc → Left t.pc ∧ launches acts = []) : Halted cfg t := by
  intro pre r post hsplit hstop
  rw [hacts, List.append_eq_append_iff] at hsplit
  rcases hsplit with ⟨bs, rfl, htail⟩ | ⟨bs, hpre, htail⟩
  · refine absurd ?_ (hquiet r)
    rw [htail]
    exact List.mem_append_right _ List.mem_cons_self
  · rcases List.cons_eq_append_iff.mp htail with ⟨rfl, hnew⟩ | ⟨cs, rfl, rfl⟩
    · refine absurd ?_ (hquiet r)
      rw [hnew]
      exact List.mem_cons_self
    · obtain ⟨hpc, hnone, hbound⟩ := hs pre r cs hpre hstop
      obtain ⟨hpc', hnew⟩ := hleft hpc
      exact ⟨hpc', by rw [launches_append, hnone, hnew]; rfl, hbound⟩

/-- One more result is absorbed. -/
theorem Halted.absorb {cfg : Settings} {s t : State α} {r : PageResult} (hs : Halted cfg s)
    (hacts : t.acts = s.acts ++ [Act.absorb r]) (hleft : Left s.pc → Left t.pc)
    (hstop : Stops cfg s.acts r → Left t.pc)
    (hbound : (launches s.acts).length ≤
      (s.acts ++ [Act.absorb r]).countP Act.isAbsorb + cfg.concurrency) : Halted cfg t := by
  intro pre r' post hsplit hstop'
  rw [hacts] at hsplit
  rcases List.append_eq_append_iff.mp hsplit with ⟨bs, rfl, htail⟩ | ⟨bs, hpre, htail⟩
  · rcases List.cons_eq_append_iff.mp htail with ⟨rfl, hnew⟩ | ⟨cs, -, hnew⟩
    · cases hnew
      rw [List.append_nil] at hstop' ⊢
      exact ⟨hstop hstop', rfl, hbound⟩
    · exact absurd hnew.symm (by simp)
  · rcases List.cons_eq_append_iff.mp htail with ⟨rfl, hnew⟩ | ⟨cs, rfl, rfl⟩
    · cases hnew
      rw [List.append_nil] at hpre
      subst hpre
      exact ⟨hstop hstop', rfl, hbound⟩
    · obtain ⟨hpc, hnone, hbound'⟩ := hs pre r' cs hpre hstop'
      exact ⟨hleft hpc, by rw [launches_append, hnone]; rfl, hbound'⟩

/-- Absorbing a result makes room for it in the bound on the pages under way. -/
theorem launches_le {cfg : Settings} {s : State α} {es : List (Event α)}
    (hrun : run (step cfg) start es = some s) (r : PageResult) :
    (launches s.acts).length ≤
      (s.acts ++ [Act.absorb r]).countP Act.isAbsorb + cfg.concurrency := by
  have hlaunched := launched_eq hrun
  have hbound := undrained_le_succ hrun
  have habsorb : (s.acts ++ [Act.absorb r]).countP Act.isAbsorb =
      s.acts.countP Act.isAbsorb + 1 := List.countP_append
  rw [length_launches, habsorb]
  omega

/-- What `absorb` and the select decide: a result that stops the run sets the flag. -/
theorem take_pc_of_stops {cfg : Settings} {s : State α} (hs : Counted s) {r : PageResult}
    (results : List PageResult) (hstop : Stops cfg s.acts r) :
    (s.take cfg r results).pc = .drain := by
  rw [State.take_pc]
  apply if_pos
  rcases hstop with hempty | ⟨hfailed, hlimit⟩
  · exact .inr hempty
  · refine .inl (.inr ⟨hfailed, ?_⟩)
    unfold failures at hlimit
    rw [Balance.total_append, Balance.total_singleton, Act.absorbed, ← hs.failedPages,
      if_pos hfailed] at hlimit
    rwa [if_pos hfailed]

theorem Halted.step {cfg : Settings} {s t : State α} {es : List (Event α)}
    (hrun : run (Workers.step cfg) start es = some s) (hs : Halted cfg s) (h : Stepped cfg s t) :
    Halted cfg t := by
  -- A state outside `Left` has no result that stops the run, so only its own results matter.
  have hidle : t.acts = s.acts → (Left s.pc → Left t.pc) → Halted cfg t := by
    intro hacts hleft
    rw [← List.append_nil s.acts] at hacts
    exact hs.append hacts (fun _ => List.not_mem_nil) fun hpc => ⟨hleft hpc, rfl⟩
  have hnot : ∀ {pc}, s.pc = pc → ¬ Left pc → Left s.pc → Left t.pc := by
    rintro pc rfl hpc hpc'
    exact absurd hpc' hpc
  cases h with
  | cancel => exact hidle rfl id
  | refused => exact hidle rfl fun _ => .inr (.inr rfl)
  | limited => exact hidle rfl fun _ => .inl rfl
  | next hpc => exact hidle rfl (hnot hpc (by simp [Left]))
  | launch page hpc =>
    apply hs.append rfl (by simp)
    intro hleft
    rw [hpc] at hleft
    simp [Left] at hleft
  | take r results hpc hresults =>
    refine hs.absorb rfl (hnot hpc (by simp [Left])) (fun hstop => ?_) (launches_le hrun r)
    exact .inl (take_pc_of_stops (counted hrun) results hstop)
  | done => exact hidle rfl fun _ => .inl rfl
  | default hpc => exact hidle rfl (hnot hpc (by simp [Left]))
  | close => exact hidle rfl id
  | drain r results hpc => exact hs.absorb rfl id (fun _ => .inl hpc) (launches_le hrun r)
  | finish => exact hidle rfl fun _ => .inr (.inl rfl)
  | record => exact hs.append rfl (by simp) fun _ => ⟨.inr (.inr rfl), rfl⟩
  | work task rest tasks acts sent next hworks =>
    exact hs.append rfl (not_mem_of_works hworks) fun hleft => ⟨hleft, works_launches hworks⟩
  | panic => exact hidle rfl id

theorem halted {cfg : Settings} {s : State α} {es : List (Event α)}
    (hrun : run (step cfg) start es = some s) : Halted cfg s := by
  refine reached_state_invariant ?_ (fun _ _ _ hs hI h => hI.step hs h) hrun
  intro pre r post hsplit
  exact absurd hsplit.symm (by simp [start])

end WebSpider.Crawler.Workers
