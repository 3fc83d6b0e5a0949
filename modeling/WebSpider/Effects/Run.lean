/-!
# Runs of a step function

A system is a partial step function on states and events. A run is a list of
events, and a state is reached when the events up to it are all enabled. The
induction over runs is done once here: a property which holds initially and is
preserved by every step meeting a condition holds wherever a run whose steps
meet the condition leads. So is the induction that matches the runs of one system
by the runs of another (`run_simulates`). A system whose runs are bounded in length
comes to a state where no event is enabled (`exists_stuck`).
-/

namespace WebSpider.Effects

variable {σ ι : Type}

/-- The state after the events, when each of them is enabled. -/
def run (step : σ → ι → Option σ) (s : σ) (es : List ι) : Option σ := es.foldlM step s

/-- Every step of the run from `s` meets the condition `K`. -/
def Along (step : σ → ι → Option σ) (K : σ → ι → Prop) : σ → List ι → Prop
  | _, [] => True
  | s, e :: es => K s e ∧ ∀ t, step s e = some t → Along step K t es

variable {step : σ → ι → Option σ} {K : σ → ι → Prop}

@[simp] theorem run_nil (s : σ) : run step s [] = some s := rfl

theorem run_cons (s : σ) (e : ι) (es : List ι) :
    run step s (e :: es) = (step s e).bind fun t => run step t es := rfl

theorem run_append (s : σ) (es fs : List ι) :
    run step s (es ++ fs) = (run step s es).bind fun t => run step t fs := by
  induction es generalizing s with
  | nil => rfl
  | cons e es ih =>
    rw [List.cons_append, run_cons, run_cons]
    cases step s e with
    | none => rfl
    | some t => exact ih t

theorem along_true (step : σ → ι → Option σ) (s : σ) (es : List ι) :
    Along step (fun _ _ => True) s es := by
  induction es generalizing s with
  | nil => trivial
  | cons e es ih => exact ⟨trivial, fun t _ => ih t⟩

/-- A condition on the events alone. -/
theorem along_of_mem {L : ι → Prop} {es : List ι} (h : ∀ e ∈ es, L e) {s : σ} :
    Along step (fun _ e => L e) s es := by
  induction es generalizing s with
  | nil => trivial
  | cons e es ih =>
    exact ⟨h e List.mem_cons_self, fun t _ => ih fun f hf => h f (List.mem_cons_of_mem _ hf)⟩

theorem along_cons_none {s : σ} {e : ι} {es : List ι} (h : step s e = none) :
    Along step K s (e :: es) ↔ K s e := by
  refine ⟨And.left, fun hK => ⟨hK, fun t ht => ?_⟩⟩
  rw [h] at ht
  cases ht

theorem along_cons_some {s t : σ} {e : ι} {es : List ι} (h : step s e = some t) :
    Along step K s (e :: es) ↔ K s e ∧ Along step K t es := by
  refine and_congr Iff.rfl ⟨fun hall => hall t h, fun hrest u hu => ?_⟩
  obtain rfl : t = u := Option.some.inj (h.symm.trans hu)
  exact hrest

/-- A condition that can be decided of a step can be decided of a run. -/
instance decidableAlong [∀ s e, Decidable (K s e)] : ∀ s es, Decidable (Along step K s es)
  | _, [] => isTrue trivial
  | s, e :: es =>
    match h : step s e with
    | none => decidable_of_iff' _ (along_cons_none h)
    | some t =>
      have := decidableAlong t es
      decidable_of_iff' _ (along_cons_some h)

/-- An invariant of the steps that meet the condition is an invariant of the
runs all of whose steps meet it. -/
theorem run_invariant {I : σ → Prop}
    (hstep : ∀ s e t, I s → K s e → step s e = some t → I t) {s t : σ} {es : List ι}
    (hs : I s) (hK : Along step K s es) (hrun : run step s es = some t) : I t := by
  induction es generalizing s with
  | nil =>
    cases hrun
    exact hs
  | cons e es ih =>
    rw [run_cons] at hrun
    cases he : step s e with
    | none =>
      rw [he] at hrun
      cases hrun
    | some u =>
      rw [he] at hrun
      exact ih (hstep s e u hs hK.1 he) (hK.2 u he) hrun

/-- An invariant of the events so far and the state they lead to, when every step meets the
condition. -/
theorem run_history_along {I : List ι → σ → Prop}
    (hstep : ∀ es s e t, I es s → K s e → step s e = some t → I (es ++ [e]) t) {s t : σ}
    {es : List ι} (hs : I [] s) (hK : Along step K s es) (hrun : run step s es = some t) :
    I es t := by
  suffices haux : ∀ ds s, I ds s → Along step K s es → run step s es = some t → I (ds ++ es) t from
    haux [] s hs hK hrun
  clear hs hK hrun
  induction es with
  | nil =>
    intro ds s hs _ hrun
    cases hrun
    rwa [List.append_nil]
  | cons e es ih =>
    intro ds s hs hK hrun
    rw [run_cons] at hrun
    obtain ⟨u, hu, hrun⟩ := Option.bind_eq_some_iff.mp hrun
    have hrest := ih (ds ++ [e]) u (hstep ds s e u hs hK.1 hu) (hK.2 u hu) hrun
    rwa [List.append_assoc] at hrest

/-- An invariant of the events so far and the state they lead to. -/
theorem run_history {I : List ι → σ → Prop}
    (hstep : ∀ es s e t, I es s → step s e = some t → I (es ++ [e]) t) {s t : σ} {es : List ι}
    (hs : I [] s) (hrun : run step s es = some t) : I es t :=
  run_history_along (fun ds s e t h _ => hstep ds s e t h) hs (along_true step s es) hrun

theorem run_snoc {s t u : σ} {es : List ι} {e : ι} (hrun : run step s es = some t)
    (h : step t e = some u) : run step s (es ++ [e]) = some u := by
  rw [run_append, hrun]
  exact (run_cons t e []).trans (by rw [h]; rfl)

/-- An invariant whose step may use what holds of the states reached. -/
theorem reached_invariant {I : σ → Prop} {s t : σ} {es : List ι}
    (hstep : ∀ es u e v, run step s es = some u → I u → step u e = some v → I v) (hs : I s)
    (hrun : run step s es = some t) : I t := by
  have hboth := run_history (I := fun es u => run step s es = some u ∧ I u)
    (fun es u e v hu h => ⟨run_snoc hu.1 h, hstep es u e v hu.1 hu.2 h⟩) ⟨rfl, hs⟩ hrun
  exact hboth.2

/-- Where the runs are bounded in length, one of them cannot go on. -/
theorem exists_stuck {s : σ} {n : Nat} (hbound : ∀ es t, run step s es = some t → es.length ≤ n) :
    ∃ es t, run step s es = some t ∧ ∀ e, step t e = none := by
  apply Classical.byContradiction
  intro hnone
  have hlong (m : Nat) : ∃ es t, run step s es = some t ∧ es.length = m := by
    induction m with
    | zero => exact ⟨[], s, rfl, rfl⟩
    | succ m ih =>
      obtain ⟨es, t, hrun, hlength⟩ := ih
      obtain ⟨e, he⟩ := Classical.not_forall.mp fun h => hnone ⟨es, t, hrun, h⟩
      obtain ⟨u, hu⟩ := Option.ne_none_iff_exists'.mp he
      exact ⟨es ++ [e], u, run_snoc hrun hu, by rw [List.length_append, hlength]; rfl⟩
  obtain ⟨es, t, hrun, hlength⟩ := hlong (n + 1)
  exact absurd (hbound es t hrun) (by omega)

/-- Two conditions that agree on the states of an invariant agree along a run. -/
theorem along_congr {J : σ → Prop} {L : σ → ι → Prop}
    (hJ : ∀ s e t, J s → step s e = some t → J t) (hiff : ∀ s e, J s → (K s e ↔ L s e)) {s : σ}
    (hs : J s) (es : List ι) : Along step K s es ↔ Along step L s es := by
  induction es generalizing s with
  | nil => exact Iff.rfl
  | cons e es ih =>
    exact and_congr (hiff s e hs) (forall_congr' fun t => forall_congr' fun ht => ih (hJ s e t hs ht))

/-- A property of each step and the state it leads to, which holds exactly when the
step meets the condition, holds all along a run exactly when the condition does.
`J` is kept by the steps that meet the condition. -/
theorem along_iff {J : σ → Prop} {P : ι → σ → Prop}
    (hJ : ∀ s e t, J s → K s e → step s e = some t → J t)
    (hiff : ∀ s e t, J s → step s e = some t → (P e t ↔ K s e))
    (hnone : ∀ s e, step s e = none → K s e) {s : σ} (hs : J s) (es : List ι) :
    (∀ bs e cs t, es = bs ++ e :: cs → run step s (bs ++ [e]) = some t → P e t) ↔
      Along step K s es := by
  induction es generalizing s with
  | nil =>
    refine ⟨fun _ => trivial, fun _ bs e cs t hes => ?_⟩
    simp at hes
  | cons e es ih =>
    constructor
    · intro h
      have hK : K s e := by
        cases ht : step s e with
        | none => exact hnone s e ht
        | some t =>
          refine (hiff s e t hs ht).mp (h [] e es t rfl ?_)
          rw [List.nil_append, run_cons, ht]
          rfl
      refine ⟨hK, fun t ht => (ih (hJ s e t hs hK ht)).mp fun bs e' cs u hes hrun => ?_⟩
      apply h (e :: bs) e' cs u (by rw [hes, List.cons_append])
      rw [List.cons_append, run_cons, ht]
      exact hrun
    · rintro ⟨hK, halong⟩ bs e' cs u hes hrun
      cases bs with
      | nil =>
        obtain ⟨rfl, rfl⟩ := List.cons.inj hes
        rw [List.nil_append, run_cons] at hrun
        obtain ⟨t, ht, hrun⟩ := Option.bind_eq_some_iff.mp hrun
        cases hrun
        exact (hiff s e u hs ht).mpr hK
      | cons b bs =>
        obtain ⟨rfl, rfl⟩ := List.cons.inj hes
        rw [List.cons_append, run_cons] at hrun
        obtain ⟨t, ht, hrun⟩ := Option.bind_eq_some_iff.mp hrun
        exact (ih (hJ s e t hs hK ht)).mpr (halong t ht) bs e' cs u rfl hrun

/-- Forward simulation: where each step is matched by a run from every related state,
so is each run. -/
theorem run_simulates {τ κ : Type} {step' : τ → κ → Option τ} {R : σ → τ → Prop}
    (hstep : ∀ s t e s', R s t → step s e = some s' → ∃ fs t', run step' t fs = some t' ∧ R s' t')
    {s s' : σ} {t : τ} {es : List ι} (hs : R s t) (hrun : run step s es = some s') :
    ∃ fs t', run step' t fs = some t' ∧ R s' t' := by
  induction es generalizing s t with
  | nil =>
    cases hrun
    exact ⟨[], t, rfl, hs⟩
  | cons e es ih =>
    rw [run_cons] at hrun
    obtain ⟨u, hu, hrun⟩ := Option.bind_eq_some_iff.mp hrun
    obtain ⟨fs, v, hfs, hv⟩ := hstep s t e u hs hu
    obtain ⟨gs, t', hgs, ht'⟩ := ih hv hrun
    refine ⟨fs ++ gs, t', ?_, ht'⟩
    rw [run_append, hfs]
    exact hgs

end WebSpider.Effects
