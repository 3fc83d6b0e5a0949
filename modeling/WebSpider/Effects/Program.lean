/-!
# Programs that raise, and calls to a server that may fail

A program runs on a state and either returns a value or raises; the state it
leaves survives the exception. `Ends m s Q E` says how the run of `m` from `s`
ends, and the rules below follow the program text: one rule for each
constructor, and one for a loop with an accumulator.

A call to a server ends in an `Outcome`. A failed call may have been executed
all the same (the reply was lost), and of a failed pipeline any part of the
commands may have been executed, so an outcome carries the executed commands.
-/

namespace WebSpider.Effects

/-- A program on states `σ` that returns an `α` or raises an `ε`. -/
def Prog (σ ε α : Type) : Type := σ → Except ε α × σ

variable {σ ε α β : Type}

namespace Prog

protected def pure (a : α) : Prog σ ε α := fun s => (.ok a, s)

protected def bind (m : Prog σ ε α) (f : α → Prog σ ε β) : Prog σ ε β := fun s =>
  match m s with
  | (.ok a, t) => f a t
  | (.error e, t) => (.error e, t)

instance : Monad (Prog σ ε) where
  pure := Prog.pure
  bind := Prog.bind

/-- Raise an exception. -/
def raise (e : ε) : Prog σ ε α := fun s => (.error e, s)

/-- Read the state. -/
def read : Prog σ ε σ := fun s => (.ok s, s)

/-- Change the state; this cannot fail. -/
def update (f : σ → σ) : Prog σ ε Unit := fun s => (.ok (), f s)

/-- A pure computation that may raise. -/
def lift (x : Except ε α) : Prog σ ε α := fun s => (x, s)

/-- Run `m`, and `handler` from the state `m` leaves when it raises. -/
def attempt (m : Prog σ ε α) (handler : ε → Prog σ ε α) : Prog σ ε α := fun s =>
  match m s with
  | (.ok a, t) => (.ok a, t)
  | (.error e, t) => handler e t

end Prog

/-! ## Calls to a server -/

/-- How one call ends: it returns, or it raises after the server has executed
the commands of the call selected by `done`. -/
inductive Outcome where
  | returns
  | raises (done : Nat → Bool)

namespace Outcome

/-- The server executed the single command of the call. -/
def executed : Outcome → Bool
  | .returns => true
  | .raises done => done 0

/-- The call raised and the server executed nothing. -/
def lost : Outcome := .raises fun _ => false

end Outcome

/-- A call of one command, which computes an answer and changes the state. -/
def call (e : ε) (o : Outcome) (f : σ → α × σ) : Prog σ ε α := fun s =>
  match o with
  | .returns => (.ok (f s).1, (f s).2)
  | .raises done => (.error e, if done 0 then (f s).2 else s)

/-- A call that reads the state of the server. -/
def query (e : ε) (o : Outcome) (f : σ → α) : Prog σ ε α := call e o fun s => (f s, s)

/-- Execute commands one after the other. -/
def execAll (cmds : List (σ → σ)) (s : σ) : σ := cmds.foldl (fun t c => c t) s

/-- The commands of a failed pipeline that the server executed. -/
def executedOf (done : Nat → Bool) (cmds : List (σ → σ)) : List (σ → σ) :=
  (cmds.zipIdx.filter fun c => done c.2).map Prod.fst

/-- A call of several commands outside a transaction. -/
def pipeline (e : ε) (o : Outcome) (cmds : List (σ → σ)) : Prog σ ε Unit := fun s =>
  match o with
  | .returns => (.ok (), execAll cmds s)
  | .raises done => (.error e, execAll (executedOf done cmds) s)

theorem mem_of_mem_executedOf {done : Nat → Bool} {cmds : List (σ → σ)} {c : σ → σ}
    (h : c ∈ executedOf done cmds) : c ∈ cmds := by
  obtain ⟨⟨c', i⟩, hmem, rfl⟩ := List.mem_map.mp h
  exact List.fst_mem_of_mem_zipIdx (List.mem_filter.mp hmem).1

theorem execAll_invariant {I : σ → Prop} {cmds : List (σ → σ)}
    (hcmd : ∀ c ∈ cmds, ∀ t, I t → I (c t)) {s : σ} (hs : I s) : I (execAll cmds s) := by
  induction cmds generalizing s with
  | nil => exact hs
  | cons c cs ih =>
    exact ih (fun c' hc' => hcmd c' (List.mem_cons_of_mem _ hc'))
      (hcmd c List.mem_cons_self s hs)

/-! ## How a run ends -/

/-- The run of `m` from `s` returns in `Q` or raises in `E`. -/
def Ends (m : Prog σ ε α) (s : σ) (Q : α → σ → Prop) (E : ε → σ → Prop) : Prop :=
  match m s with
  | (.ok a, t) => Q a t
  | (.error e, t) => E e t

section Rules

variable {Q Q' : α → σ → Prop} {R : β → σ → Prop} {E E' : ε → σ → Prop} {s : σ}

theorem ends_pure {a : α} (h : Q a s) : Ends (pure a) s Q E := h

theorem ends_read {Q : σ → σ → Prop} (h : Q s s) : Ends Prog.read s Q E := h

theorem ends_update {Q : Unit → σ → Prop} {f : σ → σ} (h : Q () (f s)) :
    Ends (Prog.update f) s Q E := h

theorem ends_lift {x : Except ε α} (hok : ∀ a, x = .ok a → Q a s)
    (herr : ∀ e, x = .error e → E e s) : Ends (Prog.lift x) s Q E := by
  cases x with
  | ok a => exact hok a rfl
  | error e => exact herr e rfl

theorem ends_bind {m : Prog σ ε α} {f : α → Prog σ ε β}
    (h : Ends m s (fun a t => Ends (f a) t R E) E) : Ends (m >>= f) s R E := by
  change Ends (Prog.bind m f) s R E
  unfold Ends Prog.bind at *
  cases hm : m s with
  | mk r t =>
    rw [hm] at h
    cases r with
    | ok a => exact h
    | error e => exact h

theorem ends_mono {m : Prog σ ε α} (h : Ends m s Q E) (hQ : ∀ a t, Q a t → Q' a t)
    (hE : ∀ e t, E e t → E' e t) : Ends m s Q' E' := by
  unfold Ends at *
  cases hm : m s with
  | mk r t =>
    rw [hm] at h
    cases r with
    | ok a => exact hQ a t h
    | error e => exact hE e t h

theorem ends_and {m : Prog σ ε α} (h : Ends m s Q E) (h' : Ends m s Q' E') :
    Ends m s (fun a t => Q a t ∧ Q' a t) (fun e t => E e t ∧ E' e t) := by
  unfold Ends at *
  cases hm : m s with
  | mk r t =>
    rw [hm] at h h'
    cases r with
    | ok a => exact ⟨h, h'⟩
    | error e => exact ⟨h, h'⟩

theorem ends_attempt {m : Prog σ ε α} {handler : ε → Prog σ ε α}
    (h : Ends m s Q (fun e t => Ends (handler e) t Q E)) :
    Ends (Prog.attempt m handler) s Q E := by
  unfold Ends Prog.attempt at *
  cases hm : m s with
  | mk r t =>
    rw [hm] at h
    cases r with
    | ok a => exact h
    | error e => exact h

theorem ends_call {e : ε} {o : Outcome} {f : σ → α × σ} (hok : o = .returns → Q (f s).1 (f s).2)
    (hexec : ∀ done, o = .raises done → done 0 = true → E e (f s).2)
    (hlost : ∀ done, o = .raises done → done 0 = false → E e s) : Ends (call e o f) s Q E := by
  cases o with
  | returns => exact hok rfl
  | raises done =>
    cases hd : done 0 with
    | true => simpa [Ends, call, hd] using hexec done rfl hd
    | false => simpa [Ends, call, hd] using hlost done rfl hd

theorem ends_call_returns {e : ε} {f : σ → α × σ} (h : Q (f s).1 (f s).2) :
    Ends (call e .returns f) s Q E := h

theorem ends_query {e : ε} {o : Outcome} {f : σ → α} (hok : o = .returns → Q (f s) s)
    (herr : o ≠ .returns → E e s) : Ends (query e o f) s Q E :=
  ends_call hok (fun _ ho _ => herr (by rw [ho]; exact Outcome.noConfusion))
    (fun _ ho _ => herr (by rw [ho]; exact Outcome.noConfusion))

theorem ends_pipeline {Q : Unit → σ → Prop} {I : σ → Prop} {e : ε} {o : Outcome}
    {cmds : List (σ → σ)} (hcmd : ∀ c ∈ cmds, ∀ t, I t → I (c t)) (hs : I s)
    (hok : o = .returns → I (execAll cmds s) → Q () (execAll cmds s))
    (herr : ∀ t, o ≠ .returns → I t → E e t) : Ends (pipeline e o cmds) s Q E := by
  cases o with
  | returns => exact hok rfl (execAll_invariant hcmd hs)
  | raises done =>
    exact herr _ Outcome.noConfusion (execAll_invariant
      (fun c hc => hcmd c (mem_of_mem_executedOf hc)) hs)

/-- A loop with an accumulator: `I done acc t` holds when the items `done` have
been processed. -/
theorem ends_foldlM {γ : Type} {xs : List γ} {f : β → γ → Prog σ ε β} {init : β}
    (I : List γ → β → σ → Prop) (h0 : I [] init s)
    (hstep : ∀ done x rest acc t, xs = done ++ x :: rest → I done acc t →
      Ends (f acc x) t (fun acc' t' => I (done ++ [x]) acc' t') E) :
    Ends (xs.foldlM f init) s (fun acc t => I xs acc t) E := by
  suffices haux : ∀ rest done acc t, xs = done ++ rest → I done acc t →
      Ends (rest.foldlM f acc) t (fun acc t => I xs acc t) E from haux xs [] init s rfl h0
  intro rest
  induction rest with
  | nil =>
    intro done acc t hxs hI
    rw [List.append_nil] at hxs
    rw [List.foldlM_nil]
    exact ends_pure (hxs ▸ hI)
  | cons x rest ih =>
    intro done acc t hxs hI
    rw [List.foldlM_cons]
    refine ends_bind (ends_mono (hstep done x rest acc t hxs hI) ?_ fun _ _ he => he)
    intro acc' t' hI'
    exact ih (done ++ [x]) acc' t' (by rw [hxs, List.append_assoc]; rfl) hI'

end Rules

/-! ## The turns of a loop -/

/-- The turns of a loop over a list: `R t acc x acc' t'` describes one turn. -/
inductive Turns {γ : Type} (R : σ → β → γ → β → σ → Prop) : σ → β → List γ → β → σ → Prop
  | nil (s : σ) (acc : β) : Turns R s acc [] acc s
  | cons {s t u : σ} {acc acc' acc'' : β} {x : γ} {xs : List γ} (hturn : R s acc x acc' t)
      (hrest : Turns R t acc' xs acc'' u) : Turns R s acc (x :: xs) acc'' u

section Turns

variable {γ : Type} {R : σ → β → γ → β → σ → Prop}

theorem Turns.snoc {s t u : σ} {acc acc' acc'' : β} {xs : List γ} {x : γ}
    (h : Turns R s acc xs acc' t) (hturn : R t acc' x acc'' u) :
    Turns R s acc (xs ++ [x]) acc'' u := by
  induction h with
  | nil s acc => exact .cons hturn (.nil u acc'')
  | cons hfirst _ ih => exact .cons hfirst (ih hturn)

/-- What every turn preserves holds after the loop. -/
theorem Turns.invariant {I : List γ → β → σ → Prop} {s t : σ} {init acc : β} {xs : List γ}
    (h : Turns R s init xs acc t) (h0 : I [] init s)
    (hturn : ∀ done x acc t acc' t', x ∈ xs → I done acc t → R t acc x acc' t' →
      I (done ++ [x]) acc' t') : I xs acc t := by
  suffices haux : ∀ done, I done init s → I (done ++ xs) acc t from haux [] h0
  clear h0
  induction h with
  | nil s acc =>
    intro done hdone
    rwa [List.append_nil]
  | @cons s t u acc acc' acc'' x xs hfirst _ ih =>
    intro done hdone
    have hnext := hturn done x acc s acc' t List.mem_cons_self hdone hfirst
    have hrest := ih (fun done y acc t acc' t' hy => hturn done y acc t acc' t'
      (List.mem_cons_of_mem _ hy)) (done ++ [x]) hnext
    rwa [List.append_assoc] at hrest

/-- A loop ends after all its turns, or raises in one of them. -/
theorem ends_turns {xs : List γ} {f : β → γ → Prog σ ε β} {init : β} {s : σ}
    {X : σ → γ → ε → σ → Prop}
    (hturn : ∀ x ∈ xs, ∀ acc t, Ends (f acc x) t (fun acc' t' => R t acc x acc' t')
      (fun e t' => X t x e t')) :
    Ends (xs.foldlM f init) s (fun acc t => Turns R s init xs acc t)
      (fun e t => ∃ done x rest acc u, xs = done ++ x :: rest ∧ Turns R s init done acc u ∧
        X u x e t) := by
  apply ends_foldlM (fun done acc t => Turns R s init done acc t) (.nil s init)
  intro done x rest acc t hxs hdone
  have hx : x ∈ xs := by
    rw [hxs]
    exact List.mem_append_right _ List.mem_cons_self
  exact ends_mono (hturn x hx acc t) (fun _ _ h => hdone.snoc h)
    fun _ _ h => ⟨done, x, rest, acc, t, hxs, hdone, h⟩

end Turns

/-! ## Runs that return -/

/-- The run of `m` from `s` returns `a` in the state `t`. -/
def Returns (m : Prog σ ε α) (s : σ) (a : α) (t : σ) : Prop := m s = (.ok a, t)

theorem Ends.of_returns {m : Prog σ ε α} {s t : σ} {a : α} {Q : α → σ → Prop}
    {E : ε → σ → Prop} (h : Ends m s Q E) (hr : Returns m s a t) : Q a t := by
  unfold Ends at h
  rw [hr] at h
  exact h

theorem Returns.of_bind {m : Prog σ ε α} {f : α → Prog σ ε β} {s u : σ} {b : β}
    (h : Returns (m >>= f) s b u) : ∃ a t, Returns m s a t ∧ Returns (f a) t b u := by
  change Prog.bind m f s = (.ok b, u) at h
  unfold Prog.bind at h
  cases hm : m s with
  | mk r t =>
    rw [hm] at h
    cases r with
    | ok a => exact ⟨a, t, hm, h⟩
    | error e => cases h

/-- A run that cannot raise returns. -/
theorem Ends.returns {m : Prog σ ε α} {s : σ} {Q : α → σ → Prop}
    (h : Ends m s Q fun _ _ => False) : ∃ a t, Returns m s a t ∧ Q a t := by
  unfold Ends at h
  cases hm : m s with
  | mk r t =>
    rw [hm] at h
    cases r with
    | ok a => exact ⟨a, t, hm, h⟩
    | error e => exact h.elim

/-- The state a run leaves, whether it returned or raised. -/
def after (m : Prog σ ε α) (s : σ) : σ := (m s).2

theorem Ends.after {m : Prog σ ε α} {s : σ} {Q : α → σ → Prop} {E : ε → σ → Prop} {I : σ → Prop}
    (h : Ends m s Q E) (hQ : ∀ a t, Q a t → I t) (hE : ∀ e t, E e t → I t) :
    I (after m s) := by
  unfold Ends at h
  unfold Effects.after
  cases hm : m s with
  | mk r t =>
    rw [hm] at h
    cases r with
    | ok a => exact hQ a t h
    | error e => exact hE e t h

end WebSpider.Effects
