/-!
# Processes that are resumed call by call

A process returns, raises, or makes a call and goes on with what the call answers. So
several of them can run on one state in any order of their calls. What a process does
on its own is said by `Meets`: each call meets a guard, and as long as the answers are
allowed, the process ends in the postcondition. A ghost value follows the calls, so the
guard and the postcondition may speak of those made before. The rules follow the
program text.
-/

namespace WebSpider.Effects

/-- A process with calls `ι`, whose answers have the types `ρ`, that returns an `α` or
raises an `ε`. -/
inductive Process (ι : Type) (ρ : ι → Type) (ε α : Type) : Type
  | ends (result : Except ε α)
  | calls (i : ι) (resume : Except ε (ρ i) → Process ι ρ ε α)

variable {ι : Type} {ρ : ι → Type} {ε α β γ : Type}

namespace Process

protected def bind (f : α → Process ι ρ ε β) : Process ι ρ ε α → Process ι ρ ε β
  | .ends (.ok a) => f a
  | .ends (.error e) => .ends (.error e)
  | .calls i resume => .calls i fun r => (resume r).bind f

instance : Monad (Process ι ρ ε) where
  pure a := .ends (.ok a)
  bind m f := m.bind f

/-- Make a call. -/
def perform (i : ι) : Process ι ρ ε (ρ i) := .calls i .ends

/-- A pure computation that may raise. -/
def lift (x : Except ε α) : Process ι ρ ε α := .ends x

/-- The result of a process, whether it returns or raises. -/
def attempt : Process ι ρ ε α → Process ι ρ ε (Except ε α)
  | .ends r => .ends (.ok r)
  | .calls i resume => .calls i fun r => (resume r).attempt

end Process

/-- How the calls change the ghost value, when a call may be made, and what it may
answer. -/
structure Contract (γ ι : Type) (ρ : ι → Type) (ε : Type) where
  next : γ → ι → γ
  guard : γ → ι → Prop
  answers : (i : ι) → Except ε (ρ i) → Prop

/-- Each call of the process meets the guard, and where the answers are allowed, the
process ends in `Q`. -/
def Meets (c : Contract γ ι ρ ε) (Q : γ → Except ε α → Prop) : γ → Process ι ρ ε α → Prop
  | g, .ends r => Q g r
  | g, .calls i resume => c.guard g i ∧ ∀ r, c.answers i r → Meets c Q (c.next g i) (resume r)

/-- What the first part of a process must establish: its value is handed on to `f`, and
an exception ends the process. -/
def Onward (c : Contract γ ι ρ ε) (Q : γ → Except ε β → Prop) (f : α → Process ι ρ ε β) (g : γ) :
    Except ε α → Prop
  | .ok a => Meets c Q g (f a)
  | .error e => Q g (.error e)

section Rules

variable {c : Contract γ ι ρ ε} {Q : γ → Except ε α → Prop} {g : γ}

theorem meets_pure {a : α} (h : Q g (.ok a)) : Meets c Q g (pure a) := h

theorem meets_lift {x : Except ε α} (h : Q g x) : Meets c Q g (.lift x) := h

theorem meets_perform {i : ι} {Q : γ → Except ε (ρ i) → Prop} (hguard : c.guard g i)
    (h : ∀ r, c.answers i r → Q (c.next g i) r) : Meets c Q g (.perform i) := ⟨hguard, h⟩

theorem meets_bind {m : Process ι ρ ε α} {f : α → Process ι ρ ε β}
    {Q : γ → Except ε β → Prop} (hm : Meets c (Onward c Q f) g m) : Meets c Q g (m >>= f) := by
  change Meets c Q g (m.bind f)
  induction m generalizing g with
  | ends r =>
    cases r with
    | ok a => exact hm
    | error e => exact hm
  | calls i resume ih => exact ⟨hm.1, fun r hr => ih r (hm.2 r hr)⟩

theorem meets_attempt {m : Process ι ρ ε α} {Q : γ → Except ε (Except ε α) → Prop}
    (hm : Meets c (fun g r => Q g (.ok r)) g m) : Meets c Q g m.attempt := by
  induction m generalizing g with
  | ends r => exact hm
  | calls i resume ih => exact ⟨hm.1, fun r hr => ih r (hm.2 r hr)⟩

end Rules

end WebSpider.Effects
