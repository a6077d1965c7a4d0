import Mathlib

/-!
# Runs that keep their state when they stop

A stateful computation that ends by returning a value or by stopping early, for a reason of a type
`ε`. Unlike an `Except` layered under a state, the state that a run had reached when it stopped is
part of its outcome, as the fields of an object outlive an exception thrown by one of its methods.
-/

namespace Lib

/-- How a run ends: it returns a value, or it stops for a reason; the state it reached is kept. -/
inductive Outcome (σ ε α : Type) where
  | returned (a : α) (s : σ)
  | stopped (e : ε) (s : σ)

/-- A computation on states `σ` with values `α` that may stop for a reason in `ε`. -/
structure Run (σ ε α : Type) where
  /-- The outcome from a state. -/
  run : σ → Outcome σ ε α

namespace Outcome

variable {σ ε α β : Type}

/-- Goes on with `f` where the run returned, from the state it reached. -/
def andThen (o : Outcome σ ε α) (f : α → Run σ ε β) : Outcome σ ε β :=
  match o with
  | returned a s => (f a).run s
  | stopped e s => stopped e s

/-- The state that a run reached. -/
def state : Outcome σ ε α → σ
  | returned _ s => s
  | stopped _ s => s

/-- The state that a run returns in. -/
@[simp] theorem state_returned (a : α) (s : σ) : (returned a s : Outcome σ ε α).state = s := rfl

/-- The state that a run stops in. -/
@[simp] theorem state_stopped (e : ε) (s : σ) : (stopped e s : Outcome σ ε α).state = s := rfl

/-- What returned goes on. -/
@[simp] theorem andThen_returned (a : α) (s : σ) (f : α → Run σ ε β) :
    (returned a s).andThen f = (f a).run s := rfl

/-- What stopped does not. -/
@[simp] theorem andThen_stopped (e : ε) (s : σ) (f : α → Run σ ε β) :
    (stopped e s).andThen f = stopped e s := rfl

end Outcome

namespace Run

variable {σ ε α β : Type}

/-- The run that stops at once. -/
def stop (e : ε) : Run σ ε α := ⟨fun s => .stopped e s⟩

/-- Runs go on with what the one before returned. -/
instance : Monad (Run σ ε) where
  pure a := ⟨fun s => .returned a s⟩
  bind x f := ⟨fun s => (x.run s).andThen f⟩

/-- A stop ends the run where it is. -/
@[simp] theorem run_stop (e : ε) (s : σ) : (stop e : Run σ ε α).run s = .stopped e s := rfl

/-- A value leaves the state as it is. -/
@[simp] theorem run_pure (a : α) (s : σ) : (pure a : Run σ ε α).run s = .returned a s := rfl

/-- The second part runs on what the first one returned. -/
@[simp] theorem run_bind (x : Run σ ε α) (f : α → Run σ ε β) (s : σ) :
    (x >>= f).run s = (x.run s).andThen f := rfl

/-- A run goes on after a part that returned. -/
theorem run_bind_of_returned {x : Run σ ε α} {f : α → Run σ ε β} {a : α} {s s' : σ}
    (h : x.run s = .returned a s') : (x >>= f).run s = (f a).run s' := by
  rw [run_bind, h, Outcome.andThen_returned]

/-- A run that returned did so after its parts. -/
theorem returned_of_bind {x : Run σ ε α} {f : α → Run σ ε β} {b : β} {s s' : σ}
    (h : (x >>= f).run s = .returned b s') :
    ∃ a s₁, x.run s = .returned a s₁ ∧ (f a).run s₁ = .returned b s' := by
  rw [run_bind] at h
  cases hx : x.run s with
  | returned a s₁ =>
    rw [hx] at h
    exact ⟨a, s₁, rfl, h⟩
  | stopped e s₁ =>
    rw [hx] at h
    cases h

/-- A run by cases is the run of the case. -/
theorem run_ite (c : Prop) [Decidable c] (x y : Run σ ε α) (s : σ) :
    (if c then x else y).run s = if c then x.run s else y.run s := by
  split_ifs <;> rfl

/-- Going on with a composition is going on twice. -/
theorem andThen_bind {γ : Type} (o : Outcome σ ε α) (f : α → Run σ ε β) (g : β → Run σ ε γ) :
    (o.andThen fun a => f a >>= g) = (o.andThen f).andThen g := by
  cases o <;> rfl

/-- Runs one after the other, grouped to either side. -/
theorem bind_assoc {γ : Type} (x : Run σ ε α) (f : α → Run σ ε β) (g : β → Run σ ε γ) :
    x >>= f >>= g = x >>= fun a => f a >>= g :=
  congrArg mk (funext fun s => (andThen_bind (x.run s) f g).symm)

end Run

end Lib
