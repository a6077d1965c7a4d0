import Btor.Lib.Run

/-!
# Postconditions of runs

`Run.Post x s Q E` states that `x`, started in `s`, returns with `Q` or stops with `E`. A run that
goes on after another one is reasoned about from the other's postcondition (`Post.bind`), and a run
keeps a part of its state if all of its steps do (`Keeps.bind`).
-/

namespace Lib

namespace Run

variable {σ ε α β τ : Type}

/-- From `s`, the run returns a value and a state in `Q`, or stops in a state in `E`. -/
def Post (x : Run σ ε α) (s : σ) (Q : α → σ → Prop) (E : σ → Prop) : Prop :=
  match x.run s with
  | .returned a s' => Q a s'
  | .stopped _ s' => E s'

section

variable {x : Run σ ε α} {f : α → Run σ ε β} {s : σ} {Q Q' : α → σ → Prop} {R : β → σ → Prop}
  {E E' : σ → Prop}

/-- Of any run it is known that it ends. -/
theorem post_true (x : Run σ ε α) (s : σ) : x.Post s (fun _ _ => True) fun _ => True := by
  unfold Post
  cases x.run s <;> trivial

/-- A value returns at once. -/
theorem post_pure {a : α} (h : Q a s) : (pure a : Run σ ε α).Post s Q E := h

/-- A stop ends the run at once. -/
theorem post_stop {e : ε} (h : E s) : (stop e : Run σ ε α).Post s Q E := h

/-- A run that goes on with `f` where `x` returns. -/
theorem Post.bind (h : x.Post s Q E) (hf : ∀ a s', Q a s' → (f a).Post s' R E) :
    (x >>= f).Post s R E := by
  unfold Post at h ⊢
  rw [run_bind]
  cases hx : x.run s with
  | returned a s' =>
    rw [hx] at h
    exact hf a s' h
  | stopped e s' =>
    rw [hx] at h
    exact h

/-- A postcondition may be weakened. -/
theorem Post.mono (h : x.Post s Q E) (hQ : ∀ a s', Q a s' → Q' a s') (hE : ∀ s', E s' → E' s') :
    x.Post s Q' E' := by
  unfold Post at h ⊢
  cases hx : x.run s with
  | returned a s' =>
    rw [hx] at h
    exact hQ a s' h
  | stopped e s' =>
    rw [hx] at h
    exact hE s' h

/-- Two postconditions hold together. -/
theorem Post.and (h : x.Post s Q E) (h' : x.Post s Q' E') :
    x.Post s (fun a s' => Q a s' ∧ Q' a s') fun s' => E s' ∧ E' s' := by
  unfold Post at *
  cases hx : x.run s with
  | returned a s' =>
    rw [hx] at h h'
    exact ⟨h, h'⟩
  | stopped e s' =>
    rw [hx] at h h'
    exact ⟨h, h'⟩

/-- The postcondition of a run that returned. -/
theorem Post.of_returned (h : x.Post s Q E) {a : α} {s' : σ} (hx : x.run s = .returned a s') :
    Q a s' := by
  rwa [Post, hx] at h

/-- A state predicate that holds however the run ends. -/
theorem Post.state {P : σ → Prop} (h : x.Post s Q E) (hQ : ∀ a s', Q a s' → P s')
    (hE : ∀ s', E s' → P s') : P (x.run s).state := by
  unfold Post at h
  cases hx : x.run s with
  | returned a s' =>
    rw [hx] at h
    exact hQ a s' h
  | stopped e s' =>
    rw [hx] at h
    exact hE s' h

end

/-! ## Runs that return -/

/-- From `s`, the run returns a value and a state in `Q`. -/
def Returns (x : Run σ ε α) (s : σ) (Q : α → σ → Prop) : Prop := x.Post s Q fun _ => False

section

variable {x : Run σ ε α} {f : α → Run σ ε β} {s : σ} {Q Q' : α → σ → Prop} {R : β → σ → Prop}
  {E : σ → Prop}

/-- What a run returns is what it returns with. -/
theorem returns_of_run {a : α} {s' : σ} (hx : x.run s = .returned a s') (hQ : Q a s') :
    x.Returns s Q := by
  unfold Returns Post
  rwa [hx]

/-- A run that returns has a value and a state. -/
theorem Returns.exists (h : x.Returns s Q) : ∃ a s', x.run s = .returned a s' ∧ Q a s' := by
  unfold Returns Post at h
  cases hx : x.run s with
  | returned a s' =>
    rw [hx] at h
    exact ⟨a, s', rfl, h⟩
  | stopped e s' =>
    rw [hx] at h
    exact h.elim

/-- A run that goes on returns if both parts do. -/
theorem Returns.bind (h : x.Returns s Q) (hf : ∀ a s', Q a s' → (f a).Returns s' R) :
    (x >>= f).Returns s R := Post.bind h hf

/-- A run that goes on from a value that is known. -/
theorem Returns.bind_of_returned {a : α} {s' : σ} (hx : x.run s = .returned a s')
    (hf : (f a).Returns s' R) : (x >>= f).Returns s R := by
  unfold Returns Post at *
  rwa [run_bind_of_returned hx]

/-- What it returns with may be weakened. -/
theorem Returns.mono (h : x.Returns s Q) (hQ : ∀ a s', Q a s' → Q' a s') : x.Returns s Q' :=
  Post.mono h hQ fun _ h => h

/-- What is known of a run if it returns is known of one that does. -/
theorem Returns.and (h : x.Returns s Q) (h' : x.Post s Q' E) :
    x.Returns s fun a s' => Q a s' ∧ Q' a s' :=
  (Post.and h h').mono (fun _ _ h => h) fun _ h => h.1

end

/-- However the run ends, the part `part` of the state is as it was. -/
def Keeps (part : σ → τ) (x : Run σ ε α) : Prop := ∀ s, part (x.run s).state = part s

section

variable {part : σ → τ} {x : Run σ ε α} {f : α → Run σ ε β}

/-- A value keeps the state. -/
theorem keeps_pure (a : α) : Keeps part (pure a : Run σ ε α) := fun _ => rfl

/-- So does a stop. -/
theorem keeps_stop (e : ε) : Keeps part (stop e : Run σ ε α) := fun _ => rfl

/-- A run keeps a part of the state if both of its parts do. -/
theorem Keeps.bind (h : Keeps part x) (hf : ∀ a, Keeps part (f a)) : Keeps part (x >>= f) := by
  intro s
  have hs := h s
  rw [run_bind]
  cases hx : x.run s with
  | returned a s' =>
    rw [hx] at hs
    exact (hf a s').trans hs
  | stopped e s' =>
    rw [hx] at hs
    exact hs

/-- A run that keeps a part of the state, as a postcondition. -/
theorem Keeps.post (h : Keeps part x) (s : σ) :
    x.Post s (fun _ s' => part s' = part s) (fun s' => part s' = part s) := by
  have hs := h s
  unfold Post
  cases hx : x.run s with
  | returned a s' => rwa [hx] at hs
  | stopped e s' => rwa [hx] at hs

/-- A run that goes on after one that keeps a part of the state. -/
theorem Keeps.bind_post (h : Keeps part x) {s : σ} {t : τ} (hs : part s = t)
    {R : β → σ → Prop} {E : σ → Prop} (hE : ∀ s', part s' = t → E s')
    (hf : ∀ a s', part s' = t → (f a).Post s' R E) : (x >>= f).Post s R E := by
  subst hs
  exact ((h.post s).mono (fun _ _ hs' => hs') hE).bind hf

end

end Run

end Lib
