import Btor.Lib.Post

/-!
# Runs that append to a log

A part of the state is a list that a run only appends to, as a trace of what it did. `Run.Emits`
states what a run appends, with the value that it returns, or until it stops. A run that goes on
after another one appends what it appends behind what the other did (`Emits.bind`), so that the log
of a whole run is put together from those of its parts. `Run.Follows` is the case of a run that
appends a given list, or a part of it where it stops.
-/

namespace Lib

namespace Run

variable {σ ε α β ω : Type}

/-- From `s`, the run appends a list to the log: it returns a value with the list in `Q`, or stops
with the list in `E`. -/
def Emits (log : σ → List ω) (x : Run σ ε α) (s : σ) (Q : α → List ω → Prop)
    (E : List ω → Prop) : Prop :=
  x.Post s (fun a s' => ∃ l, log s' = log s ++ l ∧ Q a l) fun s' => ∃ l, log s' = log s ++ l ∧ E l

section

variable {log : σ → List ω} {x : Run σ ε α} {f : α → Run σ ε β} {s s' : σ}
  {Q Q' : α → List ω → Prop} {R : β → List ω → Prop} {E E' : List ω → Prop}

/-- A value appends nothing. -/
theorem emits_pure {a : α} (h : Q a []) : Emits log (pure a : Run σ ε α) s Q E :=
  post_pure ⟨[], (List.append_nil _).symm, h⟩

/-- A stop appends nothing. -/
theorem emits_stop {e : ε} (h : E []) : Emits log (stop e : Run σ ε α) s Q E :=
  post_stop ⟨[], (List.append_nil _).symm, h⟩

/-- A run that goes on with `f` where `x` returns. -/
theorem Emits.bind (h : Emits log x s Q E)
    (hf : ∀ a l s', Q a l → Emits log (f a) s' (fun b l' => R b (l ++ l')) fun l' => E (l ++ l')) :
    Emits log (x >>= f) s R E := by
  refine Post.bind h fun a s₁ hs₁ => ?_
  obtain ⟨l, hlog, hQ⟩ := hs₁
  have happend {s₂ : σ} {l' : List ω} (h : log s₂ = log s₁ ++ l') :
      log s₂ = log s ++ (l ++ l') := by
    rw [h, hlog, List.append_assoc]
  refine (hf a l s₁ hQ).mono (fun b s₂ hs₂ => ?_) fun s₂ hs₂ => ?_
  · obtain ⟨l', hl', hR⟩ := hs₂
    exact ⟨l ++ l', happend hl', hR⟩
  · obtain ⟨l', hl', hE⟩ := hs₂
    exact ⟨l ++ l', happend hl', hE⟩

/-- What is known of the list may be weakened. -/
theorem Emits.mono (h : Emits log x s Q E) (hQ : ∀ a l, Q a l → Q' a l) (hE : ∀ l, E l → E' l) :
    Emits log x s Q' E' := by
  refine Post.mono h (fun a s' hs' => ?_) fun s' hs' => ?_
  · obtain ⟨l, hl, hl'⟩ := hs'
    exact ⟨l, hl, hQ a l hl'⟩
  · obtain ⟨l, hl, hl'⟩ := hs'
    exact ⟨l, hl, hE l hl'⟩

/-- A run that leaves the log as it is. -/
theorem Keeps.emits (h : Keeps log x) (s : σ) : Emits log x s (fun _ l => l = []) (· = []) := by
  refine (h.post s).mono (fun a s' hs' => ?_) fun s' hs' => ?_
  · exact ⟨[], by rw [hs', List.append_nil], rfl⟩
  · exact ⟨[], by rw [hs', List.append_nil], rfl⟩

/-- A run that goes on after one that leaves the log as it is. -/
theorem Keeps.bind_emits (h : Keeps log x) (hE : E []) (hf : ∀ a s', Emits log (f a) s' R E) :
    Emits log (x >>= f) s R E := by
  refine ((h.emits s).mono (fun _ _ hl => hl) fun l hl => ?_).bind fun a l s' hl => ?_
  · rw [hl]
    exact hE
  · rw [hl]
    exact hf a s'

/-- What a run that returned has appended. -/
theorem Emits.of_returned (h : Emits log x s Q E) {a : α} (hx : x.run s = .returned a s') :
    ∃ l, log s' = log s ++ l ∧ Q a l := Post.of_returned h hx

end

/-! ## Runs that follow a list -/

/-- From `s`, the run appends `L` if it returns, and a prefix of `L` if it stops. -/
def Follows (log : σ → List ω) (x : Run σ ε α) (s : σ) (L : List ω) : Prop :=
  Emits log x s (fun _ l => l = L) (· <+: L)

section

variable {log : σ → List ω} {x : Run σ ε α} {f : α → Run σ ε β} {s : σ} {L L' : List ω}

/-- A run that leaves the log as it is follows the empty list. -/
theorem Keeps.follows (h : Keeps log x) (s : σ) : Follows log x s [] :=
  (h.emits s).mono (fun _ _ hl => hl) fun _ hl => hl ▸ List.prefix_rfl

/-- A run that goes on follows both lists, one behind the other. -/
theorem Follows.bind (h : Follows log x s L) (hf : ∀ a s', Follows log (f a) s' L') :
    Follows log (x >>= f) s (L ++ L') := by
  refine (Emits.mono h (fun _ _ hl => hl) fun l hl => ?_).bind fun a l s' hl => ?_
  · exact hl.trans (List.prefix_append _ _)
  · subst hl
    refine (hf a s').mono (fun b l' hl' => ?_) fun l' hl' => ?_
    · rw [hl']
    · exact (List.prefix_append_right_inj _).mpr hl'

end

end Run

end Lib
