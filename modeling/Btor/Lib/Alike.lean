import Btor.Lib.Run

/-!
# States that no calls tell apart

Two states of an object are alike under a sequence of calls if they look the same to an observer
before and after each of them, and each call ends in the same way on both. A relation that the calls
keep, and that fixes what the observer sees, makes states alike (`alike_of_keeps`).
-/

namespace Lib

variable {σ ε A V : Type}

/-- The reason for which a run stopped, if it did. -/
def Outcome.reason {α : Type} : Outcome σ ε α → Option ε
  | returned _ _ => none
  | stopped e _ => some e

section

variable (call : A → Run σ ε Unit) (view : σ → V)

/-- The states look the same before and after each of the calls, and a call that stops on one of
them stops on the other for the same reason. -/
def Alike : List A → σ → σ → Prop
  | [], s, t => view s = view t
  | a :: calls, s, t => view s = view t ∧
      ((call a).run s).reason = ((call a).run t).reason ∧
        Alike calls ((call a).run s).state ((call a).run t).state

end

variable {call : A → Run σ ε Unit} {view : σ → V} {calls : List A} {s t : σ}

/-- A relation that the calls keep. -/
theorem alike_of_keeps {R : σ → σ → Prop} (hview : ∀ s t, R s t → view s = view t)
    (hcall : ∀ a ∈ calls, ∀ s t, R s t → ((call a).run s).reason = ((call a).run t).reason ∧
      R ((call a).run s).state ((call a).run t).state)
    (h : R s t) : Alike call view calls s t := by
  induction calls generalizing s t with
  | nil => exact hview s t h
  | cons a calls ih =>
    obtain ⟨hreason, hstate⟩ := hcall a List.mem_cons_self s t h
    exact ⟨hview s t h, hreason,
      ih (fun b hb => hcall b (List.mem_cons_of_mem a hb)) hstate⟩

/-- A state is like itself. -/
theorem alike_rfl : Alike call view calls s s :=
  alike_of_keeps (R := Eq) (fun _ _ h => h ▸ rfl) (fun _ _ _ _ h => h ▸ ⟨rfl, rfl⟩) rfl

end Lib
