import Btor.Lib.Post

/-!
# Bytes that arrive in pieces

The bytes of a connection arrive in pieces. A read asks for a number of bytes and is given some of
those that are there, at least one of them. After the last one it finds the connection closed, or it
fails. How the bytes are cut into pieces is not in the hands of either side, so what a reader does
is stated for all ways: it returns a value (`Gives`), or it fails (`Fails`).

A reader that takes a message returns behind its last byte, and fails wherever the stream ends
before that (`Takes`). Readers that take messages one after the other take one message
(`Takes.bind`). A loop of reads ends, as each of its rounds reads something (`Stream.loop`).
-/

namespace Lib

open Run (Post)

/-- What is still to be read from a connection. -/
structure Stream where
  /-- The bytes that the other side sends. -/
  bytes : List UInt8
  /-- How many bytes each of the next reads finds, besides one. -/
  arrivals : ℕ → ℕ
  /-- The other side closes the connection after the bytes. -/
  closed : Bool

namespace Stream

variable {ε α β : Type}

/-- A read of `size` bytes or less. It gives no bytes where the connection is closed, and nothing
where it fails. -/
def read (size : ℕ) : Run Stream ε (Option (List UInt8)) where
  run s :=
    match s.bytes with
    | [] => .returned (if s.closed then some [] else none) s
    | _ :: _ =>
      let n := min size (s.arrivals 0 + 1)
      .returned (some (s.bytes.take n)) {
        bytes := s.bytes.drop n
        arrivals := fun i => s.arrivals (i + 1)
        closed := s.closed }

/-! ## Loops -/

/-- A round that goes on has read something. -/
def Progresses (step : β → Run Stream ε (β ⊕ α)) : Prop :=
  ∀ b s, (step b).Post s (fun r s' => r.isLeft → s'.bytes.length < s.bytes.length) fun _ => True

/-- The loop from a state, round by round. -/
def loopFrom (step : β → Run Stream ε (β ⊕ α)) (h : Progresses step) (b : β) (s : Stream) :
    Outcome Stream ε α :=
  match _hs : (step b).run s with
  | .returned (.inl b') s' => loopFrom step h b' s'
  | .returned (.inr a) s' => .returned a s'
  | .stopped e s' => .stopped e s'
termination_by s.bytes.length
decreasing_by exact (h b s).of_returned _hs rfl

/-- A loop whose rounds are `step`: a round goes on with the next one, or leaves the loop. -/
def loop (step : β → Run Stream ε (β ⊕ α)) (h : Progresses step) (b : β) : Run Stream ε α where
  run := loopFrom step h b

section

variable {step : β → Run Stream ε (β ⊕ α)} {h : Progresses step} {b : β}

/-- A loop is its first round and what comes after it. -/
theorem loop_eq : loop step h b = step b >>= Sum.elim (loop step h) pure := by
  refine congrArg Run.mk (funext fun s => ?_)
  rw [loopFrom]
  cases hs : (step b).run s with
  | returned r s' => cases r <;> rfl
  | stopped e s' => rfl

/-- What each round keeps, the loop keeps. -/
theorem post_loop {I : β → Stream → Prop} {Q : α → Stream → Prop} {E : Stream → Prop}
    (hstep : ∀ b s, I b s → (step b).Post s (fun r s' => r.elim (I · s') (Q · s')) E) {s : Stream}
    (hs : I b s) : (loop step h b).Post s Q E := by
  induction hn : s.bytes.length using Nat.strongRecOn generalizing b s with
  | _ n ih =>
    subst hn
    rw [loop_eq]
    refine ((hstep b s hs).and (h b s)).mono (fun _ _ hr => hr) (fun _ hs' => hs'.1) |>.bind
      fun r s' hr => ?_
    cases r with
    | inl b' => exact ih _ (hr.2 rfl) hr.1 rfl
    | inr a => exact Run.post_pure hr.1

end

/-! ## How much is read -/

/-- The reader does not lengthen what is to be read. -/
def Shortens (x : Run Stream ε α) : Prop :=
  ∀ s, x.Post s (fun _ s' => s'.bytes.length ≤ s.bytes.length) fun _ => True

/-- The reader reads something if it returns. -/
def Consumes (x : Run Stream ε α) : Prop :=
  ∀ s, x.Post s (fun _ s' => s'.bytes.length < s.bytes.length) fun _ => True

section

variable {x : Run Stream ε α} {f : α → Run Stream ε β}

/-- A value reads nothing. -/
theorem shortens_pure (a : α) : Shortens (pure a : Run Stream ε α) := fun _ => le_refl _

/-- Neither does a stop. -/
theorem shortens_stop (e : ε) : Shortens (.stop e : Run Stream ε α) := fun _ => trivial

/-- What reads something makes nothing longer. -/
theorem Consumes.shortens (h : Consumes x) : Shortens x :=
  fun s => (h s).mono (fun _ _ hlt => hlt.le) fun _ h => h

/-- Two parts that make nothing longer, together. -/
theorem Shortens.bind (hx : Shortens x) (hf : ∀ a, Shortens (f a)) : Shortens (x >>= f) :=
  fun s => (hx s).bind fun a s₁ hle =>
    (hf a s₁).mono (fun _ _ hle' => hle'.trans hle) fun _ h => h

/-- The first of two parts reads something. -/
theorem Consumes.bind (hx : Consumes x) (hf : ∀ a, Shortens (f a)) : Consumes (x >>= f) :=
  fun s => (hx s).bind fun a s₁ hlt =>
    (hf a s₁).mono (fun _ _ hle => hle.trans_lt hlt) fun _ h => h

/-- The second of two parts reads something. -/
theorem Shortens.bind_consumes (hx : Shortens x) (hf : ∀ a, Consumes (f a)) :
    Consumes (x >>= f) :=
  fun s => (hx s).bind fun a s₁ hle =>
    (hf a s₁).mono (fun _ _ hlt => hlt.trans_le hle) fun _ h => h

/-- A read gives as many bytes as it takes away. -/
theorem post_read {size : ℕ} {s : Stream} : (read size : Run Stream ε _).Post s
    (fun r s' => (r.getD []).length + s'.bytes.length = s.bytes.length) fun _ => True := by
  unfold Post read
  obtain ⟨bytes, arrivals, closed⟩ := s
  cases bytes with
  | nil => cases closed <;> rfl
  | cons b l =>
    dsimp only [Option.getD_some]
    rw [← List.length_append, List.take_append_drop]

/-- A read makes nothing longer. -/
theorem shortens_read (size : ℕ) : Shortens (read size : Run Stream ε _) :=
  fun _ => post_read.mono (fun _ _ h => h ▸ Nat.le_add_left _ _) fun _ h => h

/-- A loop does not lengthen what is to be read if no round does. -/
theorem Shortens.loop {step : β → Run Stream ε (β ⊕ α)} {h : Progresses step}
    (hstep : ∀ b, Shortens (step b)) (b : β) : Shortens (loop step h b) := by
  intro s
  refine post_loop (I := fun _ s' => s'.bytes.length ≤ s.bytes.length) (fun b s' hs' => ?_)
    (le_refl _)
  refine (hstep b s').mono (fun r s₁ hle => ?_) fun _ h => h
  cases r <;> exact hle.trans hs'

end

/-! ## Readers -/

/-- However the bytes arrive, the reader returns `a` and leaves `rest`. -/
def Gives (x : Run Stream ε α) (bytes : List UInt8) (closed : Bool) (a : α) (rest : List UInt8) :
    Prop :=
  ∀ arrivals, ∃ arrivals', x.run ⟨bytes, arrivals, closed⟩ = .returned a ⟨rest, arrivals', closed⟩

/-- However the bytes arrive, the reader stops. -/
def Fails (x : Run Stream ε α) (bytes : List UInt8) (closed : Bool) : Prop :=
  ∀ arrivals, ∃ e s', x.run ⟨bytes, arrivals, closed⟩ = .stopped e s'

section

variable {x : Run Stream ε α} {f : α → Run Stream ε β} {l l' l'' : List UInt8} {closed : Bool}
  {a : α} {b : β}

/-- A value is given, and nothing is read. -/
theorem gives_pure (a : α) (l : List UInt8) (closed : Bool) :
    Gives (pure a : Run Stream ε α) l closed a l := fun arrivals => ⟨arrivals, rfl⟩

/-- A stop fails. -/
theorem fails_stop (e : ε) (l : List UInt8) (closed : Bool) :
    Fails (.stop e : Run Stream ε α) l closed := fun _ => ⟨e, _, rfl⟩

/-- A part that fails ends the whole. -/
theorem Fails.bind (hx : Fails x l closed) : Fails (x >>= f) l closed := by
  intro arrivals
  obtain ⟨e, s', hx⟩ := hx arrivals
  refine ⟨e, s', ?_⟩
  rw [Run.run_bind, hx, Outcome.andThen_stopped]

/-! ### One reader for another -/

/-- The reader `x` on the bytes `l` ends as the reader `y` does on the bytes `l'`. -/
def Becomes (x : Run Stream ε α) (l : List UInt8) (y : Run Stream ε α) (l' : List UInt8)
    (closed : Bool) : Prop :=
  ∀ arrivals, ∃ arrivals', x.run ⟨l, arrivals, closed⟩ = y.run ⟨l', arrivals', closed⟩

section

variable {y z : Run Stream ε α}

/-- After its first part, a reader is its second part on what is left. -/
theorem Gives.becomes (hx : Gives x l closed a l') : Becomes (x >>= f) l (f a) l' closed := by
  intro arrivals
  obtain ⟨arrivals', hx⟩ := hx arrivals
  exact ⟨arrivals', Run.run_bind_of_returned hx⟩

/-- A run becomes itself. -/
theorem Becomes.refl (x : Run Stream ε α) (l : List UInt8) (closed : Bool) :
    Becomes x l x l closed := fun arrivals => ⟨arrivals, rfl⟩

/-- What a run becomes may become something else. -/
theorem Becomes.trans (h : Becomes x l y l' closed) (h' : Becomes y l' z l'' closed) :
    Becomes x l z l'' closed := by
  intro arrivals
  obtain ⟨arrivals', h⟩ := h arrivals
  obtain ⟨arrivals'', h'⟩ := h' arrivals'
  exact ⟨arrivals'', h.trans h'⟩

/-- A run gives what it becomes gives. -/
theorem Becomes.gives (h : Becomes x l y l' closed) (hy : Gives y l' closed a l'') :
    Gives x l closed a l'' := by
  intro arrivals
  obtain ⟨arrivals', h⟩ := h arrivals
  rw [h]
  exact hy arrivals'

/-- A run fails if what it becomes fails. -/
theorem Becomes.fails (h : Becomes x l y l' closed) (hy : Fails y l' closed) :
    Fails x l closed := by
  intro arrivals
  obtain ⟨arrivals', h⟩ := h arrivals
  rw [h]
  exact hy arrivals'

end

/-- The second part runs on what the first one left. -/
theorem Gives.bind (hx : Gives x l closed a l') (hf : Gives (f a) l' closed b l'') :
    Gives (x >>= f) l closed b l'' := hx.becomes.gives hf

/-- The second part may fail on it. -/
theorem Gives.bind_fails (hx : Gives x l closed a l') (hf : Fails (f a) l' closed) :
    Fails (x >>= f) l closed := hx.becomes.fails hf

/-! ### Messages -/

/-- The reader takes the bytes `l` and no more, and needs all of them. -/
structure Takes (x : Run Stream ε α) (l : List UInt8) (a : α) : Prop where
  gives : ∀ rest closed, Gives x (l ++ rest) closed a rest
  fails : ∀ part, part <+: l → part ≠ l → ∀ closed, Fails x part closed

/-- A value takes nothing. -/
theorem takes_pure (a : α) : Takes (pure a : Run Stream ε α) [] a where
  gives rest closed := gives_pure a rest closed
  fails _ hpart hne := absurd (List.prefix_nil.mp hpart) hne

/-- What comes of a message that is cut off: it ends within the first part, or within the rest. -/
theorem isPrefix_append_cases {part : List UInt8} (h : part <+: l ++ l') :
    (part <+: l ∧ part ≠ l) ∨ ∃ part', part = l ++ part' ∧ part' <+: l' := by
  rcases List.prefix_or_prefix_of_prefix h (List.prefix_append l l') with hl | hl
  · by_cases heq : part = l
    · exact .inr ⟨[], by rw [heq, List.append_nil], List.nil_prefix⟩
    · exact .inl ⟨hl, heq⟩
  · obtain ⟨part', rfl⟩ := hl
    exact .inr ⟨part', rfl, (List.prefix_append_right_inj l).mp h⟩

/-- Readers one after the other take what each of them takes. -/
theorem Takes.bind (hx : Takes x l a) (hf : Takes (f a) l' b) : Takes (x >>= f) (l ++ l') b where
  gives rest closed := by
    rw [List.append_assoc]
    exact (hx.gives _ closed).bind (hf.gives rest closed)
  fails part hpart hne closed := by
    rcases isPrefix_append_cases hpart with ⟨hl, hne'⟩ | ⟨part', rfl, hl'⟩
    · exact (hx.fails part hl hne' closed).bind
    · refine (hx.gives part' closed).bind_fails (hf.fails part' hl' (fun heq => ?_) closed)
      exact hne (congrArg (l ++ ·) heq)

end

section

variable {step : β → Run Stream ε (β ⊕ α)} {h : Progresses step} {b b' : β} {a : α}
  {l l' : List UInt8} {closed : Bool}

/-- A round that goes on. -/
theorem Gives.loop (hstep : Gives (step b) l closed (.inl b') l') :
    Becomes (loop step h b) l (Stream.loop step h b') l' closed := by
  rw [loop_eq]
  exact hstep.becomes

/-- The last round. -/
theorem Gives.loop_last (hstep : Gives (step b) l closed (.inr a) l') :
    Gives (Stream.loop step h b) l closed a l' := by
  rw [loop_eq]
  exact hstep.becomes.gives (gives_pure a l' closed)

/-- A round that fails ends the loop. -/
theorem Fails.loop (hstep : Fails (step b) l closed) : Fails (Stream.loop step h b) l closed := by
  rw [loop_eq]
  exact hstep.bind

/-- The last round. -/
theorem Takes.loop_last (hstep : Takes (step b) l (.inr a)) : Takes (Stream.loop step h b) l a := by
  have htakes := hstep.bind (f := Sum.elim (Stream.loop step h) pure) (takes_pure a)
  rw [← loop_eq, List.append_nil] at htakes
  exact htakes

end

/-! ## Reads -/

/-- A read where something is left. -/
theorem run_read {size : ℕ} {bytes : List UInt8} (hsize : 0 < size) (hne : bytes ≠ [])
    (arrivals : ℕ → ℕ) (closed : Bool) : ∃ l rest arrivals', l ≠ [] ∧ l.length ≤ size ∧
      bytes = l ++ rest ∧ (read size : Run Stream ε _).run ⟨bytes, arrivals, closed⟩ =
        .returned (some l) ⟨rest, arrivals', closed⟩ := by
  obtain ⟨b, bytes, rfl⟩ := List.exists_cons_of_ne_nil hne
  have hpos : min size (arrivals 0 + 1) ≠ 0 := by omega
  refine ⟨_, _, _, ?_, ?_, (List.take_append_drop (min size (arrivals 0 + 1)) _).symm, rfl⟩
  · rw [Ne, List.take_eq_nil_iff, not_or]
    exact ⟨hpos, hne⟩
  · exact (List.length_take_le _ _).trans (min_le_left _ _)

/-- Where nothing is left the connection is closed, or a read fails. -/
theorem gives_read_nil (size : ℕ) (closed : Bool) :
    Gives (read size : Run Stream ε _) [] closed (if closed then some [] else none) [] :=
  fun arrivals => ⟨arrivals, rfl⟩

/-- A read of one byte. -/
theorem gives_read_one (b : UInt8) (l : List UInt8) (closed : Bool) :
    Gives (read 1 : Run Stream ε _) (b :: l) closed (some [b]) l := by
  intro arrivals
  refine ⟨fun i => arrivals (i + 1), ?_⟩
  unfold read
  simp

end Stream

end Lib
