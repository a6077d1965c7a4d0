import Btor.Termination

/-!
# What `parseBencodedString` does

The scans of `Btor/Scan.lean` put together with their grammar, for a call of `parseBencodedString`
from any state. It returns exactly on the buffers that start with an accepted value, with the effect
of that value (`parse_returned`, `parse_of_startsWith`); it stops exactly where a broken value
stands, with the effect of that (`parse_stopped`, `parse_of_foundAt`). With enough fuel one of the
two happens (`parse_cases`). The modules after `Btor/Progress.lean` use no other facts of the
parser's code, but for `Btor/Ownership.lean` and `Btor/Numbers.lean`, which are about its steps.
-/

namespace Btor

open Lib (Run Outcome)

/-- The state in which `parseBencodedString` starts to parse. -/
def State.rewind (s : State) : State := { s with cursor := 0 }

section

variable (s : State)

/-- The cursor is at the start. -/
@[simp] theorem State.rewind_cursor : s.rewind.cursor = 0 := rfl

/-- No call is forgotten. -/
@[simp] theorem State.rewind_consumeCalls : s.rewind.consumeCalls = s.consumeCalls := rfl

/-- The heap stays as it is. -/
@[simp] theorem State.rewind_heap : s.rewind.heap = s.heap := rfl

/-- So does the list of the objects. -/
@[simp] theorem State.rewind_bObjects : s.rewind.bObjects = s.bObjects := rfl

/-- So does the length. -/
@[simp] theorem State.rewind_collectedLength : s.rewind.collectedLength = s.collectedLength := rfl

/-- So does the flag. -/
@[simp] theorem State.rewind_collectInfoDict : s.rewind.collectInfoDict = s.collectInfoDict := rfl

/-- So do the collected bytes. -/
@[simp] theorem State.rewind_collectedInfoDict :
    s.rewind.collectedInfoDict = s.collectedInfoDict := rfl

end

/-- The buffer starts with the accepted value `t`, as the parser's cursor reads it. -/
structure StartsWith (buf : Bytes) (t : Parsed) : Prop where
  /-- The parser accepts the value. -/
  accepted : t.Accepted
  /-- The value's bytes stand at the start of the buffer. -/
  reads : Reads buf 0 t.bytes

/-- Whether a buffer starts with a value can be computed. -/
instance decidableStartsWith (buf : Bytes) (t : Parsed) : Decidable (StartsWith buf t) :=
  decidable_of_iff (t.Accepted ∧ Reads buf 0 t.bytes) ⟨fun h => ⟨h.1, h.2⟩, fun h => ⟨h.1, h.2⟩⟩

/-- A buffer that goes on after the bytes of an accepted value starts with the value. -/
theorem Parsed.Accepted.startsWith {t : Parsed} (ht : t.Accepted) {w : Bytes}
    (h : (t.bytes ++ w).length < 2^32) : StartsWith (t.bytes ++ w) t :=
  ⟨ht, (reads_zero h).mpr (List.prefix_append _ _)⟩

/-- The value that a buffer shorter than `2^32` bytes starts with is a prefix of it. -/
theorem StartsWith.isPrefix {buf : Bytes} (hbuf : buf.length < 2^32) {t : Parsed}
    (h : StartsWith buf t) : t.bytes <+: buf :=
  (reads_zero hbuf).mp h.reads

/-- The cursor after a value counts its bytes, where these are fewer than `2^32`. -/
theorem Parsed.replay_rewind_cursor (t : Parsed) (s : State) (h : t.bytes.length < 2^32) :
    (t.replay s.rewind).cursor.toNat = t.bytes.length := by
  rw [t.replay_cursor, State.rewind_cursor, advance_toNat (by simpa using h)]
  exact Nat.zero_add _

/-- A buffer starts with at most one accepted value. -/
theorem StartsWith.unique {buf : Bytes} {t t' : Parsed} (h : StartsWith buf t)
    (h' : StartsWith buf t') : t = t' :=
  accepted_unique h.accepted h'.accepted h.reads h'.reads

/-- A string that the parser gives up on makes it throw. -/
theorem BrokenText.stop_threw (b : BrokenText) : ∃ x, b.stop = .threw x := by
  cases b <;> exact ⟨_, rfl⟩

/-- An integer that the parser gives up on makes it throw. -/
theorem BrokenInteger.stop_threw (b : BrokenInteger) : ∃ x, b.stop = .threw x := by
  cases b <;> exact ⟨_, rfl⟩

mutual

/-- The parser throws, or control runs off the end of `parseArbitrary`. -/
theorem Broken.stop_cases : ∀ b : Broken, (∃ x, b.stop = .threw x) ∨ b.stop = .ranOff
  | .noByte => .inr rfl
  | .badByte _ => .inl ⟨_, rfl⟩
  | .integer b => .inl b.stop_threw
  | .string b => .inl b.stop_threw
  | .list b => b.stop_cases
  | .dict b => b.stop_cases

/-- Items end in an exception, or run off the end of the function. -/
theorem BrokenItems.stop_cases : ∀ b : BrokenItems, (∃ x, b.stop = .threw x) ∨ b.stop = .ranOff
  | .item b => b.stop_cases
  | .atEnd _ => .inl ⟨_, rfl⟩
  | .next _ b => b.stop_cases

/-- So do entries. -/
theorem BrokenEntries.stop_cases : ∀ b : BrokenEntries,
    (∃ x, b.stop = .threw x) ∨ b.stop = .ranOff
  | .key b => .inl b.stop_threw
  | .value _ b => b.stop_cases
  | .notInteger _ _ => .inl ⟨_, rfl⟩
  | .atEnd _ _ => .inl ⟨_, rfl⟩
  | .next _ _ b => b.stop_cases

end

/-- The fuel does not run out in an input that the parser gives up on. -/
theorem Broken.stop_ne_outOfFuel (b : Broken) : b.stop ≠ .outOfFuel := by
  rcases b.stop_cases with ⟨x, hx⟩ | hx <;> simp [hx]

section

variable {buf : Bytes} {n : ℕ} {s s' : State} {p : Ptr} {e : Stop}

/-- A parse that returns has read an accepted value from the start of the buffer. The object it
returns is the first that it created. -/
theorem parse_returned (h : (parseBencodedString buf n).run s = .returned p s') :
    ∃ t : Parsed, StartsWith buf t ∧ p = s.heap.length ∧ s' = t.replay s.rewind := by
  have hagree := (agreesAt buf n).arbitrary s.rewind
  have hrun : (parseArbitrary buf n).run s.rewind = .returned p s' := h
  rw [State.rewind_cursor, hrun] at hagree
  cases hscan : scanArbitrary buf n 0 with
  | done t =>
    rw [hscan] at hagree
    obtain ⟨rfl, rfl⟩ := Outcome.returned.inj hagree
    obtain ⟨hacc, hread⟩ := scanArbitrary_sound hscan
    exact ⟨t, ⟨hacc, hread⟩, rfl, rfl⟩
  | stuck b =>
    rw [hscan] at hagree
    cases hagree
  | outOfFuel =>
    rw [hscan] at hagree
    obtain ⟨s'', hs⟩ := hagree
    cases hs

/-- A parse of a buffer that starts with an accepted value returns. -/
theorem parse_of_startsWith {t : Parsed} (h : StartsWith buf t) (hn : 3 * t.bytes.length ≤ n)
    (s : State) :
    (parseBencodedString buf n).run s = .returned s.heap.length (t.replay s.rewind) := by
  have hagree := (agreesAt buf n).arbitrary s.rewind
  rw [State.rewind_cursor, scanArbitrary_complete hn h.accepted h.reads] at hagree
  exact hagree

/-- A parse that stops with fuel left has found a broken value at the start of the buffer. -/
theorem parse_stopped (he : e ≠ .outOfFuel)
    (h : (parseBencodedString buf n).run s = .stopped e s') :
    ∃ b : Broken, b.FoundAt buf 0 ∧ e = b.stop ∧ s' = b.replay s.rewind := by
  have hagree := (agreesAt buf n).arbitrary s.rewind
  have hrun : (parseArbitrary buf n).run s.rewind = .stopped e s' := h
  rw [State.rewind_cursor, hrun] at hagree
  cases hscan : scanArbitrary buf n 0 with
  | done t =>
    rw [hscan] at hagree
    cases hagree
  | stuck b =>
    rw [hscan] at hagree
    obtain ⟨rfl, rfl⟩ := Outcome.stopped.inj hagree
    exact ⟨b, scanArbitrary_stuck hscan, rfl, rfl⟩
  | outOfFuel =>
    rw [hscan] at hagree
    obtain ⟨s'', hs⟩ := hagree
    exact absurd (Outcome.stopped.inj hs).1 he

/-- A parse of a buffer that starts with a broken value stops. -/
theorem parse_of_foundAt {b : Broken} (h : b.FoundAt buf 0) (hn : 3 * b.bytes.length + 3 ≤ n)
    (s : State) : (parseBencodedString buf n).run s = .stopped b.stop (b.replay s.rewind) := by
  have hagree := (agreesAt buf n).arbitrary s.rewind
  rw [State.rewind_cursor, scanArbitrary_foundAt hn h] at hagree
  exact hagree

/-- With enough fuel, a parse of a buffer shorter than `2^32` bytes has read an accepted value or
found a broken one, the same from every state. -/
theorem parse_cases (hbuf : buf.length < 2^32) (hn : 3 * buf.length + 3 ≤ n) :
    (∃ t : Parsed, StartsWith buf t ∧ ∀ s : State,
      (parseBencodedString buf n).run s = .returned s.heap.length (t.replay s.rewind)) ∨
    (∃ b : Broken, b.FoundAt buf 0 ∧ ∀ s : State,
      (parseBencodedString buf n).run s = .stopped b.stop (b.replay s.rewind)) := by
  have hhalts : scanArbitrary buf n 0 ≠ .outOfFuel := scanArbitrary_halts hbuf (by simpa using hn)
  cases hscan : scanArbitrary buf n 0 with
  | done t =>
    obtain ⟨hacc, hread⟩ := scanArbitrary_sound hscan
    refine .inl ⟨t, ⟨hacc, hread⟩, fun s => ?_⟩
    have hagree := (agreesAt buf n).arbitrary s.rewind
    rw [State.rewind_cursor, hscan] at hagree
    exact hagree
  | stuck b =>
    refine .inr ⟨b, scanArbitrary_stuck hscan, fun s => ?_⟩
    have hagree := (agreesAt buf n).arbitrary s.rewind
    rw [State.rewind_cursor, hscan] at hagree
    exact hagree
  | outOfFuel => exact absurd hscan hhalts

/-- A parse that returns on a buffer that starts with `t` has the effect of `t`. -/
theorem StartsWith.of_returned {t : Parsed} (ht : StartsWith buf t)
    (h : (parseBencodedString buf n).run s = .returned p s') :
    p = s.heap.length ∧ s' = t.replay s.rewind := by
  obtain ⟨t', ht', hp, hs⟩ := parse_returned h
  rw [ht.unique ht']
  exact ⟨hp, hs⟩

end

end Btor
