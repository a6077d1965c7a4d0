import Btor.Layout

/-!
# The cursor and the collected length after a value

Parsing a value moves the cursor past its bytes with one call of `consumeChar` for each, and adds to
the collected length the integers under its `length` keys, at every depth and with repeated keys
counted each time (`Parsed.lengths`).
-/

namespace Btor

section

variable (k : Text) (t : Parsed) (s : State)

/-- Entering an entry moves the cursor behind its key. -/
@[simp] theorem Text.enter_cursor : (k.enter s).cursor = advance s.cursor k.bytes := by
  unfold Text.enter
  split_ifs <;> rfl

/-- Leaving it does not move the cursor. -/
@[simp] theorem Text.leave_cursor : (k.leave t s).cursor = s.cursor := by
  unfold Text.leave
  split_ifs <;> rfl

/-- Entering an entry consumes its key. -/
@[simp] theorem Text.enter_consumeCalls :
    (k.enter s).consumeCalls = s.consumeCalls + k.bytes.length := by
  unfold Text.enter
  split_ifs <;> rfl

/-- Leaving it consumes nothing. -/
@[simp] theorem Text.leave_consumeCalls : (k.leave t s).consumeCalls = s.consumeCalls := by
  unfold Text.leave
  split_ifs <;> rfl

/-- Entering an entry collects no length. -/
@[simp] theorem Text.enter_collectedLength :
    (k.enter s).collectedLength = s.collectedLength := by
  unfold Text.enter
  split_ifs <;> rfl

end

mutual

/-- Parsing a value moves the cursor past its bytes. -/
@[simp] theorem Parsed.replay_cursor : ∀ (t : Parsed) (s : State),
    (t.replay s).cursor = advance s.cursor t.bytes
  | .integer body, s => rfl
  | .string k, s => rfl
  | .list ts, s => by
    rw [Parsed.replay, State.feed_cursor, itemsReplay_cursor ts, State.alloc_cursor,
      State.feed_cursor, ← advance_append, ← advance_append]
    rfl
  | .dict es, s => by
    rw [Parsed.replay, State.feed_cursor, entriesReplay_cursor es, State.alloc_cursor,
      State.feed_cursor, ← advance_append, ← advance_append]
    rfl

/-- The cursor is behind the items. -/
@[simp] theorem itemsReplay_cursor : ∀ (ts : List Parsed) (p : Ptr) (s : State),
    (itemsReplay ts p s).cursor = advance s.cursor (itemsBytes ts)
  | [], p, s => by simp [itemsReplay, itemsBytes]
  | t :: ts, p, s => by
    rw [itemsReplay, itemsReplay_cursor ts, State.update_cursor, t.replay_cursor, itemsBytes,
      advance_append]

/-- The cursor is behind the entries. -/
@[simp] theorem entriesReplay_cursor : ∀ (es : List (Text × Parsed)) (p : Ptr) (s : State),
    (entriesReplay es p s).cursor = advance s.cursor (entriesBytes es)
  | [], p, s => by simp [entriesReplay, entriesBytes]
  | (k, t) :: es, p, s => by
    rw [entriesReplay, entriesReplay_cursor es, State.update_cursor, Text.leave_cursor,
      t.replay_cursor, Text.enter_cursor, entriesBytes, advance_append, advance_append]

end

mutual

/-- Parsing a value calls `consumeChar` once for each of its bytes. -/
theorem Parsed.replay_consumeCalls : ∀ (t : Parsed) (s : State),
    (t.replay s).consumeCalls = s.consumeCalls + t.bytes.length
  | .integer body, s => rfl
  | .string k, s => rfl
  | .list ts, s => by
    rw [Parsed.replay, State.feed_consumeCalls, itemsReplay_consumeCalls ts]
    simp [Parsed.bytes]
    omega
  | .dict es, s => by
    rw [Parsed.replay, State.feed_consumeCalls, entriesReplay_consumeCalls es]
    simp [Parsed.bytes]
    omega

/-- Each byte of the items is consumed once. -/
theorem itemsReplay_consumeCalls : ∀ (ts : List Parsed) (p : Ptr) (s : State),
    (itemsReplay ts p s).consumeCalls = s.consumeCalls + (itemsBytes ts).length
  | [], p, s => rfl
  | t :: ts, p, s => by
    rw [itemsReplay, itemsReplay_consumeCalls ts, State.update_consumeCalls, t.replay_consumeCalls,
      itemsBytes, List.length_append, Nat.add_assoc]

/-- So is each byte of the entries. -/
theorem entriesReplay_consumeCalls : ∀ (es : List (Text × Parsed)) (p : Ptr) (s : State),
    (entriesReplay es p s).consumeCalls = s.consumeCalls + (entriesBytes es).length
  | [], p, s => rfl
  | (k, t) :: es, p, s => by
    rw [entriesReplay, entriesReplay_consumeCalls es, State.update_consumeCalls,
      Text.leave_consumeCalls, t.replay_consumeCalls, Text.enter_consumeCalls, entriesBytes,
      List.length_append, List.length_append, Nat.add_assoc, Nat.add_assoc]

end

/-- The integer that an entry adds to the collected length. -/
def entryLength (k : Text) (t : Parsed) : Int64 := if k.payload = lengthKey then t.intVal else 0

mutual

/-- The sum of the integers under the `length` keys of a value, at every depth. -/
def Parsed.lengths : Parsed → Int64
  | .integer _ => 0
  | .string _ => 0
  | .list ts => itemsLengths ts
  | .dict es => entriesLengths es

/-- The sum over the items of a list. -/
def itemsLengths : List Parsed → Int64
  | [] => 0
  | t :: ts => t.lengths + itemsLengths ts

/-- The sum over the entries of a dictionary, with the integer of each key `length`. -/
def entriesLengths : List (Text × Parsed) → Int64
  | [] => 0
  | (k, t) :: es => entryLength k t + t.lengths + entriesLengths es

end

/-- The end of an entry adds what its key says: the key `info` is not the key `length`. -/
theorem Text.leave_collectedLength (k : Text) (t : Parsed) (s : State) :
    (k.leave t s).collectedLength = s.collectedLength + entryLength k t := by
  unfold Text.leave entryLength
  split_ifs with hi hl
  · -- No key is both.
    rw [hi] at hl
    exact absurd hl (by decide)
  · simp
  · rfl
  · simp

mutual

/-- Parsing a value adds the integers under its `length` keys to the collected length. -/
theorem Parsed.replay_collectedLength : ∀ (t : Parsed) (s : State),
    (t.replay s).collectedLength = s.collectedLength + t.lengths
  | .integer body, s => (Int64.add_zero _).symm
  | .string k, s => (Int64.add_zero _).symm
  | .list ts, s => by
    rw [Parsed.replay, State.feed_collectedLength, itemsReplay_collectedLength ts]
    rfl
  | .dict es, s => by
    rw [Parsed.replay, State.feed_collectedLength, entriesReplay_collectedLength es]
    rfl

/-- The lengths of the items are collected. -/
theorem itemsReplay_collectedLength : ∀ (ts : List Parsed) (p : Ptr) (s : State),
    (itemsReplay ts p s).collectedLength = s.collectedLength + itemsLengths ts
  | [], p, s => (Int64.add_zero _).symm
  | t :: ts, p, s => by
    rw [itemsReplay, itemsReplay_collectedLength ts, State.update_collectedLength,
      t.replay_collectedLength, itemsLengths, Int64.add_assoc]

/-- So are those of the entries. -/
theorem entriesReplay_collectedLength : ∀ (es : List (Text × Parsed)) (p : Ptr) (s : State),
    (entriesReplay es p s).collectedLength = s.collectedLength + entriesLengths es
  | [], p, s => (Int64.add_zero _).symm
  | (k, t) :: es, p, s => by
    rw [entriesReplay, entriesReplay_collectedLength es, State.update_collectedLength,
      Text.leave_collectedLength, t.replay_collectedLength, Text.enter_collectedLength,
      entriesLengths]
    ac_rfl

end

end Btor
