import Btor.Bytes

/-!
# Bytes at a cursor

The parser reads its buffer through a 32-bit cursor. `Reads buf c l` says that the bytes `l` stand
in the buffer from the cursor `c` on, and `advance c l` is the cursor after them. In a buffer
shorter than `2^32` bytes this is a prefix of what is left from `c` (`reads_iff_isPrefix`). In a
longer one the cursor wraps around, and the bytes read go on with the buffer's first.
-/

namespace Btor

/-- The cursor after the bytes `l`. -/
def advance (c : UInt32) (l : Bytes) : UInt32 := c + UInt32.ofNat l.length

/-- No byte does not move the cursor. -/
@[simp] theorem advance_nil (c : UInt32) : advance c [] = c := by simp [advance]

/-- The bytes of two strings are passed one string after the other. -/
theorem advance_append (c : UInt32) (l l' : Bytes) :
    advance c (l ++ l') = advance (advance c l) l' := by
  simp [advance, UInt32.ofNat_add, UInt32.add_assoc]

/-- One byte moves it by one. -/
@[simp] theorem advance_singleton (c : UInt32) (x : UInt8) : advance c [x] = c + 1 := rfl

/-- The bytes behind the first one move it on from there. -/
theorem advance_cons (c : UInt32) (x : UInt8) (l : Bytes) :
    advance c (x :: l) = advance (c + 1) l := by
  rw [← advance_singleton c x, ← advance_append, List.singleton_append]

/-- While the cursor stays below `2^32` it counts the bytes passed. -/
theorem advance_toNat {c : UInt32} {l : Bytes} (h : c.toNat + l.length < 2^32) :
    (advance c l).toNat = c.toNat + l.length := by
  unfold advance
  rw [UInt32.toNat_add, UInt32.toNat_ofNat', Nat.mod_eq_of_lt (by omega : l.length < 2^32),
    Nat.mod_eq_of_lt h]

/-- What stands at a place of a list, in two parts. -/
theorem append_isPrefix_drop {α : Type} {xs l l' : List α} {i : ℕ} (h : l ++ l' <+: xs.drop i) :
    l <+: xs.drop i ∧ l' <+: xs.drop (i + l.length) := by
  obtain ⟨u, hu⟩ := h
  refine ⟨⟨l' ++ u, by rw [← hu, List.append_assoc]⟩, ⟨u, ?_⟩⟩
  rw [← List.drop_drop, ← hu, List.append_assoc, List.drop_left]

/-- The bytes `l` stand in `buf` from the cursor `c` on. -/
def Reads (buf : Bytes) : UInt32 → Bytes → Prop
  | _, [] => True
  | c, x :: l => buf[c.toNat]? = some x ∧ Reads buf (c + 1) l

/-- Whether the bytes are read at a cursor is decided byte by byte. -/
instance decidableReads (buf : Bytes) : (c : UInt32) → (l : Bytes) → Decidable (Reads buf c l)
  | _, [] => .isTrue trivial
  | c, x :: l =>
    have := decidableReads buf (c + 1) l
    inferInstanceAs (Decidable (buf[c.toNat]? = some x ∧ Reads buf (c + 1) l))

/-- No bytes are read anywhere. -/
@[simp] theorem reads_nil (buf : Bytes) (c : UInt32) : Reads buf c [] := trivial

/-- The first byte is read at the cursor, and the others behind it. -/
theorem reads_cons {buf : Bytes} {c : UInt32} {x : UInt8} {l : Bytes} :
    Reads buf c (x :: l) ↔ buf[c.toNat]? = some x ∧ Reads buf (c + 1) l := Iff.rfl

/-- The bytes of two strings stand one string after the other. -/
theorem reads_append {buf : Bytes} {c : UInt32} {l l' : Bytes} :
    Reads buf c (l ++ l') ↔ Reads buf c l ∧ Reads buf (advance c l) l' := by
  induction l generalizing c with
  | nil => simp
  | cons x l ih => rw [List.cons_append, reads_cons, reads_cons, ih, advance_cons, and_assoc]

/-- In a buffer shorter than `2^32` bytes, the bytes at a cursor are a prefix of what is left. -/
theorem reads_iff_isPrefix {buf : Bytes} (hbuf : buf.length < 2^32) {c : UInt32} {l : Bytes} :
    Reads buf c l ↔ l <+: buf.drop c.toNat := by
  induction l generalizing c with
  | nil => simp
  | cons x l ih =>
    rw [reads_cons, ih]
    -- The cursor does not wrap around as long as it is in the buffer.
    by_cases hc : c.toNat < buf.length
    · have hsucc : (c + 1).toNat = c.toNat + 1 := by
        rw [← advance_singleton c x, advance_toNat (by simp; omega)]
        rfl
      rw [hsucc, List.drop_eq_getElem_cons hc, List.cons_prefix_cons, List.getElem?_eq_getElem hc]
      simp [eq_comm]
    · -- Past the end there is neither a byte nor anything left.
      rw [List.getElem?_eq_none (by omega),
        List.drop_eq_nil_of_le (by omega : buf.length ≤ c.toNat)]
      simp

/-- The bytes at the start of a buffer shorter than `2^32` bytes are a prefix of it. -/
theorem reads_zero {buf : Bytes} (hbuf : buf.length < 2^32) {l : Bytes} :
    Reads buf 0 l ↔ l <+: buf := by
  simpa using reads_iff_isPrefix (c := 0) hbuf

/-- Bytes read from a buffer shorter than `2^32` bytes end in it, and the cursor counts them. -/
theorem Reads.toNat_advance {buf : Bytes} (hbuf : buf.length < 2^32) {c : UInt32} {l : Bytes}
    (hl : l ≠ []) (h : Reads buf c l) :
    (advance c l).toNat = c.toNat + l.length ∧ c.toNat + l.length ≤ buf.length := by
  have hle := ((reads_iff_isPrefix hbuf).mp h).length_le
  have hpos := List.length_pos_of_ne_nil hl
  rw [List.length_drop] at hle
  exact ⟨advance_toNat (by omega), by omega⟩

end Btor
