import Btor.Failure
import Btor.Simulation

/-!
# Every run ends

In a buffer shorter than `2^32` bytes the cursor only moves forward, and each turn of a loop and
each recursive call reads a byte or is the last. So a fuel of three for each byte that is left is
enough for every scan (`scanArbitrary_halts`), and with it for every function of the parser, from
any state. What the functions read bounds the calls of `consumeChar` and the cursor.
-/

namespace Btor

open Lib (Run Outcome)

section

variable {buf : Bytes} {n : ℕ} {c : UInt32}

/-- The cursor after a byte of a buffer shorter than `2^32` bytes. -/
theorem toNat_succ (hbuf : buf.length < 2^32) {x : UInt8} (h : buf[c.toNat]? = some x) :
    (c + 1).toNat = c.toNat + 1 ∧ c.toNat < buf.length := by
  obtain ⟨hc, -⟩ := List.getElem?_eq_some_iff.mp h
  have hsucc := advance_toNat (c := c) (l := [x]) (by simp; omega)
  exact ⟨by simpa using hsucc, hc⟩

/-- The cursor after the bytes of an accepted value, in a buffer shorter than `2^32` bytes. -/
theorem toNat_advance_bytes (hbuf : buf.length < 2^32) {t : Parsed} (ht : t.Accepted)
    (h : Reads buf c t.bytes) :
    c.toNat + 1 ≤ (advance c t.bytes).toNat ∧ (advance c t.bytes).toNat ≤ buf.length := by
  have htwo := Parsed.two_le_length ht
  have hne : t.bytes ≠ [] := List.ne_nil_of_length_pos (by omega)
  obtain ⟨hadv, hle⟩ := h.toNat_advance hbuf hne
  omega

/-- The scan of digits halts. -/
theorem scanDigits_halts (hbuf : buf.length < 2^32) (hn : buf.length - c.toNat ≤ n) :
    scanDigits buf n c ≠ .outOfFuel := by
  induction n generalizing c with
  | zero =>
    -- Nothing is left, so the scan gives up before it needs fuel.
    have hnone : buf[c.toNat]? = none := List.getElem?_eq_none (by omega)
    simp [scanDigits, hnone]
  | succ n ih =>
    rw [scanDigits]
    split
    · simp
    · rename_i x hx
      obtain ⟨hsucc, hc⟩ := toNat_succ hbuf hx
      split_ifs
      · simp
      · rw [ne_eq, Scan.map_eq_outOfFuel]
        exact ih (by omega)
      · simp

/-- The scan of the bytes of a text halts. -/
theorem scanPayload_halts (hbuf : buf.length < 2^32) {len : Int32}
    (hn : buf.length - c.toNat < n) : scanPayload buf n c len ≠ .outOfFuel := by
  induction n generalizing c len with
  | zero => exact absurd hn (Nat.not_lt_zero _)
  | succ n ih =>
    rw [scanPayload]
    split_ifs
    · simp
    · split
      · simp
      · rename_i x hx
        obtain ⟨hsucc, hc⟩ := toNat_succ hbuf hx
        rw [ne_eq, Scan.map_eq_outOfFuel]
        exact ih (by omega)

/-- The scan of a text halts. -/
theorem scanText_halts (hbuf : buf.length < 2^32) (hn : buf.length - c.toNat < n) :
    scanText buf n c ≠ .outOfFuel := by
  rw [scanText]
  split
  · rename_i h
    exact absurd h (scanDigits_halts hbuf (by omega))
  · simp
  · rename_i ds hds
    -- The digits and the colon have moved the cursor, and it is still in the buffer.
    obtain ⟨hadv, hle⟩ := (scanDigits_sound hds).2.toNat_advance hbuf (by simp)
    rw [ne_eq, Scan.map_eq_outOfFuel]
    exact scanPayload_halts hbuf (by omega)

/-- The scan of the digits of an integer halts. -/
theorem scanBody_halts (hbuf : buf.length < 2^32) {first : Bool} (hn : buf.length - c.toNat < n) :
    scanBody buf n c first ≠ .outOfFuel := by
  induction n generalizing c first with
  | zero => exact absurd hn (Nat.not_lt_zero _)
  | succ n ih =>
    rw [scanBody]
    split
    · simp
    · rename_i x hx
      obtain ⟨hsucc, hc⟩ := toNat_succ hbuf hx
      split_ifs
      · simp
      · simp
      · rw [ne_eq, Scan.map_eq_outOfFuel]
        exact ih (by omega)

/-- The scans of the recursive functions end, with the fuel `n` and what is left of the buffer. -/
structure HaltsAt (buf : Bytes) (n : ℕ) : Prop where
  arbitrary : ∀ c : UInt32, 3 * (buf.length - c.toNat) + 3 ≤ n →
    scanArbitrary buf n c ≠ .outOfFuel
  list : ∀ (c : UInt32) x, buf[c.toNat]? = some x → 3 * (buf.length - c.toNat) + 2 ≤ n →
    scanList buf n c ≠ .outOfFuel
  items : ∀ c : UInt32, 3 * (buf.length - c.toNat) + 4 ≤ n → scanItems buf n c ≠ .outOfFuel
  dictionary : ∀ (c : UInt32) x, buf[c.toNat]? = some x → 3 * (buf.length - c.toNat) + 2 ≤ n →
    scanDictionary buf n c ≠ .outOfFuel
  entries : ∀ c : UInt32, 3 * (buf.length - c.toNat) + 4 ≤ n → scanEntries buf n c ≠ .outOfFuel

/-- The scan of a value halts. -/
theorem HaltsAt.arbitrary_succ (hbuf : buf.length < 2^32) (ih : HaltsAt buf n)
    (hn : 3 * (buf.length - c.toNat) + 3 ≤ n + 1) : scanArbitrary buf (n + 1) c ≠ .outOfFuel := by
  rw [scanArbitrary]
  split
  · simp
  · rename_i x hx
    obtain ⟨hsucc, hc⟩ := toNat_succ hbuf hx
    split_ifs <;> simp only [ne_eq, Scan.map_eq_outOfFuel, reduceCtorEq, not_false_eq_true]
    · exact scanBody_halts hbuf (by omega)
    · exact ih.list c x hx (by omega)
    · exact ih.dictionary c x hx (by omega)
    · exact scanText_halts hbuf (by omega)

/-- The scan of the items halts. -/
theorem HaltsAt.items_succ (hbuf : buf.length < 2^32) (ih : HaltsAt buf n)
    (hn : 3 * (buf.length - c.toNat) + 4 ≤ n + 1) : scanItems buf (n + 1) c ≠ .outOfFuel := by
  rw [scanItems]
  split
  · rename_i h
    exact absurd h (ih.arbitrary c (by omega))
  · simp
  · rename_i t ht
    obtain ⟨hacc, hread⟩ := scanArbitrary_sound ht
    -- The item has moved the cursor forward, which pays for one more turn.
    obtain ⟨hlt, hle⟩ := toNat_advance_bytes hbuf hacc hread
    split
    · simp
    · split_ifs
      · rw [ne_eq, Scan.map_eq_outOfFuel]
        exact ih.items _ (by omega)
      · simp

/-- The scan of the entries halts. -/
theorem HaltsAt.entries_succ (hbuf : buf.length < 2^32) (ih : HaltsAt buf n)
    (hn : 3 * (buf.length - c.toNat) + 4 ≤ n + 1) : scanEntries buf (n + 1) c ≠ .outOfFuel := by
  rw [scanEntries]
  split
  · rename_i h
    exact absurd h (scanText_halts hbuf (by omega))
  · simp
  · rename_i k hk
    have hkread := (scanText_sound hk).2
    -- The key has moved the cursor forward, and so does the value.
    obtain ⟨hkadv, hkle⟩ := hkread.toNat_advance hbuf (by simp [Text.bytes])
    split
    · rename_i h
      exact absurd h (ih.arbitrary _ (by omega))
    · simp
    · rename_i t ht
      obtain ⟨hacc, hread⟩ := scanArbitrary_sound ht
      obtain ⟨hlt, hle⟩ := toNat_advance_bytes hbuf hacc hread
      split_ifs
      · simp
      · split
        · simp
        · split_ifs
          · rw [ne_eq, Scan.map_eq_outOfFuel, advance_append]
            exact ih.entries _ (by omega)
          · simp

/-- The scan halts with as much fuel as three times what is left, and some. -/
theorem haltsAt (hbuf : buf.length < 2^32) (n : ℕ) : HaltsAt buf n := by
  induction n with
  | zero =>
    refine ⟨fun _ h => ?_, fun _ _ _ h => ?_, fun _ h => ?_, fun _ _ _ h => ?_,
      fun _ h => ?_⟩ <;> omega
  | succ n ih =>
    refine ⟨fun _ h => ih.arbitrary_succ hbuf h, fun c x hx h => ?_,
      fun _ h => ih.items_succ hbuf h, fun c x hx h => ?_, fun _ h => ih.entries_succ hbuf h⟩
    · obtain ⟨hsucc, hc⟩ := toNat_succ hbuf hx
      exact ih.items (c + 1) (by omega)
    · obtain ⟨hsucc, hc⟩ := toNat_succ hbuf hx
      exact ih.entries (c + 1) (by omega)

/-- A scan of what is left of a buffer shorter than `2^32` bytes ends. -/
theorem scanArbitrary_halts (hbuf : buf.length < 2^32)
    (hn : 3 * (buf.length - c.toNat) + 3 ≤ n) : scanArbitrary buf n c ≠ .outOfFuel :=
  (haltsAt hbuf n).arbitrary c hn

end

end Btor
