import Btor.Spec

/-!
# Progress of every call

`Ends` says what a call of a function of the parser has done when it ends, on a buffer of a given
size: it did end, it called `consumeChar` at most once more than there are bytes, it left the cursor
in the buffer, and if it returned it moved the cursor forward. `parse_ends` shows it for each
function and from every state, also for the direct calls that the parser itself never makes, at a
byte that the function does not start with, where the assertion at its head stops it.
-/

namespace Btor

open Lib (Run Outcome)

/-- What a call from the state `s` has done when it ends with the outcome `o`, on a buffer of `size`
bytes. -/
structure Ends (size : ℕ) (s : State) {α : Type} (o : Outcome State Stop α) : Prop where
  /-- The call ended within its fuel. -/
  halts : ∀ s', o ≠ .stopped .outOfFuel s'
  /-- It called `consumeChar` at most once for each byte, and once more. -/
  calls : o.state.consumeCalls ≤ s.consumeCalls + (size + 1)
  /-- The cursor has not moved back. -/
  forward : s.cursor.toNat ≤ o.state.cursor.toNat
  /-- The cursor is in the buffer, or where it was. -/
  cursor : o.state.cursor.toNat ≤ max s.cursor.toNat size
  /-- A call that returned has moved the cursor forward. -/
  progress : ∀ a s', o = .returned a s' → s.cursor.toNat < s'.cursor.toNat

section

variable {buf : Bytes} {n : ℕ} {s s' : State} {α : Type}

/-- A call that returns after it has read the bytes `l`. -/
theorem Ends.of_returned (hbuf : buf.length < 2^32) {a : α} {l : Bytes} (hne : l ≠ [])
    (hread : Reads buf s.cursor l) (hcursor : s'.cursor = advance s.cursor l)
    (hcalls : s'.consumeCalls = s.consumeCalls + l.length) :
    Ends buf.length s (.returned a s' : Outcome State Stop α) := by
  obtain ⟨hadv, hle⟩ := hread.toNat_advance hbuf hne
  have hpos := List.length_pos_of_ne_nil hne
  refine ⟨fun _ h => (by cases h), ?_, ?_, ?_, fun a' s'' h => ?_⟩
  · rw [Outcome.state_returned, hcalls]
    omega
  · rw [Outcome.state_returned, hcursor, hadv]
    omega
  · rw [Outcome.state_returned, hcursor, hadv]
    omega
  · cases h
    rw [hcursor, hadv]
    omega

/-- A call that stops after it has read the bytes `l`, with one more call of `consumeChar` at the
most. -/
theorem Ends.of_stopped (hbuf : buf.length < 2^32) {e : Stop} {l : Bytes} (he : e ≠ .outOfFuel)
    (hread : Reads buf s.cursor l) (hcursor : s'.cursor = advance s.cursor l)
    (hcalls : s'.consumeCalls ≤ s.consumeCalls + l.length + 1) :
    Ends buf.length s (.stopped e s' : Outcome State Stop α) := by
  have hmoved : s'.cursor.toNat = s.cursor.toNat + l.length ∧
      (l.length = 0 ∨ s.cursor.toNat + l.length ≤ buf.length) := by
    rw [hcursor]
    -- A call that stops may have read nothing, from a cursor anywhere.
    rcases eq_or_ne l [] with rfl | hne
    · simp
    · obtain ⟨hadv, hle⟩ := hread.toNat_advance hbuf hne
      exact ⟨hadv, .inr hle⟩
  refine ⟨fun _ h => he (Outcome.stopped.inj h).1, ?_, ?_, ?_, fun _ _ h => (by cases h)⟩ <;>
    rw [Outcome.state_stopped] <;> omega

/-- A value has at least one byte. -/
theorem Parsed.bytes_ne_nil (t : Parsed) : t.bytes ≠ [] := by
  cases t <;> simp [Parsed.bytes, Text.bytes]

/-- A call that agrees with a scan of what stands at the cursor. -/
theorem Ends.of_agrees (hbuf : buf.length < 2^32) {r : Scan Parsed Broken}
    {o : Outcome State Stop Ptr}
    (h : r.Agrees o (fun t => .returned s.heap.length (t.replay s))
      (fun b => .stopped b.stop (b.replay s)))
    (hhalts : r ≠ .outOfFuel) (hdone : ∀ t, r = .done t → Reads buf s.cursor t.bytes)
    (hstuck : ∀ b, r = .stuck b → Reads buf s.cursor b.bytes) : Ends buf.length s o := by
  cases r with
  | done t =>
    rw [show o = _ from h]
    exact .of_returned hbuf t.bytes_ne_nil (hdone t rfl) (t.replay_cursor s)
      (t.replay_consumeCalls s)
  | stuck b =>
    rw [show o = _ from h]
    exact .of_stopped hbuf b.stop_ne_outOfFuel (hstuck b rfl) (b.replay_cursor s)
      (b.replay_consumeCalls s)
  | outOfFuel => exact absurd rfl hhalts

/-- A function that starts with an assertion about its first byte, where another byte or none
stands. -/
theorem Ends.of_assert (hbuf : buf.length < 2^32) {x : UInt8} (h : buf[s.cursor.toNat]? ≠ some x)
    (rest : Parse α) :
    Ends buf.length s
      ((do
        let curChar ← consumeChar buf
        assert (curChar = x)
        rest : Parse α).run s) := by
  rw [Run.run_bind]
  cases hx : buf[s.cursor.toNat]? with
  | none =>
    rw [consumeChar_none hx]
    exact .of_stopped (l := []) hbuf (by simp) trivial (by simp) (by simp)
  | some y =>
    have hne : y ≠ x := fun hyx => h (by rw [hx, hyx])
    rw [consumeChar_some hx, Outcome.andThen_returned, Run.run_bind, assert, decide_eq_false hne,
      if_neg Bool.false_ne_true]
    exact .of_stopped (l := [y]) hbuf (by simp) (reads_cons.mpr ⟨hx, trivial⟩) rfl (by simp)

/-- `parseArbitrary` ends. -/
theorem parseArbitrary_ends (hbuf : buf.length < 2^32)
    (hn : 3 * (buf.length - s.cursor.toNat) + 3 ≤ n) :
    Ends buf.length s ((parseArbitrary buf n).run s) :=
  .of_agrees hbuf ((agreesAt buf n).arbitrary s) (scanArbitrary_halts hbuf hn)
    (fun _ h => (scanArbitrary_sound h).2) (fun _ h => (scanArbitrary_stuck h).reads)

/-- `parseList` ends. -/
theorem parseList_ends (hbuf : buf.length < 2^32)
    (hn : 3 * (buf.length - s.cursor.toNat) + 3 ≤ n) :
    Ends buf.length s ((parseList buf n).run s) := by
  by_cases hx : buf[s.cursor.toNat]? = some Ascii.l
  · refine .of_agrees hbuf ((agreesAt buf n).list s hx) ?_ (fun t h => ?_) (fun b h => ?_)
    · rw [ne_eq, Scan.map_eq_outOfFuel]
      exact (haltsAt hbuf n).list _ _ hx (by omega)
    · obtain ⟨ts, hts, rfl⟩ := Scan.map_eq_done.mp h
      exact ((soundAt buf n).list _ _ hx hts).2
    · obtain ⟨b', hb', rfl⟩ := Scan.map_eq_stuck.mp h
      exact reads_cons.mpr ⟨hx, ((stuckAt buf n).list _ _ hb').reads⟩
  · -- Called at another byte, the function stops at its assertion.
    obtain ⟨n, rfl⟩ : ∃ m, n = m + 1 := ⟨n - 1, by omega⟩
    rw [parseList]
    exact .of_assert hbuf hx _

/-- `parseDictionary` ends. -/
theorem parseDictionary_ends (hbuf : buf.length < 2^32)
    (hn : 3 * (buf.length - s.cursor.toNat) + 3 ≤ n) :
    Ends buf.length s ((parseDictionary buf n).run s) := by
  by_cases hx : buf[s.cursor.toNat]? = some Ascii.d
  · refine .of_agrees hbuf ((agreesAt buf n).dictionary s hx) ?_ (fun t h => ?_) (fun b h => ?_)
    · rw [ne_eq, Scan.map_eq_outOfFuel]
      exact (haltsAt hbuf n).dictionary _ _ hx (by omega)
    · obtain ⟨es, hes, rfl⟩ := Scan.map_eq_done.mp h
      exact ((soundAt buf n).dictionary _ _ hx hes).2
    · obtain ⟨b', hb', rfl⟩ := Scan.map_eq_stuck.mp h
      exact reads_cons.mpr ⟨hx, ((stuckAt buf n).dictionary _ _ hb').reads⟩
  · -- Called at another byte, the function stops at its assertion.
    obtain ⟨n, rfl⟩ : ∃ m, n = m + 1 := ⟨n - 1, by omega⟩
    rw [parseDictionary]
    exact .of_assert hbuf hx _

/-- `parseInteger` ends. -/
theorem parseInteger_ends (hbuf : buf.length < 2^32)
    (hn : 3 * (buf.length - s.cursor.toNat) + 3 ≤ n) :
    Ends buf.length s ((parseInteger buf n).run s) := by
  by_cases hx : buf[s.cursor.toNat]? = some Ascii.i
  · obtain ⟨hsucc, hc⟩ := toNat_succ hbuf hx
    refine .of_agrees hbuf (parseInteger_agrees n s hx) ?_ (fun t h => ?_) (fun b h => ?_)
    · rw [ne_eq, Scan.map_eq_outOfFuel]
      exact scanBody_halts hbuf (by omega)
    · obtain ⟨body, hbody, rfl⟩ := Scan.map_eq_done.mp h
      exact reads_cons.mpr ⟨hx, (scanBody_sound hbody).2.2.2⟩
    · obtain ⟨b', hb', rfl⟩ := Scan.map_eq_stuck.mp h
      exact reads_cons.mpr ⟨hx, (scanBody_stuck hb').reads⟩
  · -- Called at another byte, the function stops at its assertion.
    unfold parseInteger
    exact .of_assert hbuf hx _

/-- `parseString` ends. -/
theorem parseString_ends (hbuf : buf.length < 2^32)
    (hn : 3 * (buf.length - s.cursor.toNat) + 3 ≤ n) :
    Ends buf.length s ((parseString buf n).run s) := by
  refine .of_agrees hbuf (parseString_agrees n s) ?_ (fun t h => ?_) (fun b h => ?_)
  · rw [ne_eq, Scan.map_eq_outOfFuel]
    exact scanText_halts hbuf (by omega)
  · obtain ⟨k, hk, rfl⟩ := Scan.map_eq_done.mp h
    exact (scanText_sound hk).2
  · obtain ⟨b', hb', rfl⟩ := Scan.map_eq_stuck.mp h
    exact (scanText_stuck hb').reads

/-- `extractString` ends. -/
theorem extractString_ends (hbuf : buf.length < 2^32)
    (hn : 3 * (buf.length - s.cursor.toNat) + 3 ≤ n) :
    Ends buf.length s ((extractString buf n).run s) := by
  have hagree := @extractString_agrees buf n s
  cases hscan : scanText buf n s.cursor with
  | done k =>
    rw [hscan] at hagree
    rw [show (extractString buf n).run s = _ from hagree]
    exact .of_returned hbuf (by simp [Text.bytes]) (scanText_sound hscan).2 rfl rfl
  | stuck b =>
    rw [hscan] at hagree
    rw [show (extractString buf n).run s = _ from hagree]
    obtain ⟨x, hx⟩ := b.stop_threw
    exact .of_stopped hbuf (by simp [hx]) (scanText_stuck hscan).reads (b.replay_cursor s)
      (b.replay_consumeCalls s)
  | outOfFuel => exact absurd hscan (scanText_halts hbuf (by omega))

/-- A parse stops for an exception, or because control runs off the end of `parseArbitrary`. -/
theorem parseArbitrary_stopped {e : Stop} (he : e ≠ .outOfFuel)
    (h : (parseArbitrary buf n).run s = .stopped e s') : (∃ x, e = .threw x) ∨ e = .ranOff := by
  have hagree := (agreesAt buf n).arbitrary s
  rw [h] at hagree
  cases hscan : scanArbitrary buf n s.cursor with
  | done t =>
    rw [hscan] at hagree
    cases hagree
  | stuck b =>
    rw [hscan] at hagree
    obtain ⟨rfl, -⟩ := Outcome.stopped.inj hagree
    exact b.stop_cases
  | outOfFuel =>
    rw [hscan] at hagree
    obtain ⟨s'', hs⟩ := hagree
    exact absurd (Outcome.stopped.inj hs).1 he

/-- On a buffer shorter than `2^32` bytes and from every state, each function of the parser ends
after at most one call of `consumeChar` for each byte and one more, leaves the cursor in the buffer,
and has moved it forward if it returns. `parseArbitrary` and `parseBencodedString` end by returning,
by an exception, or because control runs off the end of `parseArbitrary`. -/
theorem parser_ends (buf : Bytes) (hbuf : buf.length < 2^32) (s : State) (n : ℕ)
    (hn : 3 * buf.length + 3 ≤ n) :
    Ends buf.length s.rewind ((parseBencodedString buf n).run s) ∧
    Ends buf.length s ((parseArbitrary buf n).run s) ∧
    Ends buf.length s ((parseList buf n).run s) ∧
    Ends buf.length s ((parseDictionary buf n).run s) ∧
    Ends buf.length s ((parseString buf n).run s) ∧
    Ends buf.length s ((extractString buf n).run s) ∧
    Ends buf.length s ((parseInteger buf n).run s) ∧
    ∀ e s', (parseBencodedString buf n).run s = .stopped e s' ∨
        (parseArbitrary buf n).run s = .stopped e s' →
      (∃ x, e = .threw x) ∨ e = .ranOff := by
  have hleft : 3 * (buf.length - s.cursor.toNat) + 3 ≤ n := by omega
  have hroot : Ends buf.length s.rewind ((parseBencodedString buf n).run s) :=
    parseArbitrary_ends hbuf (by simpa using hn)
  have harb := parseArbitrary_ends hbuf hleft
  refine ⟨hroot, harb, parseList_ends hbuf hleft, parseDictionary_ends hbuf hleft,
    parseString_ends hbuf hleft, extractString_ends hbuf hleft, parseInteger_ends hbuf hleft, ?_⟩
  rintro e s' (h | h)
  · refine parseArbitrary_stopped (s := s.rewind) (fun he => ?_) h
    exact hroot.halts s' (he ▸ h)
  · refine parseArbitrary_stopped (fun he => ?_) h
    exact harb.halts s' (he ▸ h)

/-- The parse of `i1e` by a fresh parser ends. -/
theorem parser_ends_i1e :
    Ends 3 (fresh {}).rewind ((parseBencodedString [105, 49, 101] 12).run (fresh {})) :=
  (parser_ends [105, 49, 101] (by decide) (fresh {}) 12 (by decide)).1

end

end Btor
