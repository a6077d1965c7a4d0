import Btor.Format
import Btor.Lib.Numeral

/-!
# Numbers too large for their type

The parser reads decimal numbers into an `int64_t`, and the lengths of strings into an `int`, with
no check of the range; a comment of `bencode.cpp` assumes that integers fit. An integer is read
modulo `2^64`, and a length is counted modulo `2^32`. Both are exact, and no product, sum or
negation on the way leaves its type, for digits that denote less than `2^63` and `2^31`
(`parse_numbers`).
-/

namespace Btor

open Lib (Run Outcome StepsFit Fits)

/-- The bytes between `i` and `e` of an integer with the digits `ds`, with or without a sign. -/
def signed (neg : Bool) (ds : Bytes) : Bytes := if neg then Ascii.minus :: ds else ds

/-- The integer that they denote. -/
def signedValue (neg : Bool) (ds : Bytes) : ℤ := if neg then -decimal ds else decimal ds

section

variable {ds : Bytes} (hds : ∀ c ∈ ds, isDigit c = true)

include hds

/-- The accumulator of `parseInteger` holds the number read so far, modulo `2^64`. -/
theorem toInt_intDigits {l : Bytes} (hl : l <+: ds) :
    (intDigits l).toInt = (decimal l : ℤ).bmod (2^64) := by
  rw [intDigits_of_digits fun c hc => hds c (hl.subset hc), Int64.toInt_ofNat']
  rfl

omit hds in
/-- The accumulator of `extractString` holds the length read so far, modulo `2^32`. -/
theorem toInt_textLength (l : Bytes) : (textLength l).toInt = (decimal l : ℤ).bmod (2^32) := by
  rw [textLength_eq, Int32.toInt_ofNat']
  rfl

/-- The integer that `parseInteger` computes is the one denoted, modulo `2^64`. -/
theorem toInt_intOf (neg : Bool) :
    (intOf (signed neg ds)).toInt = (signedValue neg ds).bmod (2^64) := by
  obtain ⟨-, hminus⟩ := notMem_of_digits hds
  cases neg with
  | false =>
    rw [signed, if_neg (by simp), intOf, if_neg hminus]
    exact toInt_intDigits hds (List.prefix_refl ds)
  | true =>
    -- The sign is passed over in the loop.
    have hdigits : intDigits (Ascii.minus :: ds) = Int64.ofNat (decimal ds) := by
      rw [← intDigits_of_digits hds]
      rfl
    rw [signed, if_pos rfl, intOf, if_pos List.mem_cons_self, hdigits, ← Int64.ofInt_eq_ofNat,
      ← Int64.ofInt_neg, Int64.toInt_ofInt]
    rfl

/-- Digits after a sign or none pass the checks of `parseInteger`. -/
theorem signed_accepted (neg : Bool) : IntAccepted (signed neg ds) := by
  obtain ⟨he, hminus⟩ := notMem_of_digits hds
  cases neg with
  | false => exact ⟨he, fun hm => hminus (List.mem_of_mem_tail hm)⟩
  | true => exact ⟨by simpa [signed] using he, hminus⟩

/-- `parseInteger` returns on digits, after a sign or none. -/
theorem parseInteger_signed {buf : Bytes} {n : ℕ} {neg : Bool} (hn : ds.length + 1 < n) (s : State)
    (h : Reads buf s.cursor (Ascii.i :: (signed neg ds ++ [Ascii.e]))) :
    (parseInteger buf n).run s =
      .returned s.heap.length ((Parsed.integer (signed neg ds)).replay s) := by
  obtain ⟨hi, hrest⟩ := h
  have hlen : (signed neg ds).length < n := by
    cases neg <;> simp [signed] <;> omega
  obtain ⟨he, hminus⟩ := signed_accepted hds neg
  have hscan : scanBody buf n (s.cursor + 1) true = .done (signed neg ds) :=
    scanBody_complete hlen he hminus (by simp) hrest
  have hagree := parseInteger_agrees n s hi
  rw [hscan] at hagree
  exact hagree

/-- The digits before a colon at a cursor are determined. -/
theorem digits_unique {buf : Bytes} {c : UInt32} {ds' : Bytes}
    (hds' : ∀ c ∈ ds', isDigit c = true) (h : Reads buf c (ds ++ [Ascii.colon]))
    (h' : Reads buf c (ds' ++ [Ascii.colon])) : ds = ds' := by
  induction ds generalizing c ds' with
  | nil =>
    cases ds' with
    | nil => rfl
    | cons x ds' =>
      have hx : x = Ascii.colon := Option.some.inj (h'.1.symm.trans h.1)
      exact absurd hx (isDigit_ne (hds' x List.mem_cons_self)).2.2.2.2.1
  | cons x ds ih =>
    cases ds' with
    | nil =>
      have hx : x = Ascii.colon := Option.some.inj (h.1.symm.trans h'.1)
      exact absurd hx (isDigit_ne (hds x List.mem_cons_self)).2.2.2.2.1
    | cons y ds' =>
      have hxy : x = y := Option.some.inj (h.1.symm.trans h'.1)
      rw [hxy, ih (List.forall_mem_cons.mp hds).2 (List.forall_mem_cons.mp hds').2 h.2 h'.2]

/-- What `extractString` returns has as many bytes as the digits say, modulo `2^32`. -/
theorem extractString_length {buf l : Bytes} {n : ℕ} {s s' : State}
    (h : Reads buf s.cursor (ds ++ [Ascii.colon]))
    (hrun : (extractString buf n).run s = .returned l s') : l.length = decimal ds % 2^32 := by
  have hagree := @extractString_agrees buf n s
  rw [hrun] at hagree
  cases hscan : scanText buf n s.cursor with
  | done k =>
    rw [hscan] at hagree
    obtain ⟨rfl, -⟩ := Outcome.returned.inj hagree
    obtain ⟨⟨hdigits, hlen⟩, hread⟩ := scanText_sound hscan
    rw [Text.bytes, List.append_cons, reads_append] at hread
    rw [hlen, digits_unique hds hdigits h hread.1]
  | stuck b =>
    rw [hscan] at hagree
    cases hagree
  | outOfFuel =>
    rw [hscan] at hagree
    obtain ⟨s₁, hs⟩ := hagree
    cases hs

omit hds in
/-- The countdown of a length ends, also where it starts below zero. -/
theorem scanPayload_ends {buf : Bytes} {n : ℕ} {c : UInt32} {len : Int32}
    (hn : len.toUInt32.toNat < n) : scanPayload buf n c len ≠ .outOfFuel := by
  induction n generalizing c len with
  | zero => exact absurd hn (Nat.not_lt_zero _)
  | succ n ih =>
    rw [scanPayload]
    split_ifs with hlen
    · simp
    · have hsub := toNat_sub_one hlen
      split
      · simp
      · rw [ne_eq, Scan.map_eq_outOfFuel]
        exact ih (by omega)

/-- After digits and a colon, `extractString` returns or finds the end of the buffer. -/
theorem extractString_total {buf : Bytes} {n : ℕ} {s : State} (hn : ds.length + 2^32 < n)
    (h : Reads buf s.cursor (ds ++ [Ascii.colon])) :
    (∃ l s', (extractString buf n).run s = .returned l s') ∨
      ∃ s', (extractString buf n).run s = .stopped (.threw .outOfRange) s' := by
  have hdigits := scanDigits_complete (n := n) (by omega) hds h
  have hlen : (textLength ds).toUInt32.toNat < n := by
    have hlt := (textLength ds).toUInt32.toNat_lt
    omega
  have hagree := @extractString_agrees buf n s
  rw [scanText, hdigits] at hagree
  cases hscan : scanPayload buf n (advance s.cursor (ds ++ [Ascii.colon])) (textLength ds) with
  | done p =>
    simp only [hscan] at hagree
    exact .inl ⟨_, _, hagree⟩
  | stuck p =>
    simp only [hscan] at hagree
    exact .inr ⟨_, hagree⟩
  | outOfFuel => exact absurd hscan (scanPayload_ends hlen)

end

/-- Of any digits, with a sign or none, `parseInteger` returns the integer denoted modulo `2^64`,
and a string with them as its length has as many bytes as they say modulo `2^32`, unless the buffer
ends in it. The integer and the length are those denoted if the digits denote less than `2^63` and
`2^31`. Exactly then no product, no sum and no negation leaves its type. -/
theorem parse_numbers {ds : Bytes} (hds : ∀ c ∈ ds, isDigit c = true) (buf : Bytes) (s : State) :
    (∀ (neg : Bool) (n : ℕ), Reads buf s.cursor (Ascii.i :: (signed neg ds ++ [Ascii.e])) →
      ds.length + 1 < n → ∃ v s', (parseInteger buf n).run s = .returned s.heap.length s' ∧
        s'.heap[s.heap.length]? = some (.ofInt v) ∧
        v.toInt = (signedValue neg ds).bmod (2^64) ∧
        (decimal ds < 2^63 → v.toInt = signedValue neg ds)) ∧
    (StepsFit 10 63 digit (fun l => (intDigits l).toInt) ds ∧ Fits 63 (-(intDigits ds).toInt) ↔
      decimal ds < 2^63) ∧
    (Reads buf s.cursor (ds ++ [Ascii.colon]) →
      (∀ n l s', (extractString buf n).run s = .returned l s' →
        l.length = decimal ds % 2^32 ∧ (decimal ds < 2^31 → l.length = decimal ds)) ∧
      ∀ n, ds.length + 2^32 < n → (∃ l s', (extractString buf n).run s = .returned l s') ∨
        ∃ s', (extractString buf n).run s = .stopped (.threw .outOfRange) s') ∧
    (StepsFit 10 31 digit (fun l => (textLength l).toInt) ds ↔ decimal ds < 2^31) := by
  have hint : StepsFit 10 63 digit (fun l => (intDigits l).toInt) ds ↔ decimal ds < 2^63 :=
    Lib.stepsFit_iff (by decide) fun l hl => toInt_intDigits hds hl
  refine ⟨fun neg n hread hn => ?_, ⟨fun h => hint.mp h.1, fun h => ⟨hint.mpr h, ?_⟩⟩,
    fun hread => ⟨fun n l s' hrun => ?_, fun n hn => extractString_total hds hn hread⟩,
    Lib.stepsFit_iff (by decide) fun l _ => toInt_textLength l⟩
  · refine ⟨intOf (signed neg ds), _, parseInteger_signed hds hn s hread, ?_, toInt_intOf hds neg,
      fun h => ?_⟩
    · rw [Parsed.replay_heap_head]
      rfl
    · rw [toInt_intOf hds neg]
      have hlt : (decimal ds : ℤ) < 2^63 := by exact_mod_cast h
      apply Int.bmod_eq_of_le <;> cases neg <;> simp [signedValue] <;> omega
  · -- The type has room for the negation of all that is not negative.
    have hlt : (decimal ds : ℤ) < 2^63 := by exact_mod_cast h
    rw [toInt_intDigits hds (List.prefix_refl ds), Lib.bmod_of_lt (b := 63) h]
    exact ⟨by omega, by omega⟩
  · have hlen := extractString_length hds hread hrun
    exact ⟨hlen, fun h => by omega⟩

/-- The integer of `i-5e`. -/
theorem parse_numbers_five : ∃ v s', (parseInteger [105, 45, 53, 101] 3).run (fresh {}) =
    .returned 0 s' ∧ s'.heap[0]? = some (.ofInt v) ∧ v.toInt = -5 := by
  have hds : ∀ c ∈ [(53 : UInt8)], isDigit c = true := by simp [isDigit]
  obtain ⟨v, s', hrun, hobj, -, hv⟩ := (parse_numbers hds [105, 45, 53, 101] (fresh {})).1 true 3
    (by decide) (by decide)
  exact ⟨v, s', hrun, hobj, hv (by decide)⟩

/-- The parser reads the integer one in `i18446744073709551617e`. -/
theorem not_parse_numbers : ¬ ∀ (ds buf : Bytes) (neg : Bool) (n : ℕ) (s s' : State) (p : Ptr)
    (obj : BObject), (∀ c ∈ ds, isDigit c = true) →
    Reads buf s.cursor (Ascii.i :: (signed neg ds ++ [Ascii.e])) →
    (parseInteger buf n).run s = .returned p s' → s'.heap[p]? = some obj →
    obj.intVal.toInt = signedValue neg ds := by
  intro h
  have hread := h [49, 56, 52, 52, 54, 55, 52, 52, 48, 55, 51, 55, 48, 57, 53, 53, 49, 54, 49, 55]
    [105, 49, 56, 52, 52, 54, 55, 52, 52, 48, 55, 51, 55, 48, 57, 53, 53, 49, 54, 49, 55, 101]
    false 30 (fresh {}) _ _ _ (by simp [isDigit]) (by decide) rfl rfl
  exact absurd hread (by decide +kernel)

end Btor
