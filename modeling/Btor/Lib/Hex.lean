import Btor.Lib.Numeral

/-!
# Hexadecimal text and percent-encoding

Bytes as hexadecimal text, two digits for each byte, and percent-encoded text, where a `%` and two
digits stand for a byte and every other character for itself. Digits of either case are read.
Hexadecimal text of an even length decodes to the bytes of the number that it denotes
(`hexDecode_digits`), and percent-decodes to the same bytes once each pair of digits has a `%`
before it (`percentDecode_insertPercents`).
-/

namespace Lib

/-- The value of a hexadecimal digit. -/
def hexValue (c : UInt8) : Option ℕ :=
  if 48 ≤ c.toNat ∧ c.toNat ≤ 57 then some (c.toNat - 48)
  else if 65 ≤ c.toNat ∧ c.toNat ≤ 70 then some (c.toNat - 55)
  else if 97 ≤ c.toNat ∧ c.toNat ≤ 102 then some (c.toNat - 87)
  else none

/-- The value of a character that is known to be a hexadecimal digit. -/
def hexDigitValue (c : UInt8) : ℕ := (hexValue c).getD 0

/-- The byte that two hexadecimal digits denote. -/
def hexByte (a b : UInt8) : Option UInt8 := do
  let x ← hexValue a
  let y ← hexValue b
  return UInt8.ofNat (x * 16 + y)

/-- The bytes that hexadecimal text denotes, where it is one. -/
def hexDecode : List UInt8 → Option (List UInt8)
  | [] => some []
  | [_] => none
  | a :: b :: rest => do
    let byte ← hexByte a b
    let bytes ← hexDecode rest
    return byte :: bytes

/-- The bytes that percent-encoded text denotes, where it is one. -/
def percentDecode : List UInt8 → Option (List UInt8)
  | [] => some []
  | 37 :: a :: b :: rest => do
    let byte ← hexByte a b
    let bytes ← percentDecode rest
    return byte :: bytes
  | c :: rest => if c = 37 then none else (percentDecode rest).map (c :: ·)

/-- A `%` before every second character. -/
def insertPercents : List UInt8 → List UInt8
  | [] => []
  | [a] => [37, a]
  | a :: b :: rest => 37 :: a :: b :: insertPercents rest

/-- A hexadecimal digit is below sixteen. -/
theorem hexValue_lt {c : UInt8} {d : ℕ} (h : hexValue c = some d) : d < 16 := by
  unfold hexValue at h
  split_ifs at h <;> cases h <;> omega

/-- Two digits denote a byte. -/
theorem hexByte_digits {a b : UInt8} {x y : ℕ} (ha : hexValue a = some x)
    (hb : hexValue b = some y) : ∃ byte, hexByte a b = some byte ∧ byte.toNat = x * 16 + y := by
  have hx := hexValue_lt ha
  have hy := hexValue_lt hb
  refine ⟨UInt8.ofNat (x * 16 + y), ?_, ?_⟩
  · simp [hexByte, ha, hb]
  · rw [UInt8.toNat_ofNat_of_lt' (by simp [UInt8.size]; omega)]

/-- Digits in pairs decode to the bytes of the number that they denote. -/
theorem hexDecode_digits {k : ℕ} {ds : List UInt8} (hlen : ds.length = 2 * k)
    (hds : ∀ c ∈ ds, ∃ d, hexValue c = some d) :
    ∃ bytes, hexDecode ds = some bytes ∧ bytes.length = k ∧
      horner 256 UInt8.toNat bytes = horner 16 hexDigitValue ds := by
  induction k generalizing ds with
  | zero =>
    rw [List.length_eq_zero_iff.mp hlen]
    exact ⟨[], rfl, rfl, rfl⟩
  | succ k ih =>
    obtain ⟨a, b, rest, rfl⟩ : ∃ a b rest, ds = a :: b :: rest := by
      match ds, hlen with
      | a :: b :: rest, _ => exact ⟨a, b, rest, rfl⟩
    obtain ⟨⟨x, hx⟩, ⟨y, hy⟩, hrest⟩ := by simpa only [List.forall_mem_cons] using hds
    have hk : rest.length = 2 * k := by
      simp only [List.length_cons] at hlen
      omega
    obtain ⟨byte, hbyte, hvalue⟩ := hexByte_digits hx hy
    obtain ⟨bytes, hdecode, hbytes, hhorner⟩ := ih hk hrest
    refine ⟨byte :: bytes, ?_, by rw [List.length_cons, hbytes], ?_⟩
    · simp [hexDecode, hbyte, hdecode]
    · -- Two digits weigh as much as the byte.
      have hpow : 256 ^ k = (16 : ℕ) ^ rest.length := by
        rw [hk, pow_mul]
        norm_num
      rw [horner_cons, horner_cons, horner_cons, hhorner, hbytes, hvalue, hpow, List.length_cons,
        pow_succ]
      simp only [hexDigitValue, hx, hy, Option.getD_some]
      ring

/-- Text after text that decodes. -/
theorem hexDecode_append {ds ds' bytes : List UInt8} (h : hexDecode ds = some bytes) :
    hexDecode (ds ++ ds') = (hexDecode ds').map (bytes ++ ·) := by
  induction ds using hexDecode.induct generalizing bytes with
  | case1 =>
    cases h
    simp
  | case2 a => cases h
  | case3 a b rest ih =>
    rw [hexDecode] at h
    cases hbyte : hexByte a b with
    | none => simp [hbyte] at h
    | some byte =>
      cases hdecode : hexDecode rest with
      | none => simp [hbyte, hdecode] at h
      | some rest' =>
        simp only [hbyte, hdecode, Option.bind_eq_bind, Option.bind_some, Option.pure_def,
          Option.some.injEq] at h
        subst h
        rw [List.cons_append, List.cons_append, hexDecode, ih hdecode, hbyte]
        cases hexDecode ds' <;> rfl

/-- Hexadecimal text with a `%` before each pair of digits percent-decodes to its bytes. -/
theorem percentDecode_insertPercents {ds bytes : List UInt8} (h : hexDecode ds = some bytes) :
    percentDecode (insertPercents ds) = some bytes := by
  induction ds using hexDecode.induct generalizing bytes with
  | case1 => exact h
  | case2 a => cases h
  | case3 a b rest ih =>
    rw [hexDecode] at h
    cases hdecode : hexDecode rest with
    | none => cases hbyte : hexByte a b <;> simp [hbyte, hdecode] at h
    | some rest' =>
      rw [insertPercents, percentDecode, ih hdecode, ← hdecode]
      exact h

/-- After a `%` there have to be two hexadecimal digits. -/
theorem percentDecode_of_first {a : UInt8} (ha : hexValue a = none) (rest : List UInt8) :
    percentDecode (37 :: a :: rest) = none := by
  cases rest with
  | nil => rfl
  | cons b rest => simp [percentDecode, hexByte, ha]

/-- A second digit that is none ends the decoding. -/
theorem percentDecode_of_second {b : UInt8} (hb : hexValue b = none) (a : UInt8)
    (rest : List UInt8) : percentDecode (37 :: a :: b :: rest) = none := by
  cases ha : hexValue a <;> simp [percentDecode, hexByte, ha, hb]

/-- Text without a `%` percent-decodes to itself. -/
theorem percentDecode_of_notMem {l : List UInt8} (h : 37 ∉ l) : percentDecode l = some l := by
  induction l with
  | nil => rfl
  | cons c l ih =>
    obtain ⟨hc, hl⟩ := not_or.mp (mt List.mem_cons.mpr h)
    rw [percentDecode, if_neg (Ne.symm hc), ih hl]
    · rfl
    · rintro a b rest rfl
      exact absurd rfl hc

/-- Every character of text with percent signs put in is one of the text or a `%`. -/
theorem mem_of_mem_insertPercents {ds : List UInt8} {c : UInt8} (h : c ∈ insertPercents ds) :
    c = 37 ∨ c ∈ ds := by
  induction ds using hexDecode.induct with
  | case1 => cases h
  | case2 a => simpa [insertPercents] using h
  | case3 a b rest ih =>
    rw [insertPercents] at h
    simp only [List.mem_cons] at h ⊢
    tauto

end Lib
