import Mathlib

/-!
# Bytes, characters and keys

The buffers and strings of the program are lists of bytes. A `char` of the build is signed, which
only `isprint` sees: the comparisons of the parser with `'0'` and `'9'` put a byte from 128 up
outside the digits under either sign.
-/

namespace Btor

/-- The bytes of a `std::string` or of a `std::vector<char>`. -/
abbrev Bytes := List UInt8

/-- The order of `std::string` compares bytes as unsigned numbers. -/
instance instLinearOrderUInt8 : LinearOrder UInt8 where
  le_refl := UInt8.le_refl
  le_trans _ _ _ := UInt8.le_trans
  le_antisymm _ _ := UInt8.le_antisymm
  le_total := UInt8.le_total
  lt_iff_le_not_ge a b := by
    rw [UInt8.le_iff_toNat_le, UInt8.lt_iff_toNat_lt, UInt8.le_iff_toNat_le]
    omega
  toDecidableLE := inferInstance

namespace Ascii

/-- `'i'` -/
@[simp] abbrev i : UInt8 := 105
/-- `'l'` -/
@[simp] abbrev l : UInt8 := 108
/-- `'d'` -/
@[simp] abbrev d : UInt8 := 100
/-- `'e'` -/
@[simp] abbrev e : UInt8 := 101
/-- `':'` -/
@[simp] abbrev colon : UInt8 := 58
/-- `'/'` -/
@[simp] abbrev slash : UInt8 := 47
/-- `'?'` -/
@[simp] abbrev question : UInt8 := 63
/-- `'%'` -/
@[simp] abbrev percent : UInt8 := 37
/-- `'&'` -/
@[simp] abbrev ampersand : UInt8 := 38
/-- `'='` -/
@[simp] abbrev equals : UInt8 := 61
/-- `'-'` -/
@[simp] abbrev minus : UInt8 := 45
/-- `'0'` -/
@[simp] abbrev zero : UInt8 := 48
/-- `'9'` -/
@[simp] abbrev nine : UInt8 := 57

end Ascii

/-- `'0' <= ch && ch <= '9'` -/
def isDigit (ch : UInt8) : Bool := Ascii.zero ≤ ch && ch ≤ Ascii.nine

/-- `ch - '0'`, for a digit. -/
def digit (ch : UInt8) : ℕ := ch.toNat - Ascii.zero.toNat

/-- The number that decimal digits denote, most significant first. -/
def decimal (ds : Bytes) : ℕ := ds.foldl (fun n c => n * 10 + digit c) 0

/-- The bytes of a string literal of the source. -/
def literal (s : String) : Bytes := s.toList.map fun c => UInt8.ofNat c.toNat

/-- `"info"` -/
def infoKey : Bytes := [105, 110, 102, 111]

/-- `"length"` -/
def lengthKey : Bytes := [108, 101, 110, 103, 116, 104]

/-- The digits are the bytes from 48 to 57. -/
theorem isDigit_iff {ch : UInt8} : isDigit ch = true ↔ 48 ≤ ch.toNat ∧ ch.toNat ≤ 57 := by
  simp [isDigit, UInt8.le_iff_toNat_le]

/-- No digit is a delimiter of the format. -/
theorem isDigit_ne {ch : UInt8} (h : isDigit ch = true) :
    ch ≠ Ascii.i ∧ ch ≠ Ascii.l ∧ ch ≠ Ascii.d ∧ ch ≠ Ascii.e ∧ ch ≠ Ascii.colon ∧
      ch ≠ Ascii.minus := by
  rw [isDigit_iff] at h
  refine ⟨?_, ?_, ?_, ?_, ?_, ?_⟩ <;> rintro rfl <;> simp at h

end Btor
