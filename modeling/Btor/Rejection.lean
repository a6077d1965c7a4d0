import Btor.Spec

/-!
# The exception for an unexpected byte

The constructor of `BParserException` means to append the byte to its message. The message is a
string literal, so what is added to it is the byte as a number, and the result is a pointer. `char`
is signed, and `isprint` is given the byte as it is. The pointer stays within the literal for the
space alone (`errMsg_eq_ok_iff`), and the error path of the parser ends in an exception only where
that is the unexpected byte (`throws_iff`).
-/

namespace Btor

open Lib (Outcome)

/-! ## The constructor -/

/-- What the constructor may do that C++ leaves undefined. -/
inductive Misuse where
  /-- `isprint` is given neither `EOF` nor a value of an `unsigned char`. -/
  | isprint
  /-- A pointer leaves its string literal. -/
  | pointer
  deriving DecidableEq, Repr

/-- A `char` as an `int`. -/
def charToInt (c : UInt8) : ℤ := c.toInt8.toInt

/-- `isprint`, in the locale that a program starts with. `EOF` is -1. -/
def isprint (c : ℤ) : Except Misuse Bool :=
  if -1 ≤ c ∧ c ≤ 255 then .ok (decide (32 ≤ c ∧ c ≤ 126)) else .error .isprint

/-- The `std::string` at an offset from a string literal, whose last character is the zero after
`s`. -/
def stringAt (s : Bytes) (offset : ℤ) : Except Misuse Bytes :=
  if 0 ≤ offset ∧ offset ≤ s.length then .ok (s.drop offset.toNat) else .error .pointer

/-- `BParserException::BParserException`, with the `errMsg` that it makes. -/
def errMsg (c : UInt8) : Except Misuse Bytes := do
  let printable ← isprint (charToInt c)
  stringAt (literal "Parser error: Unexpected symbol ")
    (charToInt (if printable then c else Ascii.question))

/-- The construction of an exception is defined. `BParserException` alone has a constructor. -/
def Exn.Defined : Exn → Prop
  | .bParserException c => ∃ msg, errMsg c = .ok msg
  | _ => True

/-- The run ends in an exception that is thrown. -/
def Throws {α : Type} (x : Parse α) (s : State) : Prop :=
  ∃ e s', x.run s = .stopped (.threw e) s' ∧ e.Defined

/-- The literal has 32 characters, no printable one is less, and `?` is more. -/
theorem errMsg_eq_ok_iff (c : UInt8) : (∃ msg, errMsg c = .ok msg) ↔ c = 32 := by
  have hfin : ∀ b : BitVec 8, (errMsg (.ofBitVec b)).isOk = (UInt8.ofBitVec b == 32) := by
    decide +kernel
  have hc : (errMsg c).isOk = (c == 32) := hfin c.toBitVec
  rw [← beq_iff_eq, ← hc]
  cases errMsg c with
  | ok msg => simp [Except.isOk, Except.toBool]
  | error e => simp [Except.isOk, Except.toBool]

/-! ## The unexpected byte -/

/-- The byte that the parser gave up on a string for. -/
def BrokenText.unexpected : BrokenText → Option UInt8
  | badByte _ c => some c
  | _ => none

/-- The byte that the parser gave up on an integer for. -/
def BrokenInteger.unexpected : BrokenInteger → Option UInt8
  | badSign _ => some Ascii.minus
  | _ => none

mutual

/-- The byte that the parser gave up on a value for. -/
def Broken.unexpected : Broken → Option UInt8
  | .noByte => none
  | .badByte c => some c
  | .integer b => b.unexpected
  | .string b => b.unexpected
  | .list b => b.unexpected
  | .dict b => b.unexpected

/-- The byte that the parser gave up on the items of a list for. -/
def BrokenItems.unexpected : BrokenItems → Option UInt8
  | .item b => b.unexpected
  | .atEnd _ => none
  | .next _ b => b.unexpected

/-- The byte that the parser gave up on the entries of a dictionary for. -/
def BrokenEntries.unexpected : BrokenEntries → Option UInt8
  | .key b => b.unexpected
  | .value _ b => b.unexpected
  | .notInteger _ _ => none
  | .atEnd _ _ => none
  | .next _ _ b => b.unexpected

end

section

variable {c : UInt8}

/-- A text throws the byte that is unexpected. -/
theorem BrokenText.stop_iff (b : BrokenText) :
    b.stop = .threw (.bParserException c) ↔ b.unexpected = some c := by
  cases b <;> simp [BrokenText.stop, BrokenText.unexpected]

/-- So does an integer. -/
theorem BrokenInteger.stop_iff (b : BrokenInteger) :
    b.stop = .threw (.bParserException c) ↔ b.unexpected = some c := by
  cases b <;> simp [BrokenInteger.stop, BrokenInteger.unexpected]

mutual

/-- A `BParserException` is for an unexpected byte. -/
theorem Broken.stop_iff : ∀ b : Broken,
    b.stop = .threw (.bParserException c) ↔ b.unexpected = some c
  | .noByte => by simp [Broken.stop, Broken.unexpected]
  | .badByte _ => by simp [Broken.stop, Broken.unexpected]
  | .integer b => b.stop_iff
  | .string b => b.stop_iff
  | .list b => b.stop_iff
  | .dict b => b.stop_iff

/-- So do the items of a list. -/
theorem BrokenItems.stop_iff : ∀ b : BrokenItems,
    b.stop = .threw (.bParserException c) ↔ b.unexpected = some c
  | .item b => b.stop_iff
  | .atEnd _ => by simp [BrokenItems.stop, BrokenItems.unexpected]
  | .next _ b => b.stop_iff

/-- So do the entries of a dictionary. -/
theorem BrokenEntries.stop_iff : ∀ b : BrokenEntries,
    b.stop = .threw (.bParserException c) ↔ b.unexpected = some c
  | .key b => b.stop_iff
  | .value _ b => b.stop_iff
  | .notInteger _ _ => by simp [BrokenEntries.stop, BrokenEntries.unexpected]
  | .atEnd _ _ => by simp [BrokenEntries.stop, BrokenEntries.unexpected]
  | .next _ _ b => b.stop_iff

end

end

/-! ## The error paths -/

section

variable {buf : Bytes} {n : ℕ} {s s' : State} {c : UInt8}

/-- A run that stops with a `BParserException` ends in it exactly if its byte is the space. -/
theorem throws_iff_of_stopped {α : Type} {x : Parse α}
    (h : x.run s = .stopped (.threw (.bParserException c)) s') : Throws x s ↔ c = 32 := by
  rw [← errMsg_eq_ok_iff]
  constructor
  · rintro ⟨e, s'', hrun, hdefined⟩
    obtain ⟨he, -⟩ := Outcome.stopped.inj (h.symm.trans hrun)
    obtain rfl := Stop.threw.inj he
    exact hdefined
  · intro hdefined
    exact ⟨_, s', h, hdefined⟩

/-- `parseArbitrary` throws the exception for the byte that it gives up on a value for. -/
theorem parseArbitrary_unexpected {b : Broken} (hb : b.FoundAt buf s.cursor)
    (hc : b.unexpected = some c) (hn : 3 * b.bytes.length + 3 ≤ n) :
    (parseArbitrary buf n).run s = .stopped (.threw (.bParserException c)) (b.replay s) := by
  have hagree := (agreesAt buf n).arbitrary s
  rw [scanArbitrary_foundAt hn hb] at hagree
  rw [← b.stop_iff.mpr hc]
  exact hagree

/-- `extractString` throws the exception for the byte that it gives up on a string for. -/
theorem extractString_unexpected {b : BrokenText} (hb : b.FoundAt buf s.cursor)
    (hc : b.unexpected = some c) (hn : b.bytes.length ≤ n) :
    (extractString buf n).run s = .stopped (.threw (.bParserException c)) (b.replay s) := by
  have hagree := @extractString_agrees buf n s
  rw [scanText_foundAt hn hb] at hagree
  rw [← b.stop_iff.mpr hc]
  exact hagree

/-- `parseInteger` throws the exception for a sign that is not in front. -/
theorem parseInteger_unexpected {b : BrokenInteger} (hi : buf[s.cursor.toNat]? = some Ascii.i)
    (hb : b.FoundAt buf (s.cursor + 1) true) (hc : b.unexpected = some c)
    (hn : b.bytes.length < n) : ∃ s',
    (parseInteger buf n).run s = .stopped (.threw (.bParserException c)) s' := by
  have hagree := parseInteger_agrees n s hi
  rw [scanBody_foundAt hn hb] at hagree
  rw [← b.stop_iff.mpr hc]
  exact ⟨_, hagree⟩

/-- Conversely, the byte of the exception is one that `parseArbitrary` gave up on a value for. -/
theorem exists_unexpected_of_stopped
    (h : (parseArbitrary buf n).run s = .stopped (.threw (.bParserException c)) s') :
    ∃ b : Broken, b.FoundAt buf s.cursor ∧ b.unexpected = some c := by
  have hagree := (agreesAt buf n).arbitrary s
  rw [h] at hagree
  cases hscan : scanArbitrary buf n s.cursor with
  | done t =>
    rw [hscan] at hagree
    cases hagree
  | stuck b =>
    rw [hscan] at hagree
    have hstop := (Outcome.stopped.inj hagree).1
    exact ⟨b, scanArbitrary_stuck hscan, b.stop_iff.mp hstop.symm⟩
  | outOfFuel =>
    rw [hscan] at hagree
    obtain ⟨s'', hs⟩ := hagree
    cases (Outcome.stopped.inj hs).1

end

/-- Where `parseArbitrary`, `extractString` or `parseInteger` meets an unexpected byte, at any
depth, it ends in a thrown exception exactly if the byte is the space. -/
theorem throws_iff (buf : Bytes) (n : ℕ) (s : State) (c : UInt8) :
    (∀ b : Broken, b.FoundAt buf s.cursor → b.unexpected = some c → 3 * b.bytes.length + 3 ≤ n →
      (Throws (parseArbitrary buf n) s ↔ c = 32)) ∧
    (∀ b : BrokenText, b.FoundAt buf s.cursor → b.unexpected = some c → b.bytes.length ≤ n →
      (Throws (extractString buf n) s ↔ c = 32)) ∧
    ∀ b : BrokenInteger, buf[s.cursor.toNat]? = some Ascii.i → b.FoundAt buf (s.cursor + 1) true →
      b.unexpected = some c → b.bytes.length < n →
      (Throws (parseInteger buf n) s ↔ c = 32) := by
  refine ⟨fun b hb hc hn => ?_, fun b hb hc hn => ?_, fun b hi hb hc hn => ?_⟩
  · exact throws_iff_of_stopped (parseArbitrary_unexpected hb hc hn)
  · exact throws_iff_of_stopped (extractString_unexpected hb hc hn)
  · obtain ⟨s', hrun⟩ := parseInteger_unexpected hi hb hc hn
    exact throws_iff_of_stopped hrun

/-- The exception for a space is thrown. -/
theorem throws_iff_space : Throws (parseArbitrary [32] 3) (fresh {}) := by
  have hfound : (Broken.badByte 32).FoundAt [32] (fresh {}).cursor := by
    refine ⟨rfl, ?_, ?_, ?_, ?_⟩ <;> decide
  exact ((throws_iff [32] 3 (fresh {}) 32).1 (.badByte 32) hfound rfl (by decide)).mpr rfl

/-- The byte `x` starts no value, and the pointer is 120 bytes past the start of the literal. -/
theorem not_forall_throws : ¬ ∀ (buf : Bytes) (n : ℕ) (s : State) (c : UInt8) (b : Broken),
    b.FoundAt buf s.cursor → b.unexpected = some c → 3 * b.bytes.length + 3 ≤ n →
    Throws (parseArbitrary buf n) s := by
  intro hclaim
  have hfound : (Broken.badByte 120).FoundAt [120] (fresh {}).cursor := by
    refine ⟨rfl, ?_, ?_, ?_, ?_⟩ <;> decide
  have hthrows := hclaim [120] 3 (fresh {}) 120 (.badByte 120) hfound rfl (by decide)
  have hrun := parseArbitrary_unexpected (n := 3) hfound rfl (by decide)
  exact absurd ((throws_iff_of_stopped hrun).mp hthrows) (by decide)

end Btor
