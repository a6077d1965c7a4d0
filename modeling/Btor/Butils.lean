import Btor.Bytes
import Btor.Lib.Numeral

/-!
# The metainfo and the functions of `butils.cpp`

`getSHA1` stores the info hash in two forms, as hexadecimal text for the tracker and as bytes for
the handshake with a peer. `getBitfieldSize` is the number of bytes of the bitfield, and
`setBitInBitfield` and `isBitInBitfieldSet` write and read one bit of it. What C++ leaves undefined
ends the computation here, with a value of `Undefined` that says which operation it was.
-/

namespace Btor

/-- `Metainfo`, without the files and the hashes of the pieces, which nothing reads. -/
structure Metainfo where
  /-- The announce URL. -/
  announce : Bytes := []
  /-- The bencoded string that represents the info dictionary. -/
  infodict : Bytes := []
  /-- The info hash in hex. -/
  infoHashHex : Bytes := []
  /-- The raw info hash in bytes. -/
  infoHashRaw : Bytes := []
  /-- The total size of the files, a `long long int`. -/
  totalLength : Int64 := 0
  /-- The number of bytes in each piece, a `uint64_t`. -/
  pieceLength : UInt64 := 0

/-- The operations with an undefined result. -/
inductive Undefined where
  /-- An integer division by zero. -/
  | division
  /-- A conversion of a `double` outside the range of the integer type. -/
  | conversion
  /-- An access past the end of a vector. -/
  | index
  /-- A shift by a negative number of bits. -/
  | shift
  deriving DecidableEq, Repr

/-! ## The bitfield -/

section

variable (bitfield : Bytes) (bit : Int32)

/-- The element at an `int` index, which becomes a `size_t`. A negative index becomes one past the
end of every vector. -/
def element (i : Int32) : Except Undefined UInt8 :=
  if i < 0 then throw .index
  else match bitfield[i.toNatClampNeg]? with
    | some byte => return byte
    | none => throw .index

/-- `0x80 >> bit_offset` -/
def mask (bitOffset : Int32) : Except Undefined UInt8 :=
  if bitOffset < 0 then throw .shift else return 0x80 >>> UInt8.ofNat bitOffset.toNatClampNeg

/-- Set a bit to 1. Bit 0 is the most significant one of byte 0. -/
def setBitInBitfield : Except Undefined Bytes := do
  let targetByte := bit / 8
  let bitOffset := bit % 8
  let byte ← element bitfield targetByte
  return bitfield.set targetByte.toNatClampNeg (byte ||| (← mask bitOffset))

/-- Check if a bit is set. -/
def isBitInBitfieldSet : Except Undefined Bool := do
  let targetByte := bit / 8
  let bitOffset := bit % 8
  let byte ← element bitfield targetByte
  return byte &&& (← mask bitOffset) != 0

end

/-- The integer that a `double` holds after a conversion from `n`: 53 significant bits, rounded to
nearest with ties to even. -/
def toDouble (n : ℕ) : ℕ :=
  let ulp := 2^(n.log2 - 52)
  let q := n / ulp
  let r := n % ulp
  if 2 * r < ulp ∨ 2 * r = ulp ∧ q % 2 = 0 then q * ulp else (q + 1) * ulp

/-- `ceil` of an integer, which goes to a `double` and back to an `unsigned long long`. Between the
two conversions `ceil` has an integer to round, and does nothing. -/
def ceil (x : UInt64) : Except Undefined UInt64 :=
  if toDouble x.toNat < 2^64 then return UInt64.ofNat (toDouble x.toNat) else throw .conversion

/-- Calculate the size of a bitfield. The division by the unsigned piece length is one of unsigned
integers. -/
def getBitfieldSize (metainfo : Metainfo) : Except Undefined UInt64 := do
  if metainfo.pieceLength = 0 then throw .division
  let numberOfPieces ← ceil (metainfo.totalLength.toUInt64 / metainfo.pieceLength)
  ceil (numberOfPieces / 8)

/-! ## The info hash -/

/-- A hexadecimal digit, as a stream with `std::hex` writes it. -/
def hexDigit (d : ℕ) : UInt8 := if d < 10 then UInt8.ofNat (48 + d) else UInt8.ofNat (87 + d)

/-- A word on a stream with `std::hex`, `std::setfill('0')` and `std::setw(8)`. -/
def hexWord (w : UInt32) : Bytes := Lib.padded 16 hexDigit 8 w.toNat

/-- Fill in both forms of the info hash. `final` gives the five words of the SHA-1 of the info
dictionary, and `memory` the bytes of memory from the address of the vector `res` on that holds
them. That is the address of the vector object, not of its first element. -/
def getSHA1 (final : Bytes → Vector UInt32 5) (memory : ℕ → UInt8) (metainfo : Metainfo) :
    Metainfo :=
  let res := final metainfo.infodict
  { metainfo with
    infoHashHex := res.toList.flatMap hexWord
    -- From `(uint8_t*)&res` up to `sizeof(uint32_t) * 5` bytes after it.
    infoHashRaw := (List.range 20).map memory }

/-- One round of the loop of `urlEncode`, with its counter. -/
def urlEncodeRound (encoded : Bytes × UInt32) (ch : UInt8) : Bytes × UInt32 :=
  let (encodedString, i) := encoded
  ((if i % 2 = 0 then encodedString ++ [Ascii.percent] else encodedString) ++ [ch], i + 1)

/-- Toss a `%` in before every byte of two nibbles. -/
def urlEncode (inputString : Bytes) : Bytes := (inputString.foldl urlEncodeRound ([], 0)).1

end Btor
