import Btor.Bhttp
import Btor.Lib.Hex

/-!
# The two forms of the info hash

The hexadecimal form that `getSHA1` stores decodes to the 20 bytes of the digest
(`hexDecode_infoHashHex`). The raw form, which a comment says is for the handshake, is copied from
the address of the vector that holds the words. That is the object with the pointers of the vector,
and not the words. The two forms agree exactly if the memory of that object spells the digest
(`getSHA1_agree_iff`), and that is left to where the words are placed: of no infodict, on no
platform and in no order of bytes, do they agree wherever the words are (`getSHA1_never_agree`).
-/

namespace Btor

open Lib (horner hexDecode hexDigitValue hexValue)

/-- The bytes of a word, the most significant one first. -/
def wordBytes (w : UInt32) : Bytes :=
  [(w >>> 24).toUInt8, (w >>> 16).toUInt8, (w >>> 8).toUInt8, w.toUInt8]

/-- The 20 bytes of a digest, word for word. -/
def digestBytes (digest : Vector UInt32 5) : Bytes := digest.toList.flatMap wordBytes

/-- The word that four bytes spell. -/
def spelledWord (b₀ b₁ b₂ b₃ : UInt8) : UInt32 :=
  UInt32.ofNat (horner 256 UInt8.toNat [b₀, b₁, b₂, b₃])

/-- The digest that the first 20 bytes of memory spell. -/
def spelledDigest (memory : ℕ → UInt8) : Vector UInt32 5 :=
  .ofFn fun i => spelledWord (memory (4 * i)) (memory (4 * i + 1)) (memory (4 * i + 2))
    (memory (4 * i + 3))

/-- The raw form has the 20 bytes that the hexadecimal form decodes to, those of the digest. -/
def HashesAgree (metainfo : Metainfo) (digest : Vector UInt32 5) : Prop :=
  metainfo.infoHashRaw.length = 20 ∧ hexDecode metainfo.infoHashHex = some metainfo.infoHashRaw ∧
    metainfo.infoHashRaw = digestBytes digest

/-! ## Words and their bytes -/

/-- A word has four bytes. -/
@[simp] theorem length_wordBytes (w : UInt32) : (wordBytes w).length = 4 := rfl

/-- The bytes of a word are its digits in base 256. -/
theorem horner_wordBytes (w : UInt32) : horner 256 UInt8.toNat (wordBytes w) = w.toNat := by
  have hw := w.toNat_lt
  have hbyte (k : UInt32) : (w >>> k).toUInt8.toNat = w.toNat / 2^(k.toNat % 32) % 256 := by
    rw [UInt32.toNat_toUInt8, UInt32.toNat_shiftRight, Nat.shiftRight_eq_div_pow]
  have h₂₄ : (24 : UInt32).toNat % 32 = 24 := rfl
  have h₁₆ : (16 : UInt32).toNat % 32 = 16 := rfl
  have h₈ : (8 : UInt32).toNat % 32 = 8 := rfl
  simp only [wordBytes, horner, List.foldl_cons, List.foldl_nil, hbyte, UInt32.toNat_toUInt8,
    h₂₄, h₁₆, h₈]
  omega

/-- Four bytes are determined by the number that they denote. -/
theorem bytes_ext {l l' : Bytes} (hlen : l.length = l'.length)
    (h : horner 256 UInt8.toNat l = horner 256 UInt8.toNat l') : l = l' :=
  Lib.eq_of_horner_eq (by decide) (fun _ _ => UInt8.toNat_inj.mp) UInt8.toNat_lt hlen h

/-- Words with the same bytes are the same. -/
theorem wordBytes_injective : Function.Injective wordBytes := by
  intro w w' h
  rw [← UInt32.toNat_inj, ← horner_wordBytes, ← horner_wordBytes, h]

/-- The bytes of the word that four bytes spell. -/
theorem wordBytes_spelledWord (b₀ b₁ b₂ b₃ : UInt8) :
    wordBytes (spelledWord b₀ b₁ b₂ b₃) = [b₀, b₁, b₂, b₃] := by
  refine bytes_ext (length_wordBytes _) ?_
  rw [horner_wordBytes, spelledWord, UInt32.toNat_ofNat_of_lt']
  have h₀ := b₀.toNat_lt
  have h₁ := b₁.toNat_lt
  have h₂ := b₂.toNat_lt
  have h₃ := b₃.toNat_lt
  simp only [horner, List.foldl_cons, List.foldl_nil, UInt32.size]
  omega

/-- A digest has 20 bytes. -/
@[simp] theorem length_digestBytes (digest : Vector UInt32 5) :
    (digestBytes digest).length = 20 := by
  simp [digestBytes, List.length_flatMap]

/-- Lists of words with the same bytes are the same. -/
theorem flatMap_wordBytes_injective {ws ws' : List UInt32}
    (h : ws.flatMap wordBytes = ws'.flatMap wordBytes) : ws = ws' := by
  induction ws generalizing ws' with
  | nil =>
    cases ws' with
    | nil => rfl
    | cons w' ws' => cases h
  | cons w ws ih =>
    cases ws' with
    | nil => cases h
    | cons w' ws' =>
      obtain ⟨hw, hws⟩ := List.append_inj h (by simp)
      rw [wordBytes_injective hw, ih hws]

/-- A digest is determined by its bytes. -/
theorem digestBytes_injective : Function.Injective digestBytes :=
  fun _ _ h => Vector.toList_inj.mp (flatMap_wordBytes_injective h)

/-- The bytes of the digest that memory spells. -/
theorem digestBytes_spelledDigest (memory : ℕ → UInt8) :
    digestBytes (spelledDigest memory) = (List.range 20).map memory := by
  simp only [digestBytes, spelledDigest, Vector.toList_ofFn, List.ofFn_succ, List.ofFn_zero,
    List.flatMap_cons, List.flatMap_nil, wordBytes_spelledWord]
  rfl

/-! ## The hexadecimal form -/

/-- A hexadecimal digit is read as what it was written for. -/
theorem hexValue_hexDigit : ∀ d < 16, hexValue (hexDigit d) = some d := by decide

/-- The text of a word has eight digits. -/
theorem length_hexWord (w : UInt32) : (hexWord w).length = 8 :=
  Lib.length_padded (by decide) (by decide) w.toNat_lt

/-- Every character of the text of a word is a hexadecimal digit. -/
theorem hexValue_of_mem_hexWord {w : UInt32} {c : UInt8} (h : c ∈ hexWord w) :
    ∃ d, hexValue c = some d := by
  obtain ⟨d, hd, rfl⟩ := Lib.exists_of_mem_padded (by decide) h
  exact ⟨d, hexValue_hexDigit d hd⟩

/-- The text of a word decodes to its bytes. -/
theorem hexDecode_hexWord (w : UInt32) : hexDecode (hexWord w) = some (wordBytes w) := by
  obtain ⟨bytes, hdecode, hlen, hvalue⟩ := Lib.hexDecode_digits (k := 4) (length_hexWord w)
    fun c hc => hexValue_of_mem_hexWord hc
  have hdigit : ∀ d < 16, hexDigitValue (hexDigit d) = d := fun d hd => by
    unfold hexDigitValue
    rw [hexValue_hexDigit d hd, Option.getD_some]
  have hbytes : bytes = wordBytes w := by
    refine bytes_ext hlen ?_
    rw [hvalue, horner_wordBytes]
    exact Lib.horner_padded (by decide) hdigit 8 w.toNat
  rw [hdecode, hbytes]

/-- The text of words decodes to their bytes. -/
theorem hexDecode_flatMap_hexWord (ws : List UInt32) :
    hexDecode (ws.flatMap hexWord) = some (ws.flatMap wordBytes) := by
  induction ws with
  | nil => rfl
  | cons w ws ih =>
    rw [List.flatMap_cons, Lib.hexDecode_append (hexDecode_hexWord w), ih, List.flatMap_cons]
    rfl

section

variable (final : Bytes → Vector UInt32 5) (memory : ℕ → UInt8) (metainfo : Metainfo)

/-- The hexadecimal form decodes to the bytes of the digest. -/
theorem hexDecode_infoHashHex : hexDecode (getSHA1 final memory metainfo).infoHashHex =
    some (digestBytes (final metainfo.infodict)) :=
  hexDecode_flatMap_hexWord _

/-! ## The raw form -/

/-- The two forms agree exactly if the memory from the address of the vector object on spells the
digest. -/
theorem getSHA1_agree_iff :
    HashesAgree (getSHA1 final memory metainfo) (final metainfo.infodict) ↔
      final metainfo.infodict = spelledDigest memory := by
  have hraw : (getSHA1 final memory metainfo).infoHashRaw = digestBytes (spelledDigest memory) :=
    (digestBytes_spelledDigest memory).symm
  unfold HashesAgree
  rw [hexDecode_infoHashHex, hraw]
  constructor
  · rintro ⟨-, -, h⟩
    exact (digestBytes_injective h).symm
  · intro h
    rw [h]
    exact ⟨length_digestBytes _, rfl, rfl⟩

end

/-! ## The vector object -/

/-- The order of the bytes of a number in memory. -/
inductive ByteOrder where
  /-- The least significant byte comes first. -/
  | little
  /-- The most significant byte comes first. -/
  | big
  deriving DecidableEq

/-- The bytes of a pointer in memory. -/
def ByteOrder.pointer (order : ByteOrder) (size address : ℕ) : Bytes :=
  let bytes := (List.range size).map fun k => UInt8.ofNat (address >>> (8 * k))
  match order with
  | little => bytes
  | big => bytes.reverse

/-- The addresses of the five words of a vector: that of the first one, and that of the end of the
allocation, which has room for them. -/
structure Placement (platform : Platform) where
  first : ℕ
  allocationEnd : ℕ
  first_ne_zero : first ≠ 0
  aligned : 4 ∣ first
  room : first + 20 ≤ allocationEnd
  isAddress : allocationEnd < 256^platform.pointerSize

/-- The memory from the address of a vector of five words on: the pointers to its first element,
past its last one and past its allocation, and what is behind the object. -/
def vectorObject (order : ByteOrder) {platform : Platform} (p : Placement platform)
    (behind : ℕ → UInt8) (offset : ℕ) : UInt8 :=
  let object := [p.first, p.first + 20, p.allocationEnd].flatMap
    (order.pointer platform.pointerSize)
  object.getD offset (behind (offset - object.length))

/-- Two placements at the lowest addresses that there are, with no room left. -/
def Placement.lowest (platform : Platform) (k : ℕ) (hk : k < 2) : Placement platform where
  first := 4 * (k + 1)
  allocationEnd := 4 * (k + 1) + 20
  first_ne_zero := by omega
  aligned := Dvd.intro _ rfl
  room := le_refl _
  isAddress := by cases platform <;> simp only [Platform.pointerSize] <;> omega

/-- Of no infodict do the two forms agree wherever the words of the digest are placed. This holds of
each platform, of both orders of bytes, and whatever is in memory behind the vector object. -/
theorem getSHA1_never_agree (final : Bytes → Vector UInt32 5) (metainfo : Metainfo)
    (platform : Platform) (order : ByteOrder) (behind : ℕ → UInt8) :
    ¬ ∀ p : Placement platform,
      HashesAgree (getSHA1 final (vectorObject order p behind) metainfo)
        (final metainfo.infodict) := by
  intro h
  -- The digest would be spelled by the addresses of two placements.
  let p := Placement.lowest platform 0 (by decide)
  let q := Placement.lowest platform 1 (by decide)
  have hspelled : spelledDigest (vectorObject order p behind) =
      spelledDigest (vectorObject order q behind) :=
    ((getSHA1_agree_iff final _ metainfo).mp (h p)).symm.trans
      ((getSHA1_agree_iff final _ metainfo).mp (h q))
  have hbytes := congrArg digestBytes hspelled
  rw [digestBytes_spelledDigest, digestBytes_spelledDigest] at hbytes
  have hbyte (i : ℕ) (hi : i < 20) :
      vectorObject order p behind i = vectorObject order q behind i :=
    List.map_inj_left.mp hbytes i (List.mem_range.mpr hi)
  -- The least significant bytes of the first pointers are 4 and 8.
  have hlowest : (4 : UInt8) = 8 := by
    cases order with
    | little =>
      cases platform with
      | win32 => exact hbyte 0 (by decide)
      | x64 => exact hbyte 0 (by decide)
    | big =>
      cases platform with
      | win32 => exact hbyte 3 (by decide)
      | x64 => exact hbyte 7 (by decide)
  exact absurd hlowest (by decide)

/-- The forms differ for the digest of the empty string, with its words at `0x1c2d3e4f5a0`, on a
platform with 64 bits and the least significant byte first. -/
theorem not_getSHA1_agree : ¬ ∀ (final : Bytes → Vector UInt32 5) (metainfo : Metainfo)
    (platform : Platform) (order : ByteOrder) (p : Placement platform) (behind : ℕ → UInt8),
    HashesAgree (getSHA1 final (vectorObject order p behind) metainfo)
      (final metainfo.infodict) := by
  intro h
  let p : Placement .x64 := {
    first := 0x1c2d3e4f5a0
    allocationEnd := 0x1c2d3e4f5b4
    first_ne_zero := by decide
    aligned := by decide
    room := by decide
    isAddress := by decide }
  have hagree := h (fun _ => #v[0xda39a3ee, 0x5e6b4b0d, 0x3255bfef, 0x95601890, 0xafd80709]) {} .x64
    .little p fun _ => 0
  exact absurd hagree.2.2 (by decide +kernel)

end Btor
