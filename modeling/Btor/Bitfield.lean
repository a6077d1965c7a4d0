import Btor.Butils

/-!
# A bit for every piece

`getBitfieldSize` means to round twice up, the number of pieces and then the number of bytes. Both
quotients are of integers, and rounded down before `ceil` gets them. The last partial piece, and the
pieces past a multiple of eight, have no bit. The index of a bit is an `int`, which is negative from
piece `2^31` on. What is left are the torrents with a whole number of bytes of bits
(`everyPieceHasBit_iff`).
-/

namespace Btor

/-- The number of pieces, the last of which may be a partial one. -/
def Metainfo.pieces (metainfo : Metainfo) : ℕ :=
  metainfo.totalLength.toInt.toNat ⌈/⌉ metainfo.pieceLength.toNat

/-- A bitfield of so many bytes has a bit for every piece, and no smaller one has. -/
structure EveryPieceHasBit (metainfo : Metainfo) (size : ℕ) : Prop where
  size_eq : size = metainfo.pieces ⌈/⌉ 8
  /-- The byte of every piece is one of the bitfield. -/
  byte_lt : ∀ i < metainfo.pieces, i / 8 < size
  /-- The bit of every piece is set in a byte of the bitfield. -/
  set : ∀ i < metainfo.pieces, ∃ bitfield,
    setBitInBitfield (List.replicate size 0) (Int32.ofNat i) = .ok bitfield
  /-- The bit of every piece is checked in a byte of the bitfield. -/
  isSet : ∀ i < metainfo.pieces, ∃ b,
    isBitInBitfieldSet (List.replicate size 0) (Int32.ofNat i) = .ok b
  least : ∀ n, (∀ i < metainfo.pieces, i / 8 < n) → size ≤ n

/-! ## Access to a bit -/

section

variable {bitfield : Bytes} {i : ℕ}

/-- The mask of a bit. -/
theorem mask_ofNat {k : ℕ} (hk : k < 8) : mask (Int32.ofNat k) = .ok (0x80 >>> UInt8.ofNat k) := by
  have hpos : ¬ Int32.ofNat k < 0 := by
    rw [Int32.lt_iff_toInt_lt, Int32.toInt_ofNat_of_lt (by omega)]
    simp
  unfold mask
  rw [if_neg hpos, Int32.toNatClampNeg_ofNat_of_lt (by omega)]
  rfl

/-- The element at an index that is not negative. -/
theorem element_ofNat (hi : i < 2^31) (hlt : i < bitfield.length) :
    element bitfield (Int32.ofNat i) = .ok bitfield[i] := by
  have hpos : ¬ Int32.ofNat i < 0 := by
    rw [Int32.lt_iff_toInt_lt, Int32.toInt_ofNat_of_lt hi]
    simp
  unfold element
  rw [if_neg hpos, Int32.toNatClampNeg_ofNat_of_lt hi, List.getElem?_eq_getElem hlt]
  rfl

/-- The byte and the offset of a bit that an `int` can count. -/
theorem ofNat_div_mod (hi : i < 2^31) :
    Int32.ofNat i / 8 = Int32.ofNat (i / 8) ∧ Int32.ofNat i % 8 = Int32.ofNat (i % 8) :=
  ⟨(Int32.ofNat_div hi (by decide)).symm, (Int32.ofNat_mod hi (by decide)).symm⟩

/-- A bit in the bitfield is set. -/
theorem setBitInBitfield_ofNat (hi : i < 2^31) (hlt : i / 8 < bitfield.length) :
    setBitInBitfield bitfield (Int32.ofNat i) =
      .ok (bitfield.set (i / 8) (bitfield[i / 8] ||| 0x80 >>> UInt8.ofNat (i % 8))) := by
  obtain ⟨hdiv, hmod⟩ := ofNat_div_mod hi
  have hbyte : i / 8 < 2^31 := by omega
  unfold setBitInBitfield
  simp only [hdiv, hmod, element_ofNat hbyte hlt, mask_ofNat (Nat.mod_lt i (by decide)),
    Int32.toNatClampNeg_ofNat_of_lt hbyte]
  rfl

/-- A bit in the bitfield is checked. -/
theorem isBitInBitfieldSet_ofNat (hi : i < 2^31) (hlt : i / 8 < bitfield.length) :
    isBitInBitfieldSet bitfield (Int32.ofNat i) =
      .ok (bitfield[i / 8] &&& 0x80 >>> UInt8.ofNat (i % 8) != 0) := by
  obtain ⟨hdiv, hmod⟩ := ofNat_div_mod hi
  have hbyte : i / 8 < 2^31 := by omega
  unfold isBitInBitfieldSet
  simp only [hdiv, hmod, element_ofNat hbyte hlt, mask_ofNat (Nat.mod_lt i (by decide))]
  rfl

/-- The first bit that an `int` cannot count is at a negative index. -/
theorem setBitInBitfield_two_pow :
    setBitInBitfield bitfield (Int32.ofNat (2^31)) = .error .index := rfl

end

/-! ## The size of the bitfield -/

/-- Rounding down twice comes to the same as rounding up twice exactly if there is nothing to
round. -/
theorem div_div_eq_ceilDiv_iff {m a b : ℕ} (ha : 0 < a) (hb : 0 < b) :
    m / a / b = m ⌈/⌉ a ⌈/⌉ b ↔ b * a ∣ m := by
  constructor
  · intro h
    have hdown : b * a * (m / a / b) ≤ m := by
      rw [Nat.div_div_eq_div_mul, mul_comm b a]
      exact Nat.mul_div_le m (a * b)
    have hup : m ≤ b * a * (m ⌈/⌉ a ⌈/⌉ b) :=
      calc m ≤ a * (m ⌈/⌉ a) := (ceilDiv_le_iff_le_mul ha).mp le_rfl
        _ ≤ a * (b * (m ⌈/⌉ a ⌈/⌉ b)) :=
            Nat.mul_le_mul_left a ((ceilDiv_le_iff_le_mul hb).mp le_rfl)
        _ = b * a * (m ⌈/⌉ a ⌈/⌉ b) := by ring
    rw [← h] at hup
    exact ⟨m / a / b, hup.antisymm hdown⟩
  · rintro ⟨k, rfl⟩
    have hceil : (b * a * k) ⌈/⌉ a = b * k := by
      rw [mul_comm b a, mul_assoc]
      exact smul_ceilDiv ha (b * k)
    rw [hceil, Nat.mul_right_comm, Nat.mul_div_cancel _ ha, Nat.mul_div_cancel_left _ hb]
    exact (smul_ceilDiv hb k).symm

/-- A `double` holds integers below `2^53`. -/
theorem toDouble_of_lt {n : ℕ} (h : n < 2^53) : toDouble n = n := by
  have hlog : n.log2 - 52 = 0 := by
    rcases Nat.eq_zero_or_pos n with rfl | hn
    · rfl
    · have := (Nat.log2_lt hn.ne').mpr h
      omega
  simp [toDouble, hlog, Nat.mod_one]

/-- There is nothing to round for `ceil`. -/
theorem ceil_of_lt {x : UInt64} (h : x.toNat < 2^53) : ceil x = .ok x := by
  unfold ceil
  rw [toDouble_of_lt h, if_pos x.toNat_lt, UInt64.ofNat_toNat]
  rfl

/-- Rounding up gives no less than rounding down. -/
theorem Metainfo.div_le_pieces (metainfo : Metainfo) :
    metainfo.totalLength.toInt.toNat / metainfo.pieceLength.toNat ≤ metainfo.pieces := by
  unfold Metainfo.pieces
  rw [← Nat.floorDiv_eq_div]
  exact floorDiv_le_ceilDiv

/-- Pieces that are whole and as many as a multiple of eight. -/
theorem Metainfo.pieces_of_dvd (metainfo : Metainfo) (hpos : 0 < metainfo.pieceLength.toNat) {k : ℕ}
    (hk : metainfo.totalLength.toInt.toNat = 8 * metainfo.pieceLength.toNat * k) :
    metainfo.pieces = 8 * k ∧
      metainfo.totalLength.toInt.toNat / metainfo.pieceLength.toNat = 8 * k := by
  have hlength : metainfo.totalLength.toInt.toNat = metainfo.pieceLength.toNat * (8 * k) := by
    rw [hk]
    ring
  unfold Metainfo.pieces
  rw [hlength]
  exact ⟨smul_ceilDiv hpos (8 * k), Nat.mul_div_cancel_left _ hpos⟩

section

variable {metainfo : Metainfo} {size : ℕ}

/-- There are no more pieces than an `int` can count. -/
theorem EveryPieceHasBit.pieces_le (h : EveryPieceHasBit metainfo size) :
    metainfo.pieces ≤ 2^31 := by
  refine not_lt.mp fun hlt => ?_
  obtain ⟨bitfield, hset⟩ := h.set (2^31) hlt
  rw [setBitInBitfield_two_pow] at hset
  cases hset

/-- A bitfield has a bit for each of as many pieces as it has bits. -/
theorem EveryPieceHasBit.of_pieces (hpieces : metainfo.pieces = 8 * size)
    (hcount : metainfo.pieces ≤ 2^31) : EveryPieceHasBit metainfo size where
  size_eq := by
    rw [hpieces]
    exact (smul_ceilDiv (by decide) size).symm
  byte_lt i hi := by omega
  set i hi := ⟨_, setBitInBitfield_ofNat (by omega) (by rw [List.length_replicate]; omega)⟩
  isSet i hi := ⟨_, isBitInBitfieldSet_ofNat (by omega) (by rw [List.length_replicate]; omega)⟩
  least n hn := by
    rcases Nat.eq_zero_or_pos size with hzero | hsize
    · omega
    · -- The last piece needs the last byte.
      have hlast := hn (8 * size - 1) (by omega)
      omega

end

section

variable (metainfo : Metainfo) (hT : 0 < metainfo.totalLength) (hP : 0 < metainfo.pieceLength)
    (hquot : metainfo.totalLength.toInt.toNat / metainfo.pieceLength.toNat < 2^53)

include hT hP hquot

/-- The size of the bitfield, with both quotients rounded down. -/
theorem getBitfieldSize_eq : ∃ size, getBitfieldSize metainfo = .ok size ∧
    size.toNat = metainfo.totalLength.toInt.toNat / metainfo.pieceLength.toNat / 8 := by
  have hpieces : (metainfo.totalLength.toUInt64 / metainfo.pieceLength).toNat =
      metainfo.totalLength.toInt.toNat / metainfo.pieceLength.toNat := by
    rw [UInt64.toNat_div, Int64.toNat_toUInt64_of_le (Int64.le_of_lt hT)]
    rfl
  have hsize : (metainfo.totalLength.toUInt64 / metainfo.pieceLength / 8).toNat =
      metainfo.totalLength.toInt.toNat / metainfo.pieceLength.toNat / 8 := by
    rw [UInt64.toNat_div, hpieces]
    rfl
  refine ⟨metainfo.totalLength.toUInt64 / metainfo.pieceLength / 8, ?_, hsize⟩
  have hzero : metainfo.pieceLength ≠ 0 := fun h => absurd hP (by simp [h])
  unfold getBitfieldSize
  rw [if_neg hzero, ceil_of_lt (by omega)]
  exact ceil_of_lt (by omega)

/-- Every piece has a bit in a bitfield of that size exactly if the pieces are whole, as many as a
multiple of eight, and no more than an `int` can count. -/
theorem everyPieceHasBit_iff :
    (∃ size, getBitfieldSize metainfo = .ok size ∧ EveryPieceHasBit metainfo size.toNat) ↔
      8 * metainfo.pieceLength.toNat ∣ metainfo.totalLength.toInt.toNat ∧
        metainfo.totalLength.toInt.toNat / metainfo.pieceLength.toNat ≤ 2^31 := by
  have hpos : 0 < metainfo.pieceLength.toNat := UInt64.lt_iff_toNat_lt.mp hP
  obtain ⟨size, hsize, hvalue⟩ := getBitfieldSize_eq metainfo hT hP hquot
  constructor
  · rintro ⟨size', hsize', h⟩
    obtain rfl := Except.ok.inj (hsize.symm.trans hsize')
    have hround := hvalue.symm.trans h.size_eq
    have hdvd := (div_div_eq_ceilDiv_iff hpos (by decide)).mp hround
    exact ⟨hdvd, metainfo.div_le_pieces.trans h.pieces_le⟩
  · rintro ⟨⟨k, hk⟩, hle⟩
    obtain ⟨hpieces, hdiv⟩ := metainfo.pieces_of_dvd hpos hk
    have hsize8 : size.toNat = k := by omega
    exact ⟨size, hsize, .of_pieces (by omega) (by omega)⟩

end

/-- Eight pieces of two bytes. -/
theorem everyPieceHasBit_eight :
    ∃ size, getBitfieldSize { totalLength := 16, pieceLength := 2 } = .ok size ∧
      EveryPieceHasBit { totalLength := 16, pieceLength := 2 } size.toNat :=
  (everyPieceHasBit_iff { totalLength := 16, pieceLength := 2 } (by decide) (by decide)
    (by decide)).mpr ⟨by decide, by decide⟩

/-- The ninth of nine pieces of one byte has no bit. -/
theorem not_everyPieceHasBit : ¬ ∀ metainfo : Metainfo, 0 < metainfo.totalLength →
    0 < metainfo.pieceLength →
    metainfo.totalLength.toInt.toNat / metainfo.pieceLength.toNat < 2^53 →
    ∃ size, getBitfieldSize metainfo = .ok size ∧ EveryPieceHasBit metainfo size.toNat := by
  intro h
  obtain ⟨size, hsize, hbits⟩ := h { totalLength := 9, pieceLength := 1 } (by decide) (by decide)
    (by decide)
  obtain rfl := Except.ok.inj (Eq.symm hsize)
  exact absurd (hbits.byte_lt 8 (by decide)) (by decide)

end Btor
