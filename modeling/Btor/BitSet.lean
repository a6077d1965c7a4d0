import Btor.Bitfield
import Btor.Lib.Bits

/-!
# The bitfield as a set

`setBitInBitfield` adds a number to the set that a bitfield stands for, and `isBitInBitfieldSet`
asks for one. Both take the number as an `int`. In a bitfield of up to `2^28` bytes that numbers
every bit, and the answers determine the bytes. In a longer one it does not reach the rest
(`bitfield_set`).
-/

namespace Btor

open Lib (bitSet setBit setBits)

/-- The index is that of a bit in the bitfield. -/
def Indexes (bitfield : Bytes) (bit : Int32) : Prop :=
  0 ≤ bit.toInt ∧ bit.toInt < 8 * bitfield.length

/-- The calls of `setBitInBitfield` with the indices `bits`, one after the other. -/
def setBitsInBitfield (bitfield : Bytes) (bits : List Int32) : Except Undefined Bytes :=
  bits.foldlM setBitInBitfield bitfield

/-- Every call of `isBitInBitfieldSet` with the index of a bit has one answer for both. -/
def SameAnswers (v w : Bytes) : Prop :=
  ∀ j, Indexes v j → isBitInBitfieldSet v j = isBitInBitfieldSet w j

/-! ## The bit at an index -/

section

variable {v w : Bytes} {i j : Int32} {bits : List Int32}

/-- The index as a natural number. -/
theorem Indexes.ofNat_eq (h : Indexes v i) : Int32.ofNat i.toNatClampNeg = i := by
  obtain ⟨hpos, -⟩ := h
  apply Int32.toInt_inj.mp
  have hlt := i.toInt_lt
  have hnat : i.toNatClampNeg = i.toInt.toNat := rfl
  rw [Int32.toInt_ofNat_of_lt (by omega)]
  omega

/-- An index is a number of a bit. -/
theorem Indexes.toNatClampNeg_lt (h : Indexes v i) :
    i.toNatClampNeg < 2^31 ∧ i.toNatClampNeg < 8 * v.length := by
  obtain ⟨hpos, hlength⟩ := h
  have hlt := i.toInt_lt
  have hnat : i.toNatClampNeg = i.toInt.toNat := rfl
  omega

/-- A number below both bounds is an index. -/
theorem indexes_ofNat {n : ℕ} (hn : n < 2^31) (hlength : n < 8 * v.length) :
    Indexes v (Int32.ofNat n) := by
  unfold Indexes
  rw [Int32.toInt_ofNat_of_lt hn]
  omega

/-- An index of a vector is one of any vector of the same length. -/
theorem Indexes.of_length_eq (hlength : w.length = v.length) (h : Indexes v i) : Indexes w i := by
  unfold Indexes at h ⊢
  rwa [hlength]

/-- Different indices are different numbers. -/
theorem Indexes.toNatClampNeg_inj (hi : Indexes v i) (hj : Indexes v j) :
    i.toNatClampNeg = j.toNatClampNeg ↔ i = j := by
  constructor
  · intro h
    rw [← hi.ofNat_eq, ← hj.ofNat_eq, h]
  · rintro rfl
    rfl

/-- A check asks for a number of the set. -/
theorem Indexes.isBitInBitfieldSet_eq (h : Indexes v i) :
    isBitInBitfieldSet v i = .ok (decide (i.toNatClampNeg ∈ bitSet v)) := by
  obtain ⟨hlt, hlength⟩ := h.toNatClampNeg_lt
  have hbyte : i.toNatClampNeg / 8 < v.length := by omega
  have hcheck := isBitInBitfieldSet_ofNat hlt hbyte
  rw [h.ofNat_eq] at hcheck
  rw [hcheck, ← Lib.bitAt_eq_decide hlength]
  unfold Lib.bitAt
  rw [List.getD_eq_getElem _ _ hbyte]
  rfl

/-- A set adds a number. -/
theorem Indexes.setBitInBitfield_eq (h : Indexes v i) :
    setBitInBitfield v i = .ok (setBit v i.toNatClampNeg) := by
  obtain ⟨hlt, hlength⟩ := h.toNatClampNeg_lt
  have hbyte : i.toNatClampNeg / 8 < v.length := by omega
  have hset := setBitInBitfield_ofNat hlt hbyte
  rw [h.ofNat_eq] at hset
  unfold setBit
  rw [hset, List.modify_eq_set_getElem?, List.getElem?_eq_getElem hbyte]
  rfl

/-- A sequence of calls sets the bits of its indices. -/
theorem setBitsInBitfield_eq (hbits : ∀ i ∈ bits, Indexes v i) :
    setBitsInBitfield v bits = .ok (setBits v (bits.map Int32.toNatClampNeg)) := by
  unfold setBitsInBitfield
  induction bits generalizing v with
  | nil => rfl
  | cons i bits ih =>
    rw [List.forall_mem_cons] at hbits
    obtain ⟨hi, hbits⟩ := hbits
    have hrest := ih fun j hj => (hbits j hj).of_length_eq (w := setBit v i.toNatClampNeg) (by simp)
    rw [List.foldlM_cons, hi.setBitInBitfield_eq]
    exact hrest

/-- The bits that are set afterwards were set before or are those of the indices. -/
theorem isBitInBitfieldSet_setBits (hbits : ∀ i ∈ bits, Indexes v i) (hj : Indexes v j) :
    ∃ b, isBitInBitfieldSet v j = .ok b ∧
      isBitInBitfieldSet (setBits v (bits.map Int32.toNatClampNeg)) j =
        .ok (b || decide (j ∈ bits)) := by
  have hnumbers : ∀ n ∈ bits.map Int32.toNatClampNeg, n < 8 * v.length := by
    intro n hn
    obtain ⟨i, hi, rfl⟩ := List.mem_map.mp hn
    exact (hbits i hi).toNatClampNeg_lt.2
  have hmem : j.toNatClampNeg ∈ bits.map Int32.toNatClampNeg ↔ j ∈ bits := by
    constructor
    · intro h
      obtain ⟨i, hi, heq⟩ := List.mem_map.mp h
      exact ((hbits i hi).toNatClampNeg_inj hj).mp heq ▸ hi
    · exact List.mem_map_of_mem
  have hj' : Indexes (setBits v (bits.map Int32.toNatClampNeg)) j := hj.of_length_eq (by simp)
  refine ⟨_, hj.isBitInBitfieldSet_eq, ?_⟩
  rw [hj'.isBitInBitfieldSet_eq, Lib.bitSet_setBits hnumbers]
  simp only [Finset.mem_union, List.mem_toFinset, hmem, Bool.decide_or]

/-- Two bits of one byte have masks without a common bit. -/
theorem mask_and_mask (hi : Indexes v i) (hj : Indexes v j) (hne : i ≠ j) (hbyte : i / 8 = j / 8) :
    ∃ m m', mask (i % 8) = .ok m ∧ mask (j % 8) = .ok m' ∧ m &&& m' = 0 := by
  have hlt := hi.toNatClampNeg_lt.1
  have hlt' := hj.toNatClampNeg_lt.1
  have hne' : i.toNatClampNeg ≠ j.toNatClampNeg := fun h => hne ((hi.toNatClampNeg_inj hj).mp h)
  have hmod := Nat.mod_lt i.toNatClampNeg (show 0 < 8 by decide)
  have hmod' := Nat.mod_lt j.toNatClampNeg (show 0 < 8 by decide)
  rw [← hi.ofNat_eq, ← hj.ofNat_eq] at hbyte ⊢
  rw [(ofNat_div_mod hlt).1, (ofNat_div_mod hlt').1] at hbyte
  have hdiv := congrArg Int32.toNatClampNeg hbyte
  rw [Int32.toNatClampNeg_ofNat_of_lt (by omega), Int32.toNatClampNeg_ofNat_of_lt (by omega)]
    at hdiv
  rw [(ofNat_div_mod hlt).2, (ofNat_div_mod hlt').2]
  exact ⟨_, _, mask_ofNat hmod, mask_ofNat hmod', Lib.bitMask_and_bitMask hmod hmod' (by omega)⟩

/-! ## Indices of no bit -/

/-- A number between `-8` and 0 is one of the first byte to both functions, which then shift by a
negative number. -/
structure BeforeFirst (v : Bytes) (i : Int32) : Prop where
  neg : i.toInt < 0
  gt : -8 < i.toInt
  ne_nil : 0 < v.length

/-- What both functions end with. -/
theorem mask_of_beforeFirst (h : BeforeFirst v i) :
    ∃ byte, element v (i / 8) = .ok byte ∧ mask (i % 8) = .error .shift := by
  obtain ⟨hneg, hgt, hlength⟩ := h
  have hdiv : (i / 8).toInt = i.toInt.tdiv 8 := Int32.toInt_div_of_ne_right i 8 (by decide)
  have hmod : (i % 8).toInt = i.toInt.tmod 8 := Int32.toInt_mod i 8
  -- Division rounds towards zero, so the byte is the first one, and the shift is by a negative
  -- number.
  have hzero : i / 8 = Int32.ofNat 0 := by
    apply Int32.toInt_inj.mp
    rw [hdiv]
    change i.toInt.tdiv 8 = 0
    grind
  have hoffset : i % 8 < 0 := by
    rw [Int32.lt_iff_toInt_lt, hmod]
    change i.toInt.tmod 8 < 0
    grind
  refine ⟨v[0], ?_, ?_⟩
  · rw [hzero]
    exact element_ofNat (by decide) hlength
  · unfold mask
    rw [if_pos hoffset]
    rfl

/-- Any other number that is no index is past the end. -/
theorem element_of_not_indexes (h : ¬ Indexes v i) (hfirst : ¬ BeforeFirst v i) :
    element v (i / 8) = .error .index := by
  have hdiv : (i / 8).toInt = i.toInt.tdiv 8 := Int32.toInt_div_of_ne_right i 8 (by decide)
  unfold element
  split_ifs with hneg
  · rfl
  · have hpos : 0 ≤ (i / 8).toInt := not_lt.mp fun h => hneg (Int32.lt_iff_toInt_lt.mpr h)
    have hnat : (i / 8).toNatClampNeg = (i / 8).toInt.toNat := rfl
    have hlength : v.length ≤ (i / 8).toNatClampNeg := by
      by_contra hlt
      rw [hnat, hdiv] at hlt
      rw [hdiv] at hpos
      have hnot : ¬ (0 ≤ i.toInt ∧ i.toInt < 8 * v.length) := h
      have hnot' : ¬ (i.toInt < 0 ∧ -8 < i.toInt ∧ 0 < v.length) :=
        fun h => hfirst ⟨h.1, h.2.1, h.2.2⟩
      grind
    rw [List.getElem?_eq_none hlength]
    rfl

/-! ## The bytes that an index reaches -/

/-- No index reaches past the first `2^28` bytes. -/
theorem isBitInBitfieldSet_congr (h : v.take (2^28) = w.take (2^28)) (j : Int32) :
    isBitInBitfieldSet v j = isBitInBitfieldSet w j := by
  have helement : element v (j / 8) = element w (j / 8) := by
    have hdiv : (j / 8).toInt = j.toInt.tdiv 8 := Int32.toInt_div_of_ne_right j 8 (by decide)
    have hlt : (j / 8).toNatClampNeg < 2^28 := by
      have hj := j.toInt_lt
      have hnat : (j / 8).toNatClampNeg = (j / 8).toInt.toNat := rfl
      rw [hnat, hdiv]
      grind
    have hbyte : v[(j / 8).toNatClampNeg]? = w[(j / 8).toNatClampNeg]? := by
      rw [← List.getElem?_take_of_lt hlt, h, List.getElem?_take_of_lt hlt]
    unfold element
    rw [hbyte]
  unfold isBitInBitfieldSet
  simp only [helement]

/-- The answers determine the first `2^28` bytes, and nothing more. -/
theorem sameAnswers_iff (hlength : v.length = w.length) :
    SameAnswers v w ↔ v.take (2^28) = w.take (2^28) := by
  constructor
  · intro h
    refine Lib.take_eq_of_bitAt_eq (2^28) hlength fun n hn hreach => ?_
    have hlt : n < 2^31 := by omega
    have hindex : Indexes v (Int32.ofNat n) := indexes_ofNat hlt hn
    have hanswer := h (Int32.ofNat n) hindex
    rw [hindex.isBitInBitfieldSet_eq, (hindex.of_length_eq hlength.symm).isBitInBitfieldSet_eq,
      Int32.toNatClampNeg_ofNat_of_lt hlt] at hanswer
    rw [Lib.bitAt_eq_decide hn, Lib.bitAt_eq_decide (hlength ▸ hn)]
    exact Except.ok.inj hanswer
  · intro h j _
    exact isBitInBitfieldSet_congr h j

end

/-- A bitfield acts as a set of indices: a sequence of calls of `setBitInBitfield` adds its indices,
in any order and with any repetitions, different indices have different bits, and the answers of
`isBitInBitfieldSet` determine the bytes that an `int` can index. -/
theorem bitfield_set (v : Bytes) (bits : List Int32) (hbits : ∀ i ∈ bits, Indexes v i) :
    ∃ v', setBitsInBitfield v bits = .ok v' ∧ v'.length = v.length ∧
      (∀ j, Indexes v j → ∃ b, isBitInBitfieldSet v j = .ok b ∧
        isBitInBitfieldSet v' j = .ok (b || decide (j ∈ bits))) ∧
      (∀ bits', (∀ i, i ∈ bits' ↔ i ∈ bits) → setBitsInBitfield v bits' = .ok v') ∧
      (∀ i j, Indexes v i → Indexes v j → i ≠ j → i / 8 = j / 8 →
        ∃ m m', mask (i % 8) = .ok m ∧ mask (j % 8) = .ok m' ∧ m &&& m' = 0) ∧
      ∀ w, v.length = w.length → SameAnswers v w →
        v.take (2^28) = w.take (2^28) ∧ (v.length ≤ 2^28 → v = w) := by
  refine ⟨_, setBitsInBitfield_eq hbits, Lib.length_setBits,
    fun j hj => isBitInBitfieldSet_setBits hbits hj, fun bits' hbits' => ?_,
    fun i j hi hj => mask_and_mask hi hj, fun w hlength hanswers => ?_⟩
  · have hindexes : ∀ i ∈ bits', Indexes v i := fun i hi => hbits i ((hbits' i).mp hi)
    rw [setBitsInBitfield_eq hindexes]
    apply congrArg
    -- The order of the bits does not matter, nor does how often each is set.
    apply Lib.setBits_congr
    · intro n hn
      obtain ⟨i, hi, rfl⟩ := List.mem_map.mp hn
      exact (hbits i hi).toNatClampNeg_lt.2
    · intro n
      simp only [List.mem_map, hbits']
  · have htake := (sameAnswers_iff hlength).mp hanswers
    refine ⟨htake, fun hshort => ?_⟩
    rwa [List.take_of_length_le hshort, List.take_of_length_le (hlength ▸ hshort)] at htake

/-- Two bits of two bytes, one of them set twice. -/
theorem bitfield_set_twice : ∃ v', setBitsInBitfield [0, 0] [0, 9, 0] = .ok v' ∧ v'.length = 2 := by
  have hindexes : ∀ i ∈ [0, 9, 0], Indexes [0, 0] i := by
    intro i hi
    simp only [List.mem_cons, List.not_mem_nil, or_false] at hi
    rcases hi with rfl | rfl | rfl <;> exact ⟨by decide, by decide⟩
  obtain ⟨v', hset, hlength, -⟩ := bitfield_set [0, 0] [0, 9, 0] hindexes
  exact ⟨v', hset, hlength⟩

/-- Two bitfields of `2^28 + 1` bytes that differ in their last byte have the same answers. -/
theorem not_eq_of_sameAnswers : ¬ ∀ v w : Bytes, v.length = w.length → SameAnswers v w → v = w := by
  intro hclaim
  have hlength : (List.replicate (2^28) (0 : UInt8) ++ [0]).length =
      (List.replicate (2^28) (0 : UInt8) ++ [1]).length := by
    rw [List.length_append, List.length_append, List.length_singleton, List.length_singleton]
  have htake : ∀ b : UInt8, (List.replicate (2^28) (0 : UInt8) ++ [b]).take (2^28) =
      List.replicate (2^28) 0 := fun b => List.take_left' List.length_replicate
  have hsame := (sameAnswers_iff hlength).mpr ((htake 0).trans (htake 1).symm)
  have heq := List.append_cancel_left (hclaim _ _ hlength hsame)
  exact absurd heq (by decide)

end Btor
