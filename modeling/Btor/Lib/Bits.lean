import Mathlib

/-!
# Bits packed in bytes

A list of bytes as a set of numbers, the most significant bit of the first byte first. The bits of
different numbers are different ones (`bitMask_and_bitMask`), and every bit of a byte is one of a
number, so that a list is determined by its length and its set (`eq_of_bitSet_eq`). Setting bits in
any order, and any number of times, adds their numbers to the set (`bitSet_setBits`).
-/

namespace Lib

/-- The bit at an offset in a byte, the most significant one at offset 0. -/
def bitMask (offset : ℕ) : UInt8 := 0x80 >>> UInt8.ofNat offset

/-- Bit `i` is set. -/
def bitAt (v : List UInt8) (i : ℕ) : Bool := v.getD (i / 8) 0 &&& bitMask (i % 8) != 0

/-- The list with bit `i` set, if it is one of its bits. -/
def setBit (v : List UInt8) (i : ℕ) : List UInt8 := v.modify (i / 8) (· ||| bitMask (i % 8))

/-- The list with several bits set, one after the other. -/
def setBits (v : List UInt8) (is : List ℕ) : List UInt8 := is.foldl setBit v

/-- The numbers of the bits that are set. -/
def bitSet (v : List UInt8) : Finset ℕ := (Finset.range (8 * v.length)).filter fun i => bitAt v i

/-! ## The bits of a byte -/

section

variable {b c : UInt8} {k l : ℕ}

/-- A mask finds the bit of the byte at its offset. -/
theorem and_bitMask (hk : k < 8) : (b &&& bitMask k != 0) = b.toBitVec.getLsbD (7 - k) := by
  have hfin : ∀ (b : BitVec 8) (k : Fin 8),
      (UInt8.ofBitVec b &&& bitMask k != 0) = b.getLsbD (7 - k) := by
    decide +kernel
  exact hfin b.toBitVec ⟨k, hk⟩

/-- Different offsets in a byte have different bits. -/
theorem bitMask_and_bitMask (hk : k < 8) (hl : l < 8) (hne : k ≠ l) :
    bitMask k &&& bitMask l = 0 := by
  have hfin : ∀ k l : Fin 8, k ≠ l → bitMask k &&& bitMask l = 0 := by decide
  exact hfin ⟨k, hk⟩ ⟨l, hl⟩ (by simpa using hne)

/-- The mask of a bit has that bit. -/
theorem bitMask_and_self (hk : k < 8) : (bitMask k &&& bitMask k != 0) = true := by
  have hfin : ∀ k : Fin 8, (bitMask k &&& bitMask k != 0) = true := by decide
  exact hfin ⟨k, hk⟩

/-- Setting a bit of a byte sets no other. -/
theorem or_bitMask_and_bitMask (hk : k < 8) (hl : l < 8) :
    ((b ||| bitMask k) &&& bitMask l != 0) = ((b &&& bitMask l != 0) || k == l) := by
  have hor : ((b ||| bitMask k) &&& bitMask l != 0) =
      ((b &&& bitMask l != 0) || (bitMask k &&& bitMask l != 0)) := by
    rw [and_bitMask hl, and_bitMask hl, and_bitMask hl, UInt8.toBitVec_or, BitVec.getLsbD_or]
  rw [hor]
  by_cases hne : k = l
  · rw [hne, bitMask_and_self hl, beq_self_eq_true]
  · rw [bitMask_and_bitMask hk hl hne, beq_false_of_ne hne]
    rfl

/-- A byte is determined by its eight bits. -/
theorem eq_of_and_bitMask (h : ∀ k < 8, (b &&& bitMask k != 0) = (c &&& bitMask k != 0)) :
    b = c := by
  apply UInt8.eq_of_toBitVec_eq
  apply BitVec.eq_of_getLsbD_eq
  intro i hi
  have hbit := h (7 - i) (by omega)
  rw [and_bitMask (by omega), and_bitMask (by omega)] at hbit
  rwa [Nat.sub_sub_self (by omega)] at hbit

end

/-! ## The bits of a list -/

section

variable {v w : List UInt8} {i j : ℕ} {is : List ℕ}

/-- Setting a bit keeps the length. -/
@[simp] theorem length_setBit : (setBit v i).length = v.length := by simp [setBit]

/-- So does setting many. -/
@[simp] theorem length_setBits : (setBits v is).length = v.length := by
  induction is generalizing v with
  | nil => rfl
  | cons i is ih => exact ih.trans length_setBit

/-- A number is in the set of a vector if its bit is there and is set. -/
theorem mem_bitSet : i ∈ bitSet v ↔ i < 8 * v.length ∧ bitAt v i = true := by
  unfold bitSet
  rw [Finset.mem_filter, Finset.mem_range]

/-- Bit `i` is set if its number is in the set. -/
theorem bitAt_eq_decide (hi : i < 8 * v.length) : bitAt v i = decide (i ∈ bitSet v) := by
  rw [Bool.eq_iff_iff, decide_eq_true_iff, mem_bitSet, and_iff_right hi]

/-- The first bytes have the first bits. -/
theorem bitAt_take {n : ℕ} (hi : i < 8 * n) : bitAt (v.take n) i = bitAt v i := by
  unfold bitAt
  rw [List.getD_eq_getElem?_getD, List.getD_eq_getElem?_getD,
    List.getElem?_take_of_lt (by omega)]

/-- The set of the first bytes is that of the first numbers. -/
theorem bitSet_take (n : ℕ) : bitSet (v.take n) = (bitSet v).filter (· < 8 * n) := by
  ext i
  rw [Finset.mem_filter, mem_bitSet, mem_bitSet, List.length_take]
  constructor
  · rintro ⟨hi, hset⟩
    have hn : i < 8 * n := by omega
    rw [bitAt_take hn] at hset
    exact ⟨⟨by omega, hset⟩, hn⟩
  · rintro ⟨⟨hi, hset⟩, hn⟩
    exact ⟨by omega, (bitAt_take hn).trans hset⟩

/-- Setting a bit sets no other. -/
theorem bitAt_setBit (hi : i < 8 * v.length) : bitAt (setBit v i) j = (bitAt v j || i == j) := by
  have hlt : i / 8 < v.length := by omega
  unfold bitAt setBit
  rw [List.getD_eq_getElem?_getD, List.getD_eq_getElem?_getD]
  by_cases hbyte : i / 8 = j / 8
  · -- In the same byte the offsets tell the bits apart.
    have hiff : (i % 8 == j % 8) = (i == j) := by
      rw [Bool.eq_iff_iff, beq_iff_eq, beq_iff_eq]
      omega
    have hoffset := Nat.mod_lt i (show 0 < 8 by decide)
    have hoffset' := Nat.mod_lt j (show 0 < 8 by decide)
    rw [← hbyte, List.getElem?_modify_eq, List.getElem?_eq_getElem hlt]
    exact (or_bitMask_and_bitMask hoffset hoffset').trans (congrArg _ hiff)
  · have hne : i ≠ j := fun h => hbyte (h ▸ rfl)
    rw [List.getElem?_modify_ne _ _ hbyte, beq_false_of_ne hne, Bool.or_false]

/-- Setting a bit adds its number to the set. -/
theorem bitSet_setBit (hi : i < 8 * v.length) : bitSet (setBit v i) = insert i (bitSet v) := by
  ext j
  rw [mem_bitSet, Finset.mem_insert, mem_bitSet, bitAt_setBit hi, length_setBit]
  rw [Bool.or_eq_true, beq_iff_eq]
  constructor
  · rintro ⟨hj, hset | rfl⟩
    · exact .inr ⟨hj, hset⟩
    · exact .inl rfl
  · rintro (rfl | ⟨hj, hset⟩)
    · exact ⟨hi, .inr rfl⟩
    · exact ⟨hj, .inl hset⟩

/-- Setting several bits adds their numbers. -/
theorem bitSet_setBits (his : ∀ i ∈ is, i < 8 * v.length) :
    bitSet (setBits v is) = bitSet v ∪ is.toFinset := by
  induction is generalizing v with
  | nil => simp [setBits]
  | cons i is ih =>
    rw [List.forall_mem_cons] at his
    calc bitSet (setBits v (i :: is)) = bitSet (setBits (setBit v i) is) := rfl
      _ = insert i (bitSet v) ∪ is.toFinset := by
        rw [ih (by simpa using his.2), bitSet_setBit his.1]
      _ = bitSet v ∪ (i :: is).toFinset := by
        rw [List.toFinset_cons, Finset.insert_union, Finset.union_insert]

/-- Two lists with the same bits up to some byte are the same up to it. -/
theorem take_eq_of_bitAt_eq (n : ℕ) (hlength : v.length = w.length)
    (h : ∀ i, i < 8 * v.length → i < 8 * n → bitAt v i = bitAt w i) : v.take n = w.take n := by
  apply List.ext_getElem (by simp [hlength])
  intro k hk _
  rw [List.length_take] at hk
  rw [List.getElem_take, List.getElem_take]
  apply eq_of_and_bitMask
  intro o ho
  have hbit := h (8 * k + o) (by omega) (by omega)
  have hdiv : (8 * k + o) / 8 = k := by omega
  have hmod : (8 * k + o) % 8 = o := by omega
  unfold bitAt at hbit
  rwa [hdiv, hmod, List.getD_eq_getElem _ _ (by omega), List.getD_eq_getElem _ _ (by omega)]
    at hbit

/-- A list is determined by its length and its set. -/
theorem eq_of_bitSet_eq (hlength : v.length = w.length) (h : bitSet v = bitSet w) : v = w := by
  have htake := take_eq_of_bitAt_eq v.length hlength fun i hi _ => by
    have hmem : i ∈ bitSet v ↔ i ∈ bitSet w := by rw [h]
    rw [mem_bitSet, mem_bitSet, ← hlength, and_iff_right hi, and_iff_right hi] at hmem
    exact Bool.eq_iff_iff.mpr hmem
  rwa [List.take_length, hlength, List.take_length] at htake

/-- The order and the repetition of the bits that are set do not matter. -/
theorem setBits_congr {is' : List ℕ} (his : ∀ i ∈ is, i < 8 * v.length)
    (h : ∀ i, i ∈ is' ↔ i ∈ is) : setBits v is' = setBits v is := by
  have hset : is'.toFinset = is.toFinset := by
    ext i
    rw [List.mem_toFinset, List.mem_toFinset, h]
  apply eq_of_bitSet_eq (by simp)
  rw [bitSet_setBits his, bitSet_setBits fun i hi => his i ((h i).mp hi), hset]

end

end Lib
