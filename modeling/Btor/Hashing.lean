import Btor.Sha1

/-!
# The class computes the standard's hash

`update` is given a message in parts of any lengths, and `final` pads what is left in the buffer.
`Holds` says what the object keeps of the parts so far: the digest of the whole blocks, the rest in
the buffer, and the number of blocks as a `uint64_t`. `update` keeps it (`Holds.update`), and from
there `final` returns the hash of all of them in a row, and an object for the next run
(`final_eq_hash`).
-/

namespace Btor.Sha1

open Lib (Absorbed blocks rest horner)
open Lib.SecureHash (compress compressBytes words word initial pad paddingZeros lengthBytes sha1)

/-! ## The words of the buffer -/

/-- A number below the bits of another one. -/
theorem or_mul_two_pow {a k : ℕ} (h : a < 2^k) (b : ℕ) : a ||| b * 2^k = b * 2^k + a := by
  rw [Nat.or_comm, Nat.mul_comm, Nat.two_pow_add_eq_or_of_lt h]

/-- The shifted bytes do not overlap. -/
theorem or_shifted (b₀ b₁ b₂ b₃ : UInt8) : b₃.toUInt32 ||| b₂.toUInt32 <<< 8 |||
    b₁.toUInt32 <<< 16 ||| b₀.toUInt32 <<< 24 = word [b₀, b₁, b₂, b₃] := by
  have h₀ := b₀.toNat_lt
  have h₁ := b₁.toNat_lt
  have h₂ := b₂.toNat_lt
  have h₃ := b₃.toNat_lt
  have hshift {b : UInt8} {k : UInt32} (hk : k.toNat ≤ 24) :
      (b.toUInt32 <<< k).toNat = b.toNat * 2^k.toNat := by
    have hb := b.toNat_lt
    have hpow : 2^k.toNat ≤ 2^24 := Nat.pow_le_pow_right (by decide) hk
    rw [UInt32.toNat_shiftLeft, UInt8.toNat_toUInt32, Nat.mod_eq_of_lt (by omega : k.toNat < 32),
      Nat.shiftLeft_eq]
    apply Nat.mod_eq_of_lt
    calc b.toNat * 2^k.toNat ≤ 255 * 2^24 := Nat.mul_le_mul (by omega) hpow
      _ < 2^32 := by decide
  have h₂' := hshift (b := b₂) (k := 8) (by decide)
  have h₁' := hshift (b := b₁) (k := 16) (by decide)
  have h₀' := hshift (b := b₀) (k := 24) (by decide)
  change _ = b₂.toNat * 2^8 at h₂'
  change _ = b₁.toNat * 2^16 at h₁'
  change _ = b₀.toNat * 2^24 at h₀'
  unfold word
  rw [← UInt32.toNat_inj, UInt32.toNat_or, UInt32.toNat_or, UInt32.toNat_or, h₂', h₁', h₀',
    UInt8.toNat_toUInt32, or_mul_two_pow h₃ b₂.toNat, or_mul_two_pow (by omega) b₁.toNat,
    or_mul_two_pow (by omega) b₀.toNat, UInt32.toNat_ofNat_of_lt']
  · simp only [horner, List.foldl_cons, List.foldl_nil]
    omega
  · simp only [horner, List.foldl_cons, List.foldl_nil, UInt32.size]
    omega

/-- Four bytes within the first part of a list. -/
theorem take_drop_append {x : Bytes} {i : ℕ} (h : 4 * i + 4 ≤ x.length) (y : Bytes) :
    ((x ++ y).drop (4 * i)).take 4 = (x.drop (4 * i)).take 4 := by
  rw [List.drop_append_of_le_length (by omega), List.take_append_of_le_length]
  rw [List.length_drop]
  omega

/-- The first four bytes, by their numbers. -/
theorem take_four {l : Bytes} (h : 4 ≤ l.length) :
    l.take 4 = [l.getD 0 0, l.getD 1 0, l.getD 2 0, l.getD 3 0] := by
  match l, h with
  | b₀ :: b₁ :: b₂ :: b₃ :: l, _ => rfl

/-- The words of a full buffer. -/
theorem bufferToBlock_eq_words {buffer : Bytes} (h : buffer.length = blockBytes) :
    bufferToBlock buffer = words buffer := by
  apply Vector.ext
  intro i hi
  have hlength : 4 ≤ (buffer.drop (4 * i)).length := by
    rw [List.length_drop, h, blockBytes, blockInts]
    omega
  unfold bufferToBlock words
  rw [Vector.getElem_ofFn, Vector.getElem_ofFn, take_four hlength, ← or_shifted]
  simp only [bufferWord, List.getD_eq_getElem?_getD, List.getElem?_drop, Nat.add_zero]

/-! ## The parts -/

/-- What the object keeps of the message so far. -/
structure Holds (sha : SHA1) (message : Bytes) : Prop where
  absorbed : Absorbed compressBytes 64 initial message sha.digest sha.buffer
  transforms : sha.transforms = UInt64.ofNat (message.length / 64)

/-- The five words of `reset` are the initial ones of the standard. -/
theorem initialDigest_eq : initialDigest = initial := by decide +kernel

/-- An object that is reset has read nothing. -/
theorem holds_reset : Holds .reset [] where
  absorbed := initialDigest_eq ▸ Absorbed.start (by decide : 0 < 64)
  transforms := rfl

/-- The buffer has what the whole blocks leave. -/
theorem Holds.length_buffer {sha : SHA1} {message : Bytes} (h : Holds sha message) :
    sha.buffer.length = message.length % 64 := by
  rw [h.absorbed.buffer_eq, Lib.length_rest]

/-- The next part, which is read in pieces that fill the buffer. -/
theorem Holds.update {sha : SHA1} {message : Bytes} (h : Holds sha message) (stream : Bytes) :
    Holds (sha.update stream) (message ++ stream) := by
  induction sha, stream using SHA1.update.induct generalizing message with
  | case1 sha stream count buffer =>
    -- What is left of the stream goes to the buffer.
    rename_i hshort
    have hmod := h.length_buffer
    have hlength : buffer.length = sha.buffer.length + min count stream.length := by
      rw [← List.length_take]
      exact List.length_append
    have hcount : count = 64 - sha.buffer.length := rfl
    have hblock : blockBytes = 64 := rfl
    have hle : stream.length ≤ count := by omega
    have hbuffer : buffer = sha.buffer ++ stream :=
      congrArg (sha.buffer ++ ·) (List.take_of_length_le hle)
    have hlt : (sha.buffer ++ stream).length < 64 := by
      rw [← hbuffer]
      omega
    rw [SHA1.update, dif_pos hshort]
    refine ⟨?_, ?_⟩
    · have hfeed := h.absorbed.feed (by decide) hlt
      rwa [← hbuffer] at hfeed
    · have hdiv : (message ++ stream).length / 64 = message.length / 64 := by
        rw [List.length_append] at hlt ⊢
        omega
      rw [hdiv]
      exact h.transforms
  | case2 sha stream count buffer hfull digest block htransform =>
    rename_i ih
    have hlength : buffer.length = 64 := not_not.mp hfull
    have hdigest : digest = compressBytes sha.digest buffer := by
      have hfst := congrArg Prod.fst htransform
      rw [transform_eq_compress, bufferToBlock_eq_words hlength] at hfst
      exact hfst.symm
    have hdiv : (message ++ stream.take count).length / 64 = message.length / 64 + 1 := by
      have hmod := h.length_buffer
      have happend : buffer.length = sha.buffer.length + (stream.take count).length :=
        List.length_append
      rw [List.length_append]
      omega
    have hblock : Holds ⟨digest, [], sha.transforms + 1, by decide⟩
        (message ++ stream.take count) := by
      refine ⟨?_, ?_⟩
      · have hcompress := h.absorbed.compress (by decide) hlength
        rwa [← hdigest] at hcompress
      · rw [hdiv, UInt64.ofNat_add, ← h.transforms]
        rfl
    rw [SHA1.update, dif_neg hfull, htransform]
    have hrest := ih hblock
    rwa [List.append_assoc, List.take_append_drop] at hrest

/-- All parts, one after the other. -/
theorem holds_foldl_update {sha : SHA1} {message : Bytes} (h : Holds sha message)
    (parts : List Bytes) : Holds (parts.foldl SHA1.update sha) (message ++ parts.flatten) := by
  induction parts generalizing sha message with
  | nil => rwa [List.flatten_nil, List.append_nil]
  | cons part parts ih =>
    have hparts := ih (h.update part)
    rwa [List.append_assoc] at hparts

/-! ## The padding -/

/-- The number of bits, as the object counts them. -/
theorem Holds.totalBits_eq {sha : SHA1} {message : Bytes} (h : Holds sha message) :
    (sha.transforms * 64 + UInt64.ofNat sha.buffer.length) * 8 =
      UInt64.ofNat (8 * message.length) := by
  rw [h.transforms, h.length_buffer, ← UInt64.toNat_inj]
  simp only [UInt64.toNat_mul, UInt64.toNat_add, UInt64.toNat_ofNat', UInt64.reduceToNat]
  omega

/-- Four bytes of a number, in the order of their weights. -/
theorem word_digits (m : ℕ) : word [UInt8.ofNat (m / 2^24), UInt8.ofNat (m / 2^16),
    UInt8.ofNat (m / 2^8), UInt8.ofNat m] = UInt32.ofNat m := by
  unfold word
  rw [← UInt32.toNat_inj, UInt32.toNat_ofNat', UInt32.toNat_ofNat']
  simp only [horner, List.foldl_cons, List.foldl_nil, UInt8.toNat_ofNat']
  omega

/-- The eight bytes of a length, written out. -/
theorem lengthBytes_eq (length : ℕ) : lengthBytes length =
    [UInt8.ofNat (8 * length / 2^32 / 2^24), UInt8.ofNat (8 * length / 2^32 / 2^16),
      UInt8.ofNat (8 * length / 2^32 / 2^8), UInt8.ofNat (8 * length / 2^32),
      UInt8.ofNat (8 * length / 2^24), UInt8.ofNat (8 * length / 2^16),
      UInt8.ofNat (8 * length / 2^8), UInt8.ofNat (8 * length)] := by
  have hrange : (List.range 8).reverse = [7, 6, 5, 4, 3, 2, 1, 0] := rfl
  unfold lengthBytes
  rw [hrange]
  simp only [List.map_cons, List.map_nil, Nat.div_div_eq_div_mul]
  norm_num

/-- The block with the length, whose other words are there already. -/
theorem words_append_lengthBytes {x : Bytes} (hx : x.length = 56) (length : ℕ) {block : Block}
    (hblock : ∀ i : ℕ, (hi : i < 14) → block[i] = word ((x.drop (4 * i)).take 4)) :
    (block.set 15 (UInt64.ofNat (8 * length)).toUInt32).set 14
      (UInt64.ofNat (8 * length) >>> 32).toUInt32 = words (x ++ lengthBytes length) := by
  have hlow : (UInt64.ofNat (8 * length)).toUInt32 = UInt32.ofNat (8 * length) := by
    rw [← UInt32.toNat_inj]
    simp
  have hhigh : (UInt64.ofNat (8 * length) >>> 32).toUInt32 = UInt32.ofNat (8 * length / 2^32) := by
    rw [← UInt32.toNat_inj]
    simp [Nat.shiftRight_eq_div_pow]
    omega
  have hdrop (k : ℕ) : (x ++ lengthBytes length).drop (56 + k) = (lengthBytes length).drop k := by
    rw [← hx, List.drop_append]
    simp
  apply Vector.ext
  intro i hi
  unfold words
  rw [Vector.getElem_ofFn, Vector.getElem_set, Vector.getElem_set]
  dsimp only
  rcases Nat.lt_or_ge i 14 with hlt | hge
  · rw [if_neg (by omega), if_neg (by omega), take_drop_append (by omega), hblock i hlt]
  · obtain rfl | rfl : i = 14 ∨ i = 15 := by omega
    · rw [if_pos rfl, hhigh, ← word_digits]
      rw [show 4 * 14 = 56 + 0 from rfl, hdrop, lengthBytes_eq]
      rfl
    · rw [if_neg (by decide), if_pos rfl, hlow, ← word_digits]
      rw [show 4 * 15 = 56 + 4 from rfl, hdrop, lengthBytes_eq]
      rfl

/-- A message as long as a block is one block. -/
theorem blocks_singleton {b : Bytes} (h : b.length = 64) : blocks 64 b = [b] := by
  have happend := Lib.blocks_append_block (l := []) (by decide) h
  rwa [List.append_nil, Lib.blocks_of_length_lt (l := []) (by decide)] at happend

/-- The digest after one more block, given by its bytes. -/
theorem transform_words (digest : Digest) (buffer : Bytes) :
    (transform digest (words buffer)).1 = compressBytes digest buffer := transform_eq_compress _ _

/-- `final` returns the hash of the message, whatever its length, and resets the object. -/
theorem Holds.final {sha : SHA1} {message : Bytes} (h : Holds sha message) :
    sha.final = (sha1 message, SHA1.reset) := by
  have hlt : sha.buffer.length < 64 := sha.buffer_lt
  have hmod := h.length_buffer
  have hbuffer : rest 64 message = sha.buffer := h.absorbed.buffer_eq.symm
  -- The blocks of the padded message that are still to come.
  have hpad : sha1 message = (blocks 64 (sha.buffer ++ 0x80 ::
      List.replicate (paddingZeros message.length) 0 ++ lengthBytes message.length)).foldl
        compressBytes sha.digest := by
    rw [Lib.SecureHash.sha1_eq, pad, List.append_assoc, Lib.blocks_append (by decide), hbuffer,
      List.foldl_append, ← h.absorbed.chain_eq, List.append_assoc]
  have hsize : (sha.buffer ++ [0x80]).length = sha.buffer.length + 1 := List.length_append
  have hblock : blockBytes = 64 := rfl
  -- The buffer, full with zeros.
  obtain ⟨full, hfull⟩ : ∃ full, full = sha.buffer ++ [0x80] ++
    List.replicate (blockBytes - (sha.buffer ++ [0x80]).length) 0 := ⟨_, rfl⟩
  have hlength : full.length = 64 := by
    rw [hfull, List.length_append, hsize, List.length_replicate]
    omega
  unfold SHA1.final
  dsimp only
  rw [h.totalBits_eq, ← hfull, bufferToBlock_eq_words hlength, hpad]
  congr 1
  split
  · -- There is no room for the length, which goes to a block of its own.
    rename_i hlong
    have hzeros : paddingZeros message.length = (63 - sha.buffer.length) + 56 := by
      unfold paddingZeros
      omega
    have hsplit : sha.buffer ++ 0x80 :: List.replicate (paddingZeros message.length) 0 ++
        lengthBytes message.length =
          full ++ (List.replicate 56 0 ++ lengthBytes message.length) := by
      have hcount : blockBytes - (sha.buffer ++ [0x80]).length = 63 - sha.buffer.length := by omega
      rw [hfull, hcount, hzeros, List.replicate_add]
      simp only [List.append_assoc, List.cons_append, List.nil_append]
    rw [words_append_lengthBytes (x := List.replicate 56 0) rfl, transform_words, transform_words,
      hsplit, Lib.blocks_append_block (by decide) hlength, blocks_singleton]
    · rfl
    · rw [List.length_append, Lib.SecureHash.length_lengthBytes]
      rfl
    · intro i hi
      have hzero : word [0, 0, 0, 0] = 0 := rfl
      rw [Vector.getElem_ofFn, List.drop_replicate, List.take_replicate,
        min_eq_left (by omega : 4 ≤ 56 - 4 * i)]
      exact (if_pos hi).trans hzero.symm
  · rename_i hshort
    have hzeros : paddingZeros message.length = 55 - sha.buffer.length := by
      unfold paddingZeros
      omega
    obtain ⟨x, hx⟩ : ∃ x, x = sha.buffer ++ 0x80 :: List.replicate (55 - sha.buffer.length) 0 :=
      ⟨_, rfl⟩
    have hlength : x.length = 56 := by
      rw [hx, List.length_append, List.length_cons, List.length_replicate]
      omega
    have hsplit : full = x ++ List.replicate 8 0 := by
      have hcount : blockBytes - (sha.buffer ++ [0x80]).length =
          (55 - sha.buffer.length) + 8 := by omega
      rw [hfull, hcount, List.replicate_add, hx]
      simp only [List.append_assoc, List.cons_append, List.nil_append]
    rw [words_append_lengthBytes hlength, transform_words, hzeros, ← hx, blocks_singleton]
    · rfl
    · rw [List.length_append, hlength, Lib.SecureHash.length_lengthBytes]
    · intro i hi
      dsimp only
      unfold words
      rw [Vector.getElem_ofFn, hsplit, take_drop_append (by dsimp only; omega)]

/-- Messages that are given to one object, each in parts, one after the other. -/
def hashAll (sha : SHA1) : List (List Bytes) → List Digest
  | [] => []
  | parts :: messages =>
    let (digest, sha) := (parts.foldl SHA1.update sha).final
    digest :: hashAll sha messages

/-- The object returns the hash of each message, however the messages are cut in parts. -/
theorem hashAll_eq (messages : List (List Bytes)) :
    hashAll .reset messages = messages.map fun parts => sha1 parts.flatten := by
  induction messages with
  | nil => rfl
  | cons parts messages ih =>
    have hholds := holds_foldl_update holds_reset parts
    unfold hashAll
    rw [hholds.final, List.nil_append, List.map_cons, ← ih]

end Btor.Sha1
