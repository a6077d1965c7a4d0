import Btor.Lib.BlockHash
import Btor.Lib.Numeral

/-!
# The secure hash standard's SHA-1

The message is padded with a single `1` bit, zeros, and its length in bits as a 64-bit number, and
cut in blocks of 64 bytes. A block is expanded to a schedule of 80 words, and each step shifts the
five working variables by one. This follows the text of the standard, on bytes, and is for
comparison with an implementation.

A padded message is a whole number of blocks (`dvd_length_pad`), which determine the message
(`parse_injective`), and the last of which tells how many they are (`length_parse_eq`). So two
messages with one hash contain a collision of the compression function
(`exists_isCollision_of_sha1_eq`).
-/

namespace Lib.SecureHash

/-! ## The compression function -/

/-- Rotate left by `k` bits. -/
def rotl (k x : UInt32) : UInt32 := x <<< k ||| x >>> (32 - k)

/-- `Ch` of the standard. -/
def ch (x y z : UInt32) : UInt32 := (x &&& y) ^^^ (~~~x &&& z)

/-- `Parity` of the standard. -/
def parity (x y z : UInt32) : UInt32 := x ^^^ y ^^^ z

/-- `Maj` of the standard. -/
def maj (x y z : UInt32) : UInt32 := (x &&& y) ^^^ (x &&& z) ^^^ (y &&& z)

/-- The function of step `t`. -/
def f (t : ℕ) : UInt32 → UInt32 → UInt32 → UInt32 :=
  if t < 20 then ch else if t < 40 then parity else if t < 60 then maj else parity

/-- The constant of step `t`. -/
def K (t : ℕ) : UInt32 :=
  if t < 20 then 0x5a827999 else if t < 40 then 0x6ed9eba1 else if t < 60 then 0x8f1bbcdc else
    0xca62c1d6

/-- The schedule of a block. -/
def schedule (block : Vector UInt32 16) (t : ℕ) : UInt32 :=
  if h : t < 16 then block[t] else
    rotl 1 (schedule block (t - 3) ^^^ schedule block (t - 8) ^^^ schedule block (t - 14) ^^^
      schedule block (t - 16))
termination_by t

/-- The working variables. -/
structure Vars where
  a : UInt32
  b : UInt32
  c : UInt32
  d : UInt32
  e : UInt32

/-- The variables at the start of a block. -/
def Vars.ofDigest (digest : Vector UInt32 5) : Vars :=
  ⟨digest[0], digest[1], digest[2], digest[3], digest[4]⟩

/-- The variables as a digest. -/
def Vars.toDigest (vars : Vars) : Vector UInt32 5 := #v[vars.a, vars.b, vars.c, vars.d, vars.e]

/-- Step `t` with the word `w` of the schedule. -/
def step (t : ℕ) (w : UInt32) (vars : Vars) : Vars where
  a := rotl 5 vars.a + f t vars.b vars.c vars.d + vars.e + K t + w
  b := vars.a
  c := rotl 30 vars.b
  d := vars.c
  e := vars.d

/-- The working variables after `t` steps. -/
def steps (block : Vector UInt32 16) (vars : Vars) : ℕ → Vars
  | 0 => vars
  | t + 1 => step t (schedule block t) (steps block vars t)

/-- The compression function. -/
def compress (digest : Vector UInt32 5) (block : Vector UInt32 16) : Vector UInt32 5 :=
  digest.zipWith (· + ·) (steps block (.ofDigest digest) 80).toDigest

/-! ## Padding -/

/-- The number of zero bytes behind the `1` bit and the seven zeros in its byte. -/
def paddingZeros (length : ℕ) : ℕ := (119 - length % 64) % 64

/-- The length in bits as eight bytes, the most significant one first. -/
def lengthBytes (length : ℕ) : List UInt8 :=
  (List.range 8).reverse.map fun k => UInt8.ofNat (8 * length / 256^k)

/-- The padded message. -/
def pad (message : List UInt8) : List UInt8 :=
  message ++ 0x80 :: List.replicate (paddingZeros message.length) 0 ++ lengthBytes message.length

/-- The word that four bytes spell, the most significant one first. -/
def word (bytes : List UInt8) : UInt32 := UInt32.ofNat (horner 256 UInt8.toNat bytes)

/-- The words of a block. -/
def words (bytes : List UInt8) : Vector UInt32 16 :=
  .ofFn fun i => word ((bytes.drop (4 * i)).take 4)

/-- The compression function on the bytes of a block. -/
def compressBytes (digest : Vector UInt32 5) (bytes : List UInt8) : Vector UInt32 5 :=
  compress digest (words bytes)

/-- The hash value before the first block. -/
def initial : Vector UInt32 5 :=
  #v[0x67452301, 0xefcdab89, 0x98badcfe, 0x10325476, 0xc3d2e1f0].map UInt32.ofNat

/-- The blocks of the padded message. -/
def parse (message : List UInt8) : List (Vector UInt32 16) := (blocks 64 (pad message)).map words

/-- The hash of a message. -/
def sha1 (message : List UInt8) : Vector UInt32 5 := (parse message).foldl compress initial

/-- The hash as a fold over the bytes of the blocks. -/
theorem sha1_eq (message : List UInt8) :
    sha1 message = (blocks 64 (pad message)).foldl compressBytes initial := List.foldl_map

/-- The length has eight bytes. -/
theorem length_lengthBytes (length : ℕ) : (lengthBytes length).length = 8 := by
  simp [lengthBytes]

/-- The padded message has a byte, some zeros and the length more. -/
theorem length_pad (message : List UInt8) :
    (pad message).length = message.length + 9 + paddingZeros message.length := by
  unfold pad
  rw [List.length_append, List.length_append, List.length_cons, List.length_replicate,
    length_lengthBytes]
  omega

/-- A padded message is a whole number of blocks. -/
theorem dvd_length_pad (message : List UInt8) : 64 ∣ (pad message).length := by
  rw [length_pad]
  unfold paddingZeros
  omega

/-! ## The message is determined -/

/-- Lists are determined by their images if their elements are. -/
theorem eq_of_map_eq {α γ : Type} {g : α → γ} {l l' : List α}
    (hg : ∀ a ∈ l, ∀ a' ∈ l', g a = g a' → a = a') (h : l.map g = l'.map g) : l = l' := by
  have hforall : List.Forall₂ (fun a a' => g a = g a') l l' := by
    rw [← List.forall₂_map_left_iff (R := fun c a' => c = g a'),
      ← List.forall₂_map_right_iff (R := Eq), List.forall₂_eq_eq_eq]
    exact h
  clear h
  induction hforall with
  | nil => rfl
  | cons hhead _ ih =>
    rw [hg _ List.mem_cons_self _ List.mem_cons_self hhead,
      ih fun a ha a' ha' => hg a (List.mem_cons_of_mem _ ha) a' (List.mem_cons_of_mem _ ha')]

/-- The length of a message of the standard is read off its eight bytes. -/
theorem horner_lengthBytes {length : ℕ} (h : length < 2^61) :
    horner 256 UInt8.toNat (lengthBytes length) = 8 * length := by
  have hrange : (List.range 8).reverse = [7, 6, 5, 4, 3, 2, 1, 0] := rfl
  unfold lengthBytes horner
  rw [hrange]
  simp only [List.map_cons, List.map_nil, List.foldl_cons, List.foldl_nil, UInt8.toNat_ofNat']
  omega

/-- Lengths below `2^61` with the same bytes are the same. -/
theorem lengthBytes_injective {length length' : ℕ} (h : length < 2^61) (h' : length' < 2^61)
    (heq : lengthBytes length = lengthBytes length') : length = length' := by
  have hhorner := congrArg (horner 256 UInt8.toNat) heq
  rw [horner_lengthBytes h, horner_lengthBytes h'] at hhorner
  omega

/-- A padded message ends with the bytes of its length. -/
theorem lengthBytes_isSuffix_pad (message : List UInt8) :
    lengthBytes message.length <:+ pad message := List.suffix_append _ _

/-- A list that two padded messages end with, with room for the length, tells that they are as
long. -/
theorem length_eq_of_isSuffix {message message' tail : List UInt8}
    (hmessage : message.length < 2^61) (hmessage' : message'.length < 2^61)
    (htail : 8 ≤ tail.length) (h : tail <:+ pad message) (h' : tail <:+ pad message') :
    message.length = message'.length := by
  have hends {message : List UInt8} (h : tail <:+ pad message) :
      lengthBytes message.length <:+ tail := by
    refine List.suffix_of_suffix_length_le (lengthBytes_isSuffix_pad message) h ?_
    rwa [length_lengthBytes]
  apply lengthBytes_injective hmessage hmessage'
  refine List.IsSuffix.eq_of_length ?_ (by rw [length_lengthBytes, length_lengthBytes])
  exact List.suffix_of_suffix_length_le (hends h) (hends h')
    (by rw [length_lengthBytes, length_lengthBytes])

/-- A padded message determines the message. -/
theorem pad_injective {message message' : List UInt8} (hmessage : message.length < 2^61)
    (hmessage' : message'.length < 2^61) (h : pad message = pad message') : message = message' := by
  have hpad : 8 ≤ (pad message).length := by
    rw [length_pad]
    omega
  have hlength := length_eq_of_isSuffix hmessage hmessage' hpad List.suffix_rfl
    (h ▸ List.suffix_rfl)
  unfold pad at h
  rw [List.append_assoc, List.append_assoc] at h
  exact (List.append_inj h hlength).1

/-- Four bytes are determined by their word. -/
theorem word_injective {bytes bytes' : List UInt8} (hlength : bytes.length = 4)
    (hlength' : bytes'.length = 4) (h : word bytes = word bytes') : bytes = bytes' := by
  have hlt {bytes : List UInt8} (hlength : bytes.length = 4) :
      horner 256 UInt8.toNat bytes < UInt32.size := by
    have hbound := horner_lt (by decide) UInt8.toNat_lt bytes
    rwa [hlength] at hbound
  have hnat := congrArg UInt32.toNat h
  unfold word at hnat
  rw [UInt32.toNat_ofNat_of_lt' (hlt hlength), UInt32.toNat_ofNat_of_lt' (hlt hlength')] at hnat
  exact eq_of_horner_eq (by decide) (fun _ _ => UInt8.toNat_inj.mp) UInt8.toNat_lt
    (hlength.trans hlength'.symm) hnat

/-- A block is determined by its words. -/
theorem words_injective {bytes bytes' : List UInt8} (hlength : bytes.length = 64)
    (hlength' : bytes'.length = 64) (h : words bytes = words bytes') : bytes = bytes' := by
  have hword (i : ℕ) (hi : i < 16) :
      (bytes.drop (4 * i)).take 4 = (bytes'.drop (4 * i)).take 4 := by
    have hget := congrArg (fun block => block[i]) h
    simp only [words, Vector.getElem_ofFn] at hget
    refine word_injective ?_ ?_ hget
    · rw [List.length_take, List.length_drop]
      omega
    · rw [List.length_take, List.length_drop]
      omega
  apply List.ext_getElem?
  intro j
  rcases Nat.lt_or_ge j 64 with hj | hj
  · have hget := congrArg (fun l => l[j % 4]?) (hword (j / 4) (by omega))
    have hindex : 4 * (j / 4) + j % 4 = j := Nat.div_add_mod j 4
    simpa [List.getElem?_take, List.getElem?_drop, Nat.mod_lt, hindex] using hget
  · rw [List.getElem?_eq_none (by omega), List.getElem?_eq_none (by omega)]

/-- The blocks of a message determine it. -/
theorem parse_injective {message message' : List UInt8} (hmessage : message.length < 2^61)
    (hmessage' : message'.length < 2^61) (h : parse message = parse message') :
    message = message' := by
  have hlength {message b : List UInt8} (hb : b ∈ blocks 64 (pad message)) : b.length = 64 :=
    length_of_mem_blocks (by decide) hb
  apply pad_injective hmessage hmessage'
  refine eq_of_blocks_eq (by decide) (dvd_length_pad _) (dvd_length_pad _) ?_
  exact eq_of_map_eq (fun b hb b' hb' => words_injective (hlength hb) (hlength hb')) h

/-- Every message has a block. -/
theorem parse_ne_nil (message : List UInt8) : parse message ≠ [] := by
  intro hnil
  have hlength := congrArg List.length hnil
  unfold parse at hlength
  rw [List.length_map, length_blocks, length_pad, List.length_nil] at hlength
  unfold paddingZeros at hlength
  omega

/-- The last block of a message tells the number of blocks. -/
theorem length_parse_eq {message message' : List UInt8} (hmessage : message.length < 2^61)
    (hmessage' : message'.length < 2^61)
    (h : (parse message).getLast? = (parse message').getLast?) :
    (parse message).length = (parse message').length := by
  have hlast (message : List UInt8) : ∃ b, b.length = 64 ∧ b <:+ pad message ∧
      (parse message).getLast? = some (words b) := by
    cases hlast : (blocks 64 (pad message)).getLast? with
    | none =>
      refine absurd ?_ (parse_ne_nil message)
      rw [parse, List.getLast?_eq_none_iff.mp hlast, List.map_nil]
    | some b =>
      refine ⟨b, length_of_mem_blocks (by decide) (List.mem_of_getLast? hlast),
        isSuffix_of_getLast?_blocks (by decide) (dvd_length_pad _) hlast, ?_⟩
      rw [parse, List.getLast?_map, hlast, Option.map_some]
  obtain ⟨b, hb, hsuffix, hb_last⟩ := hlast message
  obtain ⟨b', hb', hsuffix', hb_last'⟩ := hlast message'
  rw [hb_last, hb_last', Option.some_inj] at h
  obtain rfl := words_injective hb hb' h
  have hlength := length_eq_of_isSuffix hmessage hmessage' (by rw [hb]; decide) hsuffix hsuffix'
  unfold parse
  rw [List.length_map, List.length_map, length_blocks, length_blocks, length_pad, length_pad,
    hlength]

/-- Two messages with one hash are the same, or two of the calls of the compression function that
were made for them are a collision. -/
theorem exists_isCollision_of_sha1_eq {message message' : List UInt8}
    (hmessage : message.length < 2^61) (hmessage' : message'.length < 2^61)
    (h : sha1 message = sha1 message') (hne : message ≠ message') :
    ∃ c ∈ calls compress initial (parse message),
      ∃ c' ∈ calls compress initial (parse message'), IsCollision compress c c' :=
  exists_isCollision (fun hparse => hne (parse_injective hmessage hmessage' hparse))
    (parse_ne_nil _) (parse_ne_nil _) (length_parse_eq hmessage hmessage') h

end Lib.SecureHash
