import Btor.Butils
import Btor.Lib.SecureHash

/-!
# SHA-1

`sha1.hpp`: the class `SHA1`, which is given a message in parts, and the functions that it is made
of. The five words of the working variables are `a` to `e`. `R0` to `R4` are each given the names of
five of them, in turn, and change two. `transform` calls them 80 times, with its loop unrolled, and
the calls are the list `transformCalls`. `size_t` and the length of a string are natural numbers;
`transforms` is a `uint64_t`.

The second half shows that `transform` is the compression function. The standard shifts the working
variables by one in each of 80 steps, and expands the block to a schedule of 80 words. `transform`
leaves the variables where they are and renames them from call to call, and it keeps the last 16
words of the schedule in the place of the block. `Tracks` relates the two after as many calls as
steps. The calls are those of one rule (`transformCalls_eq`). A call finds the next word of the
schedule in the window (`blk_of_window`) and goes one step on (`Tracks.succ`). After 80 steps the
names are back where they started, which gives `transform_eq_compress`.
-/

namespace Btor

namespace Sha1

/-- The number of 32-bit integers in a block. -/
def blockInts : ℕ := 16

/-- The number of bytes in a block. -/
def blockBytes : ℕ := blockInts * 4

/-- `uint32_t block[BLOCK_INTS]` -/
abbrev Block := Vector UInt32 16

/-- `uint32_t digest[5]` -/
abbrev Digest := Vector UInt32 5

/-- The initialization constants. -/
def initialDigest : Digest := #v[0x67452301, 0xefcdab89, 0x98badcfe, 0x10325476, 0xc3d2e1f0]

/-- Rotate left. -/
def rol (value bits : UInt32) : UInt32 := value <<< bits ||| value >>> (32 - bits)

/-- The next word of the schedule, from the last 16. The sums are those of `Fin 16`, which have the
last four bits that `& 15` leaves. -/
def blk (block : Block) (i : Fin 16) : UInt32 :=
  rol (block[i + 13] ^^^ block[i + 8] ^^^ block[i + 2] ^^^ block[i]) 1

/-! ## The rounds -/

/-- The names of the working variables. -/
abbrev Var := Fin 5

/-- The first of the working variables. -/
def Var.a : Var := 0
@[inherit_doc Var.a] def Var.b : Var := 1
@[inherit_doc Var.a] def Var.c : Var := 2
@[inherit_doc Var.a] def Var.d : Var := 3
@[inherit_doc Var.a] def Var.e : Var := 4

/-- What a round works on. -/
structure Working where
  vars : Vector UInt32 5
  block : Block

/-- What the rounds have in common: `f` and `k` and the word of the block go to `z`, and `w` is
rotated. -/
def Working.mix (s : Working) (v w z : Var) (i : Fin 16) (f k : UInt32) : Working :=
  let vars := s.vars.set z (s.vars[z] + (f + s.block[i] + k + rol s.vars[v] 5))
  { s with vars := vars.set w (rol vars[w] 30) }

/-- `block[i] = blk(block, i)` -/
def Working.expand (s : Working) (i : Fin 16) : Working :=
  { s with block := s.block.set i (blk s.block i) }

section

variable (s : Working) (v w x y z : Var) (i : Fin 16)

/-- `R0` -/
def R0 : Working :=
  s.mix v w z i ((s.vars[w] &&& (s.vars[x] ^^^ s.vars[y])) ^^^ s.vars[y]) 0x5a827999

/-- `R1` -/
def R1 : Working :=
  (s.expand i).mix v w z i ((s.vars[w] &&& (s.vars[x] ^^^ s.vars[y])) ^^^ s.vars[y]) 0x5a827999

/-- `R2` -/
def R2 : Working :=
  (s.expand i).mix v w z i (s.vars[w] ^^^ s.vars[x] ^^^ s.vars[y]) 0x6ed9eba1

/-- `R3` -/
def R3 : Working :=
  (s.expand i).mix v w z i (((s.vars[w] ||| s.vars[x]) &&& s.vars[y]) |||
    (s.vars[w] &&& s.vars[x])) 0x8f1bbcdc

/-- `R4` -/
def R4 : Working :=
  (s.expand i).mix v w z i (s.vars[w] ^^^ s.vars[x] ^^^ s.vars[y]) 0xca62c1d6

end

/-- The names of the five operations. -/
inductive Round where
  | R0 | R1 | R2 | R3 | R4
  deriving DecidableEq

/-- A call of one of them on the block, with its other arguments. -/
structure Call where
  round : Round
  v : Var
  w : Var
  x : Var
  y : Var
  z : Var
  i : Fin 16
  deriving DecidableEq

/-- The effect of a call. -/
def Call.run (s : Working) (call : Call) : Working :=
  let operation := match call.round with
    | .R0 => R0
    | .R1 => R1
    | .R2 => R2
    | .R3 => R3
    | .R4 => R4
  operation s call.v call.w call.x call.y call.z call.i

/-- The calls of `transform`: four rounds of 20 operations each. -/
def transformCalls : List Call := [
  ⟨.R0, .a, .b, .c, .d, .e, 0⟩, ⟨.R0, .e, .a, .b, .c, .d, 1⟩, ⟨.R0, .d, .e, .a, .b, .c, 2⟩,
  ⟨.R0, .c, .d, .e, .a, .b, 3⟩, ⟨.R0, .b, .c, .d, .e, .a, 4⟩, ⟨.R0, .a, .b, .c, .d, .e, 5⟩,
  ⟨.R0, .e, .a, .b, .c, .d, 6⟩, ⟨.R0, .d, .e, .a, .b, .c, 7⟩, ⟨.R0, .c, .d, .e, .a, .b, 8⟩,
  ⟨.R0, .b, .c, .d, .e, .a, 9⟩, ⟨.R0, .a, .b, .c, .d, .e, 10⟩, ⟨.R0, .e, .a, .b, .c, .d, 11⟩,
  ⟨.R0, .d, .e, .a, .b, .c, 12⟩, ⟨.R0, .c, .d, .e, .a, .b, 13⟩, ⟨.R0, .b, .c, .d, .e, .a, 14⟩,
  ⟨.R0, .a, .b, .c, .d, .e, 15⟩, ⟨.R1, .e, .a, .b, .c, .d, 0⟩, ⟨.R1, .d, .e, .a, .b, .c, 1⟩,
  ⟨.R1, .c, .d, .e, .a, .b, 2⟩, ⟨.R1, .b, .c, .d, .e, .a, 3⟩, ⟨.R2, .a, .b, .c, .d, .e, 4⟩,
  ⟨.R2, .e, .a, .b, .c, .d, 5⟩, ⟨.R2, .d, .e, .a, .b, .c, 6⟩, ⟨.R2, .c, .d, .e, .a, .b, 7⟩,
  ⟨.R2, .b, .c, .d, .e, .a, 8⟩, ⟨.R2, .a, .b, .c, .d, .e, 9⟩, ⟨.R2, .e, .a, .b, .c, .d, 10⟩,
  ⟨.R2, .d, .e, .a, .b, .c, 11⟩, ⟨.R2, .c, .d, .e, .a, .b, 12⟩, ⟨.R2, .b, .c, .d, .e, .a, 13⟩,
  ⟨.R2, .a, .b, .c, .d, .e, 14⟩, ⟨.R2, .e, .a, .b, .c, .d, 15⟩, ⟨.R2, .d, .e, .a, .b, .c, 0⟩,
  ⟨.R2, .c, .d, .e, .a, .b, 1⟩, ⟨.R2, .b, .c, .d, .e, .a, 2⟩, ⟨.R2, .a, .b, .c, .d, .e, 3⟩,
  ⟨.R2, .e, .a, .b, .c, .d, 4⟩, ⟨.R2, .d, .e, .a, .b, .c, 5⟩, ⟨.R2, .c, .d, .e, .a, .b, 6⟩,
  ⟨.R2, .b, .c, .d, .e, .a, 7⟩, ⟨.R3, .a, .b, .c, .d, .e, 8⟩, ⟨.R3, .e, .a, .b, .c, .d, 9⟩,
  ⟨.R3, .d, .e, .a, .b, .c, 10⟩, ⟨.R3, .c, .d, .e, .a, .b, 11⟩, ⟨.R3, .b, .c, .d, .e, .a, 12⟩,
  ⟨.R3, .a, .b, .c, .d, .e, 13⟩, ⟨.R3, .e, .a, .b, .c, .d, 14⟩, ⟨.R3, .d, .e, .a, .b, .c, 15⟩,
  ⟨.R3, .c, .d, .e, .a, .b, 0⟩, ⟨.R3, .b, .c, .d, .e, .a, 1⟩, ⟨.R3, .a, .b, .c, .d, .e, 2⟩,
  ⟨.R3, .e, .a, .b, .c, .d, 3⟩, ⟨.R3, .d, .e, .a, .b, .c, 4⟩, ⟨.R3, .c, .d, .e, .a, .b, 5⟩,
  ⟨.R3, .b, .c, .d, .e, .a, 6⟩, ⟨.R3, .a, .b, .c, .d, .e, 7⟩, ⟨.R3, .e, .a, .b, .c, .d, 8⟩,
  ⟨.R3, .d, .e, .a, .b, .c, 9⟩, ⟨.R3, .c, .d, .e, .a, .b, 10⟩, ⟨.R3, .b, .c, .d, .e, .a, 11⟩,
  ⟨.R4, .a, .b, .c, .d, .e, 12⟩, ⟨.R4, .e, .a, .b, .c, .d, 13⟩, ⟨.R4, .d, .e, .a, .b, .c, 14⟩,
  ⟨.R4, .c, .d, .e, .a, .b, 15⟩, ⟨.R4, .b, .c, .d, .e, .a, 0⟩, ⟨.R4, .a, .b, .c, .d, .e, 1⟩,
  ⟨.R4, .e, .a, .b, .c, .d, 2⟩, ⟨.R4, .d, .e, .a, .b, .c, 3⟩, ⟨.R4, .c, .d, .e, .a, .b, 4⟩,
  ⟨.R4, .b, .c, .d, .e, .a, 5⟩, ⟨.R4, .a, .b, .c, .d, .e, 6⟩, ⟨.R4, .e, .a, .b, .c, .d, 7⟩,
  ⟨.R4, .d, .e, .a, .b, .c, 8⟩, ⟨.R4, .c, .d, .e, .a, .b, 9⟩, ⟨.R4, .b, .c, .d, .e, .a, 10⟩,
  ⟨.R4, .a, .b, .c, .d, .e, 11⟩, ⟨.R4, .e, .a, .b, .c, .d, 12⟩, ⟨.R4, .d, .e, .a, .b, .c, 13⟩,
  ⟨.R4, .c, .d, .e, .a, .b, 14⟩, ⟨.R4, .b, .c, .d, .e, .a, 15⟩]

/-- Hash a single 512-bit block. Returns the digest and what the rounds leave of the block. -/
def transform (digest : Digest) (block : Block) : Digest × Block :=
  let s := transformCalls.foldl Call.run { vars := digest, block := block }
  -- Add the working vars back into the digest.
  (digest.zipWith (· + ·) s.vars, s.block)

/-- A word of the block, the byte at `4 * i` most significant. -/
def bufferWord (buffer : Bytes) (i : ℕ) : UInt32 :=
  (buffer.getD (4 * i + 3) 0).toUInt32 ||| (buffer.getD (4 * i + 2) 0).toUInt32 <<< 8 |||
    (buffer.getD (4 * i + 1) 0).toUInt32 <<< 16 ||| (buffer.getD (4 * i) 0).toUInt32 <<< 24

/-- Convert the byte buffer to an array of words. -/
def bufferToBlock (buffer : Bytes) : Block := .ofFn fun i => bufferWord buffer i

/-! ## The class -/

/-- `SHA1` -/
structure SHA1 where
  digest : Digest
  buffer : Bytes
  transforms : UInt64
  /-- The methods return with a buffer that is not full. -/
  buffer_lt : buffer.length < blockBytes

/-- What `reset` leaves, which the constructor calls. -/
def SHA1.reset : SHA1 where
  digest := initialDigest
  buffer := []
  transforms := 0
  buffer_lt := by decide

/-- `update`: the loop over what is left of the stream. -/
def SHA1.update (sha : SHA1) (stream : Bytes) : SHA1 :=
  let count := blockBytes - sha.buffer.length
  let buffer := sha.buffer ++ stream.take count
  if hfull : buffer.length ≠ blockBytes then
    { sha with
      buffer := buffer
      buffer_lt := by
        have hlength : buffer.length ≤ sha.buffer.length + count := by
          rw [List.length_append, List.length_take]
          omega
        have hlt := sha.buffer_lt
        omega }
  else
    let (digest, _) := transform sha.digest (bufferToBlock buffer)
    SHA1.update {
      digest := digest
      buffer := []
      transforms := sha.transforms + 1
      buffer_lt := by decide } (stream.drop count)
termination_by stream.length
decreasing_by
  have hlt := sha.buffer_lt
  have hlength : sha.buffer.length + (stream.take count).length = blockBytes := by
    rw [← List.length_append]
    exact not_not.mp hfull
  rw [List.length_take] at hlength
  rw [List.length_drop]
  omega

/-- `final`: add padding and return the message digest. The object is reset for the next run. -/
def SHA1.final (sha : SHA1) : Digest × SHA1 :=
  -- Total number of hashed bits.
  let totalBits := (sha.transforms * 64 + UInt64.ofNat sha.buffer.length) * 8
  -- Padding
  let buffer := sha.buffer ++ [0x80]
  let origSize := buffer.length
  let buffer := buffer ++ List.replicate (blockBytes - origSize) 0
  let block := bufferToBlock buffer
  let (digest, block) :=
    if origSize > blockBytes - 8 then
      let (digest, block) := transform sha.digest block
      (digest, .ofFn fun i => if i.val < blockInts - 2 then 0 else block[i])
    else (sha.digest, block)
  -- Append the number of bits.
  let block := (block.set 15 totalBits.toUInt32).set 14 (totalBits >>> 32).toUInt32
  ((transform digest block).1, .reset)

open Lib.SecureHash (Vars ch parity maj K rotl schedule steps compress)

/-! ## The calls -/

/-- The name that the working variable `k` of the standard has after `t` steps. -/
def name (t : ℕ) (k : Fin 5) : Var := k - Fin.ofNat 5 t

/-- The operation of step `t`. -/
def round (t : ℕ) : Round :=
  if t < 16 then .R0 else if t < 20 then .R1 else if t < 40 then .R2 else if t < 60 then .R3 else
    .R4

/-- The call of step `t`. -/
def call (t : ℕ) : Call :=
  ⟨round t, name t 0, name t 1, name t 2, name t 3, name t 4, Fin.ofNat 16 t⟩

/-- The calls follow the rule. -/
theorem transformCalls_eq : transformCalls = (List.range 80).map call := by decide

/-- At the start each variable has its own name. -/
theorem name_zero (k : Fin 5) : name 0 k = k := by
  revert k
  decide

/-- The names are back where they started. -/
theorem name_eighty (k : Fin 5) : name 80 k = k := by
  revert k
  decide

/-- Each variable takes the name of the one before it. -/
theorem name_succ (t : ℕ) (k : Fin 5) : name (t + 1) (k + 1) = name t k := by
  unfold name
  have hsucc : Fin.ofNat 5 (t + 1) = Fin.ofNat 5 t + 1 := by
    apply Fin.ext
    simp [Fin.val_add]
  rw [hsucc, add_sub_add_right_eq_sub]

/-- At any time the names differ. -/
theorem name_inj {t : ℕ} {k k' : Fin 5} : name t k = name t k' ↔ k = k' := sub_left_inj

/-! ## The operations -/

/-- The choice of the standard, with one operation less. -/
theorem ch_eq (w x y : UInt32) : (w &&& (x ^^^ y)) ^^^ y = ch w x y := by
  unfold ch
  rw [← UInt32.toBitVec_inj]
  simp only [UInt32.toBitVec_xor, UInt32.toBitVec_and, UInt32.toBitVec_not]
  ext i hi
  simp only [BitVec.getElem_xor, BitVec.getElem_and, BitVec.getElem_not]
  cases w.toBitVec[i] <;> cases x.toBitVec[i] <;> cases y.toBitVec[i] <;> rfl

/-- The majority of the standard. -/
theorem maj_eq (w x y : UInt32) : ((w ||| x) &&& y) ||| (w &&& x) = maj w x y := by
  unfold maj
  rw [← UInt32.toBitVec_inj]
  simp only [UInt32.toBitVec_xor, UInt32.toBitVec_and, UInt32.toBitVec_or]
  ext i hi
  simp only [BitVec.getElem_xor, BitVec.getElem_and, BitVec.getElem_or]
  cases w.toBitVec[i] <;> cases x.toBitVec[i] <;> cases y.toBitVec[i] <;> rfl

/-- The block as the call of step `t` reads it. -/
def Working.load (s : Working) (t : ℕ) : Working :=
  if t < 16 then s else s.expand (Fin.ofNat 16 t)

/-- The call of step `t` mixes in the function and the constant of the standard. -/
theorem run_call (s : Working) (t : ℕ) :
    (call t).run s = (s.load t).mix (name t 0) (name t 1) (name t 4) (Fin.ofNat 16 t)
      (Lib.SecureHash.f t s.vars[name t 1] s.vars[name t 2] s.vars[name t 3]) (K t) := by
  unfold Call.run call round Working.load Lib.SecureHash.f K
  by_cases h₁₆ : t < 16
  · have h₂₀ : t < 20 := by omega
    simp only [h₁₆, h₂₀, if_true, R0, ch_eq]
  by_cases h₂₀ : t < 20
  · simp only [h₁₆, h₂₀, if_true, if_false, R1, ch_eq]
  by_cases h₄₀ : t < 40
  · simp only [h₁₆, h₂₀, h₄₀, if_true, if_false, R2, parity]
  by_cases h₆₀ : t < 60
  · simp only [h₁₆, h₂₀, h₄₀, h₆₀, if_true, if_false, R3, maj_eq]
  · simp only [h₁₆, h₂₀, h₄₀, h₆₀, if_false, R4, parity]

/-- The working variables that a call leaves: it changes `w` and `z`. -/
theorem vars_mix (s : Working) {v w z : Var} (hne : w ≠ z) (i : Fin 16) (f k : UInt32) (u : Var) :
    (s.mix v w z i f k).vars[u] = if u = w then rol s.vars[w] 30 else
      if u = z then s.vars[z] + (f + s.block[i] + k + rol s.vars[v] 5) else s.vars[u] := by
  have hval : w.val ≠ z.val := Fin.val_ne_iff.mpr hne
  unfold Working.mix
  simp only [Fin.getElem_fin, Vector.getElem_set, Fin.ext_iff, eq_comm, hval, if_false]

/-- A word that is loaded leaves the variables alone. -/
theorem vars_load (s : Working) (t : ℕ) : (s.load t).vars = s.vars := by
  unfold Working.load Working.expand
  split
  · rfl
  · rfl

/-! ## The schedule -/

/-- The words of the schedule that a block has room for behind `t` steps. -/
def Window (M block : Block) (t : ℕ) : Prop :=
  ∀ u, t ≤ u + 16 → u < max t 16 → block[Fin.ofNat 16 u] = schedule M u

/-- At the start the window has the words of the block. -/
theorem window_zero (M : Block) : Window M M 0 := by
  intro u _ hu
  have hlt : u < 16 := by omega
  unfold schedule
  simp [hlt, Nat.mod_eq_of_lt hlt]

/-- The next word of the schedule comes from the last 16. -/
theorem blk_of_window {M block : Block} {t : ℕ} (h : Window M block t) (ht : 16 ≤ t) :
    blk block (Fin.ofNat 16 t) = schedule M t := by
  have hread (i : Fin 16) (j : ℕ) (hi : Fin.ofNat 16 t + i = Fin.ofNat 16 (t - j)) (hj : 1 ≤ j)
      (hj' : j ≤ 16) : block[Fin.ofNat 16 t + i] = schedule M (t - j) := by
    have hu := h (t - j) (by omega) (by omega)
    simp only [hi]
    exact hu
  have hindex (i j : ℕ) (hj : j ≤ 16) (hij : i + j = 16) :
      Fin.ofNat 16 t + Fin.ofNat 16 i = Fin.ofNat 16 (t - j) := by
    apply Fin.ext
    simp only [Fin.ofNat, Fin.val_add]
    omega
  have h₃ := hread 13 3 (hindex 13 3 (by decide) rfl) (by decide) (by decide)
  have h₈ := hread 8 8 (hindex 8 8 (by decide) rfl) (by decide) (by decide)
  have h₁₄ := hread 2 14 (hindex 2 14 (by decide) rfl) (by decide) (by decide)
  have h₁₆ := hread 0 16 (hindex 0 16 (by decide) rfl) (by decide) (by decide)
  simp only [add_zero] at h₁₆
  unfold schedule blk
  rw [dif_neg (by omega), h₃, h₈, h₁₄, h₁₆]
  rfl

/-- The call of step `t` reads the word of the schedule, and has the next window. -/
theorem window_load {M : Block} {s : Working} {t : ℕ} (h : Window M s.block t) :
    (s.load t).block[Fin.ofNat 16 t] = schedule M t ∧ Window M (s.load t).block (t + 1) := by
  unfold Working.load
  split
  · rename_i ht
    exact ⟨h t (by omega) (by omega), fun u _ hu => h u (by omega) (by omega)⟩
  · rename_i ht
    have hnew : (s.expand (Fin.ofNat 16 t)).block[Fin.ofNat 16 t] = schedule M t := by
      unfold Working.expand
      rw [← blk_of_window h (by omega)]
      simp
    refine ⟨hnew, fun u hu hu' => ?_⟩
    rcases Nat.lt_or_eq_of_le (show u ≤ t by omega) with hlt | rfl
    · -- The other words of the window keep their places.
      have hne : t % 16 ≠ u % 16 := by omega
      rw [← h u (by omega) (by omega)]
      unfold Working.expand
      simp [Vector.getElem_set_ne, hne]
    · exact hnew

/-! ## The working variables -/

/-- What is kept of the state of the standard after `t` steps. -/
structure Tracks (digest : Digest) (M : Block) (t : ℕ) (s : Working) : Prop where
  vars : ∀ k : Fin 5, s.vars[name t k] = (steps M (.ofDigest digest) t).toDigest[k]
  window : Window M s.block t

/-- At the start the variables are those of the digest. -/
theorem tracks_zero (digest : Digest) (M : Block) : Tracks digest M 0 ⟨digest, M⟩ where
  vars k := by
    simp only [name_zero]
    fin_cases k <;> rfl
  window := window_zero M

/-- A call goes one step on. -/
theorem Tracks.succ {digest : Digest} {M : Block} {t : ℕ} {s : Working} (h : Tracks digest M t s) :
    Tracks digest M (t + 1) ((call t).run s) where
  vars k := by
    obtain ⟨hword, -⟩ := window_load h.window
    have hne : name t 1 ≠ name t 4 := fun heq => absurd (name_inj.mp heq) (by decide)
    -- The variable that is computed takes the name of `e`, and the others keep theirs.
    obtain ⟨k, rfl⟩ : ∃ k', k = k' + 1 := ⟨k - 1, (sub_add_cancel k 1).symm⟩
    simp only [name_succ]
    rw [run_call, vars_mix _ hne, hword, vars_load]
    simp only [name_inj, h.vars]
    fin_cases k
    · rfl
    · rfl
    · rfl
    · rfl
    · -- The summands are those of the standard, in another order.
      let vars := steps M (.ofDigest digest) t
      change vars.e + (Lib.SecureHash.f t vars.b vars.c vars.d + schedule M t + K t +
        rotl 5 vars.a) = rotl 5 vars.a + Lib.SecureHash.f t vars.b vars.c vars.d + vars.e + K t +
        schedule M t
      ac_rfl
  window := by
    rw [run_call]
    exact (window_load h.window).2

/-- All calls, one for each step. -/
theorem tracks_run (digest : Digest) (M : Block) (t : ℕ) :
    Tracks digest M t (((List.range t).map call).foldl Call.run ⟨digest, M⟩) := by
  induction t with
  | zero => exact tracks_zero digest M
  | succ t ih =>
    rw [List.range_succ, List.map_append, List.foldl_append]
    exact ih.succ

/-- Hashing a single block is the compression function of the standard. -/
theorem transform_eq_compress (digest : Digest) (block : Block) :
    (transform digest block).1 = compress digest block := by
  have hvars : (transformCalls.foldl Call.run ⟨digest, block⟩).vars =
      (steps block (.ofDigest digest) 80).toDigest := by
    rw [transformCalls_eq]
    apply Vector.ext
    intro i hi
    have hvar := (tracks_run digest block 80).vars ⟨i, hi⟩
    simp only [name_eighty, Fin.getElem_fin] at hvar
    exact hvar
  unfold transform compress
  rw [← hvars]

end Sha1

end Btor
