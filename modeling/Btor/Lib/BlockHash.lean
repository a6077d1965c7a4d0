import Mathlib

/-!
# Iterated hash functions

A list is cut in blocks of `n` symbols, and a compression function folds them into a chaining value.
An implementation that is given the list in parts keeps the chaining value of the blocks so far and
a buffer with what is left over. Filling the buffer and compressing it when it is full keeps that
(`Absorbed.feed`, `Absorbed.compress`), whatever the parts are.

Two lists of blocks with one chaining value contain a collision of the compression function: two
different calls made for them have the same result (`exists_isCollision`). It is enough that the
last block tells how many there are, as that of a padded message with its length does. The collision
is one of these calls, and not just any, since some collision always exists for lack of chaining
values.
-/

namespace Lib

variable {σ β : Type}

/-! ## Blocks -/

/-- The blocks of `n` symbols at the start of a list. -/
def blocks (n : ℕ) (l : List β) : List (List β) :=
  (List.range (l.length / n)).map fun k => (l.drop (n * k)).take n

/-- What is left over behind the blocks. -/
def rest (n : ℕ) (l : List β) : List β := l.drop (n * (l.length / n))

section

variable {n : ℕ} {b l l' : List β}

/-- There are as many blocks as fit. -/
theorem length_blocks : (blocks n l).length = l.length / n := by
  simp [blocks]

/-- The rest has what remains of the length. -/
theorem length_rest : (rest n l).length = l.length % n := by
  unfold rest
  rw [List.length_drop, Nat.mod_def]

/-- The rest is shorter than a block. -/
theorem length_rest_lt (hn : 0 < n) : (rest n l).length < n := by
  rw [length_rest]
  exact Nat.mod_lt _ hn

/-- A list that is shorter than a block has no block. -/
theorem blocks_of_length_lt (h : l.length < n) : blocks n l = [] := by
  unfold blocks
  rw [Nat.div_eq_of_lt h]
  rfl

/-- It is its own rest. -/
theorem rest_of_length_lt (h : l.length < n) : rest n l = l := by
  unfold rest
  rw [Nat.div_eq_of_lt h]
  rfl

/-- A block at the start of a list is the first one. -/
theorem blocks_append_block (hn : 0 < n) (hb : b.length = n) :
    blocks n (b ++ l) = b :: blocks n l := by
  have hcount : (b ++ l).length / n = l.length / n + 1 := by
    rw [List.length_append, hb, Nat.add_div_left _ hn]
  have hskip (k : ℕ) : (b ++ l).drop (n * (k + 1)) = l.drop (n * k) := by
    rw [Nat.mul_succ, Nat.add_comm, ← List.drop_drop, List.drop_left' hb]
  unfold blocks
  rw [hcount, List.range_succ_eq_map, List.map_cons, List.map_map, Nat.mul_zero, List.drop_zero,
    List.take_left' hb]
  congr 1
  exact List.map_congr_left fun k _ => by rw [Function.comp_apply, hskip]

/-- The rest is behind the first block. -/
theorem rest_append_block (hn : 0 < n) (hb : b.length = n) : rest n (b ++ l) = rest n l := by
  unfold rest
  rw [List.length_append, hb, Nat.add_div_left _ hn, Nat.mul_succ, Nat.add_comm, ← List.drop_drop,
    List.drop_left' hb]

/-- A list is shorter than a block, or starts with one. -/
@[elab_as_elim]
theorem block_induction (hn : 0 < n) {motive : List β → Prop}
    (short : ∀ l, l.length < n → motive l)
    (block : ∀ b l, b.length = n → motive l → motive (b ++ l)) (l : List β) : motive l := by
  induction h : l.length using Nat.strong_induction_on generalizing l with
  | _ k ih =>
    rcases Nat.lt_or_ge l.length n with hlt | hge
    · exact short l hlt
    · have hdrop : (l.drop n).length < k := by
        rw [List.length_drop]
        omega
      have hblock := block (l.take n) (l.drop n) (List.length_take_of_le hge) (ih _ hdrop _ rfl)
      rwa [List.take_append_drop] at hblock

/-- The blocks of two lists in a row, where the second ones start with what is left of the first
list. -/
theorem blocks_append (hn : 0 < n) (l l' : List β) :
    blocks n (l ++ l') = blocks n l ++ blocks n (rest n l ++ l') := by
  induction l using block_induction hn with
  | short l hl => rw [blocks_of_length_lt hl, rest_of_length_lt hl, List.nil_append]
  | block b l hb ih =>
    rw [List.append_assoc, blocks_append_block hn hb, ih, blocks_append_block hn hb,
      rest_append_block hn hb, List.cons_append]

/-- The rest of two lists is that of the rest of the first with the second. -/
theorem rest_append (hn : 0 < n) (l l' : List β) :
    rest n (l ++ l') = rest n (rest n l ++ l') := by
  induction l using block_induction hn with
  | short l hl => rw [rest_of_length_lt hl]
  | block b l hb ih =>
    rw [List.append_assoc, rest_append_block hn hb, ih, rest_append_block hn hb]

/-- The blocks and what is left over make up the list. -/
theorem flatten_blocks_append_rest (hn : 0 < n) (l : List β) :
    (blocks n l).flatten ++ rest n l = l := by
  induction l using block_induction hn with
  | short l hl =>
    rw [blocks_of_length_lt hl, rest_of_length_lt hl, List.flatten_nil, List.nil_append]
  | block b l hb ih =>
    rw [blocks_append_block hn hb, rest_append_block hn hb, List.flatten_cons, List.append_assoc,
      ih]

/-- Each block has the length of a block. -/
theorem length_of_mem_blocks (hn : 0 < n) (h : b ∈ blocks n l) : b.length = n := by
  induction l using block_induction hn with
  | short l hl =>
    rw [blocks_of_length_lt hl] at h
    cases h
  | block b' l hb ih =>
    rw [blocks_append_block hn hb] at h
    rcases List.mem_cons.mp h with rfl | h
    · exact hb
    · exact ih h

/-- Lists of whole blocks are determined by these. -/
theorem eq_of_blocks_eq (hn : 0 < n) (hl : n ∣ l.length) (hl' : n ∣ l'.length)
    (h : blocks n l = blocks n l') : l = l' := by
  have hrest {l : List β} (hl : n ∣ l.length) : rest n l = [] := by
    apply List.eq_nil_of_length_eq_zero
    rw [length_rest]
    exact Nat.mod_eq_zero_of_dvd hl
  calc l = (blocks n l).flatten ++ rest n l := (flatten_blocks_append_rest hn l).symm
    _ = (blocks n l').flatten ++ rest n l' := by rw [h, hrest hl, hrest hl']
    _ = l' := flatten_blocks_append_rest hn l'

/-- The last block of a list of whole blocks is its end. -/
theorem isSuffix_of_getLast?_blocks (hn : 0 < n) (hl : n ∣ l.length)
    (h : (blocks n l).getLast? = some b) : b <:+ l := by
  have hrest : rest n l = [] := by
    apply List.eq_nil_of_length_eq_zero
    rw [length_rest]
    exact Nat.mod_eq_zero_of_dvd hl
  have hflatten := flatten_blocks_append_rest hn l
  obtain ⟨bs, hbs⟩ := List.getLast?_eq_some_iff.mp h
  rw [hrest, List.append_nil, hbs, List.flatten_append, List.flatten_singleton] at hflatten
  exact ⟨bs.flatten, hflatten⟩

end

/-! ## Absorbing a list in parts -/

/-- The chaining value and the buffer are those after the list `l`. -/
structure Absorbed (f : σ → List β → σ) (n : ℕ) (iv : σ) (l : List β) (chain : σ)
    (buffer : List β) : Prop where
  chain_eq : chain = (blocks n l).foldl f iv
  buffer_eq : buffer = rest n l

section

variable {f : σ → List β → σ} {n : ℕ} {iv chain : σ} {l l' buffer : List β}

/-- Nothing is absorbed at the start. -/
theorem Absorbed.start (hn : 0 < n) : Absorbed f n iv [] iv [] where
  chain_eq := by rw [blocks_of_length_lt hn, List.foldl_nil]
  buffer_eq := (rest_of_length_lt hn).symm

/-- The buffer is shorter than a block. -/
theorem Absorbed.buffer_lt (hn : 0 < n) (h : Absorbed f n iv l chain buffer) :
    buffer.length < n := by
  rw [h.buffer_eq]
  exact length_rest_lt hn

/-- More symbols that do not fill the buffer. -/
theorem Absorbed.feed (hn : 0 < n) (h : Absorbed f n iv l chain buffer)
    (hlen : (buffer ++ l').length < n) : Absorbed f n iv (l ++ l') chain (buffer ++ l') where
  chain_eq := by
    rw [blocks_append hn, ← h.buffer_eq, blocks_of_length_lt hlen, List.append_nil]
    exact h.chain_eq
  buffer_eq := by rw [rest_append hn, ← h.buffer_eq, rest_of_length_lt hlen]

/-- More symbols that just fill the buffer, which is compressed then. -/
theorem Absorbed.compress (hn : 0 < n) (h : Absorbed f n iv l chain buffer)
    (hlen : (buffer ++ l').length = n) :
    Absorbed f n iv (l ++ l') (f chain (buffer ++ l')) [] where
  chain_eq := by
    have hblock : blocks n (buffer ++ l') = [buffer ++ l'] := by
      have hsingle := blocks_append_block (l := []) hn hlen
      rwa [List.append_nil, blocks_of_length_lt (l := []) hn] at hsingle
    rw [blocks_append hn, ← h.buffer_eq, hblock, List.foldl_append, ← h.chain_eq]
    rfl
  buffer_eq := by
    have hempty := rest_append_block (l := []) hn hlen
    rw [List.append_nil, rest_of_length_lt (l := []) hn] at hempty
    rw [rest_append hn, ← h.buffer_eq, hempty]

end

/-! ## Collisions -/

/-- The calls of the compression function that fold a list of blocks, with their chaining values. -/
def calls (f : σ → β → σ) : σ → List β → List (σ × β)
  | _, [] => []
  | s, b :: bs => (s, b) :: calls f (f s b) bs

/-- Two different calls with the same result. -/
structure IsCollision (f : σ → β → σ) (c c' : σ × β) : Prop where
  ne : c ≠ c'
  eq : f c.1 c.2 = f c'.1 c'.2

section

variable {f : σ → β → σ} {iv : σ} {bs bs' : List β}

/-- The last block makes the last call. -/
theorem calls_concat (f : σ → β → σ) (iv : σ) (bs : List β) (b : β) :
    calls f iv (bs ++ [b]) = calls f iv bs ++ [(bs.foldl f iv, b)] := by
  induction bs generalizing iv with
  | nil => rfl
  | cons b' bs ih => rw [List.cons_append, calls, ih, List.foldl_cons, calls, List.cons_append]

/-- Different lists of as many blocks with one chaining value. -/
theorem exists_isCollision_of_length_eq (hne : bs ≠ bs') (hlength : bs.length = bs'.length)
    (h : bs.foldl f iv = bs'.foldl f iv) :
    ∃ c ∈ calls f iv bs, ∃ c' ∈ calls f iv bs', IsCollision f c c' := by
  induction bs using List.reverseRecOn generalizing bs' with
  | nil => exact absurd (List.eq_nil_of_length_eq_zero hlength.symm).symm hne
  | append_singleton bs b ih =>
    rcases List.eq_nil_or_concat bs' with rfl | ⟨bs', b', rfl⟩
    · simp at hlength
    · rw [calls_concat, List.concat_eq_append, calls_concat]
      rw [List.concat_eq_append] at hne hlength h
      rw [List.foldl_append, List.foldl_append] at h
      by_cases hlast : (bs.foldl f iv, b) = (bs'.foldl f iv, b')
      · -- The last calls are the same, so there is a collision before them.
        obtain ⟨hchain, rfl⟩ := Prod.mk.inj hlast
        have hne' : bs ≠ bs' := fun heq => hne (by rw [heq])
        have hlength' : bs.length = bs'.length := by simpa using hlength
        obtain ⟨c, hc, c', hc', hcollision⟩ := ih hne' hlength' hchain
        exact ⟨c, List.mem_append_left _ hc, c', List.mem_append_left _ hc', hcollision⟩
      · exact ⟨_, List.mem_append_right _ List.mem_cons_self, _,
          List.mem_append_right _ List.mem_cons_self, hlast, h⟩

/-- Different lists of blocks with one chaining value, where the last block tells the number of
blocks. -/
theorem exists_isCollision (hne : bs ≠ bs') (hbs : bs ≠ []) (hbs' : bs' ≠ [])
    (hlast : bs.getLast? = bs'.getLast? → bs.length = bs'.length)
    (h : bs.foldl f iv = bs'.foldl f iv) :
    ∃ c ∈ calls f iv bs, ∃ c' ∈ calls f iv bs', IsCollision f c c' := by
  by_cases hlength : bs.length = bs'.length
  · exact exists_isCollision_of_length_eq hne hlength h
  · -- The last blocks differ, and the calls for them collide.
    rcases List.eq_nil_or_concat bs with rfl | ⟨bs, b, rfl⟩
    · exact absurd rfl hbs
    rcases List.eq_nil_or_concat bs' with rfl | ⟨bs', b', rfl⟩
    · exact absurd rfl hbs'
    have hdiffer : b ≠ b' := fun heq => hlength (hlast (by simp [heq]))
    rw [List.concat_eq_append, List.concat_eq_append, List.foldl_append, List.foldl_append] at h
    rw [List.concat_eq_append, List.concat_eq_append, calls_concat, calls_concat]
    exact ⟨_, List.mem_append_right _ List.mem_cons_self, _,
      List.mem_append_right _ List.mem_cons_self, fun heq => hdiffer (Prod.mk.inj heq).2, h⟩

end

end Lib
