import Mathlib

/-!
# Numerals

Numbers written in a base `B`, most significant digit first, over any type of digit symbols.
`horner` is the number that symbols denote, and `numeral` and `padded` write a number, the second
with leading zeros up to a width. Writing and reading are inverse (`horner_numeral`,
`horner_padded`).

A loop that reads digits keeps the number in a register of a fixed width. No product and no sum in
it leaves a signed type of `b + 1` bits exactly if the number that the digits denote does not
(`stepsFit_iff`).
-/

namespace Lib

section

variable {α : Type} (B : ℕ) (digit : α → ℕ)

/-- The number that digit symbols denote. -/
def horner (ds : List α) : ℕ := ds.foldl (fun n c => n * B + digit c) 0

variable {B digit}

/-- No digits stand for zero. -/
@[simp] theorem horner_nil : horner B digit [] = 0 := rfl

/-- A digit at the end is added to the base times what is before it. -/
theorem horner_concat (ds : List α) (c : α) :
    horner B digit (ds ++ [c]) = horner B digit ds * B + digit c := by
  simp [horner]

/-- The digits of two numerals in a row. -/
theorem horner_append (ds ds' : List α) :
    horner B digit (ds ++ ds') = horner B digit ds * B ^ ds'.length + horner B digit ds' := by
  induction ds' using List.reverseRecOn with
  | nil => simp
  | append_singleton ds' c ih =>
    rw [← List.append_assoc, horner_concat, horner_concat, ih, List.length_append,
      List.length_singleton, pow_succ]
    ring

/-- The first digit of a numeral has the largest weight. -/
theorem horner_cons (c : α) (ds : List α) :
    horner B digit (c :: ds) = digit c * B ^ ds.length + horner B digit ds := by
  rw [← List.singleton_append, horner_append]
  simp [horner]

/-- The start of a numeral denotes no more than the whole. -/
theorem horner_le_of_isPrefix (hB : 1 ≤ B) {ds ds' : List α} (h : ds <+: ds') :
    horner B digit ds ≤ horner B digit ds' := by
  obtain ⟨ds'', rfl⟩ := h
  rw [horner_append]
  exact le_add_right (Nat.le_mul_of_pos_right _ (pow_pos hB _))

/-- Digits in the order of `Nat.ofDigits`, the least significant first. -/
theorem horner_eq_ofDigits (ds : List α) :
    horner B digit ds = Nat.ofDigits B (ds.map digit).reverse := by
  induction ds using List.reverseRecOn with
  | nil => rfl
  | append_singleton ds c ih =>
    rw [horner_concat, ih, List.map_append, List.reverse_append, List.map_singleton,
      List.reverse_singleton, List.singleton_append, Nat.ofDigits_cons]
    ring

/-- The number is less than the first one with more digits. -/
theorem horner_lt (hB : 1 < B) (hlt : ∀ c, digit c < B) (ds : List α) :
    horner B digit ds < B ^ ds.length := by
  rw [horner_eq_ofDigits]
  have hbound := Nat.ofDigits_lt_base_pow_length (l := (ds.map digit).reverse) hB
    (by simpa using fun c _ => hlt c)
  simpa using hbound

/-- Numerals of one length with one number have the same digits. -/
theorem eq_of_horner_eq (hB : 1 < B) (hdigit : Function.Injective digit)
    (hlt : ∀ c, digit c < B) {ds ds' : List α} (hlen : ds.length = ds'.length)
    (h : horner B digit ds = horner B digit ds') : ds = ds' := by
  rw [horner_eq_ofDigits, horner_eq_ofDigits] at h
  have hmap : (ds.map digit).reverse = (ds'.map digit).reverse := by
    refine Nat.ofDigits_inj_of_len_eq hB (by simpa using hlen) ?_ ?_ h
    · simpa using fun c _ => hlt c
    · simpa using fun c _ => hlt c
  exact List.map_injective_iff.mpr hdigit (List.reverse_injective hmap)

end

/-! ## Writing numbers -/

section

variable {α : Type} (B : ℕ) (symbol : ℕ → α)

/-- The digits of a number without leading zeros; zero has one digit. -/
def numeral (n : ℕ) : List α :=
  if n = 0 then [symbol 0] else (Nat.digits B n).reverse.map symbol

/-- The digits of a number, with leading zeros up to the width `w`. -/
def padded (w n : ℕ) : List α :=
  List.replicate (w - (numeral B symbol n).length) (symbol 0) ++ numeral B symbol n

variable {B symbol} {digit : α → ℕ}

/-- A numeral has at least one digit. -/
theorem numeral_ne_nil {n : ℕ} : numeral B symbol n ≠ [] := by
  unfold numeral
  split_ifs with hn
  · simp
  · simpa [Nat.digits_eq_nil_iff_eq_zero] using hn

/-- Every symbol of a numeral is one of a digit. -/
theorem exists_of_mem_numeral (hB : 1 < B) {n : ℕ} {c : α} (h : c ∈ numeral B symbol n) :
    ∃ d < B, c = symbol d := by
  unfold numeral at h
  split_ifs at h
  · exact ⟨0, by omega, List.mem_singleton.mp h⟩
  · obtain ⟨d, hd, rfl⟩ := List.mem_map.mp h
    exact ⟨d, Nat.digits_lt_base hB (List.mem_reverse.mp hd), rfl⟩

/-- A numeral denotes its number. -/
theorem horner_numeral (hB : 1 < B) (hsymbol : ∀ d < B, digit (symbol d) = d) (n : ℕ) :
    horner B digit (numeral B symbol n) = n := by
  unfold numeral
  split_ifs with hn
  · simp [horner, hsymbol 0 (by omega), hn]
  · -- Reading the symbols gives the digits back.
    have hdigits : ((Nat.digits B n).reverse.map symbol).map digit = (Nat.digits B n).reverse := by
      rw [List.map_map]
      refine (List.map_congr_left fun d hd => ?_).trans (List.map_id _)
      exact hsymbol d (Nat.digits_lt_base hB (List.mem_reverse.mp hd))
    rw [horner_eq_ofDigits, hdigits, List.reverse_reverse, Nat.ofDigits_digits]

/-- A numeral has no more digits than the width of a power above its number. -/
theorem length_numeral_le (hB : 1 < B) {w n : ℕ} (hw : 1 ≤ w) (hn : n < B ^ w) :
    (numeral B symbol n).length ≤ w := by
  unfold numeral
  split_ifs
  · simpa using hw
  · simpa using (Nat.digits_length_le_iff hB n).mpr hn

/-- A number below a power of the base has a padded numeral of that width. -/
theorem length_padded (hB : 1 < B) {w n : ℕ} (hw : 1 ≤ w) (hn : n < B ^ w) :
    (padded B symbol w n).length = w := by
  have hle : (numeral B symbol n).length ≤ w := length_numeral_le hB hw hn
  unfold padded
  rw [List.length_append, List.length_replicate]
  omega

/-- Every symbol of a padded numeral is one of a digit. -/
theorem exists_of_mem_padded (hB : 1 < B) {w n : ℕ} {c : α} (h : c ∈ padded B symbol w n) :
    ∃ d < B, c = symbol d := by
  rcases List.mem_append.mp h with h | h
  · exact ⟨0, by omega, List.eq_of_mem_replicate h⟩
  · exact exists_of_mem_numeral hB h

/-- Leading zeros do not change the number. -/
theorem horner_padded (hB : 1 < B) (hsymbol : ∀ d < B, digit (symbol d) = d) (w n : ℕ) :
    horner B digit (padded B symbol w n) = n := by
  have hzeros (k : ℕ) : horner B digit (List.replicate k (symbol 0)) = 0 := by
    induction k with
    | zero => rfl
    | succ k ih => rw [List.replicate_succ', horner_concat, ih, hsymbol 0 (by omega), zero_mul]
  unfold padded
  rw [horner_append, hzeros, zero_mul, zero_add, horner_numeral hB hsymbol]

end

/-! ## Reading numbers into a register -/

section

variable {α : Type} {B b : ℕ} {digit : α → ℕ} {acc : List α → ℤ} {ds : List α}

/-- The integer is one of the signed type of `b + 1` bits. -/
def Fits (b : ℕ) (x : ℤ) : Prop := -2^b ≤ x ∧ x < 2^b

/-- No product and no sum of the loop that reads the digits `ds` leaves the signed type, where
`acc l` is what is in the register after the digits `l`. -/
def StepsFit (B b : ℕ) (digit : α → ℕ) (acc : List α → ℤ) (ds : List α) : Prop :=
  ∀ l c l', ds = l ++ c :: l' → Fits b (acc l * B) ∧ Fits b (acc l * B + digit c)

/-- A number that fits is what is left of it in the register. -/
theorem bmod_of_lt {n : ℕ} (h : n < 2^b) : (n : ℤ).bmod (2^(b + 1)) = n := by
  have hlt : (n : ℤ) < 2^b := by exact_mod_cast h
  rw [pow_succ']
  apply Int.bmod_eq_of_le
  · push_cast
    omega
  · push_cast
    omega

/-- The loop stays in the type exactly if the number that the digits denote does. -/
theorem stepsFit_iff (hB : 1 ≤ B)
    (hacc : ∀ l, l <+: ds → acc l = (horner B digit l : ℤ).bmod (2^(b + 1))) :
    StepsFit B b digit acc ds ↔ horner B digit ds < 2^b := by
  constructor
  · intro h
    -- The number read so far is in the register, as long as the loop stays in the type.
    have hread : ∀ l, l <+: ds → horner B digit l < 2^b := by
      intro l
      induction l using List.reverseRecOn with
      | nil => exact fun _ => by simp
      | append_singleton l c ih =>
        rintro ⟨l', rfl⟩
        have hl : l <+: l ++ [c] ++ l' := ⟨[c] ++ l', by simp⟩
        have hsum := (h l c l' (by simp)).2.2
        rw [hacc l hl, bmod_of_lt (ih hl)] at hsum
        rw [horner_concat]
        exact_mod_cast hsum
    exact hread ds (List.prefix_refl ds)
  · rintro h l c l' rfl
    have hl : l <+: l ++ c :: l' := List.prefix_append l _
    have hlc : l ++ [c] <+: l ++ c :: l' := ⟨l', by simp⟩
    have hle : horner B digit l ≤ horner B digit (l ++ c :: l') := horner_le_of_isPrefix hB hl
    have hle' : horner B digit (l ++ [c]) ≤ horner B digit (l ++ c :: l') :=
      horner_le_of_isPrefix hB hlc
    rw [horner_concat] at hle'
    rw [hacc l hl, bmod_of_lt (by omega)]
    -- The product is no more than the sum, and the sum no more than the number.
    have hprod : (horner B digit l * B : ℕ) < 2^b := by omega
    have hsum : (horner B digit l * B + digit c : ℕ) < 2^b := by omega
    have hprod' : ((horner B digit l : ℤ) * B) < 2^b := by exact_mod_cast hprod
    have hsum' : ((horner B digit l : ℤ) * B + digit c) < 2^b := by exact_mod_cast hsum
    have hneg : (-2^b : ℤ) ≤ 0 := by simp
    exact ⟨⟨hneg.trans (by positivity), hprod'⟩, ⟨hneg.trans (by positivity), hsum'⟩⟩

end

end Lib
