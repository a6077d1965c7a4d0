import Mathlib

/-!
# Prefix codes

A code that writes each symbol of a set as a nonempty word, no word the start of another one's. What
is written of a list of symbols then starts with what is written of another only if the one list
starts with the other (`PrefixCode.isPrefix_of_flatMap`), so the words written determine the symbols
(`PrefixCode.flatMap_injective`). A word may also end where a character comes that it cannot have
(`append_inj_of_span`).
-/

namespace Lib

/-- The words of the symbols in `P` are nonempty, and none is the start of another one's. -/
structure PrefixCode {α β : Type} (P : α → Prop) (word : α → List β) : Prop where
  /-- No symbol is written with the empty word. -/
  ne_nil : ∀ a, P a → word a ≠ []
  /-- A symbol whose word is the start of another one's is the same symbol. -/
  prefix_free : ∀ a b, P a → P b → word a <+: word b → a = b

namespace PrefixCode

variable {α β : Type} {P : α → Prop} {word : α → List β}

/-- Two symbols whose words start the same list are the same. -/
theorem eq_of_isPrefix (h : PrefixCode P word) {a b : α} (ha : P a) (hb : P b) {l : List β}
    (hal : word a <+: l) (hbl : word b <+: l) : a = b := by
  rcases List.prefix_or_prefix_of_prefix hal hbl with hab | hba
  · exact h.prefix_free a b ha hb hab
  · exact (h.prefix_free b a hb ha hba).symm

/-- Symbols whose words start those of other symbols are the first of these. -/
theorem isPrefix_of_flatMap (h : PrefixCode P word) {xs ys : List α} (hxs : ∀ a ∈ xs, P a)
    (hys : ∀ a ∈ ys, P a) (hpre : xs.flatMap word <+: ys.flatMap word) : xs <+: ys := by
  induction xs generalizing ys with
  | nil => exact List.nil_prefix
  | cons a xs ih =>
    -- The first word starts what is written of `ys`, so it is the word of the first of these.
    obtain ⟨ha, hxs'⟩ := List.forall_mem_cons.mp hxs
    rw [List.flatMap_cons] at hpre
    have hstart : word a <+: ys.flatMap word := (List.prefix_append _ _).trans hpre
    cases ys with
    | nil => exact absurd (List.prefix_nil.mp hstart) (h.ne_nil a ha)
    | cons b ys =>
      obtain ⟨hb, hys'⟩ := List.forall_mem_cons.mp hys
      rw [List.flatMap_cons] at hpre hstart
      obtain rfl : a = b := h.eq_of_isPrefix ha hb hstart (List.prefix_append _ _)
      have hrest := ih hxs' hys' ((List.prefix_append_right_inj _).mp hpre)
      exact (List.cons_prefix_cons).mpr ⟨rfl, hrest⟩

/-- The words written determine the symbols. -/
theorem flatMap_injective (h : PrefixCode P word) {xs ys : List α} (hxs : ∀ a ∈ xs, P a)
    (hys : ∀ a ∈ ys, P a) (heq : xs.flatMap word = ys.flatMap word) : xs = ys := by
  have hxy : xs <+: ys := h.isPrefix_of_flatMap hxs hys (heq ▸ List.prefix_refl _)
  have hyx : ys <+: xs := h.isPrefix_of_flatMap hys hxs (heq ▸ List.prefix_refl _)
  exact hxy.eq_of_length_le hyx.length_le

/-- Of two lists of symbols whose words start the same list, one starts with the other. -/
theorem isPrefix_or_isPrefix (h : PrefixCode P word) {xs ys : List α} (hxs : ∀ a ∈ xs, P a)
    (hys : ∀ a ∈ ys, P a) {l : List β} (hxl : xs.flatMap word <+: l)
    (hyl : ys.flatMap word <+: l) : xs <+: ys ∨ ys <+: xs := by
  rcases List.prefix_or_prefix_of_prefix hxl hyl with hxy | hyx
  · exact .inl (h.isPrefix_of_flatMap hxs hys hxy)
  · exact .inr (h.isPrefix_of_flatMap hys hxs hyx)

end PrefixCode

/-- A word of the characters in `p` ends where a character that is none of them comes. -/
theorem append_inj_of_span {β : Type} {p : β → Bool} {l l' r r' : List β}
    (hl : ∀ c ∈ l, p c = true) (hl' : ∀ c ∈ l', p c = true) (hr : ∀ c ∈ r.head?, p c = false)
    (hr' : ∀ c ∈ r'.head?, p c = false) (h : l ++ r = l' ++ r') : l = l' ∧ r = r' := by
  have htake {r : List β} (hr : ∀ c ∈ r.head?, p c = false) : r.takeWhile p = [] := by
    cases r with
    | nil => rfl
    | cons c r => exact List.takeWhile_cons_of_neg (by rw [hr c rfl]; exact Bool.false_ne_true)
  have hword := congrArg (List.takeWhile p) h
  rw [List.takeWhile_append_of_pos hl, List.takeWhile_append_of_pos hl', htake hr, htake hr',
    List.append_nil, List.append_nil] at hword
  subst hword
  exact ⟨rfl, List.append_cancel_left h⟩

end Lib
