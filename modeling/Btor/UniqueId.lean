import Btor.Announce

/-!
# The unique id

`generateId` of `butils.cpp`, which `main` calls once. A process has one id, with the prefix of the
client and a digit for each of the other characters (`generateId_spec`).
-/

namespace Btor

/-- The loop of `generateId`. The `i`-th call of `rand` gives `rand i`, which is not negative. -/
def generateIdLoop (rand : ℕ → ℕ) (i : ℕ) (uniqueId : Bytes) : Bytes :=
  if uniqueId.length < 20 then
    generateIdLoop rand (i + 1) (uniqueId ++ stdToString (Int64.ofNat (rand i % 10)))
  else uniqueId
termination_by 20 - uniqueId.length
decreasing_by
  have hpos : 0 < (stdToString (Int64.ofNat (rand i % 10))).length := by
    unfold stdToString
    rw [List.length_pos_iff]
    split_ifs
    · exact List.cons_ne_nil _ _
    · exact Lib.numeral_ne_nil
  rw [List.length_append]
  omega

/-- `generateId` -/
def generateId (rand : ℕ → ℕ) : Bytes := generateIdLoop rand 0 (literal "-btor01-")

/-- A digit is one character, which needs no encoding. -/
theorem stdToString_digit {n : ℕ} (hn : n < 10) : (stdToString (Int64.ofNat n)).length = 1 := by
  have hcases : ∀ n < 10, (stdToString (Int64.ofNat n)).length = 1 := by decide
  exact hcases n hn

/-- The loop fills the id up to 20 characters. -/
theorem generateIdLoop_spec (rand : ℕ → ℕ) (i : ℕ) {uniqueId : Bytes}
    (hlength : uniqueId.length ≤ 20) (hunreserved : ∀ c ∈ uniqueId, isUnreserved c = true) :
    (generateIdLoop rand i uniqueId).length = 20 ∧ uniqueId <+: generateIdLoop rand i uniqueId ∧
      ∀ c ∈ generateIdLoop rand i uniqueId, isUnreserved c = true := by
  induction i, uniqueId using generateIdLoop.induct rand with
  | case1 i uniqueId hlt ih =>
    have hdigit := stdToString_digit (Nat.mod_lt (rand i) (by decide : 0 < 10))
    have hnext := ih (by rw [List.length_append, hdigit]; omega) fun c hc => by
      rcases List.mem_append.mp hc with hc | hc
      · exact hunreserved c hc
      · exact isUnreserved_of_mem_stdToString hc
    rw [generateIdLoop, if_pos hlt]
    exact ⟨hnext.1, (List.prefix_append _ _).trans hnext.2.1, hnext.2.2⟩
  | case2 i uniqueId hge =>
    rw [generateIdLoop, if_neg hge]
    exact ⟨by omega, List.prefix_rfl, hunreserved⟩

/-- The id has 20 characters that need no encoding, of which the first eight are the client's. -/
theorem generateId_spec (rand : ℕ → ℕ) : (generateId rand).length = 20 ∧
    literal "-btor01-" <+: generateId rand ∧ ∀ c ∈ generateId rand, isUnreserved c = true := by
  have hunreserved : ∀ c ∈ literal "-btor01-", isUnreserved c = true := by decide +kernel
  exact generateIdLoop_spec rand 0 (by decide +kernel) hunreserved

end Btor
