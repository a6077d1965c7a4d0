import Btor.InfoDict

/-!
# The root's value of the key `info`

`Metainfo::infodict` is "the bencoded string that represents the info dictionary": the value of the
root's key `info`. The parser collects exactly that if and only if no other entry of the file, at
any depth, has the key `info` (`parse_rootInfo_iff`). Such an entry inside the root's value clears
the flag too early, and one outside it sets the flag a second time.

That nothing else can come out by chance is seen by counting containers. What is kept of a value
with an inner key `info` opens more containers than it closes, because the last byte of each
container around that key is not collected, and nothing that is collected elsewhere makes up for it
(`Parsed.depth_kept`).
-/

namespace Btor

/-- The depth of what is kept. -/
@[simp] theorem depth_keep (b : Bool) (l : List Token) :
    depth (keep b l) = if b then depth l else 0 := by
  cases b <;> rfl

mutual

/-- What is kept closes no more containers than it opens. -/
theorem Parsed.depth_kept : ∀ (t : Parsed) (b : Bool), 0 ≤ depth (t.kept b)
  | .integer body, b => by cases b <;> simp [Parsed.kept, Token.delta]
  | .string k, b => by cases b <;> simp [Parsed.kept, Token.delta]
  | .list ts, b => by
    -- With the flag set at the start, the last byte is kept or the container stays open.
    have hts := itemsKept_depth ts b
    rw [Parsed.kept]
    cases b
    · simpa using hts
    · simp only [depth_append, depth_keep, depth_cons, depth_nil, Token.delta, Bool.true_and]
      split_ifs <;> omega
  | .dict es, b => by
    have hes := entriesKept_depth es b
    rw [Parsed.kept]
    cases b
    · simpa using hes
    · simp only [depth_append, depth_keep, depth_cons, depth_nil, Token.delta, Bool.true_and]
      split_ifs <;> omega

/-- What is kept of the items closes no more containers than it opens. -/
theorem itemsKept_depth : ∀ (ts : List Parsed) (b : Bool), 0 ≤ depth (itemsKept b ts)
  | [], _ => le_rfl
  | t :: ts, b => by
    rw [itemsKept, depth_append]
    exact add_nonneg (t.depth_kept b) (itemsKept_depth ts _)

/-- Neither does what is kept of the entries. -/
theorem entriesKept_depth : ∀ (es : List (Text × Parsed)) (b : Bool),
    0 ≤ depth (entriesKept b es)
  | [], _ => le_rfl
  | (k, t) :: es, b => by
    have hkey : depth (keep b [.text k]) = 0 := by cases b <;> rfl
    rw [entriesKept, depth_append, hkey, zero_add]
    split_ifs
    · rw [depth_append]
      exact add_nonneg (t.depth_kept true) (entriesKept_depth es false)
    · rw [depth_append]
      exact add_nonneg (t.depth_kept b) (entriesKept_depth es _)

end

/-- What is kept of a value with a key `info`, the flag set, leaves a container open. -/
theorem Parsed.depth_kept_pos {t : Parsed} (h : t.infos ≠ 0) : 1 ≤ depth (t.kept true) := by
  cases t with
  | integer body => exact absurd rfl h
  | string k => exact absurd rfl h
  | list ts =>
    -- The flag is clear at the end of the list, so its last byte is not kept.
    have hts := itemsKept_depth ts true
    rw [Parsed.infos] at h
    simp only [Parsed.kept, h, depth_append, depth_keep, depth_cons, depth_nil, Token.delta,
      Bool.true_and, decide_false, if_true, if_false, Bool.false_eq_true]
    omega
  | dict es =>
    -- The flag is clear at the end of the dictionary, so its last byte is not kept.
    have hes := entriesKept_depth es true
    rw [Parsed.infos] at h
    simp only [Parsed.kept, h, depth_append, depth_keep, depth_cons, depth_nil, Token.delta,
      Bool.true_and, decide_false, if_true, if_false, Bool.false_eq_true]
    omega

/-- The first token of a value is kept, the flag set. -/
theorem Parsed.kept_true_ne_nil (t : Parsed) : t.kept true ≠ [] := by
  cases t <;> simp [Parsed.kept]

mutual

/-- If nothing is kept, the flag not set, no key is `info`. -/
theorem Parsed.infos_of_kept : ∀ {t : Parsed}, t.kept false = [] → t.infos = 0
  | .integer _, _ => rfl
  | .string _, _ => rfl
  | .list ts, h => itemsInfos_of_kept (by simpa [Parsed.kept] using h)
  | .dict es, h => entriesInfos_of_kept (by simpa [Parsed.kept] using h)

/-- If nothing is kept of the items, no key in them is `info`. -/
theorem itemsInfos_of_kept : ∀ {ts : List Parsed}, itemsKept false ts = [] → itemsInfos ts = 0
  | [], _ => rfl
  | t :: ts, h => by
    rw [itemsKept, Bool.false_and] at h
    obtain ⟨ht, hts⟩ := List.append_eq_nil_iff.mp h
    rw [itemsInfos, Parsed.infos_of_kept ht, itemsInfos_of_kept hts]

/-- If nothing is kept of the entries, none of their keys is `info`. -/
theorem entriesInfos_of_kept : ∀ {es : List (Text × Parsed)}, entriesKept false es = [] →
    entriesInfos es = 0
  | [], _ => rfl
  | (k, t) :: es, h => by
    rw [entriesKept, keep_false, List.nil_append] at h
    split_ifs at h with hk
    · exact absurd (List.append_eq_nil_iff.mp h).1 t.kept_true_ne_nil
    · rw [Bool.false_and] at h
      obtain ⟨ht, hes⟩ := List.append_eq_nil_iff.mp h
      rw [entriesInfos, if_neg hk, Parsed.infos_of_kept ht, entriesInfos_of_kept hes]

end

/-- What is kept was there. -/
theorem mem_of_mem_keep {b : Bool} {l : List Token} {a : Token} (h : a ∈ keep b l) : a ∈ l := by
  cases b
  · cases h
  · exact h

mutual

/-- What is kept are tokens of the value. -/
theorem Parsed.mem_tokens_of_kept : ∀ {t : Parsed} {b : Bool} {a : Token}, a ∈ t.kept b →
    a ∈ t.tokens
  | .integer body, b, a, h => by cases b <;> simp_all [Parsed.kept, Parsed.tokens]
  | .string k, b, a, h => by cases b <;> simp_all [Parsed.kept, Parsed.tokens]
  | .list ts, b, a, h => by
    rcases List.mem_append.mp h with h | h
    · exact List.mem_cons.mpr (.inl (List.mem_singleton.mp (mem_of_mem_keep h)))
    rcases List.mem_append.mp h with h | h
    · exact List.mem_cons_of_mem _ (List.mem_append_left _ (itemsTokens_of_kept h))
    · exact List.mem_cons_of_mem _ (List.mem_append_right _ (mem_of_mem_keep h))
  | .dict es, b, a, h => by
    rcases List.mem_append.mp h with h | h
    · exact List.mem_cons.mpr (.inl (List.mem_singleton.mp (mem_of_mem_keep h)))
    rcases List.mem_append.mp h with h | h
    · exact List.mem_cons_of_mem _ (List.mem_append_left _ (entriesTokens_of_kept h))
    · exact List.mem_cons_of_mem _ (List.mem_append_right _ (mem_of_mem_keep h))

/-- What is kept of the items are tokens of theirs. -/
theorem itemsTokens_of_kept : ∀ {ts : List Parsed} {b : Bool} {a : Token}, a ∈ itemsKept b ts →
    a ∈ itemsTokens ts
  | [], _, _, h => by cases h
  | t :: ts, b, a, h => by
    rcases List.mem_append.mp h with h | h
    · exact List.mem_append_left _ (Parsed.mem_tokens_of_kept h)
    · exact List.mem_append_right _ (itemsTokens_of_kept h)

/-- So is what is kept of the entries. -/
theorem entriesTokens_of_kept : ∀ {es : List (Text × Parsed)} {b : Bool} {a : Token},
    a ∈ entriesKept b es → a ∈ entriesTokens es
  | [], _, _, h => by cases h
  | (k, t) :: es, b, a, h => by
    rw [entriesKept] at h
    rw [entriesTokens, List.mem_cons, List.mem_append]
    rcases List.mem_append.mp h with h | h
    · exact .inl (List.mem_singleton.mp (mem_of_mem_keep h))
    · split_ifs at h
      · rcases List.mem_append.mp h with h | h
        · exact .inr (.inl (Parsed.mem_tokens_of_kept h))
        · exact .inr (.inr (entriesTokens_of_kept h))
      · rcases List.mem_append.mp h with h | h
        · exact .inr (.inl (Parsed.mem_tokens_of_kept h))
        · exact .inr (.inr (entriesTokens_of_kept h))

end

/-- The keys `info` in two lists are those in each. -/
theorem entriesInfos_append (es es' : List (Text × Parsed)) :
    entriesInfos (es ++ es') = entriesInfos es + entriesInfos es' := by
  induction es with
  | nil => rw [List.nil_append, entriesInfos, zero_add]
  | cons e es ih =>
    obtain ⟨k, t⟩ := e
    rw [List.cons_append, entriesInfos, entriesInfos, ih]
    omega

/-- The tokens of two lists are those of each. -/
theorem entriesTokens_append (es es' : List (Text × Parsed)) :
    entriesTokens (es ++ es') = entriesTokens es ++ entriesTokens es' := by
  induction es with
  | nil => rfl
  | cons e es ih =>
    obtain ⟨k, t⟩ := e
    rw [List.cons_append, entriesTokens, entriesTokens, ih, List.cons_append, List.append_assoc]

/-- The entries of a dictionary keep their tokens one after the other, the flag not set: it is clear
after each of them. -/
theorem entriesKept_append (es es' : List (Text × Parsed)) :
    entriesKept false (es ++ es') = entriesKept false es ++ entriesKept false es' := by
  induction es with
  | nil => rfl
  | cons e es ih =>
    obtain ⟨k, t⟩ := e
    rw [List.cons_append, entriesKept, entriesKept]
    split_ifs
    · rw [ih, keep_false, List.nil_append, List.nil_append, List.append_assoc]
    · rw [Bool.false_and, ih, keep_false, List.nil_append, List.nil_append, List.append_assoc]

section

variable {es₁ es₂ : List (Text × Parsed)} {k : Text} {v : Parsed}

/-- The tokens kept of a dictionary with an entry of key `info`, the flag not set. -/
theorem kept_rootInfo (hk : k.payload = infoKey) :
    (Parsed.dict (es₁ ++ (k, v) :: es₂)).kept false =
      entriesKept false es₁ ++ (v.kept true ++ entriesKept false es₂) := by
  simp [Parsed.kept, entriesKept_append, entriesKept, hk]

/-- They are those of the entry's value exactly if no other key is `info`. -/
theorem kept_rootInfo_iff (hk : k.payload = infoKey) :
    (Parsed.dict (es₁ ++ (k, v) :: es₂)).kept false = v.tokens ↔
      (Parsed.dict (es₁ ++ (k, v) :: es₂)).infos = 1 := by
  have hcount : (Parsed.dict (es₁ ++ (k, v) :: es₂)).infos =
      entriesInfos es₁ + (1 + v.infos + entriesInfos es₂) := by
    rw [Parsed.infos, entriesInfos_append, entriesInfos, if_pos hk]
  rw [kept_rootInfo hk, hcount]
  constructor
  · intro h
    -- The containers balance, so no key in the value is `info`, and all of the value is kept.
    have hdepth := congrArg depth h
    rw [depth_append, depth_append, v.depth_tokens] at hdepth
    have h₁ := entriesKept_depth es₁ false
    have h₂ := entriesKept_depth es₂ false
    have hv : v.infos = 0 := by
      by_contra hne
      have hpos := Parsed.depth_kept_pos hne
      omega
    -- So nothing else is.
    have hlen := congrArg List.length h
    rw [Parsed.kept_of_infos hv, keep_true, List.length_append, List.length_append] at hlen
    have hnil₁ : entriesKept false es₁ = [] := List.length_eq_zero_iff.mp (by omega)
    have hnil₂ : entriesKept false es₂ = [] := List.length_eq_zero_iff.mp (by omega)
    rw [hv, entriesInfos_of_kept hnil₁, entriesInfos_of_kept hnil₂]
  · intro h
    have h₁ : entriesInfos es₁ = 0 := by omega
    have hv : v.infos = 0 := by omega
    have h₂ : entriesInfos es₂ = 0 := by omega
    rw [entriesKept_false h₁, entriesKept_false h₂, Parsed.kept_of_infos hv, keep_true,
      List.nil_append, List.append_nil]

/-- A fresh parser collects the value of an entry of key `info` of the root exactly if no other
entry of the file has that key. -/
theorem parse_rootInfo_iff {buf : Bytes} {n : ℕ} {m : BMemoryManager} {p : Ptr} {s' : State}
    (h : (parseBencodedString buf n).run (fresh m) = .returned p s')
    (ht : StartsWith buf (.dict (es₁ ++ (k, v) :: es₂))) (hk : k.payload = infoKey) :
    s'.getCollectedInfoDict = v.bytes ↔ (Parsed.dict (es₁ ++ (k, v) :: es₂)).infos = 1 := by
  have hlex := ht.accepted.lexical
  -- The entry's value is part of an accepted one.
  have hv : ∀ a ∈ v.tokens, a.Lexical := fun a ha => by
    refine hlex a (List.mem_cons_of_mem _ (List.mem_append_left _ ?_))
    rw [entriesTokens_append, entriesTokens]
    exact List.mem_append_right _ (List.mem_cons_of_mem _ (List.mem_append_left _ ha))
  rw [parse_kept ht h, ← v.flatMap_tokens, ← kept_rootInfo_iff hk]
  constructor
  · exact tokenCode.flatMap_injective (fun a ha => hlex a (Parsed.mem_tokens_of_kept ha)) hv
  · exact fun heq => by rw [heq]

end

/-- In `d4:infoi1ee` the entry is the only one. -/
theorem parse_rootInfo_iff_flat : ∃ p s',
    (parseBencodedString [100, 52, 58, 105, 110, 102, 111, 105, 49, 101, 101] 33).run (fresh {}) =
      .returned p s' ∧
    (s'.getCollectedInfoDict = [105, 49, 101] ↔
      (Parsed.dict ([] ++ (⟨[52], infoKey⟩, .integer [49]) :: [])).infos = 1) := by
  have ht : StartsWith [100, 52, 58, 105, 110, 102, 111, 105, 49, 101, 101]
      (.dict ([] ++ (⟨[52], infoKey⟩, .integer [49]) :: [])) := by
    decide +kernel
  have h := parse_of_startsWith ht (n := 33) (by decide) (fresh {})
  exact ⟨_, _, h, parse_rootInfo_iff h ht rfl⟩

/-- In `d4:infod4:infoi1eee` it is not: the parser collects `d4:infoi1e`, without the byte that
closes the dictionary. -/
theorem not_parse_rootInfo : ¬ ∀ (buf : Bytes) (n : ℕ) (m : BMemoryManager) (p : Ptr) (s' : State)
    (es₁ es₂ : List (Text × Parsed)) (k : Text) (v : Parsed),
    (parseBencodedString buf n).run (fresh m) = .returned p s' →
    StartsWith buf (.dict (es₁ ++ (k, v) :: es₂)) → k.payload = infoKey →
    (∀ e ∈ es₁, e.1.payload ≠ infoKey) → (∀ e ∈ es₂, e.1.payload ≠ infoKey) →
    s'.getCollectedInfoDict = v.bytes := by
  intro hclaim
  have ht : StartsWith
      [100, 52, 58, 105, 110, 102, 111, 100, 52, 58, 105, 110, 102, 111, 105, 49, 101, 101, 101]
      (.dict ([] ++ (⟨[52], infoKey⟩, .dict [(⟨[52], infoKey⟩, .integer [49])]) :: [])) := by
    decide +kernel
  have h := parse_of_startsWith ht (n := 57) (by decide) (fresh {})
  have hsame := hclaim _ _ _ _ _ [] [] _ _ h ht rfl (by simp) (by simp)
  rw [parse_kept ht h] at hsame
  exact absurd hsame (by decide)

end Btor
