import Btor.Tokens
import Btor.Value

/-!
# The bytes that the flag collects

`consumeChar` collects a byte while the flag is set, and the flag is one for the whole parse: the
key `info` sets it and the end of that key's value clears it, at every depth alike. The flag changes
between tokens, so what is collected is written by whole tokens: `Parsed.kept` lists those of a
value, from either state of the flag (`Parsed.replay_collectedInfoDict`). A set flag survives a
value exactly if no key of it, at any depth, is `info` (`Parsed.replay_collectInfoDict`), and then
all of its tokens are kept.
-/

namespace Btor

/-! ## What is kept of a value -/

/-- The tokens `l`, kept if the flag is set. -/
def keep (b : Bool) (l : List Token) : List Token := if b then l else []

/-- With the flag set all tokens are kept. -/
@[simp] theorem keep_true (l : List Token) : keep true l = l := rfl

/-- With the flag clear none is. -/
@[simp] theorem keep_false (l : List Token) : keep false l = [] := rfl

/-- Of nothing, nothing is kept. -/
@[simp] theorem keep_nil (b : Bool) : keep b [] = [] := by cases b <;> rfl

/-- What is kept of two lists is what is kept of each. -/
theorem keep_append (b : Bool) (l l' : List Token) :
    keep b (l ++ l') = keep b l ++ keep b l' := by
  cases b <;> simp

mutual

/-- The number of entries of key `info` in a value, at every depth and with repeated keys counted
each time. -/
def Parsed.infos : Parsed → ℕ
  | .integer _ => 0
  | .string _ => 0
  | .list ts => itemsInfos ts
  | .dict es => entriesInfos es

/-- The number of entries of key `info` in the items of a list. -/
def itemsInfos : List Parsed → ℕ
  | [] => 0
  | t :: ts => t.infos + itemsInfos ts

/-- The number of entries of key `info` in the entries of a dictionary and in their values. -/
def entriesInfos : List (Text × Parsed) → ℕ
  | [] => 0
  | (k, t) :: es => (if k.payload = infoKey then 1 else 0) + t.infos + entriesInfos es

end

mutual

/-- The tokens that parsing a value collects, with the flag `b` before it. -/
def Parsed.kept : Bool → Parsed → List Token
  | b, .integer body => keep b [.integer body]
  | b, .string k => keep b [.text k]
  | b, .list ts =>
    keep b [.openList] ++ (itemsKept b ts ++ keep (b && itemsInfos ts = 0) [.close])
  | b, .dict es =>
    keep b [.openDict] ++ (entriesKept b es ++ keep (b && entriesInfos es = 0) [.close])

/-- The tokens that parsing the items of a list collects. -/
def itemsKept : Bool → List Parsed → List Token
  | _, [] => []
  | b, t :: ts => t.kept b ++ itemsKept (b && t.infos = 0) ts

/-- The tokens that parsing the entries of a dictionary collects. -/
def entriesKept : Bool → List (Text × Parsed) → List Token
  | _, [] => []
  | b, (k, t) :: es =>
    keep b [.text k] ++
      if k.payload = infoKey then t.kept true ++ entriesKept false es
      else t.kept b ++ entriesKept (b && t.infos = 0) es

end

/-! ## The flag and the collected bytes after a value -/

/-- The key `info` sets the flag. -/
theorem Text.enter_collectInfoDict (k : Text) (s : State) :
    (k.enter s).collectInfoDict = (s.collectInfoDict || k.payload = infoKey) := by
  unfold Text.enter
  split_ifs with h <;> simp [h]

/-- The end of the value of the key `info` clears the flag. -/
theorem Text.leave_collectInfoDict (k : Text) (t : Parsed) (s : State) :
    (k.leave t s).collectInfoDict = (s.collectInfoDict && k.payload ≠ infoKey) := by
  unfold Text.leave
  split_ifs with h h' <;> simp [h]

/-- The bytes of a token are collected if the flag is set. -/
theorem State.feed_token (a : Token) (s : State) :
    (s.feed a.bytes).collectedInfoDict =
      s.collectedInfoDict ++ (keep s.collectInfoDict [a]).flatMap Token.bytes := by
  rw [State.feed_collectedInfoDict]
  cases s.collectInfoDict <;> simp

/-- The key is collected as the flag was before it. -/
theorem Text.enter_collectedInfoDict (k : Text) (s : State) :
    (k.enter s).collectedInfoDict =
      s.collectedInfoDict ++ (keep s.collectInfoDict [.text k]).flatMap Token.bytes := by
  have hfeed := State.feed_token (.text k) s
  unfold Text.enter
  split_ifs
  · exact hfeed
  · exact hfeed

/-- Leaving an entry collects no bytes. -/
@[simp] theorem Text.leave_collectedInfoDict (k : Text) (t : Parsed) (s : State) :
    (k.leave t s).collectedInfoDict = s.collectedInfoDict := by
  unfold Text.leave
  split_ifs <;> rfl

mutual

/-- A set flag survives a value exactly if no key of it is `info`. -/
theorem Parsed.replay_collectInfoDict : ∀ (t : Parsed) (s : State),
    (t.replay s).collectInfoDict = (s.collectInfoDict && t.infos = 0)
  | .integer body, s => by simp [Parsed.replay, Parsed.infos]
  | .string k, s => by simp [Parsed.replay, Parsed.infos]
  | .list ts, s => by
    rw [Parsed.replay, State.feed_collectInfoDict, itemsReplay_collectInfoDict ts, Parsed.infos]
    rfl
  | .dict es, s => by
    rw [Parsed.replay, State.feed_collectInfoDict, entriesReplay_collectInfoDict es, Parsed.infos]
    rfl

/-- The items clear the flag if there is a key `info` in them. -/
theorem itemsReplay_collectInfoDict : ∀ (ts : List Parsed) (p : Ptr) (s : State),
    (itemsReplay ts p s).collectInfoDict = (s.collectInfoDict && itemsInfos ts = 0)
  | [], p, s => by simp [itemsReplay, itemsInfos]
  | t :: ts, p, s => by
    rw [itemsReplay, itemsReplay_collectInfoDict ts, State.update_collectInfoDict,
      t.replay_collectInfoDict, itemsInfos]
    simp [Bool.and_assoc]

/-- So do the entries. -/
theorem entriesReplay_collectInfoDict : ∀ (es : List (Text × Parsed)) (p : Ptr) (s : State),
    (entriesReplay es p s).collectInfoDict = (s.collectInfoDict && entriesInfos es = 0)
  | [], p, s => by simp [entriesReplay, entriesInfos]
  | (k, t) :: es, p, s => by
    rw [entriesReplay, entriesReplay_collectInfoDict es, State.update_collectInfoDict,
      Text.leave_collectInfoDict, t.replay_collectInfoDict, Text.enter_collectInfoDict,
      entriesInfos]
    -- Of the key `info`, the flag is clear after the entry, whatever its value does.
    by_cases h : k.payload = infoKey
    · simp [h]
    · simp [h, Bool.and_assoc]

end

mutual

/-- Parsing a value appends the bytes of the tokens it keeps to what was collected. -/
theorem Parsed.replay_collectedInfoDict : ∀ (t : Parsed) (s : State),
    (t.replay s).collectedInfoDict =
      s.collectedInfoDict ++ (t.kept s.collectInfoDict).flatMap Token.bytes
  | .integer body, s => State.feed_token (.integer body) s
  | .string k, s => State.feed_token (.text k) s
  | .list ts, s => by
    -- The opening byte sees the flag as it was, the closing byte as the items leave it.
    have hopen := State.feed_token .openList s
    have hclose (s : State) := State.feed_token .close s
    simp only [Token.bytes] at hopen hclose
    rw [Parsed.replay, hclose, itemsReplay_collectedInfoDict ts, itemsReplay_collectInfoDict ts,
      State.alloc_collectedInfoDict, hopen, Parsed.kept, List.flatMap_append, List.flatMap_append,
      List.append_assoc, List.append_assoc]
    rfl
  | .dict es, s => by
    have hopen := State.feed_token .openDict s
    have hclose (s : State) := State.feed_token .close s
    simp only [Token.bytes] at hopen hclose
    rw [Parsed.replay, hclose, entriesReplay_collectedInfoDict es,
      entriesReplay_collectInfoDict es, State.alloc_collectedInfoDict, hopen, Parsed.kept,
      List.flatMap_append, List.flatMap_append, List.append_assoc, List.append_assoc]
    rfl

/-- What is kept of the items is collected. -/
theorem itemsReplay_collectedInfoDict : ∀ (ts : List Parsed) (p : Ptr) (s : State),
    (itemsReplay ts p s).collectedInfoDict =
      s.collectedInfoDict ++ (itemsKept s.collectInfoDict ts).flatMap Token.bytes
  | [], p, s => (List.append_nil _).symm
  | t :: ts, p, s => by
    rw [itemsReplay, itemsReplay_collectedInfoDict ts, State.update_collectedInfoDict,
      State.update_collectInfoDict, t.replay_collectedInfoDict, t.replay_collectInfoDict,
      itemsKept, List.flatMap_append, List.append_assoc]

/-- So is what is kept of the entries. -/
theorem entriesReplay_collectedInfoDict : ∀ (es : List (Text × Parsed)) (p : Ptr) (s : State),
    (entriesReplay es p s).collectedInfoDict =
      s.collectedInfoDict ++ (entriesKept s.collectInfoDict es).flatMap Token.bytes
  | [], p, s => (List.append_nil _).symm
  | (k, t) :: es, p, s => by
    rw [entriesReplay, entriesReplay_collectedInfoDict es, State.update_collectedInfoDict,
      State.update_collectInfoDict, Text.leave_collectedInfoDict, Text.leave_collectInfoDict,
      t.replay_collectedInfoDict, t.replay_collectInfoDict, Text.enter_collectedInfoDict,
      Text.enter_collectInfoDict, entriesKept, List.flatMap_append, List.append_assoc,
      List.append_assoc]
    by_cases h : k.payload = infoKey <;> simp [h]

end

/-! ## Values without a key `info` -/

mutual

/-- A value without a key `info` is kept whole, or not at all. -/
theorem Parsed.kept_of_infos : ∀ {t : Parsed}, t.infos = 0 → ∀ b, t.kept b = keep b t.tokens
  | .integer _, _, _ => rfl
  | .string _, _, _ => rfl
  | .list ts, h, b => by
    rw [Parsed.infos] at h
    rw [Parsed.kept, itemsKept_of_infos h, h]
    cases b <;> simp [Parsed.tokens]
  | .dict es, h, b => by
    rw [Parsed.infos] at h
    rw [Parsed.kept, entriesKept_of_infos h, h]
    cases b <;> simp [Parsed.tokens]

/-- Items without a key `info` are kept whole or not at all. -/
theorem itemsKept_of_infos : ∀ {ts : List Parsed}, itemsInfos ts = 0 → ∀ b,
    itemsKept b ts = keep b (itemsTokens ts)
  | [], _, b => (keep_nil b).symm
  | t :: ts, h, b => by
    rw [itemsInfos, Nat.add_eq_zero_iff] at h
    obtain ⟨ht, hts⟩ := h
    rw [itemsKept, Parsed.kept_of_infos ht, itemsKept_of_infos hts, itemsTokens, keep_append, ht,
      decide_eq_true rfl, Bool.and_true]

/-- So are entries. -/
theorem entriesKept_of_infos : ∀ {es : List (Text × Parsed)}, entriesInfos es = 0 → ∀ b,
    entriesKept b es = keep b (entriesTokens es)
  | [], _, b => (keep_nil b).symm
  | (k, t) :: es, h, b => by
    rw [entriesInfos, Nat.add_eq_zero_iff, Nat.add_eq_zero_iff] at h
    obtain ⟨⟨hk, ht⟩, hes⟩ := h
    -- None of the three parts of the count is above zero.
    have hne : k.payload ≠ infoKey := fun he => by simp [he] at hk
    have hsplit : entriesTokens ((k, t) :: es) = [.text k] ++ (t.tokens ++ entriesTokens es) := rfl
    rw [entriesKept, if_neg hne, Parsed.kept_of_infos ht, entriesKept_of_infos hes, hsplit,
      keep_append, keep_append, ht, decide_eq_true rfl, Bool.and_true]

end

/-- Nothing is kept of a value without a key `info` while the flag is not set. -/
theorem Parsed.kept_false {t : Parsed} (h : t.infos = 0) : t.kept false = [] :=
  Parsed.kept_of_infos h false

/-- Of items without a key `info`, nothing is kept with the flag clear. -/
theorem itemsKept_false {ts : List Parsed} (h : itemsInfos ts = 0) : itemsKept false ts = [] :=
  itemsKept_of_infos h false

/-- Neither is anything of entries. -/
theorem entriesKept_false {es : List (Text × Parsed)} (h : entriesInfos es = 0) :
    entriesKept false es = [] :=
  entriesKept_of_infos h false

/-- What a fresh parser has collected after it has returned. -/
theorem parse_kept {buf : Bytes} {n : ℕ} {m : BMemoryManager} {p : Ptr} {s' : State} {t : Parsed}
    (ht : StartsWith buf t) (h : (parseBencodedString buf n).run (fresh m) = .returned p s') :
    s'.getCollectedInfoDict = (t.kept false).flatMap Token.bytes := by
  obtain ⟨-, rfl⟩ := ht.of_returned h
  unfold BParser.getCollectedInfoDict
  rw [t.replay_collectedInfoDict]
  rfl

end Btor
