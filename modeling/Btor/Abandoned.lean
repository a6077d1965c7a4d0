import Btor.Capture

/-!
# What an abandoned parse leaves behind

A parse that throws leaves the parser's fields as they are at that moment. The integers of the
complete `length` entries that it has read stay in the collected length (`Broken.lengths`), the
flag is as the last key `info` left it (`Broken.flag`), and the bytes that were read while it was
set stay collected, after the earlier ones (`Broken.kept`). The flag and the collected bytes are
unchanged if the flag was clear and no key `info` was read (`Broken.infos`).
-/

namespace Btor

/-! ## The collected length -/

mutual

/-- The sum of the integers of the complete `length` entries in a value that the parser gave up
on. -/
def Broken.lengths : Broken → Int64
  | .noByte => 0
  | .badByte _ => 0
  | .integer _ => 0
  | .string _ => 0
  | .list b => b.lengths
  | .dict b => b.lengths

/-- The sum over the items that were read. -/
def BrokenItems.lengths : BrokenItems → Int64
  | .item b => b.lengths
  | .atEnd t => t.lengths
  | .next t b => t.lengths + b.lengths

/-- An entry of key `length` counts once its value is read and known for an integer. -/
def BrokenEntries.lengths : BrokenEntries → Int64
  | .key _ => 0
  | .value _ b => b.lengths
  | .notInteger _ t => t.lengths
  | .atEnd k t => entryLength k t + t.lengths
  | .next k t b => entryLength k t + t.lengths + b.lengths

end

section

variable (s : State)

/-- A text that was abandoned collects no length. -/
theorem BrokenText.replay_collectedLength (b : BrokenText) :
    (b.replay s).collectedLength = s.collectedLength := by
  cases b <;> rfl

/-- Neither does an integer. -/
theorem BrokenInteger.replay_collectedLength (b : BrokenInteger) :
    (b.replay s).collectedLength = s.collectedLength := by
  cases b <;> rfl

/-- An entry adds the integers under `length` keys in its value, and its own. -/
theorem Text.leave_replay_collectedLength (k : Text) (t : Parsed) :
    (k.leave t (t.replay (k.enter s))).collectedLength =
      s.collectedLength + (entryLength k t + t.lengths) := by
  rw [Text.leave_collectedLength, t.replay_collectedLength, Text.enter_collectedLength]
  ac_rfl

end

mutual

/-- An abandoned value adds the integers of its complete `length` entries to the collected
length. -/
theorem Broken.replay_collectedLength : ∀ (b : Broken) (s : State),
    (b.replay s).collectedLength = s.collectedLength + b.lengths
  | .noByte, s => (Int64.add_zero _).symm
  | .badByte _, s => (Int64.add_zero _).symm
  | .integer b, s => by
    rw [Broken.replay, b.replay_collectedLength]
    exact (Int64.add_zero _).symm
  | .string b, s => by
    rw [Broken.replay, b.replay_collectedLength]
    exact (Int64.add_zero _).symm
  | .list b, s => by
    rw [Broken.replay, b.replay_collectedLength]
    rfl
  | .dict b, s => by
    rw [Broken.replay, b.replay_collectedLength]
    rfl

/-- The items that were read have their lengths collected. -/
theorem BrokenItems.replay_collectedLength : ∀ (b : BrokenItems) (p : Ptr) (s : State),
    (b.replay p s).collectedLength = s.collectedLength + b.lengths
  | .item b, p, s => b.replay_collectedLength s
  | .atEnd t, p, s => t.replay_collectedLength s
  | .next t b, p, s => by
    rw [BrokenItems.replay, b.replay_collectedLength, State.update_collectedLength,
      t.replay_collectedLength, BrokenItems.lengths, Int64.add_assoc]

/-- So have the entries that were read. -/
theorem BrokenEntries.replay_collectedLength : ∀ (b : BrokenEntries) (p : Ptr) (s : State),
    (b.replay p s).collectedLength = s.collectedLength + b.lengths
  | .key b, p, s => by
    rw [BrokenEntries.replay, b.replay_collectedLength]
    exact (Int64.add_zero _).symm
  | .value k b, p, s => by
    rw [BrokenEntries.replay, b.replay_collectedLength, Text.enter_collectedLength]
    rfl
  | .notInteger k t, p, s => by
    rw [BrokenEntries.replay, t.replay_collectedLength, Text.enter_collectedLength]
    rfl
  | .atEnd k t, p, s => by
    rw [BrokenEntries.replay, State.update_collectedLength, Text.leave_replay_collectedLength]
    rfl
  | .next k t b, p, s => by
    rw [BrokenEntries.replay, b.replay_collectedLength, State.update_collectedLength,
      Text.leave_replay_collectedLength, BrokenEntries.lengths, Int64.add_assoc]

end

/-! ## The keys `info` -/

mutual

/-- The number of keys `info` read in a value that the parser gave up on, at every depth. -/
def Broken.infos : Broken → ℕ
  | .noByte => 0
  | .badByte _ => 0
  | .integer _ => 0
  | .string _ => 0
  | .list b => b.infos
  | .dict b => b.infos

/-- The number of keys `info` read in the items of a list that the parser gave up on. -/
def BrokenItems.infos : BrokenItems → ℕ
  | .item b => b.infos
  | .atEnd t => t.infos
  | .next t b => t.infos + b.infos

/-- A key counts once it is read, before its value. -/
def BrokenEntries.infos : BrokenEntries → ℕ
  | .key _ => 0
  | .value k b => (if k.payload = infoKey then 1 else 0) + b.infos
  | .notInteger k t => (if k.payload = infoKey then 1 else 0) + t.infos
  | .atEnd k t => (if k.payload = infoKey then 1 else 0) + t.infos
  | .next k t b => (if k.payload = infoKey then 1 else 0) + t.infos + b.infos

end

/-- A count of keys `info` that is zero has none in front. -/
theorem ne_infoKey_of_infos {k : Text} {n : ℕ}
    (h : (if k.payload = infoKey then 1 else 0) + n = 0) : k.payload ≠ infoKey ∧ n = 0 := by
  split_ifs at h with hk
  · omega
  · exact ⟨hk, by omega⟩

/-! ## The flag -/

mutual

/-- The flag where the parser gave up on a value, with the flag `f` before it. -/
def Broken.flag : Bool → Broken → Bool
  | f, .noByte => f
  | f, .badByte _ => f
  | f, .integer _ => f
  | f, .string _ => f
  | f, .list b => b.flag f
  | f, .dict b => b.flag f

/-- The flag where the parser gave up on the items of a list. -/
def BrokenItems.flag : Bool → BrokenItems → Bool
  | f, .item b => b.flag f
  | f, .atEnd t => f && t.infos = 0
  | f, .next t b => b.flag (f && t.infos = 0)

/-- The flag where the parser gave up on the entries of a dictionary. The key `info` sets it, and
the end of the entry clears it. -/
def BrokenEntries.flag : Bool → BrokenEntries → Bool
  | f, .key _ => f
  | f, .value k b => b.flag (f || k.payload = infoKey)
  | f, .notInteger k t => (f || k.payload = infoKey) && t.infos = 0
  | f, .atEnd k t => f && k.payload ≠ infoKey && t.infos = 0
  | f, .next k t b => b.flag (f && k.payload ≠ infoKey && t.infos = 0)

end

/-- The flag after an entry. -/
theorem Text.leave_replay_collectInfoDict (k : Text) (t : Parsed) (s : State) :
    (k.leave t (t.replay (k.enter s))).collectInfoDict =
      (s.collectInfoDict && k.payload ≠ infoKey && t.infos = 0) := by
  rw [Text.leave_collectInfoDict, t.replay_collectInfoDict, Text.enter_collectInfoDict]
  by_cases hk : k.payload = infoKey <;> simp [hk]

mutual

/-- An abandoned value leaves the flag as `Broken.flag` says. -/
theorem Broken.replay_collectInfoDict : ∀ (b : Broken) (s : State),
    (b.replay s).collectInfoDict = b.flag s.collectInfoDict
  | .noByte, _ => rfl
  | .badByte _, _ => rfl
  | .integer b, s => by cases b <;> rfl
  | .string b, s => by cases b <;> rfl
  | .list b, s => b.replay_collectInfoDict _ _
  | .dict b, s => b.replay_collectInfoDict _ _

/-- Abandoned items leave the flag as `BrokenItems.flag` says. -/
theorem BrokenItems.replay_collectInfoDict : ∀ (b : BrokenItems) (p : Ptr) (s : State),
    (b.replay p s).collectInfoDict = b.flag s.collectInfoDict
  | .item b, p, s => b.replay_collectInfoDict s
  | .atEnd t, p, s => t.replay_collectInfoDict s
  | .next t b, p, s => by
    rw [BrokenItems.replay, b.replay_collectInfoDict, State.update_collectInfoDict,
      t.replay_collectInfoDict]
    rfl

/-- Abandoned entries leave the flag as `BrokenEntries.flag` says. -/
theorem BrokenEntries.replay_collectInfoDict : ∀ (b : BrokenEntries) (p : Ptr) (s : State),
    (b.replay p s).collectInfoDict = b.flag s.collectInfoDict
  | .key b, p, s => by cases b <;> rfl
  | .value k b, p, s => by
    rw [BrokenEntries.replay, b.replay_collectInfoDict, Text.enter_collectInfoDict]
    rfl
  | .notInteger k t, p, s => by
    rw [BrokenEntries.replay, t.replay_collectInfoDict, Text.enter_collectInfoDict]
    rfl
  | .atEnd k t, p, s => k.leave_replay_collectInfoDict t s
  | .next k t b, p, s => by
    rw [BrokenEntries.replay, b.replay_collectInfoDict, State.update_collectInfoDict,
      Text.leave_replay_collectInfoDict]
    rfl

end

mutual

/-- Without a key `info` the flag stays as it was. -/
theorem Broken.flag_of_infos : ∀ {b : Broken}, b.infos = 0 → ∀ f, b.flag f = f
  | .noByte, _, _ => rfl
  | .badByte _, _, _ => rfl
  | .integer _, _, _ => rfl
  | .string _, _, _ => rfl
  | .list b, h, f => BrokenItems.flag_of_infos (b := b) h f
  | .dict b, h, f => BrokenEntries.flag_of_infos (b := b) h f

/-- Without a key `info` in the items the flag stays as it was. -/
theorem BrokenItems.flag_of_infos : ∀ {b : BrokenItems}, b.infos = 0 → ∀ f, b.flag f = f
  | .item b, h, f => Broken.flag_of_infos (b := b) h f
  | .atEnd t, h, f => by
    rw [BrokenItems.infos] at h
    simp [BrokenItems.flag, h]
  | .next t b, h, f => by
    obtain ⟨ht, hb⟩ := Nat.add_eq_zero_iff.mp h
    rw [BrokenItems.flag, BrokenItems.flag_of_infos hb]
    simp [ht]

/-- Without a key `info` in the entries the flag stays as it was. -/
theorem BrokenEntries.flag_of_infos : ∀ {b : BrokenEntries}, b.infos = 0 → ∀ f, b.flag f = f
  | .key _, _, _ => rfl
  | .value k b, h, f => by
    obtain ⟨hk, hb⟩ := ne_infoKey_of_infos h
    rw [BrokenEntries.flag, Broken.flag_of_infos hb]
    simp [hk]
  | .notInteger k t, h, f => by
    obtain ⟨hk, ht⟩ := ne_infoKey_of_infos h
    simp [BrokenEntries.flag, hk, ht]
  | .atEnd k t, h, f => by
    obtain ⟨hk, ht⟩ := ne_infoKey_of_infos h
    simp [BrokenEntries.flag, hk, ht]
  | .next k t b, h, f => by
    rw [BrokenEntries.infos, Nat.add_assoc] at h
    obtain ⟨hk, htb⟩ := ne_infoKey_of_infos h
    obtain ⟨ht, hb⟩ := Nat.add_eq_zero_iff.mp htb
    rw [BrokenEntries.flag, BrokenEntries.flag_of_infos hb]
    simp [hk, ht]

end

/-! ## The collected bytes -/

/-- The bytes `l`, kept if the flag is set. -/
def keepBytes (f : Bool) (l : Bytes) : Bytes := if f then l else []

/-- The bytes that parsing a value collects, with the flag `f` before it. -/
def Parsed.keptBytes (f : Bool) (t : Parsed) : Bytes := (t.kept f).flatMap Token.bytes

mutual

/-- The bytes that are collected of a value that the parser gave up on, with the flag `f` before
it. -/
def Broken.kept : Bool → Broken → Bytes
  | _, .noByte => []
  | _, .badByte _ => []
  | f, .integer b => keepBytes f (Ascii.i :: b.bytes)
  | f, .string b => keepBytes f b.bytes
  | f, .list b => keepBytes f [Ascii.l] ++ b.kept f
  | f, .dict b => keepBytes f [Ascii.d] ++ b.kept f

/-- The bytes that are collected of the items of a list that the parser gave up on. -/
def BrokenItems.kept : Bool → BrokenItems → Bytes
  | f, .item b => b.kept f
  | f, .atEnd t => t.keptBytes f
  | f, .next t b => t.keptBytes f ++ b.kept (f && t.infos = 0)

/-- The bytes that are collected of the entries of a dictionary that the parser gave up on. A key is
collected as the flag was before it. -/
def BrokenEntries.kept : Bool → BrokenEntries → Bytes
  | f, .key b => keepBytes f b.bytes
  | f, .value k b => keepBytes f k.bytes ++ b.kept (f || k.payload = infoKey)
  | f, .notInteger k t => keepBytes f k.bytes ++ t.keptBytes (f || k.payload = infoKey)
  | f, .atEnd k t => keepBytes f k.bytes ++ t.keptBytes (f || k.payload = infoKey)
  | f, .next k t b => keepBytes f k.bytes ++ t.keptBytes (f || k.payload = infoKey) ++
      b.kept (f && k.payload ≠ infoKey && t.infos = 0)

end

/-- The bytes kept of two parts. -/
theorem keepBytes_append (f : Bool) (l l' : Bytes) :
    keepBytes f (l ++ l') = keepBytes f l ++ keepBytes f l' := by
  cases f <;> rfl

/-- Bytes that are read are collected if the flag is set. -/
theorem State.feed_keepBytes (l : Bytes) (s : State) :
    (s.feed l).collectedInfoDict = s.collectedInfoDict ++ keepBytes s.collectInfoDict l := by
  rw [State.feed_collectedInfoDict]
  unfold keepBytes
  split_ifs
  · rfl
  · exact (List.append_nil _).symm

/-- A key is collected as the flag was before it. -/
theorem Text.enter_keepBytes (k : Text) (s : State) :
    (k.enter s).collectedInfoDict =
      s.collectedInfoDict ++ keepBytes s.collectInfoDict k.bytes := by
  have hfeed := s.feed_keepBytes k.bytes
  unfold Text.enter
  split_ifs
  · exact hfeed
  · exact hfeed

/-- What is collected of an entry. -/
theorem Text.replay_enter_keptBytes (k : Text) (t : Parsed) (s : State) :
    (t.replay (k.enter s)).collectedInfoDict = s.collectedInfoDict ++
      (keepBytes s.collectInfoDict k.bytes ++
        t.keptBytes (s.collectInfoDict || k.payload = infoKey)) := by
  rw [t.replay_collectedInfoDict, Text.enter_keepBytes, Text.enter_collectInfoDict,
    List.append_assoc]
  rfl

mutual

/-- An abandoned value appends the bytes that are kept of it to what was collected. -/
theorem Broken.replay_collectedInfoDict : ∀ (b : Broken) (s : State),
    (b.replay s).collectedInfoDict = s.collectedInfoDict ++ b.kept s.collectInfoDict
  | .noByte, s => (List.append_nil _).symm
  | .badByte _, s => (List.append_nil _).symm
  | .integer b, s => by
    have hopen := s.feed_keepBytes [Ascii.i]
    have hbody := (s.feed [Ascii.i]).feed_keepBytes b.bytes
    have hcons : Broken.kept s.collectInfoDict (.integer b) =
        keepBytes s.collectInfoDict [Ascii.i] ++ keepBytes s.collectInfoDict b.bytes := by
      rw [← keepBytes_append]
      rfl
    rw [hopen, List.append_assoc] at hbody
    rw [hcons]
    cases b <;> exact hbody
  | .string b, s => by
    have hfeed := s.feed_keepBytes b.bytes
    cases b <;> exact hfeed
  | .list b, s => by
    have hopen := s.feed_keepBytes [Ascii.l]
    rw [Broken.replay, b.replay_collectedInfoDict, State.alloc_collectedInfoDict, hopen,
      List.append_assoc]
    rfl
  | .dict b, s => by
    have hopen := s.feed_keepBytes [Ascii.d]
    rw [Broken.replay, b.replay_collectedInfoDict, State.alloc_collectedInfoDict, hopen,
      List.append_assoc]
    rfl

/-- Abandoned items append the bytes that are kept of them. -/
theorem BrokenItems.replay_collectedInfoDict : ∀ (b : BrokenItems) (p : Ptr) (s : State),
    (b.replay p s).collectedInfoDict = s.collectedInfoDict ++ b.kept s.collectInfoDict
  | .item b, p, s => b.replay_collectedInfoDict s
  | .atEnd t, p, s => t.replay_collectedInfoDict s
  | .next t b, p, s => by
    rw [BrokenItems.replay, b.replay_collectedInfoDict, State.update_collectedInfoDict,
      State.update_collectInfoDict, t.replay_collectedInfoDict, t.replay_collectInfoDict,
      List.append_assoc]
    rfl

/-- Abandoned entries append the bytes that are kept of them. -/
theorem BrokenEntries.replay_collectedInfoDict : ∀ (b : BrokenEntries) (p : Ptr) (s : State),
    (b.replay p s).collectedInfoDict = s.collectedInfoDict ++ b.kept s.collectInfoDict
  | .key b, p, s => by
    have hfeed := s.feed_keepBytes b.bytes
    cases b <;> exact hfeed
  | .value k b, p, s => by
    rw [BrokenEntries.replay, b.replay_collectedInfoDict, Text.enter_keepBytes,
      Text.enter_collectInfoDict, List.append_assoc]
    rfl
  | .notInteger k t, p, s => k.replay_enter_keptBytes t s
  | .atEnd k t, p, s => by
    rw [BrokenEntries.replay, State.update_collectedInfoDict, Text.leave_collectedInfoDict]
    exact k.replay_enter_keptBytes t s
  | .next k t b, p, s => by
    rw [BrokenEntries.replay, b.replay_collectedInfoDict, State.update_collectedInfoDict,
      State.update_collectInfoDict, Text.leave_collectedInfoDict,
      Text.leave_replay_collectInfoDict, Text.replay_enter_keptBytes, List.append_assoc]
    rfl

end

/-- What is kept of the bytes `l` is a part of them. -/
theorem keepBytes_sublist (f : Bool) (l : Bytes) : (keepBytes f l).Sublist l := by
  cases f
  · exact List.nil_sublist l
  · exact List.Sublist.refl l

/-- What is kept of tokens is a part of them. -/
theorem keep_sublist (f : Bool) (l : List Token) : (keep f l).Sublist l := by
  cases f
  · exact List.nil_sublist l
  · exact List.Sublist.refl l

mutual

/-- The tokens kept of a value are some of its tokens, in order. -/
theorem Parsed.kept_sublist : ∀ (t : Parsed) (f : Bool), (t.kept f).Sublist t.tokens
  | .integer _, f => keep_sublist f _
  | .string _, f => keep_sublist f _
  | .list ts, f =>
    (keep_sublist f [.openList]).append ((itemsKept_sublist ts f).append (keep_sublist _ [.close]))
  | .dict es, f =>
    (keep_sublist f [.openDict]).append
      ((entriesKept_sublist es f).append (keep_sublist _ [.close]))

/-- The tokens kept of the items of a list are some of their tokens, in order. -/
theorem itemsKept_sublist : ∀ (ts : List Parsed) (f : Bool),
    (itemsKept f ts).Sublist (itemsTokens ts)
  | [], _ => List.Sublist.refl []
  | t :: ts, f => (t.kept_sublist f).append (itemsKept_sublist ts _)

/-- The tokens kept of the entries of a dictionary are some of their tokens, in order. -/
theorem entriesKept_sublist : ∀ (es : List (Text × Parsed)) (f : Bool),
    (entriesKept f es).Sublist (entriesTokens es)
  | [], _ => List.Sublist.refl []
  | (k, t) :: es, f => by
    rw [entriesKept]
    refine (keep_sublist f [.text k]).append ?_
    split_ifs
    · exact (t.kept_sublist true).append (entriesKept_sublist es false)
    · exact (t.kept_sublist f).append (entriesKept_sublist es _)

end

/-- The bytes kept of a value are some of its bytes, in order. -/
theorem Parsed.keptBytes_sublist (t : Parsed) (f : Bool) : (t.keptBytes f).Sublist t.bytes := by
  rw [← t.flatMap_tokens]
  exact (t.kept_sublist f).flatMap Token.bytes

mutual

/-- The bytes kept of an abandoned value are some of those that were read of it, in order. -/
theorem Broken.kept_sublist : ∀ (b : Broken) (f : Bool), (b.kept f).Sublist b.bytes
  | .noByte, _ => List.Sublist.refl []
  | .badByte _, _ => List.Sublist.refl []
  | .integer _, f => keepBytes_sublist f _
  | .string _, f => keepBytes_sublist f _
  | .list b, f => (keepBytes_sublist f [Ascii.l]).append (b.kept_sublist f)
  | .dict b, f => (keepBytes_sublist f [Ascii.d]).append (b.kept_sublist f)

/-- The bytes kept of abandoned items are some of those that were read, in order. -/
theorem BrokenItems.kept_sublist : ∀ (b : BrokenItems) (f : Bool), (b.kept f).Sublist b.bytes
  | .item b, f => b.kept_sublist f
  | .atEnd t, f => t.keptBytes_sublist f
  | .next t b, f => (t.keptBytes_sublist f).append (b.kept_sublist _)

/-- The bytes kept of abandoned entries are some of those that were read, in order. -/
theorem BrokenEntries.kept_sublist : ∀ (b : BrokenEntries) (f : Bool), (b.kept f).Sublist b.bytes
  | .key _, f => keepBytes_sublist f _
  | .value _ b, f => (keepBytes_sublist f _).append (b.kept_sublist _)
  | .notInteger _ t, f => (keepBytes_sublist f _).append (t.keptBytes_sublist _)
  | .atEnd _ t, f => (keepBytes_sublist f _).append (t.keptBytes_sublist _)
  | .next _ t b, f =>
    ((keepBytes_sublist f _).append (t.keptBytes_sublist _)).append (b.kept_sublist _)

end

/-- Nothing is kept of a value without a key `info` while the flag is clear. -/
theorem Parsed.keptBytes_false {t : Parsed} (h : t.infos = 0) : t.keptBytes false = [] := by
  unfold Parsed.keptBytes
  rw [Parsed.kept_false h]
  rfl

mutual

/-- Nothing is kept of an abandoned value without a key `info` while the flag is clear. -/
theorem Broken.kept_false : ∀ {b : Broken}, b.infos = 0 → b.kept false = []
  | .noByte, _ => rfl
  | .badByte _, _ => rfl
  | .integer _, _ => rfl
  | .string _, _ => rfl
  | .list b, h => BrokenItems.kept_false (b := b) h
  | .dict b, h => BrokenEntries.kept_false (b := b) h

/-- Nothing is kept of abandoned items without a key `info` while the flag is clear. -/
theorem BrokenItems.kept_false : ∀ {b : BrokenItems}, b.infos = 0 → b.kept false = []
  | .item b, h => Broken.kept_false (b := b) h
  | .atEnd t, h => Parsed.keptBytes_false h
  | .next t b, h => by
    obtain ⟨ht, hb⟩ := Nat.add_eq_zero_iff.mp h
    rw [BrokenItems.kept, Parsed.keptBytes_false ht, Bool.false_and, BrokenItems.kept_false hb]
    rfl

/-- Nothing is kept of abandoned entries without a key `info` while the flag is clear. -/
theorem BrokenEntries.kept_false : ∀ {b : BrokenEntries}, b.infos = 0 → b.kept false = []
  | .key _, _ => rfl
  | .value k b, h => by
    obtain ⟨hk, hb⟩ := ne_infoKey_of_infos h
    rw [BrokenEntries.kept, decide_eq_false hk, Bool.or_false, Broken.kept_false hb]
    rfl
  | .notInteger k t, h => by
    obtain ⟨hk, ht⟩ := ne_infoKey_of_infos h
    rw [BrokenEntries.kept, decide_eq_false hk, Bool.or_false, Parsed.keptBytes_false ht]
    rfl
  | .atEnd k t, h => by
    obtain ⟨hk, ht⟩ := ne_infoKey_of_infos h
    rw [BrokenEntries.kept, decide_eq_false hk, Bool.or_false, Parsed.keptBytes_false ht]
    rfl
  | .next k t b, h => by
    rw [BrokenEntries.infos, Nat.add_assoc] at h
    obtain ⟨hk, htb⟩ := ne_infoKey_of_infos h
    obtain ⟨ht, hb⟩ := Nat.add_eq_zero_iff.mp htb
    rw [BrokenEntries.kept, decide_eq_false hk, Bool.or_false, Parsed.keptBytes_false ht,
      Bool.false_and, Bool.false_and, BrokenEntries.kept_false hb]
    rfl

end

/-! ## A parse that throws -/

/-- Two states that agree in the flag and in the collected bytes still do after the same value, and
the collected lengths differ by as much as before. -/
theorem Parsed.replay_collects_same (t : Parsed) {s s' : State} {n : Int64}
    (hflag : s'.collectInfoDict = s.collectInfoDict)
    (hinfo : s'.collectedInfoDict = s.collectedInfoDict)
    (hlength : s'.collectedLength = s.collectedLength + n) :
    (t.replay s').collectInfoDict = (t.replay s).collectInfoDict ∧
    (t.replay s').collectedInfoDict = (t.replay s).collectedInfoDict ∧
    (t.replay s').collectedLength = (t.replay s).collectedLength + n := by
  refine ⟨?_, ?_, ?_⟩
  · rw [t.replay_collectInfoDict, t.replay_collectInfoDict, hflag]
  · rw [t.replay_collectedInfoDict, t.replay_collectedInfoDict, hflag, hinfo]
  · rw [t.replay_collectedLength, t.replay_collectedLength, hlength]
    ac_rfl

/-- A parse that throws keeps what it has collected: the integers of the complete `length` entries
are in the collected length, and the collected bytes are the earlier ones followed by those that
were read while the flag was set, which the key `info` sets and the end of its entry clears. With
the flag clear on entry and no key `info` read, the flag is clear and the collected bytes are the
earlier ones, and a later parse collects what it would have collected without the failed one, on top
of those lengths. -/
theorem parse_abandoned {buf : Bytes} {n : ℕ} {s s' : State} {x : Exn}
    (h : (parseBencodedString buf n).run s = .stopped (.threw x) s') :
    ∃ b : Broken, b.FoundAt buf 0 ∧ b.stop = .threw x ∧
      s'.collectedLength = s.collectedLength + b.lengths ∧
      s'.collectInfoDict = b.flag s.collectInfoDict ∧
      s'.collectedInfoDict = s.collectedInfoDict ++ b.kept s.collectInfoDict ∧
      (b.kept s.collectInfoDict).Sublist b.bytes ∧
      (s.collectInfoDict = false → b.infos = 0 →
        s'.collectInfoDict = false ∧ s'.collectedInfoDict = s.collectedInfoDict ∧
        ∀ (m : BMemoryManager) (buf₁ : Bytes) (n₁ n₂ : ℕ) (p₁ p₂ : Ptr) (s₁ s₂ : State),
          (parseBencodedString buf₁ n₁).run { s' with toBMemoryManager := m } = .returned p₁ s₁ →
          (parseBencodedString buf₁ n₂).run { s with toBMemoryManager := m } = .returned p₂ s₂ →
          s₁.collectInfoDict = s₂.collectInfoDict ∧
          s₁.collectedInfoDict = s₂.collectedInfoDict ∧
          s₁.collectedLength = s₂.collectedLength + b.lengths) := by
  obtain ⟨b, hfound, hstop, rfl⟩ := parse_stopped (by simp) h
  have hlength := b.replay_collectedLength s.rewind
  have hflag := b.replay_collectInfoDict s.rewind
  have hinfo := b.replay_collectedInfoDict s.rewind
  refine ⟨b, hfound, hstop.symm, hlength, hflag, hinfo, b.kept_sublist _, fun hclear hzero => ?_⟩
  -- Neither the flag nor the collected bytes have changed.
  have hflag' : (b.replay s.rewind).collectInfoDict = s.collectInfoDict := by
    rw [hflag, Broken.flag_of_infos hzero]
    rfl
  have hclear' : s.rewind.collectInfoDict = false := hclear
  have hinfo' : (b.replay s.rewind).collectedInfoDict = s.collectedInfoDict := by
    rw [hinfo, hclear', Broken.kept_false hzero, List.append_nil]
    rfl
  refine ⟨hflag'.trans hclear, hinfo', fun m' buf₁ n₁ n₂ p₁ p₂ s₁ s₂ h₁ h₂ => ?_⟩
  -- Both parses read the same value.
  obtain ⟨t, ht, -, rfl⟩ := parse_returned h₁
  obtain ⟨-, rfl⟩ := ht.of_returned h₂
  exact t.replay_collects_same hflag' hinfo' hlength

/-- The bytes `d6:lengthi5e4:infoi1`. -/
def unfinishedInfo : Bytes := literal "d6:lengthi5e4:infoi1"

/-- The parser throws at their end, and keeps the length and the first bytes of the info value, with
the flag set. -/
theorem parse_abandoned_unfinishedInfo : ∃ b : Broken, b.FoundAt unfinishedInfo 0 ∧
    b.stop = .threw .outOfRange ∧ b.lengths = 5 ∧ b.flag false = true ∧
    b.kept false = literal "i1" := by
  let s' := ((parseBencodedString unfinishedInfo 60).run (fresh {})).state
  have h : (parseBencodedString unfinishedInfo 60).run (fresh {}) =
      .stopped (.threw .outOfRange) s' := rfl
  have hs' : s'.collectedLength = 5 ∧ s'.collectInfoDict = true ∧
      s'.collectedInfoDict = literal "i1" := by decide +kernel
  obtain ⟨b, hfound, hstop, hlength, hflag, hinfo, -⟩ := parse_abandoned h
  refine ⟨b, hfound, hstop, ?_, hflag.symm.trans hs'.2.1, hinfo.symm.trans hs'.2.2⟩
  exact (Int64.zero_add _).symm.trans (hlength.symm.trans hs'.1)

/-- The length entry of these bytes, and what was read of the value of its key `info`, stay with a
fresh parser that throws at the end of the buffer. -/
theorem not_parse_restores : ¬ ∀ (buf : Bytes) (n : ℕ) (s s' : State) (x : Exn),
    (parseBencodedString buf n).run s = .stopped (.threw x) s' →
    s'.collectInfoDict = s.collectInfoDict ∧ s'.collectedInfoDict = s.collectedInfoDict ∧
      s'.collectedLength = s.collectedLength := by
  intro h
  have hrun := h unfinishedInfo 60 (fresh {}) _ .outOfRange rfl
  exact absurd hrun.2.2 (by decide +kernel)

end Btor
