import Btor.Refused

/-!
# Renamed keys

Two key names mean something to the parser: `info` switches the collection of bytes on and off, and
under `length` it asks for an integer. The first does not bear on what it accepts or returns. The
second does: a tree and the one with its keys renamed are both read, and correspond under the
renaming, exactly if neither has a value under `length` that is no integer (`parse_rename_iff`).
-/

namespace Btor

open Lib (OrderedMap)

/-! ## Renaming -/

mutual

/-- The tree with its keys renamed, at every depth, and the entries of its dictionaries sorted by
the new keys. -/
def Value.rename (r : Bytes → Bytes) : Value → Value
  | .integer n => .integer n
  | .string s => .string s
  | .list vs => .list (itemsRename r vs)
  | .dict es => .dict (OrderedMap.empty.insertAll (entriesRename r es)).entries

/-- The items with other keys. -/
def itemsRename (r : Bytes → Bytes) : List Value → List Value
  | [] => []
  | v :: vs => v.rename r :: itemsRename r vs

/-- The entries with other keys. -/
def entriesRename (r : Bytes → Bytes) : List (Bytes × Value) → List (Bytes × Value)
  | [] => []
  | (k, v) :: es => (r k, v.rename r) :: entriesRename r es

end

mutual

/-- The keys of all dictionaries of a tree. -/
def Value.keys : Value → List Bytes
  | .integer _ => []
  | .string _ => []
  | .list vs => itemsKeys vs
  | .dict es => entriesKeys es

/-- The keys in the items. -/
def itemsKeys : List Value → List Bytes
  | [] => []
  | v :: vs => v.keys ++ itemsKeys vs

/-- The keys of the entries, and in their values. -/
def entriesKeys : List (Bytes × Value) → List Bytes
  | [] => []
  | (k, v) :: es => k :: (v.keys ++ entriesKeys es)

end

mutual

/-- The trees correspond under the renaming: they are equal but for the keys, of which each is the
other one's renamed, and for the order of the entries. -/
def Value.Renamed (r : Bytes → Bytes) : Value → Value → Prop
  | .integer n, v' => v' = .integer n
  | .string s, v' => v' = .string s
  | .list vs, v' => ∃ vs', v' = .list vs' ∧ ItemsRenamed r vs vs'
  | .dict es, v' => ∃ es' es'', v' = .dict es' ∧ es''.Perm es' ∧ EntriesRenamed r es es''

/-- The items are the same but for their keys. -/
def ItemsRenamed (r : Bytes → Bytes) : List Value → List Value → Prop
  | [], vs' => vs' = []
  | v :: vs, vs' => ∃ v' vs'', vs' = v' :: vs'' ∧ v.Renamed r v' ∧ ItemsRenamed r vs vs''

/-- The entries are the same but for their keys. -/
def EntriesRenamed (r : Bytes → Bytes) : List (Bytes × Value) → List (Bytes × Value) → Prop
  | [], es' => es' = []
  | (k, v) :: es, es' =>
    ∃ v' es'', es' = (r k, v') :: es'' ∧ v.Renamed r v' ∧ EntriesRenamed r es es''

end

section

variable {r : Bytes → Bytes}

/-- The keys of renamed entries. -/
theorem entriesRename_keys (es : List (Bytes × Value)) :
    (entriesRename r es).map (·.1) = (es.map (·.1)).map r := by
  induction es with
  | nil => rfl
  | cons e es ih =>
    obtain ⟨k, v⟩ := e
    rw [entriesRename, List.map_cons, ih, List.map_cons, List.map_cons]

/-- The keys of a dictionary are among the keys of the tree. -/
theorem mem_entriesKeys {es : List (Bytes × Value)} {k : Bytes} (h : k ∈ es.map (·.1)) :
    k ∈ entriesKeys es := by
  induction es with
  | nil => cases h
  | cons e es ih =>
    obtain ⟨k', v⟩ := e
    rw [List.map_cons] at h
    rw [entriesKeys]
    rcases List.mem_cons.mp h with rfl | h
    · exact List.mem_cons_self
    · exact List.mem_cons_of_mem _ (List.mem_append_right _ (ih h))

/-- A renaming that is injective on the keys of a dictionary loses no entry. -/
theorem entriesRename_perm {es : List (Bytes × Value)} (hsorted : es.Pairwise (·.1 < ·.1))
    (hinj : Set.InjOn r {k | k ∈ entriesKeys es}) :
    (OrderedMap.empty.insertAll (entriesRename r es)).entries.Perm (entriesRename r es) := by
  refine OrderedMap.insertAll_empty_perm ?_
  rw [entriesRename_keys]
  have hnodup : (es.map (·.1)).Nodup := OrderedMap.keys_nodup ⟨es, hsorted⟩
  exact List.Nodup.map_on (fun a ha b hb hab =>
    hinj (mem_entriesKeys ha) (mem_entriesKeys hb) hab) hnodup

mutual

/-- A tree corresponds to its renaming, if the renaming is injective on its keys. -/
theorem Value.renamed_rename : ∀ {v : Value}, v.InRange → Set.InjOn r {k | k ∈ v.keys} →
    v.Renamed r (v.rename r)
  | .integer _, _, _ => rfl
  | .string _, _, _ => rfl
  | .list _, hr, hinj => ⟨_, rfl, itemsRenamed_rename hr hinj⟩
  | .dict _, hr, hinj =>
    ⟨_, _, rfl, (entriesRename_perm hr.1 hinj).symm, entriesRenamed_rename hr.2 hinj⟩

/-- Items with other keys are the same but for them. -/
theorem itemsRenamed_rename : ∀ {vs : List Value}, ItemsInRange vs →
    Set.InjOn r {k | k ∈ itemsKeys vs} → ItemsRenamed r vs (itemsRename r vs)
  | [], _, _ => rfl
  | _ :: _, hr, hinj =>
    ⟨_, _, rfl, Value.renamed_rename hr.1 (hinj.mono fun _ hk => List.mem_append_left _ hk),
      itemsRenamed_rename hr.2 (hinj.mono fun _ hk => List.mem_append_right _ hk)⟩

/-- So are entries. -/
theorem entriesRenamed_rename : ∀ {es : List (Bytes × Value)}, EntriesInRange es →
    Set.InjOn r {k | k ∈ entriesKeys es} → EntriesRenamed r es (entriesRename r es)
  | [], _, _ => rfl
  | (_, _) :: _, hr, hinj =>
    ⟨_, _, rfl,
      Value.renamed_rename hr.2.1
        (hinj.mono fun _ hk => List.mem_cons_of_mem _ (List.mem_append_left _ hk)),
      entriesRenamed_rename hr.2.2
        (hinj.mono fun _ hk => List.mem_cons_of_mem _ (List.mem_append_right _ hk))⟩

end

mutual

/-- A tree is within the parser's ranges after a renaming to keys that are. -/
theorem Value.InRange.rename : ∀ {v : Value}, v.InRange → (∀ k ∈ v.keys, (r k).length < 2^31) →
    (v.rename r).InRange
  | .integer _, hr, _ => hr
  | .string _, hr, _ => hr
  | .list _, hr, hshort => ItemsInRange.rename hr hshort
  | .dict es, hr, hshort => by
    refine ⟨(OrderedMap.empty.insertAll (entriesRename r es)).sorted,
      entriesInRange_iff.mpr fun e he => ?_⟩
    rcases OrderedMap.mem_insertAll he with hnil | he
    · cases hnil
    · exact entriesInRange_iff.mp (EntriesInRange.rename hr.2 hshort) e he

/-- Items are in range with other keys that are. -/
theorem ItemsInRange.rename : ∀ {vs : List Value}, ItemsInRange vs →
    (∀ k ∈ itemsKeys vs, (r k).length < 2^31) → ItemsInRange (itemsRename r vs)
  | [], _, _ => trivial
  | _ :: _, hr, hshort =>
    ⟨hr.1.rename fun k hk => hshort k (List.mem_append_left _ hk),
      hr.2.rename fun k hk => hshort k (List.mem_append_right _ hk)⟩

/-- So are entries. -/
theorem EntriesInRange.rename : ∀ {es : List (Bytes × Value)}, EntriesInRange es →
    (∀ k ∈ entriesKeys es, (r k).length < 2^31) → EntriesInRange (entriesRename r es)
  | [], _, _ => trivial
  | (k, _) :: _, hr, hshort =>
    ⟨hshort k List.mem_cons_self,
      hr.2.1.rename fun k' hk =>
        hshort k' (List.mem_cons_of_mem _ (List.mem_append_left _ hk)),
      hr.2.2.rename fun k' hk =>
        hshort k' (List.mem_cons_of_mem _ (List.mem_append_right _ hk))⟩

end

mutual

/-- A renaming empties no list or dictionary. -/
theorem Value.NonEmpty.rename : ∀ {v : Value}, v.NonEmpty → (v.rename r).NonEmpty
  | .integer _, _ => trivial
  | .string _, _ => trivial
  | .list vs, hne => by
    refine ⟨?_, ItemsNonEmpty.rename hne.2⟩
    cases vs with
    | nil => exact absurd rfl hne.1
    | cons v vs => exact List.cons_ne_nil _ _
  | .dict es, hne => by
    refine ⟨?_, entriesNonEmpty_iff.mpr fun e he => ?_⟩
    · cases es with
      | nil => exact absurd rfl hne.1
      | cons e es =>
        obtain ⟨k, v⟩ := e
        obtain ⟨w, hw⟩ := OrderedMap.exists_mem_insertAll (m := OrderedMap.empty)
          (l := entriesRename r ((k, v) :: es)) (.inr ⟨v.rename r, List.mem_cons_self⟩)
        exact List.ne_nil_of_mem hw
    · rcases OrderedMap.mem_insertAll he with hnil | he
      · cases hnil
      · exact entriesNonEmpty_iff.mp (EntriesNonEmpty.rename hne.2) e he

/-- Other keys empty no container of the items. -/
theorem ItemsNonEmpty.rename : ∀ {vs : List Value}, ItemsNonEmpty vs →
    ItemsNonEmpty (itemsRename r vs)
  | [], _ => trivial
  | _ :: _, hne => ⟨hne.1.rename, hne.2.rename⟩

/-- Neither do they of the entries. -/
theorem EntriesNonEmpty.rename : ∀ {es : List (Bytes × Value)}, EntriesNonEmpty es →
    EntriesNonEmpty (entriesRename r es)
  | [], _ => trivial
  | (_, _) :: _, hne => ⟨hne.1.rename, hne.2.rename⟩

end

end

/-! ## Parsing a tree and its renaming -/

/-- The parser accepts the buffer from the state `s`. -/
def Accepts (s : State) (e : Bytes) : Prop :=
  ∃ n p s', (parseBencodedString e n).run s = .returned p s'

/-- The parser reads the buffer as the tree `v` from the state `s`. -/
def ReadsAs (s : State) (e : Bytes) (v : Value) : Prop :=
  ∃ n p s', (parseBencodedString e n).run s = .returned p s' ∧ Denotes s'.heap p v

/-- The keys of `v` are only data in the parses of its encoding `e` and of the encoding `e'` of its
renaming. -/
structure KeysAreData (r : Bytes → Bytes) (v : Value) (e e' : Bytes) (s s' : State) : Prop where
  /-- No key makes the parse of the encoding fail. -/
  accepts : Accepts s e
  /-- The one encoding is accepted if and only if the other is. -/
  accepts_iff : Accepts s e ↔ Accepts s' e'
  /-- The trees that are read are the two encoded, and correspond under the renaming. -/
  corresponds : ∀ u u', ReadsAs s e u → ReadsAs s' e' u' → u = v ∧ u' = v.rename r ∧ u.Renamed r u'

section

variable {s : State} {e : Bytes} {v : Value}

/-- What the parser accepts it reads as a tree. -/
theorem Accepts.readsAs (h : Accepts s e) : ∃ u, ReadsAs s e u := by
  obtain ⟨n, p, s', hrun⟩ := h
  obtain ⟨t, -, -, ht⟩ := parse_denotes hrun
  exact ⟨t.value, n, p, s', hrun, ht⟩

/-- In a tree that the parser reads, every value under a key `length` is an integer. -/
theorem ReadsAs.lengthsInteger (h : ReadsAs s e v) : v.LengthsInteger := by
  obtain ⟨n, p, s', hrun, hv⟩ := h
  obtain ⟨t, ht, -, ht'⟩ := parse_denotes hrun
  rw [denotes_unique hv ht']
  exact ht.accepted.lengthsInteger

/-- An encoding of a tree that the parser can represent is read as the tree, and as no other. -/
theorem Encodes.readsAs_iff (he : Encodes v e) (hv : v.Encodable) (hread : Reads e 0 e) (s : State)
    (u : Value) : ReadsAs s e u ↔ u = v := by
  obtain ⟨t, hacc, rfl, rfl⟩ := he.accepted hv
  have ht : StartsWith t.bytes t := ⟨hacc, hread⟩
  constructor
  · rintro ⟨n, p, s', hrun, hu⟩
    obtain ⟨rfl, rfl⟩ := ht.of_returned hrun
    exact denotes_unique hu (t.replay_denotes s.rewind)
  · rintro rfl
    exact ⟨_, _, _, parse_of_startsWith ht le_rfl s, t.replay_denotes s.rewind⟩

end

/-- Keys are only data in the parses of an encoding of a tree and of one of its renaming exactly if
no value under a key `length` of the two trees is anything but an integer. For the one direction
the cursor has to read the encodings as they are, as it does all those shorter than `2^32` bytes. -/
theorem parse_rename_iff {r : Bytes → Bytes} {v : Value} {e e' : Bytes} (hr : v.InRange)
    (hne : v.NonEmpty) (hinj : Set.InjOn r {k | k ∈ v.keys})
    (hshort : ∀ k ∈ v.keys, (r k).length < 2^31) (he : Encodes v e) (he' : Encodes (v.rename r) e')
    (s s' : State) :
    (KeysAreData r v e e' s s' → v.LengthsInteger ∧ (v.rename r).LengthsInteger) ∧
    (Reads e 0 e → Reads e' 0 e' →
      (KeysAreData r v e e' s s' ↔ v.LengthsInteger ∧ (v.rename r).LengthsInteger)) := by
  have hright (h : KeysAreData r v e e' s s') : v.LengthsInteger ∧ (v.rename r).LengthsInteger := by
    obtain ⟨u, hu⟩ := h.accepts.readsAs
    obtain ⟨u', hu'⟩ := (h.accepts_iff.mp h.accepts).readsAs
    obtain ⟨rfl, rfl, -⟩ := h.corresponds u u' hu hu'
    exact ⟨hu.lengthsInteger, hu'.lengthsInteger⟩
  refine ⟨hright, fun hread hread' => ⟨hright, fun ⟨hl, hl'⟩ => ?_⟩⟩
  have hv : v.Encodable := v.encodable_iff.mpr ⟨hr, hne, hl⟩
  have hv' : (v.rename r).Encodable :=
    (v.rename r).encodable_iff.mpr ⟨hr.rename hshort, hne.rename, hl'⟩
  have haccepts : Accepts s e := by
    obtain ⟨n, p, s₁, hrun, -⟩ := (he.readsAs_iff hv hread s v).mpr rfl
    exact ⟨n, p, s₁, hrun⟩
  have haccepts' : Accepts s' e' := by
    obtain ⟨n, p, s₁, hrun, -⟩ := (he'.readsAs_iff hv' hread' s' (v.rename r)).mpr rfl
    exact ⟨n, p, s₁, hrun⟩
  refine ⟨haccepts, ⟨fun _ => haccepts', fun _ => haccepts⟩, fun u u' hu hu' => ?_⟩
  obtain rfl := (he.readsAs_iff hv hread s u).mp hu
  obtain rfl := (he'.readsAs_iff hv' hread' s' u').mp hu'
  exact ⟨rfl, rfl, Value.renamed_rename hr hinj⟩

/-- The encoding of a dictionary with one key and a string of one byte. -/
theorem encodes_singleton {k l : Bytes} (hk : EncodesString k l) (c : UInt8) :
    Encodes (.dict [(k, .string [c])]) (Ascii.d :: ((l ++ ([49, 58, c] ++ [])) ++ [Ascii.e])) := by
  have hc : EncodesString [c] [49, 58, c] :=
    @EncodesString.mk _ [49] ⟨by simp, by simp [isDigit], by simp⟩ rfl
  exact .dict (List.Perm.refl _) (.cons hk (.string hc) .nil)

/-- The keys of `d1:a1:be` and of its renaming `d1:c1:be` are only data. -/
theorem parse_rename_iff_a : KeysAreData (fun _ => [99]) (.dict [([97], .string [98])])
    [100, 49, 58, 97, 49, 58, 98, 101] [100, 49, 58, 99, 49, 58, 98, 101]
    (fresh {}) (fresh {}) := by
  have hkey (x : UInt8) : EncodesString [x] [49, 58, x] :=
    @EncodesString.mk _ [49] ⟨by simp, by simp [isDigit], by simp⟩ rfl
  refine ((parse_rename_iff (r := fun _ => [99]) (v := .dict [([97], .string [98])])
    ⟨List.pairwise_singleton _ _, by decide, (by decide : 1 < 2^31), trivial⟩
    ⟨by simp, trivial, trivial⟩ (by simp [Value.keys, entriesKeys, Set.InjOn]) (by simp)
    (encodes_singleton (hkey 97) 98) (encodes_singleton (hkey 99) 98) _ _).2 (by decide)
    (by decide)).mpr ⟨?_, ?_⟩
  · exact ⟨fun h => absurd h (by decide), trivial, trivial⟩
  · exact ⟨fun h => absurd h (by decide), trivial, trivial⟩

/-- The key of `d1:a1:be` renamed to `length` makes the parse fail. -/
theorem not_parse_rename : ¬ ∀ (r : Bytes → Bytes) (v : Value) (e e' : Bytes) (s s' : State),
    v.InRange → v.NonEmpty → Set.InjOn r {k | k ∈ v.keys} →
    (∀ k ∈ v.keys, (r k).length < 2^31) → Encodes v e → Encodes (v.rename r) e' →
    KeysAreData r v e e' s s' := by
  intro h
  have hkey : EncodesString [97] [49, 58, 97] :=
    @EncodesString.mk _ [49] ⟨by simp, by simp [isDigit], by simp⟩ rfl
  have hlength : EncodesString lengthKey (54 :: 58 :: lengthKey) :=
    @EncodesString.mk _ [54] ⟨by simp, by simp [isDigit], by simp⟩ rfl
  have hdata := h (fun _ => lengthKey) (.dict [([97], .string [98])]) _ _ (fresh {}) (fresh {})
    ⟨List.pairwise_singleton _ _, by decide, (by decide : 1 < 2^31), trivial⟩
    ⟨by simp, trivial, trivial⟩ (by simp [Value.keys, entriesKeys, Set.InjOn])
    (by simp [lengthKey]) (encodes_singleton hkey 98) (encodes_singleton hlength 98)
  -- The renaming of the tree would be read, with a string under the key `length`.
  obtain ⟨u, hu⟩ := hdata.accepts.readsAs
  obtain ⟨u', hu'⟩ := (hdata.accepts_iff.mp hdata.accepts).readsAs
  obtain ⟨-, rfl, -⟩ := hdata.corresponds u u' hu hu'
  exact hu'.lengthsInteger.1 rfl

end Btor
