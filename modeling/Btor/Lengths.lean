import Btor.Value

/-!
# The collected length and the tree

`Value.lengths` is the sum of the integers under the keys `length` of all dictionaries of a tree.
The parser adds them up in the order of the input, those in a value before that of the entry itself;
where no dictionary repeats a key the total is that of the tree, modulo `2^64`, since the order does
not matter (`parse_lengths`).
-/

namespace Btor

open Lib (OrderedMap)

/-! ## The lengths of a tree -/

/-- The integer of a tree, where it is one. -/
def Value.int : Value → ℤ
  | .integer n => n
  | _ => 0

/-- What an entry adds to the lengths of its dictionary by its own key. -/
def ownLength (e : Bytes × Value) : ℤ := if e.1 = lengthKey then e.2.int else 0

mutual

/-- The sum of the integers under the keys `length` of all dictionaries of a tree. -/
def Value.lengths : Value → ℤ
  | .integer _ => 0
  | .string _ => 0
  | .list vs => valuesLengths vs
  | .dict es => pairsLengths es

/-- The sum over the items of a list. -/
def valuesLengths : List Value → ℤ
  | [] => 0
  | v :: vs => v.lengths + valuesLengths vs

/-- The sum over the entries of a dictionary. -/
def pairsLengths : List (Bytes × Value) → ℤ
  | [] => 0
  | (k, v) :: es => ownLength (k, v) + v.lengths + pairsLengths es

end

/-- The lengths of pairs are summed up over the pairs. -/
theorem pairsLengths_eq_sum (es : List (Bytes × Value)) :
    pairsLengths es = (es.map fun e => ownLength e + e.2.lengths).sum := by
  induction es with
  | nil => rfl
  | cons e es ih =>
    obtain ⟨k, v⟩ := e
    rw [pairsLengths, ih, List.map_cons, List.sum_cons]

mutual

/-- No dictionary of a value repeats a key. -/
def Parsed.NoRepeats : Parsed → Prop
  | .integer _ => True
  | .string _ => True
  | .list ts => ItemsNoRepeats ts
  | .dict es => (es.map (·.1.payload)).Nodup ∧ EntriesNoRepeats es

/-- No dictionary in the items of a list repeats a key. -/
def ItemsNoRepeats : List Parsed → Prop
  | [] => True
  | t :: ts => t.NoRepeats ∧ ItemsNoRepeats ts

/-- No dictionary in the values of a dictionary repeats a key. -/
def EntriesNoRepeats : List (Text × Parsed) → Prop
  | [] => True
  | (_, t) :: es => t.NoRepeats ∧ EntriesNoRepeats es

end

mutual

/-- Whether a key repeats is decided over the value. -/
instance Parsed.decidableNoRepeats : (t : Parsed) → Decidable t.NoRepeats
  | .integer _ => .isTrue trivial
  | .string _ => .isTrue trivial
  | .list ts => decidableItemsNoRepeats ts
  | .dict es =>
    have := decidableEntriesNoRepeats es
    inferInstanceAs (Decidable ((es.map (·.1.payload)).Nodup ∧ EntriesNoRepeats es))

/-- It is decided over the items. -/
instance decidableItemsNoRepeats : (ts : List Parsed) → Decidable (ItemsNoRepeats ts)
  | [] => .isTrue trivial
  | t :: ts =>
    have := t.decidableNoRepeats
    have := decidableItemsNoRepeats ts
    inferInstanceAs (Decidable (t.NoRepeats ∧ ItemsNoRepeats ts))

/-- It is decided over the entries. -/
instance decidableEntriesNoRepeats : (es : List (Text × Parsed)) → Decidable (EntriesNoRepeats es)
  | [] => .isTrue trivial
  | (_, t) :: es =>
    have := t.decidableNoRepeats
    have := decidableEntriesNoRepeats es
    inferInstanceAs (Decidable (t.NoRepeats ∧ EntriesNoRepeats es))

end

/-- The values of entries are those of each, with its key. -/
theorem entriesValues_eq_map (es : List (Text × Parsed)) :
    entriesValues es = es.map fun e => (e.1.payload, e.2.value) := by
  induction es with
  | nil => rfl
  | cons e es ih =>
    obtain ⟨k, t⟩ := e
    rw [entriesValues, ih, List.map_cons]

/-- Where no key is repeated, the tree of a dictionary has an entry for each one read. -/
theorem value_dict_perm {es : List (Text × Parsed)} (h : (es.map (·.1.payload)).Nodup) :
    (OrderedMap.empty.insertAll (entriesValues es)).entries.Perm (entriesValues es) := by
  refine OrderedMap.insertAll_empty_perm ?_
  rw [entriesValues_eq_map, List.map_map]
  exact h

/-- The integer of a value is that of its tree. -/
theorem Parsed.ofInt_value_int (t : Parsed) : Int64.ofInt t.value.int = t.intVal := by
  cases t with
  | integer body => exact Int64.ofInt_toInt _
  | string k => rfl
  | list ts => rfl
  | dict es => rfl

/-- An entry collects the length of its own. -/
theorem ofInt_ownLength (k : Text) (t : Parsed) :
    Int64.ofInt (ownLength (k.payload, t.value)) = entryLength k t := by
  unfold ownLength
  rw [entryLength]
  split_ifs
  · exact t.ofInt_value_int
  · rfl

mutual

/-- Where no dictionary repeats a key, the lengths of a value are those of its tree, modulo
`2^64`. -/
theorem Parsed.ofInt_lengths : ∀ {t : Parsed}, t.NoRepeats → Int64.ofInt t.value.lengths = t.lengths
  | .integer _, _ => rfl
  | .string _, _ => rfl
  | .list _, h => itemsValues_ofInt_lengths h
  | .dict es, h => by
    -- The map lists the entries in another order, and none is lost.
    have hsum : pairsLengths (OrderedMap.empty.insertAll (entriesValues es)).entries =
        pairsLengths (entriesValues es) := by
      rw [pairsLengths_eq_sum, pairsLengths_eq_sum]
      exact ((value_dict_perm h.1).map _).sum_eq
    rw [Parsed.value, Value.lengths, hsum, entriesValues_ofInt_lengths h.2, Parsed.lengths]

/-- The lengths collected of the items are those of their trees. -/
theorem itemsValues_ofInt_lengths : ∀ {ts : List Parsed}, ItemsNoRepeats ts →
    Int64.ofInt (valuesLengths (itemsValues ts)) = itemsLengths ts
  | [], _ => rfl
  | t :: ts, h => by
    rw [itemsValues, valuesLengths, Int64.ofInt_add, Parsed.ofInt_lengths h.1,
      itemsValues_ofInt_lengths h.2, itemsLengths]

/-- So are those collected of the entries. -/
theorem entriesValues_ofInt_lengths : ∀ {es : List (Text × Parsed)}, EntriesNoRepeats es →
    Int64.ofInt (pairsLengths (entriesValues es)) = entriesLengths es
  | [], _ => rfl
  | (k, t) :: es, h => by
    rw [entriesValues, pairsLengths, Int64.ofInt_add, Int64.ofInt_add, ofInt_ownLength,
      Parsed.ofInt_lengths h.1, entriesValues_ofInt_lengths h.2, entriesLengths]

end

/-! ## The collected length -/

/-- What a fresh parser has collected after it has returned. -/
theorem parse_collectedLength {buf : Bytes} {n : ℕ} {m : BMemoryManager} {p : Ptr} {s' : State}
    {t : Parsed} (ht : StartsWith buf t)
    (h : (parseBencodedString buf n).run (fresh m) = .returned p s') :
    s'.getCollectedLength = t.lengths := by
  obtain ⟨-, rfl⟩ := ht.of_returned h
  unfold BParser.getCollectedLength
  rw [t.replay_collectedLength]
  exact Int64.zero_add _

/-- The collected length is that of the returned tree, modulo `2^64`. -/
theorem parse_collectedLength_value {buf : Bytes} {n : ℕ} {m : BMemoryManager} {p : Ptr}
    {s' : State} {t : Parsed} (ht : StartsWith buf t) (hno : t.NoRepeats)
    (h : (parseBencodedString buf n).run (fresh m) = .returned p s') :
    s'.getCollectedLength.toInt ≡ t.value.lengths [ZMOD 2^64] := by
  rw [parse_collectedLength ht h, ← Parsed.ofInt_lengths hno, Int64.toInt_ofInt]
  exact Int.bmod_emod

/-! ## Integers under the key `length` -/

mutual

/-- Under every key `length` of the tree is an integer. -/
def Value.LengthsInteger : Value → Prop
  | .integer _ => True
  | .string _ => True
  | .list vs => ValuesLengthsInteger vs
  | .dict es => PairsLengthsInteger es

/-- Under every key `length` of the items of a list is an integer. -/
def ValuesLengthsInteger : List Value → Prop
  | [] => True
  | v :: vs => v.LengthsInteger ∧ ValuesLengthsInteger vs

/-- Under every key `length` of a dictionary and of its values is an integer. -/
def PairsLengthsInteger : List (Bytes × Value) → Prop
  | [] => True
  | (k, v) :: es => (k = lengthKey → v.IsInteger) ∧ v.LengthsInteger ∧ PairsLengthsInteger es

end

/-- The lengths of pairs are integers if those of each are. -/
theorem pairsLengthsInteger_iff {es : List (Bytes × Value)} : PairsLengthsInteger es ↔
    ∀ e ∈ es, (e.1 = lengthKey → e.2.IsInteger) ∧ e.2.LengthsInteger := by
  induction es with
  | nil => simp [PairsLengthsInteger]
  | cons e es ih =>
    obtain ⟨k, v⟩ := e
    rw [PairsLengthsInteger, List.forall_mem_cons, ← ih, and_assoc]

/-- The tree of an integer is one. -/
theorem Parsed.IsInteger.value {t : Parsed} (h : t.IsInteger) : t.value.IsInteger := by
  cases t with
  | integer body => trivial
  | string k => exact h
  | list ts => exact h
  | dict es => exact h

mutual

/-- The parser accepts nothing but integers under the key `length`. -/
theorem Parsed.Accepted.lengthsInteger : ∀ {t : Parsed}, t.Accepted → t.value.LengthsInteger
  | .integer _, _ => trivial
  | .string _, _ => trivial
  | .list _, h => ItemsAccepted.lengthsInteger h.2
  | .dict es, h => by
    have hes := pairsLengthsInteger_iff.mp (EntriesAccepted.lengthsInteger h.2)
    refine pairsLengthsInteger_iff.mpr fun e he => hes e ?_
    rcases OrderedMap.mem_insertAll he with hnil | he
    · cases hnil
    · exact he

/-- The lengths in accepted items are integers. -/
theorem ItemsAccepted.lengthsInteger : ∀ {ts : List Parsed}, ItemsAccepted ts →
    ValuesLengthsInteger (itemsValues ts)
  | [], _ => trivial
  | _ :: _, h => ⟨h.1.lengthsInteger, h.2.lengthsInteger⟩

/-- So are those in accepted entries. -/
theorem EntriesAccepted.lengthsInteger : ∀ {es : List (Text × Parsed)}, EntriesAccepted es →
    PairsLengthsInteger (entriesValues es)
  | [], _ => trivial
  | (_, _) :: _, h => ⟨fun hl => (h.2.2.1 hl).value, h.2.1.lengthsInteger, h.2.2.2.lengthsInteger⟩

end

/-! ## Permuted entries -/

mutual

/-- The values are the same but for the order of the entries of dictionaries, at every depth. -/
def Parsed.Permuted : Parsed → Parsed → Prop
  | .integer body, t' => t' = .integer body
  | .string k, t' => t' = .string k
  | .list ts, t' => ∃ ts', t' = .list ts' ∧ ItemsPermuted ts ts'
  | .dict es, t' => ∃ es₁ es₂, t' = .dict es₂ ∧ EntriesPermuted es es₁ ∧ es₁.Perm es₂

/-- The items of two lists are the same but for the order of the entries of dictionaries. -/
def ItemsPermuted : List Parsed → List Parsed → Prop
  | [], ts' => ts' = []
  | t :: ts, ts' => ∃ t₁ ts₁, ts' = t₁ :: ts₁ ∧ t.Permuted t₁ ∧ ItemsPermuted ts ts₁

/-- The entries have the same keys in the same order, and their values are the same but for the
order of the entries of dictionaries. -/
def EntriesPermuted : List (Text × Parsed) → List (Text × Parsed) → Prop
  | [], es' => es' = []
  | (k, t) :: es, es' => ∃ t₁ es₁, es' = (k, t₁) :: es₁ ∧ t.Permuted t₁ ∧ EntriesPermuted es es₁

end

/-- A permuted integer is the same integer. -/
theorem Parsed.Permuted.isInteger {t t' : Parsed} (h : t.Permuted t') (ht : t.IsInteger) :
    t' = t := by
  cases t with
  | integer body => exact h
  | string k => exact ht.elim
  | list ts => exact ht.elim
  | dict es => exact ht.elim

/-- A value that is no integer has none when permuted. -/
theorem Parsed.Permuted.intVal {t t' : Parsed} (h : t.Permuted t') : t'.intVal = t.intVal := by
  cases t with
  | integer body => rw [show t' = _ from h]
  | string k => rw [show t' = _ from h]
  | list ts =>
    obtain ⟨ts', rfl, -⟩ := h
    rfl
  | dict es =>
    obtain ⟨es₁, es₂, rfl, -⟩ := h
    rfl

/-- Entries are accepted if each is. -/
theorem entriesAccepted_iff {es : List (Text × Parsed)} : EntriesAccepted es ↔
    ∀ e ∈ es, e.1.Accepted ∧ e.2.Accepted ∧ (e.1.payload = lengthKey → e.2.IsInteger) := by
  induction es with
  | nil => simp [EntriesAccepted]
  | cons e es ih =>
    obtain ⟨k, t⟩ := e
    rw [EntriesAccepted, List.forall_mem_cons, ← ih]
    simp only [and_assoc]

mutual

/-- The parser accepts a value whatever the order of the entries. -/
theorem Parsed.Permuted.accepted : ∀ {t t' : Parsed}, t.Permuted t' → t.Accepted → t'.Accepted
  | .integer _, _, h, ht => by rwa [show _ = _ from h]
  | .string _, _, h, ht => by rwa [show _ = _ from h]
  | .list ts, _, ⟨ts', heq, hts⟩, ht => by
    subst heq
    refine ⟨?_, ItemsPermuted.accepted hts ht.2⟩
    rintro rfl
    cases ts with
    | nil => exact ht.1 rfl
    | cons t ts =>
      obtain ⟨t₁, ts₁, hnil, -⟩ := hts
      cases hnil
  | .dict es, _, ⟨es₁, es₂, heq, hes, hperm⟩, ht => by
    subst heq
    have hacc := entriesAccepted_iff.mp (EntriesPermuted.accepted hes ht.2)
    refine ⟨?_, entriesAccepted_iff.mpr fun e he => hacc e (hperm.mem_iff.mpr he)⟩
    rintro rfl
    -- No entries are a permutation of none only.
    obtain rfl := hperm.eq_nil
    cases es with
    | nil => exact ht.1 rfl
    | cons e es =>
      obtain ⟨k, t⟩ := e
      obtain ⟨t₁, es₁, hnil, -⟩ := hes
      cases hnil

/-- Permuted items are accepted with the others. -/
theorem ItemsPermuted.accepted : ∀ {ts ts' : List Parsed}, ItemsPermuted ts ts' →
    ItemsAccepted ts → ItemsAccepted ts'
  | [], _, h, _ => by
    rw [show _ = _ from h]
    trivial
  | _ :: _, _, ⟨_, _, heq, ht, hts⟩, h => by
    subst heq
    exact ⟨ht.accepted h.1, ItemsPermuted.accepted hts h.2⟩

/-- So are permuted entries. -/
theorem EntriesPermuted.accepted : ∀ {es es' : List (Text × Parsed)}, EntriesPermuted es es' →
    EntriesAccepted es → EntriesAccepted es'
  | [], _, h, _ => by
    rw [show _ = _ from h]
    trivial
  | (_, _) :: _, _, ⟨_, _, heq, ht, hes⟩, h => by
    subst heq
    refine ⟨h.1, ht.accepted h.2.1, fun hl => ?_, EntriesPermuted.accepted hes h.2.2.2⟩
    rw [ht.isInteger (h.2.2.1 hl)]
    exact h.2.2.1 hl

end

/-- The lengths of entries do not depend on their order. -/
theorem entriesLengths_perm {es es' : List (Text × Parsed)} (h : es.Perm es') :
    entriesLengths es = entriesLengths es' := by
  induction h with
  | nil => rfl
  | cons e _ ih =>
    obtain ⟨k, t⟩ := e
    rw [entriesLengths, entriesLengths, ih]
  | swap e e' es =>
    obtain ⟨k, t⟩ := e
    obtain ⟨k', t'⟩ := e'
    simp only [entriesLengths]
    ac_rfl
  | trans _ _ ih ih' => exact ih.trans ih'

mutual

/-- The lengths of a value do not depend on the order of the entries. -/
theorem Parsed.Permuted.lengths : ∀ {t t' : Parsed}, t.Permuted t' → t'.lengths = t.lengths
  | .integer _, _, h => by rw [show _ = _ from h]
  | .string _, _, h => by rw [show _ = _ from h]
  | .list _, _, ⟨_, heq, hts⟩ => by
    subst heq
    exact ItemsPermuted.lengths hts
  | .dict _, _, ⟨_, _, heq, hes, hperm⟩ => by
    subst heq
    rw [Parsed.lengths, Parsed.lengths, ← entriesLengths_perm hperm, EntriesPermuted.lengths hes]

/-- Permuted items have the same lengths. -/
theorem ItemsPermuted.lengths : ∀ {ts ts' : List Parsed}, ItemsPermuted ts ts' →
    itemsLengths ts' = itemsLengths ts
  | [], _, h => by rw [show _ = _ from h]
  | _ :: _, _, ⟨_, _, heq, ht, hts⟩ => by
    subst heq
    rw [itemsLengths, itemsLengths, ht.lengths, ItemsPermuted.lengths hts]

/-- So have permuted entries. -/
theorem EntriesPermuted.lengths : ∀ {es es' : List (Text × Parsed)}, EntriesPermuted es es' →
    entriesLengths es' = entriesLengths es
  | [], _, h => by rw [show _ = _ from h]
  | (k, t) :: _, _, ⟨t₁, _, heq, ht, hes⟩ => by
    subst heq
    -- The value keeps its integer, if it is one.
    have hown : entryLength k t₁ = entryLength k t := by rw [entryLength, entryLength, ht.intVal]
    rw [entriesLengths, entriesLengths, hown, ht.lengths, EntriesPermuted.lengths hes]

end

/-- Where no dictionary repeats a key, the length that a fresh parser collects is the sum over the
returned tree, modulo `2^64`, of the integers under the keys `length`, where there are only
integers. It stays the same if the entries of dictionaries are permuted in the input. -/
theorem parse_lengths {buf : Bytes} {n : ℕ} {m : BMemoryManager} {p : Ptr} {s' : State}
    {t : Parsed} (ht : StartsWith buf t) (hno : t.NoRepeats)
    (h : (parseBencodedString buf n).run (fresh m) = .returned p s') :
    (∃ v, Denotes s'.heap p v ∧ s'.getCollectedLength.toInt ≡ v.lengths [ZMOD 2^64] ∧
      v.LengthsInteger) ∧
    ∀ (t' : Parsed) (w : Bytes) (m' : BMemoryManager) (n' : ℕ), t.Permuted t' →
      (t'.bytes ++ w).length < 2^32 → 3 * t'.bytes.length ≤ n' → ∃ p'' s'',
        (parseBencodedString (t'.bytes ++ w) n').run (fresh m') = .returned p'' s'' ∧
        s''.getCollectedLength = s'.getCollectedLength := by
  have hlengths := parse_collectedLength_value ht hno h
  have htotal := parse_collectedLength ht h
  obtain ⟨rfl, rfl⟩ := ht.of_returned h
  refine ⟨⟨t.value, t.replay_denotes _, hlengths, ht.accepted.lengthsInteger⟩, ?_⟩
  intro t' w m' n' hperm hlen hn'
  have ht' : StartsWith (t'.bytes ++ w) t' := (hperm.accepted ht.accepted).startsWith hlen
  have hrun := parse_of_startsWith ht' hn' (fresh m')
  refine ⟨_, _, hrun, ?_⟩
  rw [htotal, parse_collectedLength ht' hrun, hperm.lengths]

/-- In `d1:ai1e6:lengthi7ee` the parser collects 7. -/
theorem parse_lengths_seven : ∃ p s',
    (parseBencodedString [100, 49, 58, 97, 105, 49, 101, 54, 58, 108, 101, 110, 103, 116, 104, 105,
      55, 101, 101] 57).run (fresh {}) = .returned p s' ∧
    ∃ v, Denotes s'.heap p v ∧ s'.getCollectedLength.toInt ≡ v.lengths [ZMOD 2^64] ∧
      v.LengthsInteger := by
  have ht : StartsWith [100, 49, 58, 97, 105, 49, 101, 54, 58, 108, 101, 110, 103, 116, 104, 105,
      55, 101, 101]
      (.dict [(⟨[49], [97]⟩, .integer [49]), (⟨[54], lengthKey⟩, .integer [55])]) := by
    decide +kernel
  have hno : (Parsed.dict [(⟨[49], [97]⟩, .integer [49]),
      (⟨[54], lengthKey⟩, .integer [55])]).NoRepeats := by
    decide
  have h := parse_of_startsWith ht (n := 57) (by decide) (fresh {})
  exact ⟨_, _, h, (parse_lengths ht hno h).1⟩

end Btor
