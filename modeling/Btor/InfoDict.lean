import Btor.Capture

/-!
# The value of the key `info`

`Parsed.slots` lists the entries of all dictionaries in a value, with the offset in the buffer at
which the entry's value starts. Where exactly one of them has the key `info`, wherever it is, a
fresh parser collects the bytes of its value (`parse_infoDict`). Parsing these bytes again yields
the tree under the key `info` of the dictionary that the first parse created for the entry.
-/

namespace Btor

open Lib (OrderedMap)

/-! ## The entries of a value -/

/-- An entry of a dictionary: its key, the offset of its value's first byte, and its value. -/
structure Slot where
  key : Bytes
  offset : ℕ
  value : Parsed

mutual

/-- The entries of all dictionaries in a value whose first byte is at `off`. -/
def Parsed.slots : Parsed → ℕ → List Slot
  | .integer _, _ => []
  | .string _, _ => []
  | .list ts, off => itemsSlots ts (off + 1)
  | .dict es, off => entriesSlots es (off + 1)

/-- The entries of all dictionaries in the items of a list. -/
def itemsSlots : List Parsed → ℕ → List Slot
  | [], _ => []
  | t :: ts, off => t.slots off ++ itemsSlots ts (off + t.bytes.length)

/-- The entries of a dictionary, and of all dictionaries in their values. -/
def entriesSlots : List (Text × Parsed) → ℕ → List Slot
  | [], _ => []
  | (k, t) :: es, off =>
    ⟨k.payload, off + k.bytes.length, t⟩ ::
      (t.slots (off + k.bytes.length) ++ entriesSlots es (off + k.bytes.length + t.bytes.length))

end

/-- The slot's key is `info`. -/
def Slot.isInfo (slot : Slot) : Bool := slot.key = infoKey

mutual

/-- The slots of key `info` are as many as there are keys `info`. -/
theorem Parsed.countP_slots : ∀ (t : Parsed) (off : ℕ),
    (t.slots off).countP Slot.isInfo = t.infos
  | .integer _, _ => rfl
  | .string _, _ => rfl
  | .list ts, off => itemsSlots_countP ts (off + 1)
  | .dict es, off => entriesSlots_countP es (off + 1)

/-- The info values among the items are counted by their keys. -/
theorem itemsSlots_countP : ∀ (ts : List Parsed) (off : ℕ),
    (itemsSlots ts off).countP Slot.isInfo = itemsInfos ts
  | [], _ => rfl
  | t :: ts, off => by
    rw [itemsSlots, List.countP_append, t.countP_slots, itemsSlots_countP ts, itemsInfos]

/-- So are those among the entries. -/
theorem entriesSlots_countP : ∀ (es : List (Text × Parsed)) (off : ℕ),
    (entriesSlots es off).countP Slot.isInfo = entriesInfos es
  | [], _ => rfl
  | (k, t) :: es, off => by
    rw [entriesSlots, List.countP_cons, List.countP_append, t.countP_slots,
      entriesSlots_countP es, entriesInfos]
    simp only [Slot.isInfo, decide_eq_true_eq]
    omega

end

/-- No slot has the key `info` exactly if no key is `info`. -/
theorem filter_isInfo_eq_nil {l : List Slot} :
    l.filter Slot.isInfo = [] ↔ l.countP Slot.isInfo = 0 := by
  rw [List.countP_eq_length_filter, List.length_eq_zero_iff]

mutual

/-- The values in an accepted value are accepted. -/
theorem Parsed.slots_accepted : ∀ {t : Parsed} {off : ℕ} {slot : Slot}, t.Accepted →
    slot ∈ t.slots off → slot.value.Accepted
  | .integer _, _, _, _, h => by cases h
  | .string _, _, _, _, h => by cases h
  | .list _, _, _, ht, h => itemsSlots_accepted ht.2 h
  | .dict _, _, _, ht, h => entriesSlots_accepted ht.2 h

/-- The value of an entry among accepted items is accepted. -/
theorem itemsSlots_accepted : ∀ {ts : List Parsed} {off : ℕ} {slot : Slot}, ItemsAccepted ts →
    slot ∈ itemsSlots ts off → slot.value.Accepted
  | [], _, _, _, h => by cases h
  | t :: ts, _, _, hts, h => by
    rcases List.mem_append.mp h with h | h
    · exact Parsed.slots_accepted hts.1 h
    · exact itemsSlots_accepted hts.2 h

/-- So is that of an entry among accepted entries. -/
theorem entriesSlots_accepted : ∀ {es : List (Text × Parsed)} {off : ℕ} {slot : Slot},
    EntriesAccepted es → slot ∈ entriesSlots es off → slot.value.Accepted
  | [], _, _, _, h => by cases h
  | (k, t) :: es, _, _, hes, h => by
    rcases List.mem_cons.mp h with rfl | h
    · exact hes.2.1
    rcases List.mem_append.mp h with h | h
    · exact Parsed.slots_accepted hes.2.1 h
    · exact entriesSlots_accepted hes.2.2.2 h

end

section

variable {buf : Bytes}

mutual

/-- A slot's value stands at its offset. -/
theorem Parsed.slots_bytes : ∀ {t : Parsed} {off : ℕ} {slot : Slot}, t.bytes <+: buf.drop off →
    slot ∈ t.slots off → slot.value.bytes <+: buf.drop slot.offset
  | .integer _, _, _, _, h => by cases h
  | .string _, _, _, _, h => by cases h
  | .list ts, off, slot, ht, h => by
    obtain ⟨-, hrest⟩ := append_isPrefix_drop (l := [Ascii.l]) ht
    exact itemsSlots_bytes (append_isPrefix_drop hrest).1 h
  | .dict es, off, slot, ht, h => by
    obtain ⟨-, hrest⟩ := append_isPrefix_drop (l := [Ascii.d]) ht
    exact entriesSlots_bytes (append_isPrefix_drop hrest).1 h

/-- The value of an entry among the items is at its offset. -/
theorem itemsSlots_bytes : ∀ {ts : List Parsed} {off : ℕ} {slot : Slot},
    itemsBytes ts <+: buf.drop off → slot ∈ itemsSlots ts off →
    slot.value.bytes <+: buf.drop slot.offset
  | [], _, _, _, h => by cases h
  | t :: ts, off, slot, hts, h => by
    obtain ⟨hfirst, hrest⟩ := append_isPrefix_drop hts
    rcases List.mem_append.mp h with h | h
    · exact Parsed.slots_bytes hfirst h
    · exact itemsSlots_bytes hrest h

/-- So is that of an entry among the entries. -/
theorem entriesSlots_bytes : ∀ {es : List (Text × Parsed)} {off : ℕ} {slot : Slot},
    entriesBytes es <+: buf.drop off → slot ∈ entriesSlots es off →
    slot.value.bytes <+: buf.drop slot.offset
  | [], _, _, _, h => by cases h
  | (k, t) :: es, off, slot, hes, h => by
    obtain ⟨-, hrest⟩ := append_isPrefix_drop hes
    obtain ⟨hfirst, hrest⟩ := append_isPrefix_drop hrest
    rcases List.mem_cons.mp h with rfl | h
    · exact hfirst
    rcases List.mem_append.mp h with h | h
    · exact Parsed.slots_bytes hfirst h
    · exact entriesSlots_bytes hrest h

end

end

/-! ## What the flag keeps -/

mutual

/-- Where one slot has the key `info`, its value's tokens are kept. -/
theorem Parsed.kept_of_slots : ∀ {t : Parsed} {off : ℕ} {slot : Slot},
    (t.slots off).filter Slot.isInfo = [slot] → t.kept false = slot.value.tokens
  | .integer _, _, _, h => by cases h
  | .string _, _, _, h => by cases h
  | .list ts, off, slot, h => by
    have hts : itemsKept false ts = slot.value.tokens := itemsKept_of_slots h
    simp [Parsed.kept, hts]
  | .dict es, off, slot, h => by
    have hes : entriesKept false es = slot.value.tokens := entriesKept_of_slots h
    simp [Parsed.kept, hes]

/-- If there is one info value among the items, its tokens are kept. -/
theorem itemsKept_of_slots : ∀ {ts : List Parsed} {off : ℕ} {slot : Slot},
    (itemsSlots ts off).filter Slot.isInfo = [slot] → itemsKept false ts = slot.value.tokens
  | [], _, _, h => by cases h
  | t :: ts, off, slot, h => by
    rw [itemsSlots, List.filter_append] at h
    rw [itemsKept, Bool.false_and]
    -- The slot is in the first item or in the others; the rest keeps nothing.
    rcases List.append_eq_singleton_iff.mp h with ⟨ht, hts⟩ | ⟨ht, hts⟩
    · rw [filter_isInfo_eq_nil, t.countP_slots] at ht
      rw [Parsed.kept_false ht, itemsKept_of_slots hts, List.nil_append]
    · rw [filter_isInfo_eq_nil, itemsSlots_countP] at hts
      rw [Parsed.kept_of_slots ht, itemsKept_false hts, List.append_nil]

/-- So they are if it is among the entries. -/
theorem entriesKept_of_slots : ∀ {es : List (Text × Parsed)} {off : ℕ} {slot : Slot},
    (entriesSlots es off).filter Slot.isInfo = [slot] → entriesKept false es = slot.value.tokens
  | [], _, _, h => by cases h
  | (k, t) :: es, off, slot, h => by
    rw [entriesSlots] at h
    by_cases hk : k.payload = infoKey
    · -- This is the one key `info`, so there is none in its value or after it.
      rw [List.filter_cons_of_pos (by simp [Slot.isInfo, hk]), List.filter_append] at h
      obtain ⟨rfl, hrest⟩ := List.cons.inj h
      obtain ⟨ht, hes⟩ := List.append_eq_nil_iff.mp hrest
      rw [filter_isInfo_eq_nil, t.countP_slots] at ht
      rw [filter_isInfo_eq_nil, entriesSlots_countP] at hes
      rw [entriesKept, if_pos hk, Parsed.kept_of_infos ht, entriesKept_false hes]
      simp
    · rw [List.filter_cons_of_neg (by simp [Slot.isInfo, hk]), List.filter_append] at h
      rw [entriesKept, if_neg hk, keep_false, List.nil_append, Bool.false_and]
      -- It is in this entry's value or in the other entries.
      rcases List.append_eq_singleton_iff.mp h with ⟨ht, hes⟩ | ⟨ht, hes⟩
      · rw [filter_isInfo_eq_nil, t.countP_slots] at ht
        rw [Parsed.kept_false ht, entriesKept_of_slots hes, List.nil_append]
      · rw [filter_isInfo_eq_nil, entriesSlots_countP] at hes
        rw [Parsed.kept_of_slots ht, entriesKept_false hes, List.append_nil]

end

/-! ## The entries in the heap -/

/-- An entry of the map that the parser fills is one that it read, and points to its value. -/
theorem entryPtrs_slots : ∀ {es : List (Text × Parsed)} {heap : List BObject} {base : Ptr}
    {k : Bytes} {q : Ptr} (off : ℕ), entriesLayout es base <+: heap.drop base →
    (k, q) ∈ entryPtrs es base →
    ∃ slot ∈ entriesSlots es off, slot.key = k ∧ Denotes heap q slot.value.value
  | [], _, _, _, _, _, _, h => by cases h
  | (k', t) :: es, heap, base, k, q, off, hlayout, h => by
    obtain ⟨hfirst, hrest⟩ := append_isPrefix_drop hlayout
    rw [t.layout_length] at hrest
    rcases List.mem_cons.mp h with heq | h
    · obtain ⟨rfl, rfl⟩ := Prod.mk.inj heq
      exact ⟨_, List.mem_cons_self, rfl, t.layout_denotes hfirst⟩
    · obtain ⟨slot, hslot, hk, hv⟩ :=
        entryPtrs_slots (off + k'.bytes.length + t.bytes.length) hrest h
      exact ⟨slot, List.mem_cons_of_mem _ (List.mem_append_right _ hslot), hk, hv⟩

/-- What `getByKey` finds in a dictionary that the parser filled. -/
theorem getByKey_eq_ok {obj : BObject} {k : Bytes} {q : Ptr} :
    obj.getByKey k = .ok q ↔ obj.type = .bDict ∧ (k, q) ∈ obj.dictVal.entries := by
  rw [BObject.getByKey, ← OrderedMap.get?_eq_some]
  split_ifs with h
  · simp [h]
  · cases hget : obj.dictVal.get? k <;> simp [not_not.mp h]

mutual

/-- Under a key of a dictionary in the heap is the tree of an entry of that key. -/
theorem Parsed.layout_slots : ∀ {t : Parsed} {heap : List BObject} {base : Ptr} {obj : BObject}
    {k : Bytes} {q : Ptr} (off : ℕ), t.layout base <+: heap.drop base → obj ∈ t.layout base →
    obj.getByKey k = .ok q →
    ∃ slot ∈ t.slots off, slot.key = k ∧ Denotes heap q slot.value.value
  | .integer _, _, _, _, _, _, _, _, hobj, h => by
    obtain rfl := List.mem_singleton.mp hobj
    exact absurd (getByKey_eq_ok.mp h).1 (by simp [BObject.ofInt])
  | .string _, _, _, _, _, _, _, _, hobj, h => by
    obtain rfl := List.mem_singleton.mp hobj
    exact absurd (getByKey_eq_ok.mp h).1 (by simp [BObject.ofString])
  | .list ts, heap, base, obj, k, q, off, hlayout, hobj, h => by
    rcases List.mem_cons.mp hobj with rfl | hobj
    · exact absurd (getByKey_eq_ok.mp h).1 (by simp)
    · exact itemsLayout_slots (off + 1) (layout_cons hlayout).2 hobj h
  | .dict es, heap, base, obj, k, q, off, hlayout, hobj, h => by
    obtain ⟨-, hrest⟩ := layout_cons hlayout
    rcases List.mem_cons.mp hobj with rfl | hobj
    · have hmem := (getByKey_eq_ok.mp h).2
      -- The map holds only entries that were read, so this one has a slot.
      rcases OrderedMap.mem_insertAll hmem with hnil | hmem
      · cases hnil
      · exact entryPtrs_slots (off + 1) hrest hmem
    · exact entriesLayout_slots (off + 1) hrest hobj h

/-- What an object among the items has for a key is the value of an entry. -/
theorem itemsLayout_slots : ∀ {ts : List Parsed} {heap : List BObject} {base : Ptr}
    {obj : BObject} {k : Bytes} {q : Ptr} (off : ℕ), itemsLayout ts base <+: heap.drop base →
    obj ∈ itemsLayout ts base → obj.getByKey k = .ok q →
    ∃ slot ∈ itemsSlots ts off, slot.key = k ∧ Denotes heap q slot.value.value
  | [], _, _, _, _, _, _, _, hobj, _ => by cases hobj
  | t :: ts, heap, base, obj, k, q, off, hlayout, hobj, h => by
    obtain ⟨hfirst, hrest⟩ := append_isPrefix_drop hlayout
    rw [t.layout_length] at hrest
    rcases List.mem_append.mp hobj with hobj | hobj
    · obtain ⟨slot, hslot, hk⟩ := Parsed.layout_slots off hfirst hobj h
      exact ⟨slot, List.mem_append_left _ hslot, hk⟩
    · obtain ⟨slot, hslot, hk⟩ := itemsLayout_slots (off + t.bytes.length) hrest hobj h
      exact ⟨slot, List.mem_append_right _ hslot, hk⟩

/-- So is what an object among the values has. -/
theorem entriesLayout_slots : ∀ {es : List (Text × Parsed)} {heap : List BObject} {base : Ptr}
    {obj : BObject} {k : Bytes} {q : Ptr} (off : ℕ), entriesLayout es base <+: heap.drop base →
    obj ∈ entriesLayout es base → obj.getByKey k = .ok q →
    ∃ slot ∈ entriesSlots es off, slot.key = k ∧ Denotes heap q slot.value.value
  | [], _, _, _, _, _, _, _, hobj, _ => by cases hobj
  | (k', t) :: es, heap, base, obj, k, q, off, hlayout, hobj, h => by
    obtain ⟨hfirst, hrest⟩ := append_isPrefix_drop hlayout
    rw [t.layout_length] at hrest
    rcases List.mem_append.mp hobj with hobj | hobj
    · obtain ⟨slot, hslot, hk⟩ := Parsed.layout_slots (off + k'.bytes.length) hfirst hobj h
      exact ⟨slot, List.mem_cons_of_mem _ (List.mem_append_left _ hslot), hk⟩
    · obtain ⟨slot, hslot, hk⟩ :=
        entriesLayout_slots (off + k'.bytes.length + t.bytes.length) hrest hobj h
      exact ⟨slot, List.mem_cons_of_mem _ (List.mem_append_right _ hslot), hk⟩

end

/-- Each key that was read is in the map that the parser fills. -/
theorem slots_entryPtrs : ∀ {es : List (Text × Parsed)} {k : Text} {t : Parsed} (base : Ptr),
    (k, t) ∈ es → ∃ q, (k.payload, q) ∈ entryPtrs es base
  | [], _, _, _, h => by cases h
  | (k', t') :: es, k, t, base, h => by
    rcases List.mem_cons.mp h with heq | h
    · obtain ⟨rfl, rfl⟩ := Prod.mk.inj heq
      exact ⟨base, List.mem_cons_self⟩
    · obtain ⟨q, hq⟩ := slots_entryPtrs (base + t'.nodes) h
      exact ⟨q, List.mem_cons_of_mem _ hq⟩

mutual

/-- For every slot there is a dictionary in the heap with its key. -/
theorem Parsed.slots_layout : ∀ {t : Parsed} {off : ℕ} {slot : Slot} (base : Ptr),
    slot ∈ t.slots off → ∃ obj ∈ t.layout base, ∃ q, obj.getByKey slot.key = .ok q
  | .integer _, _, _, _, h => by cases h
  | .string _, _, _, _, h => by cases h
  | .list ts, off, slot, base, h => by
    obtain ⟨obj, hobj, q, hq⟩ := itemsSlots_layout (base + 1) h
    exact ⟨obj, List.mem_cons_of_mem _ hobj, q, hq⟩
  | .dict es, off, slot, base, h => by
    rcases entriesSlots_layout (base + 1) h with ⟨k, t, hmem, hk⟩ | ⟨obj, hobj, q, hq⟩
    · obtain ⟨q, hq⟩ := slots_entryPtrs (base + 1) hmem
      obtain ⟨q', hq'⟩ := OrderedMap.exists_mem_insertAll (m := OrderedMap.empty) (.inr ⟨q, hq⟩)
      exact ⟨_, List.mem_cons_self, q', getByKey_eq_ok.mpr ⟨rfl, hk ▸ hq'⟩⟩
    · exact ⟨obj, List.mem_cons_of_mem _ hobj, q, hq⟩

/-- An entry among the items has an object with its key. -/
theorem itemsSlots_layout : ∀ {ts : List Parsed} {off : ℕ} {slot : Slot} (base : Ptr),
    slot ∈ itemsSlots ts off → ∃ obj ∈ itemsLayout ts base, ∃ q, obj.getByKey slot.key = .ok q
  | [], _, _, _, h => by cases h
  | t :: ts, off, slot, base, h => by
    rcases List.mem_append.mp h with h | h
    · obtain ⟨obj, hobj, q, hq⟩ := Parsed.slots_layout base h
      exact ⟨obj, List.mem_append_left _ hobj, q, hq⟩
    · obtain ⟨obj, hobj, q, hq⟩ := itemsSlots_layout (base + t.nodes) h
      exact ⟨obj, List.mem_append_right _ hobj, q, hq⟩

/-- An entry is one of these entries, or has an object with its key among the values. -/
theorem entriesSlots_layout : ∀ {es : List (Text × Parsed)} {off : ℕ} {slot : Slot} (base : Ptr),
    slot ∈ entriesSlots es off →
    (∃ k t, (k, t) ∈ es ∧ slot.key = k.payload) ∨
    ∃ obj ∈ entriesLayout es base, ∃ q, obj.getByKey slot.key = .ok q
  | [], _, _, _, h => by cases h
  | (k, t) :: es, off, slot, base, h => by
    rcases List.mem_cons.mp h with rfl | h
    · exact .inl ⟨k, t, List.mem_cons_self, rfl⟩
    rcases List.mem_append.mp h with h | h
    · obtain ⟨obj, hobj, q, hq⟩ := Parsed.slots_layout base h
      exact .inr ⟨obj, List.mem_append_left _ hobj, q, hq⟩
    · rcases entriesSlots_layout (base + t.nodes) h with ⟨k', t', hmem, hk⟩ | ⟨obj, hobj, q, hq⟩
      · exact .inl ⟨k', t', List.mem_cons_of_mem _ hmem, hk⟩
      · exact .inr ⟨obj, List.mem_append_right _ hobj, q, hq⟩

end

/-! ## The collected bytes -/

/-- Where exactly one entry of the buffer has the key `info`, wherever it is, a fresh parser
collects the slice of the buffer that the entry's value stands in. Another fresh parser reads all of
it, and its tree is the one under the key `info` of the dictionary created for that entry. -/
theorem parse_infoDict {buf : Bytes} (hbuf : buf.length < 2^32) {m : BMemoryManager} {n : ℕ}
    {p : Ptr} {s' : State} (h : (parseBencodedString buf n).run (fresh m) = .returned p s')
    {t : Parsed} (ht : StartsWith buf t) {slot : Slot}
    (hslot : (t.slots 0).filter Slot.isInfo = [slot]) :
    s'.getCollectedInfoDict = (buf.drop slot.offset).take slot.value.bytes.length ∧
    s'.getCollectedInfoDict = slot.value.bytes ∧
    (∃ obj ∈ s'.heap.drop m.heap.length, ∃ q, obj.getByKey infoKey = .ok q) ∧
    ∀ (m' : BMemoryManager) (n' : ℕ), 3 * buf.length ≤ n' → ∃ p'' s'',
      (parseBencodedString s'.getCollectedInfoDict n').run (fresh m') = .returned p'' s'' ∧
      s''.cursor.toNat = s'.getCollectedInfoDict.length ∧
      ∀ obj ∈ s'.heap.drop m.heap.length, ∀ q, obj.getByKey infoKey = .ok q →
        ∃ v, Denotes s'.heap q v ∧ Denotes s''.heap p'' v := by
  have hmem : slot ∈ (t.slots 0).filter Slot.isInfo := by simp [hslot]
  obtain ⟨hslots, hinfo⟩ := List.mem_filter.mp hmem
  have hkey : slot.key = infoKey := by simpa [Slot.isInfo] using hinfo
  have hcollected : s'.getCollectedInfoDict = slot.value.bytes := by
    rw [parse_kept ht h, Parsed.kept_of_slots hslot, slot.value.flatMap_tokens]
  -- The value stands at its offset.
  have hpre : slot.value.bytes <+: buf.drop slot.offset :=
    Parsed.slots_bytes (ht.isPrefix hbuf) hslots
  have hle : slot.value.bytes.length ≤ buf.length := by
    have hlen := hpre.length_le
    rw [List.length_drop] at hlen
    omega
  -- The objects of the parse are those of the value read.
  obtain ⟨-, rfl⟩ := ht.of_returned h
  have hdrop : (t.replay (fresh m).rewind).heap.drop m.heap.length = t.layout m.heap.length :=
    t.replay_drop (fresh m).rewind
  refine ⟨hcollected.trans (List.prefix_iff_eq_take.mp hpre), hcollected, ?_, ?_⟩
  · rw [hdrop, ← hkey]
    exact Parsed.slots_layout _ hslots
  · intro m' n' hn'
    rw [hcollected]
    have hacc : slot.value.Accepted := Parsed.slots_accepted ht.accepted hslots
    have hstart : StartsWith slot.value.bytes slot.value := by
      simpa using hacc.startsWith (w := []) (by simp; omega)
    refine ⟨_, _, parse_of_startsWith hstart (by omega) (fresh m'),
      slot.value.replay_rewind_cursor _ (by omega), ?_⟩
    intro obj hobj q hq
    rw [hdrop] at hobj
    -- The object under the key comes from a slot of that key, and there is only one.
    obtain ⟨slot', hslot', hk, hv⟩ := Parsed.layout_slots 0 (by rw [hdrop]) hobj hq
    have hmem' : slot' ∈ (t.slots 0).filter Slot.isInfo :=
      List.mem_filter.mpr ⟨hslot', by simp [Slot.isInfo, hk]⟩
    rw [hslot] at hmem'
    obtain rfl := List.mem_singleton.mp hmem'
    exact ⟨_, hv, slot'.value.replay_denotes _⟩

/-- In `d1:ad4:infoi7eee` the one entry of key `info` is not in the root. -/
theorem parse_infoDict_nested : ∃ p s',
    (parseBencodedString [100, 49, 58, 97, 100, 52, 58, 105, 110, 102, 111, 105, 55, 101, 101, 101]
      48).run (fresh {}) = .returned p s' ∧ s'.getCollectedInfoDict = [105, 55, 101] := by
  have ht : StartsWith
      [100, 49, 58, 97, 100, 52, 58, 105, 110, 102, 111, 105, 55, 101, 101, 101]
      (.dict [(⟨[49], [97]⟩, .dict [(⟨[52], infoKey⟩, .integer [55])])]) := by
    decide +kernel
  have h := parse_of_startsWith ht (n := 48) (by decide) (fresh {})
  have hslot : (Parsed.slots (.dict [(⟨[49], [97]⟩, .dict [(⟨[52], infoKey⟩, .integer [55])])])
      0).filter Slot.isInfo = [⟨infoKey, 11, .integer [55]⟩] := rfl
  exact ⟨_, _, h, (parse_infoDict (by decide) h ht hslot).1⟩

end Btor
