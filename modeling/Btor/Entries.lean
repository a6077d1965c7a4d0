import Btor.InfoDict

/-!
# The entries of a dictionary that are kept

`std::map::insert` leaves an entry alone whose key is there, and `addKeyValue` does not look at what
it returns. So a dictionary in the heap has one entry for each key that was read between its `d` and
its `e`, with the value that was read first under the key. No entry is lost exactly if no key is
repeated (`parse_entries`), and a repeated key does not make the parser throw.
-/

namespace Btor

open Lib (OrderedMap)

mutual

/-- The dictionaries of a value whose first object is at `base`, each with its address and with the
entries that were read for it. -/
def Parsed.dicts : Parsed → Ptr → List (Ptr × List (Text × Parsed))
  | .integer _, _ => []
  | .string _, _ => []
  | .list ts, base => itemsDicts ts (base + 1)
  | .dict es, base => (base, es) :: entriesDicts es (base + 1)

/-- The dictionaries among the items of a list, with the objects made for them. -/
def itemsDicts : List Parsed → Ptr → List (Ptr × List (Text × Parsed))
  | [], _ => []
  | t :: ts, base => t.dicts base ++ itemsDicts ts (base + t.nodes)

/-- The dictionaries among the values of a dictionary. -/
def entriesDicts : List (Text × Parsed) → Ptr → List (Ptr × List (Text × Parsed))
  | [], _ => []
  | (_, t) :: es, base => t.dicts base ++ entriesDicts es (base + t.nodes)

end

/-- The dictionary that the parser fills with the entries `es` stands at `base` in the heap, with
the objects of its values after it. -/
structure FilledAt (heap : List BObject) (base : Ptr) (es : List (Text × Parsed)) : Prop where
  /-- The map is what the insertion of the entries, in order, makes of the empty one. -/
  obj : heap[base]? =
    some { type := .bDict, dictVal := OrderedMap.empty.insertAll (entryPtrs es (base + 1)) }
  /-- The values follow the dictionary. -/
  values : entriesLayout es (base + 1) <+: heap.drop (base + 1)

section

variable {heap : List BObject}

mutual

/-- Each dictionary of a value is in the heap where the value's objects are. -/
theorem Parsed.filledAt : ∀ {t : Parsed} {base : Ptr} {d : Ptr × List (Text × Parsed)},
    t.layout base <+: heap.drop base → d ∈ t.dicts base → FilledAt heap d.1 d.2
  | .integer _, _, _, _, hd => by cases hd
  | .string _, _, _, _, hd => by cases hd
  | .list _, _, _, hlayout, hd => itemsFilledAt (layout_cons hlayout).2 hd
  | .dict _, _, _, hlayout, hd => by
    obtain ⟨hobj, hrest⟩ := layout_cons hlayout
    rcases List.mem_cons.mp hd with rfl | hd
    · exact ⟨hobj, hrest⟩
    · exact entriesFilledAt hrest hd

/-- The dictionaries among the items are filled. -/
theorem itemsFilledAt : ∀ {ts : List Parsed} {base : Ptr} {d : Ptr × List (Text × Parsed)},
    itemsLayout ts base <+: heap.drop base → d ∈ itemsDicts ts base → FilledAt heap d.1 d.2
  | [], _, _, _, hd => by cases hd
  | t :: _, _, _, hlayout, hd => by
    obtain ⟨hfirst, hrest⟩ := append_isPrefix_drop hlayout
    rw [t.layout_length] at hrest
    rcases List.mem_append.mp hd with hd | hd
    · exact Parsed.filledAt hfirst hd
    · exact itemsFilledAt hrest hd

/-- So are those among the values of entries. -/
theorem entriesFilledAt : ∀ {es : List (Text × Parsed)} {base : Ptr}
    {d : Ptr × List (Text × Parsed)}, entriesLayout es base <+: heap.drop base →
    d ∈ entriesDicts es base → FilledAt heap d.1 d.2
  | [], _, _, _, hd => by cases hd
  | (_, t) :: _, _, _, hlayout, hd => by
    obtain ⟨hfirst, hrest⟩ := append_isPrefix_drop hlayout
    rw [t.layout_length] at hrest
    rcases List.mem_append.mp hd with hd | hd
    · exact Parsed.filledAt hfirst hd
    · exact entriesFilledAt hrest hd

end

end

/-- The keys of the pointers are those that were read. -/
theorem entryPtrs_keys (es : List (Text × Parsed)) (base : Ptr) :
    (entryPtrs es base).map (·.1) = es.map (·.1.payload) := by
  induction es generalizing base with
  | nil => rfl
  | cons e es ih =>
    obtain ⟨k, t⟩ := e
    rw [entryPtrs, List.map_cons, ih, List.map_cons]

/-- The pointers of a list of entries in two parts. -/
theorem entryPtrs_append (es es' : List (Text × Parsed)) (base : Ptr) :
    entryPtrs (es ++ es') base = entryPtrs es base ++ entryPtrs es' (base + entriesNodes es) := by
  induction es generalizing base with
  | nil => simp [entryPtrs, entriesNodes]
  | cons e es ih =>
    obtain ⟨k, t⟩ := e
    rw [List.cons_append, entryPtrs, ih, entryPtrs, entriesNodes, List.cons_append, Nat.add_assoc]

/-- The objects of a list of entries in two parts. -/
theorem entriesLayout_append (es es' : List (Text × Parsed)) (base : Ptr) :
    entriesLayout (es ++ es') base =
      entriesLayout es base ++ entriesLayout es' (base + entriesNodes es) := by
  induction es generalizing base with
  | nil => simp [entriesLayout, entriesNodes]
  | cons e es ih =>
    obtain ⟨k, t⟩ := e
    rw [List.cons_append, entriesLayout, ih, entriesLayout, entriesNodes, List.append_assoc,
      Nat.add_assoc]

section

variable {heap : List BObject} {base : Ptr} {es : List (Text × Parsed)}

/-- A dictionary has an entry for each key that was read. -/
theorem length_entries_insertAll (es : List (Text × Parsed)) (base : Ptr) :
    (OrderedMap.empty.insertAll (entryPtrs es base)).entries.length =
      (es.map (·.1.payload)).dedup.length := by
  rw [← entryPtrs_keys es base, ← (OrderedMap.keys_insertAll_perm _).length_eq, List.length_map]

/-- A list without repetitions is as long as without them. -/
theorem length_dedup_eq_iff {α : Type} [DecidableEq α] (l : List α) :
    l.dedup.length = l.length ↔ l.Nodup := by
  rw [← List.dedup_eq_self]
  exact ⟨fun h => (List.dedup_sublist l).eq_of_length h, fun h => by rw [h]⟩

/-- The key of an entry that was read is found, and the value of the first entry of the key is what
is found under it. -/
theorem FilledAt.getByKey {k : Text} {u : Parsed} {es₁ es₂ : List (Text × Parsed)}
    (h : FilledAt heap base (es₁ ++ (k, u) :: es₂)) (hfirst : ∀ e ∈ es₁, e.1.payload ≠ k.payload) :
    ∃ obj q, heap[base]? = some obj ∧ obj.getByKey k.payload = .ok q ∧ Denotes heap q u.value := by
  refine ⟨_, base + 1 + entriesNodes es₁, h.obj, getByKey_eq_ok.mpr ⟨rfl, ?_⟩, ?_⟩
  · -- Its pointer is the first of this key to be inserted.
    rw [entryPtrs_append, entryPtrs]
    refine OrderedMap.mem_insertAll_of_first _ fun e he => ?_
    have hkey := List.mem_map_of_mem (f := (·.1)) he
    rw [entryPtrs_keys] at hkey
    obtain ⟨e', he', hkey⟩ := List.mem_map.mp hkey
    rw [← hkey]
    exact hfirst e' he'
  · have hvalues := h.values
    rw [entriesLayout_append] at hvalues
    have hrest := (append_isPrefix_drop hvalues).2
    rw [entriesLayout_length, entriesLayout] at hrest
    exact u.layout_denotes (append_isPrefix_drop hrest).1

/-- Every list of entries with a key has a first one. -/
theorem exists_first {k : Text} {u : Parsed} (h : (k, u) ∈ es) :
    ∃ es₁ k' u' es₂, es = es₁ ++ (k', u') :: es₂ ∧ k'.payload = k.payload ∧
      ∀ e ∈ es₁, e.1.payload ≠ k.payload := by
  induction es with
  | nil => cases h
  | cons e es ih =>
    obtain ⟨k', u'⟩ := e
    by_cases hk : k'.payload = k.payload
    · exact ⟨[], k', u', es, rfl, hk, by simp⟩
    · rcases List.mem_cons.mp h with heq | h
      · obtain ⟨rfl, -⟩ := Prod.mk.inj heq
        exact absurd rfl hk
      · obtain ⟨es₁, k₁, u₁, es₂, rfl, hk₁, hfirst⟩ := ih h
        exact ⟨(k', u') :: es₁, k₁, u₁, es₂, rfl, hk₁, List.forall_mem_cons.mpr ⟨hk, hfirst⟩⟩

end

/-! ## What is found in the dictionaries -/

/-- In the heap that a parse leaves, each dictionary that was read has one entry for each of its
keys. Every key read is found, with the value that was read first under it. The dictionary has as
many entries as were read exactly if no key is repeated in it. -/
theorem parse_entries {buf : Bytes} {n : ℕ} {s s' : State} {p : Ptr}
    (h : (parseBencodedString buf n).run s = .returned p s') :
    ∃ t : Parsed, StartsWith buf t ∧ ∀ d ∈ t.dicts p, ∃ obj, s'.heap[d.1]? = some obj ∧
      obj.dictVal.entries.length = (d.2.map (·.1.payload)).dedup.length ∧
      obj.getLength = .ok (UInt32.ofNat (d.2.map (·.1.payload)).dedup.length) ∧
      (obj.dictVal.entries.length = d.2.length ↔ (d.2.map (·.1.payload)).Nodup) ∧
      ∀ (es₁ es₂ : List (Text × Parsed)) (k : Text) (u : Parsed), d.2 = es₁ ++ (k, u) :: es₂ →
        obj.checkIfHasKey k.payload = .ok true ∧ ∃ q, obj.getByKey k.payload = .ok q ∧
          ((∀ e ∈ es₁, e.1.payload ≠ k.payload) → Denotes s'.heap q u.value) := by
  obtain ⟨t, ht, rfl, rfl⟩ := parse_returned h
  refine ⟨t, ht, fun d hd => ?_⟩
  obtain ⟨base, es⟩ := d
  have hfilled : FilledAt (t.replay s.rewind).heap base es :=
    Parsed.filledAt (by rw [← State.rewind_heap, t.replay_drop]) hd
  have hlength := length_entries_insertAll es (base + 1)
  refine ⟨_, hfilled.obj, hlength, ?_, ?_, ?_⟩
  · show Except.ok _ = _
    rw [hlength]
  · have hmap : es.length = (es.map (·.1.payload)).length := by rw [List.length_map]
    rw [hlength, hmap]
    exact length_dedup_eq_iff _
  · rintro es₁ es₂ k u rfl
    -- The key is found in the first entry that has it.
    obtain ⟨es₃, k', u', es₄, hsplit, hk, hfirst⟩ :=
      exists_first (k := k) (u := u) (List.mem_append_right es₁ List.mem_cons_self)
    obtain ⟨obj, q, hobj, hq, -⟩ := (hsplit ▸ hfilled).getByKey fun e he => hk ▸ hfirst e he
    obtain rfl := Option.some.inj (hfilled.obj.symm.trans hobj)
    rw [hk] at hq
    refine ⟨?_, q, hq, fun hnew => ?_⟩
    · have hget := OrderedMap.get?_eq_some.mpr (getByKey_eq_ok.mp hq).2
      rw [BObject.checkIfHasKey, if_neg (by simp), hget]
      rfl
    · obtain ⟨obj', q', hobj', hq', hdenotes⟩ := hfilled.getByKey hnew
      obtain rfl := Option.some.inj (hfilled.obj.symm.trans hobj')
      obtain rfl := Except.ok.inj (hq.symm.trans hq')
      exact hdenotes

/-- The buffer `d1:ai1e1:ai2ee`, which repeats a key. -/
def repeatedKey : Bytes := [100, 49, 58, 97, 105, 49, 101, 49, 58, 97, 105, 50, 101, 101]

/-- The parser reads two entries of the key `a` in it. -/
theorem startsWith_repeatedKey : StartsWith repeatedKey
    (.dict [(⟨[49], [97]⟩, .integer [49]), (⟨[49], [97]⟩, .integer [50])]) := by
  decide +kernel

/-- The dictionaries of `d1:ai1e1:ai2ee` in the heap. -/
theorem parse_entries_repeatedKey : ∃ (t : Parsed) (s' : State),
    (parseBencodedString repeatedKey 50).run (fresh {}) = .returned 0 s' ∧
    StartsWith repeatedKey t ∧ ∀ d ∈ t.dicts 0, ∃ obj, s'.heap[d.1]? = some obj ∧
      obj.dictVal.entries.length = (d.2.map (·.1.payload)).dedup.length := by
  have hrun := parse_of_startsWith startsWith_repeatedKey (n := 50) (by decide) (fresh {})
  obtain ⟨t, ht, hdicts⟩ := parse_entries hrun
  refine ⟨t, _, hrun, ht, fun d hd => ?_⟩
  obtain ⟨obj, hobj, hlength, -⟩ := hdicts d hd
  exact ⟨obj, hobj, hlength⟩

/-- The parser accepts `d1:ai1e1:ai2ee`, and the dictionary has one entry. -/
theorem not_parse_entries : ¬ ∀ (buf : Bytes) (n : ℕ) (s s' : State) (p : Ptr) (t : Parsed),
    StartsWith buf t → (parseBencodedString buf n).run s = .returned p s' →
    ∀ d ∈ t.dicts p, ∃ obj, s'.heap[d.1]? = some obj ∧
      obj.dictVal.entries.length = d.2.length := by
  intro h
  have hrun := parse_of_startsWith startsWith_repeatedKey le_rfl (fresh {})
  obtain ⟨obj, hobj, hlength⟩ := h _ _ _ _ _ _ startsWith_repeatedKey hrun _ List.mem_cons_self
  obtain rfl := Option.some.inj (hobj.symm.trans rfl)
  exact absurd hlength (by decide)

end Btor
