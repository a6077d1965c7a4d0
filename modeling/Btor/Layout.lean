import Btor.Replay

/-!
# Where the objects of a value are in the heap

The objects of a value stand in the heap in the order in which the parser created them, a container
before what it holds. `Parsed.layout` lists them, for a value whose first object is at the address
`base`, and `Parsed.replay_heap` shows that parsing the value appends them to the heap.
-/

namespace Btor

open Lib (OrderedMap)

mutual

/-- The number of objects of a value. -/
def Parsed.nodes : Parsed → ℕ
  | .integer _ => 1
  | .string _ => 1
  | .list ts => 1 + itemsNodes ts
  | .dict es => 1 + entriesNodes es

/-- The number of objects of the items of a list. -/
def itemsNodes : List Parsed → ℕ
  | [] => 0
  | t :: ts => t.nodes + itemsNodes ts

/-- The number of objects of the values of a dictionary. -/
def entriesNodes : List (Text × Parsed) → ℕ
  | [] => 0
  | (_, t) :: es => t.nodes + entriesNodes es

end

/-- The pointers to the items of a list, whose first object is at `base`. -/
def itemPtrs : List Parsed → Ptr → List Ptr
  | [], _ => []
  | t :: ts, base => base :: itemPtrs ts (base + t.nodes)

/-- The keys of a dictionary with the pointers to their values, whose first object is at `base`. -/
def entryPtrs : List (Text × Parsed) → Ptr → List (Bytes × Ptr)
  | [], _ => []
  | (k, t) :: es, base => (k.payload, base) :: entryPtrs es (base + t.nodes)

mutual

/-- The objects of a value, whose first is at `base`. -/
def Parsed.layout : Parsed → Ptr → List BObject
  | .integer body, _ => [.ofInt (intOf body)]
  | .string k, _ => [.ofString k.payload]
  | .list ts, base =>
    { type := .bList, listVal := itemPtrs ts (base + 1) } :: itemsLayout ts (base + 1)
  | .dict es, base =>
    { type := .bDict, dictVal := OrderedMap.empty.insertAll (entryPtrs es (base + 1)) } ::
      entriesLayout es (base + 1)

/-- The objects of the items of a list, the first at `base`. -/
def itemsLayout : List Parsed → Ptr → List BObject
  | [], _ => []
  | t :: ts, base => t.layout base ++ itemsLayout ts (base + t.nodes)

/-- The objects of the values of a dictionary, the first at `base`. -/
def entriesLayout : List (Text × Parsed) → Ptr → List BObject
  | [], _ => []
  | (_, t) :: es, base => t.layout base ++ entriesLayout es (base + t.nodes)

end

mutual

/-- A value has as many objects as it has nodes. -/
@[simp] theorem Parsed.layout_length : ∀ (t : Parsed) (base : Ptr),
    (t.layout base).length = t.nodes
  | .integer _, _ => rfl
  | .string _, _ => rfl
  | .list ts, base => by
    rw [Parsed.layout, Parsed.nodes, List.length_cons, itemsLayout_length ts, Nat.add_comm]
  | .dict es, base => by
    rw [Parsed.layout, Parsed.nodes, List.length_cons, entriesLayout_length es, Nat.add_comm]

/-- The items have as many objects as nodes. -/
theorem itemsLayout_length : ∀ (ts : List Parsed) (base : Ptr),
    (itemsLayout ts base).length = itemsNodes ts
  | [], _ => rfl
  | t :: ts, base => by
    rw [itemsLayout, itemsNodes, List.length_append, t.layout_length, itemsLayout_length ts]

/-- So have the entries. -/
theorem entriesLayout_length : ∀ (es : List (Text × Parsed)) (base : Ptr),
    (entriesLayout es base).length = entriesNodes es
  | [], _ => rfl
  | (k, t) :: es, base => by
    rw [entriesLayout, entriesNodes, List.length_append, t.layout_length, entriesLayout_length es]

end

/-- A value has at least one object. -/
theorem Parsed.nodes_pos (t : Parsed) : 0 < t.nodes := by
  cases t <;> simp only [Parsed.nodes] <;> omega

/-- Entering an entry makes no object. -/
@[simp] theorem Text.enter_heap (k : Text) (s : State) : (k.enter s).heap = s.heap := by
  unfold Text.enter
  split_ifs <;> rfl

/-- Neither does leaving it. -/
@[simp] theorem Text.leave_heap (k : Text) (t : Parsed) (s : State) :
    (k.leave t s).heap = s.heap := by
  unfold Text.leave
  split_ifs <;> rfl

/-- A change of an object among the first ones leaves the others as they are. -/
theorem modify_append {p : Ptr} {l : List BObject} (hp : p < l.length) (f : BObject → BObject)
    (l' : List BObject) : (l ++ l').modify p f = l.modify p f ++ l' := by
  induction l generalizing p with
  | nil => simp at hp
  | cons a l ih =>
    cases p with
    | zero => rfl
    | succ p => simpa using ih (by simpa using hp)

/-- A change of the object created last. -/
theorem modify_concat (l : List BObject) (obj : BObject) (f : BObject → BObject) :
    (l ++ [obj]).modify l.length f = l ++ [f obj] := by
  induction l with
  | nil => rfl
  | cons a l ih => simpa using ih

mutual

/-- Parsing a value appends its objects to the heap. -/
theorem Parsed.replay_heap : ∀ (t : Parsed) (s : State),
    (t.replay s).heap = s.heap ++ t.layout s.heap.length
  | .integer body, s => rfl
  | .string k, s => rfl
  | .list ts, s => by
    -- The list is in the heap before its items are, so linking them changes it in place.
    have hp : s.heap.length < ((s.feed [Ascii.l]).alloc (.ofType .bList)).heap.length := by simp
    rw [Parsed.replay, State.feed_heap, itemsReplay_heap ts _ _ hp]
    simp only [State.alloc_heap, State.feed_heap, modify_concat, List.length_append,
      List.length_singleton, List.append_assoc]
    rfl
  | .dict es, s => by
    -- The dictionary is in the heap before its values are.
    have hp : s.heap.length < ((s.feed [Ascii.d]).alloc (.ofType .bDict)).heap.length := by simp
    rw [Parsed.replay, State.feed_heap, entriesReplay_heap es _ _ hp]
    simp only [State.alloc_heap, State.feed_heap, modify_concat, List.length_append,
      List.length_singleton, List.append_assoc]
    rfl

/-- Parsing the items of the list at `p` appends their objects, and adds the pointers to the
list. -/
theorem itemsReplay_heap : ∀ (ts : List Parsed) (p : Ptr) (s : State), p < s.heap.length →
    (itemsReplay ts p s).heap =
      s.heap.modify p (fun o => { o with listVal := o.listVal ++ itemPtrs ts s.heap.length }) ++
        itemsLayout ts s.heap.length
  | [], p, s, _ => by
    simp only [itemsReplay, itemPtrs, itemsLayout, List.append_nil]
    exact (List.modify_id p s.heap).symm
  | t :: ts, p, s, hp => by
    have hstep : ((t.replay s).update p (.push s.heap.length)).heap =
        s.heap.modify p (.push s.heap.length) ++ t.layout s.heap.length := by
      rw [State.update_heap, t.replay_heap, modify_append hp]
    have hlen : ((t.replay s).update p (.push s.heap.length)).heap.length =
        s.heap.length + t.nodes := by
      rw [hstep]
      simp
    rw [itemsReplay, itemsReplay_heap ts p _ (hlen ▸ Nat.lt_add_right _ hp), hlen, hstep,
      modify_append (by simpa), List.modify_modify_eq, List.append_assoc]
    simp [itemPtrs, itemsLayout, BObject.push, Function.comp_def]

/-- Parsing the entries of the dictionary at `p` appends the objects of their values, and inserts
the pointers into the dictionary. -/
theorem entriesReplay_heap : ∀ (es : List (Text × Parsed)) (p : Ptr) (s : State),
    p < s.heap.length →
    (entriesReplay es p s).heap =
      s.heap.modify p
        (fun o => { o with dictVal := o.dictVal.insertAll (entryPtrs es s.heap.length) }) ++
        entriesLayout es s.heap.length
  | [], p, s, _ => by
    simp only [entriesReplay, entryPtrs, entriesLayout, List.append_nil, OrderedMap.insertAll_nil]
    exact (List.modify_id p s.heap).symm
  | (k, t) :: es, p, s, hp => by
    -- The dictionary is below the new objects, which leave it as the insertion made it.
    have hstep : ((k.leave t (t.replay (k.enter s))).update p
        (.bind k.payload s.heap.length)).heap =
        s.heap.modify p (.bind k.payload s.heap.length) ++ t.layout s.heap.length := by
      rw [State.update_heap, Text.leave_heap, t.replay_heap, Text.enter_heap, modify_append hp]
    have hlen : ((k.leave t (t.replay (k.enter s))).update p
        (.bind k.payload s.heap.length)).heap.length = s.heap.length + t.nodes := by
      rw [hstep]
      simp
    rw [entriesReplay, entriesReplay_heap es p _ (hlen ▸ Nat.lt_add_right _ hp), hlen, hstep,
      modify_append (by simpa), List.modify_modify_eq, List.append_assoc]
    simp [entryPtrs, entriesLayout, BObject.bind, Function.comp_def]

end

/-- Parsing a value leaves the objects that were there as they are. -/
theorem Parsed.replay_heap_old (t : Parsed) {s : State} {p : Ptr} (hp : p < s.heap.length) :
    (t.replay s).heap[p]? = s.heap[p]? := by
  rw [t.replay_heap, List.getElem?_append_left hp]

/-- The object of a value is the first one that parsing it appends. -/
theorem Parsed.replay_heap_head (t : Parsed) (s : State) :
    (t.replay s).heap[s.heap.length]? = (t.layout s.heap.length).head? := by
  rw [t.replay_heap, List.getElem?_append_right le_rfl, Nat.sub_self, List.head?_eq_getElem?]

/-- `getInt` on the object of an integer returns the integer. -/
theorem Parsed.getInt_head {t : Parsed} (h : t.IsInteger) (base : Ptr) :
    ∃ obj, (t.layout base).head? = some obj ∧ obj.getInt = .ok t.intVal := by
  cases t with
  | integer body => exact ⟨_, rfl, rfl⟩
  | string k => exact h.elim
  | list ts => exact h.elim
  | dict es => exact h.elim

/-- `getInt` on the object of another value throws. -/
theorem Parsed.getInt_head_error {t : Parsed} (h : ¬ t.IsInteger) (base : Ptr) :
    ∃ obj, (t.layout base).head? = some obj ∧ obj.getInt = .error .bTypeException := by
  cases t with
  | integer body => exact (h trivial).elim
  | string k => exact ⟨_, rfl, rfl⟩
  | list ts => exact ⟨_, rfl, rfl⟩
  | dict es => exact ⟨_, rfl, rfl⟩

end Btor
