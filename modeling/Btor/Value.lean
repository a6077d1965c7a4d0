import Btor.Spec

/-!
# The trees that objects stand for

A `Value` is a bencoded value as a tree, with a dictionary as the list of its entries in key order.
`Denotes heap p v` says that the object at `p` is the root of the tree `v`; a pointer is the root of
at most one tree (`denotes_unique`). The tree of what the parser reads is `Parsed.value`, where a
repeated key keeps its first value, and the object that the parser returns is its root
(`parse_denotes`).
-/

namespace Btor

open Lib (OrderedMap)

/-- A value of the format. -/
inductive Value where
  | integer (n : ℤ)
  | string (s : Bytes)
  | list (items : List Value)
  | dict (entries : List (Bytes × Value))

/-- The tree is an integer. -/
def Value.IsInteger : Value → Prop
  | .integer _ => True
  | _ => False

mutual

/-- The object at `p` is the root of the tree. -/
def Denotes (heap : List BObject) : Ptr → Value → Prop
  | p, .integer n => ∃ obj, heap[p]? = some obj ∧ obj.type = .bInteger ∧ obj.intVal.toInt = n
  | p, .string s => ∃ obj, heap[p]? = some obj ∧ obj.type = .bString ∧ obj.stringVal = s
  | p, .list vs => ∃ obj, heap[p]? = some obj ∧ obj.type = .bList ∧
      DenotesItems heap obj.listVal vs
  | p, .dict es => ∃ obj, heap[p]? = some obj ∧ obj.type = .bDict ∧
      DenotesEntries heap obj.dictVal.entries es

/-- The objects at the pointers are the roots of the trees. -/
def DenotesItems (heap : List BObject) : List Ptr → List Value → Prop
  | ps, [] => ps = []
  | ps, v :: vs => ∃ p ps', ps = p :: ps' ∧ Denotes heap p v ∧ DenotesItems heap ps' vs

/-- The objects at the pointers of a map are the roots of the trees under the same keys. -/
def DenotesEntries (heap : List BObject) : List (Bytes × Ptr) → List (Bytes × Value) → Prop
  | ps, [] => ps = []
  | ps, (k, v) :: es =>
    ∃ p ps', ps = (k, p) :: ps' ∧ Denotes heap p v ∧ DenotesEntries heap ps' es

end

mutual

/-- A pointer is the root of at most one tree. -/
theorem denotes_unique {heap : List BObject} : ∀ {v v' : Value} {p : Ptr}, Denotes heap p v →
    Denotes heap p v' → v = v'
  | .integer n, v', p, ⟨obj, hobj, htype, hn⟩, h' => by
    cases v' <;> obtain ⟨obj', hobj', htype', h'⟩ := h' <;>
      obtain rfl := Option.some.inj (hobj.symm.trans hobj') <;>
      first | exact absurd (htype.symm.trans htype') (by decide) | rw [← hn, ← h']
  | .string s, v', p, ⟨obj, hobj, htype, hs⟩, h' => by
    cases v' <;> obtain ⟨obj', hobj', htype', h'⟩ := h' <;>
      obtain rfl := Option.some.inj (hobj.symm.trans hobj') <;>
      first | exact absurd (htype.symm.trans htype') (by decide) | rw [← hs, ← h']
  | .list vs, v', p, ⟨obj, hobj, htype, hvs⟩, h' => by
    cases v' <;> obtain ⟨obj', hobj', htype', h'⟩ := h' <;>
      obtain rfl := Option.some.inj (hobj.symm.trans hobj') <;>
      first | exact absurd (htype.symm.trans htype') (by decide) | rw [denotesItems_unique hvs h']
  | .dict es, v', p, ⟨obj, hobj, htype, hes⟩, h' => by
    cases v' <;> obtain ⟨obj', hobj', htype', h'⟩ := h' <;>
      obtain rfl := Option.some.inj (hobj.symm.trans hobj') <;>
      first
        | exact absurd (htype.symm.trans htype') (by decide)
        | rw [denotesEntries_unique hes h']

/-- The pointers of a list determine its trees. -/
theorem denotesItems_unique {heap : List BObject} : ∀ {vs vs' : List Value} {ps : List Ptr},
    DenotesItems heap ps vs → DenotesItems heap ps vs' → vs = vs'
  | [], vs', ps, h, h' => by
    cases vs' with
    | nil => rfl
    | cons v vs' =>
      obtain ⟨p, ps', hps, -⟩ := h'
      exact absurd (h.symm.trans hps) (by simp)
  | v :: vs, vs', ps, ⟨p, ps', hps, hv, hvs⟩, h' => by
    cases vs' with
    | nil => exact absurd (h'.symm.trans hps) (by simp)
    | cons v' vs' =>
      obtain ⟨q, qs', hqs, hv', hvs'⟩ := h'
      obtain ⟨rfl, rfl⟩ := List.cons.inj (hps.symm.trans hqs)
      rw [denotes_unique hv hv', denotesItems_unique hvs hvs']

/-- The pointers of a dictionary determine its pairs. -/
theorem denotesEntries_unique {heap : List BObject} : ∀ {es es' : List (Bytes × Value)}
    {ps : List (Bytes × Ptr)}, DenotesEntries heap ps es → DenotesEntries heap ps es' → es = es'
  | [], es', ps, h, h' => by
    cases es' with
    | nil => rfl
    | cons e es' =>
      obtain ⟨p, ps', hps, -⟩ := h'
      exact absurd (h.symm.trans hps) (by simp)
  | (k, v) :: es, es', ps, ⟨p, ps', hps, hv, hes⟩, h' => by
    cases es' with
    | nil => exact absurd (h'.symm.trans hps) (by simp)
    | cons e' es' =>
      obtain ⟨k', v'⟩ := e'
      obtain ⟨q, qs', hqs, hv', hes'⟩ := h'
      obtain ⟨hkp, rfl⟩ := List.cons.inj (hps.symm.trans hqs)
      obtain ⟨rfl, rfl⟩ := Prod.mk.inj hkp
      rw [denotes_unique hv hv', denotesEntries_unique hes hes']

end

mutual

/-- The tree of what the parser reads. A repeated key keeps its first value. -/
def Parsed.value : Parsed → Value
  | .integer body => .integer (intOf body).toInt
  | .string k => .string k.payload
  | .list ts => .list (itemsValues ts)
  | .dict es => .dict (OrderedMap.empty.insertAll (entriesValues es)).entries

/-- The trees of the items of a list. -/
def itemsValues : List Parsed → List Value
  | [] => []
  | t :: ts => t.value :: itemsValues ts

/-- The keys of a dictionary with the trees of their values, in the order of the input. -/
def entriesValues : List (Text × Parsed) → List (Bytes × Value)
  | [] => []
  | (k, t) :: es => (k.payload, t.value) :: entriesValues es

end

section

variable {heap : List BObject}

/-- Pointers that denote the trees of pairs, one by one. -/
theorem denotesEntries_of_forall₂ {ps : List (Bytes × Ptr)} {es : List (Bytes × Value)}
    (h : List.Forall₂ (fun a b => a.1 = b.1 ∧ Denotes heap a.2 b.2) ps es) :
    DenotesEntries heap ps es := by
  induction h with
  | nil => rfl
  | @cons a b ps es hab _ ih =>
    obtain ⟨hk, hv⟩ := hab
    exact ⟨a.2, ps, by rw [← hk], hv, ih⟩

/-- The object at an address, and those after it. -/
theorem layout_cons {base : Ptr} {obj : BObject} {l : List BObject}
    (h : obj :: l <+: heap.drop base) : heap[base]? = some obj ∧ l <+: heap.drop (base + 1) := by
  obtain ⟨hobj, hl⟩ := append_isPrefix_drop (l := [obj]) h
  obtain ⟨u, hu⟩ := hobj
  refine ⟨?_, hl⟩
  have hget : (heap.drop base)[0]? = some obj := by rw [← hu]; rfl
  simpa using hget

mutual

/-- The first of a value's objects is the root of its tree. -/
theorem Parsed.layout_denotes : ∀ {t : Parsed} {base : Ptr}, t.layout base <+: heap.drop base →
    Denotes heap base t.value
  | .integer body, base, h => ⟨_, (layout_cons h).1, rfl, rfl⟩
  | .string k, base, h => ⟨_, (layout_cons h).1, rfl, rfl⟩
  | .list ts, base, h => by
    obtain ⟨hobj, hrest⟩ := layout_cons h
    exact ⟨_, hobj, rfl, itemsLayout_denotes hrest⟩
  | .dict es, base, h => by
    obtain ⟨hobj, hrest⟩ := layout_cons h
    refine ⟨_, hobj, rfl, denotesEntries_of_forall₂ ?_⟩
    exact OrderedMap.insertAll_forall₂ .nil (entriesLayout_denotes hrest)

/-- The objects of the items denote their trees. -/
theorem itemsLayout_denotes : ∀ {ts : List Parsed} {base : Ptr},
    itemsLayout ts base <+: heap.drop base → DenotesItems heap (itemPtrs ts base) (itemsValues ts)
  | [], base, _ => rfl
  | t :: ts, base, h => by
    obtain ⟨hfirst, hrest⟩ := append_isPrefix_drop h
    rw [t.layout_length] at hrest
    exact ⟨base, _, rfl, Parsed.layout_denotes hfirst, itemsLayout_denotes hrest⟩

/-- So do those of the entries. -/
theorem entriesLayout_denotes : ∀ {es : List (Text × Parsed)} {base : Ptr},
    entriesLayout es base <+: heap.drop base →
    List.Forall₂ (fun a b => a.1 = b.1 ∧ Denotes heap a.2 b.2) (entryPtrs es base)
      (entriesValues es)
  | [], base, _ => .nil
  | (k, t) :: es, base, h => by
    obtain ⟨hfirst, hrest⟩ := append_isPrefix_drop h
    rw [t.layout_length] at hrest
    exact .cons ⟨rfl, Parsed.layout_denotes hfirst⟩ (entriesLayout_denotes hrest)

end

end

/-- After a value is parsed, its objects stand at the end of the heap. -/
theorem Parsed.replay_drop (t : Parsed) (s : State) :
    (t.replay s).heap.drop s.heap.length = t.layout s.heap.length := by
  rw [t.replay_heap, List.drop_left]

/-- The object created first for a value is the root of its tree. -/
theorem Parsed.replay_denotes (t : Parsed) (s : State) :
    Denotes (t.replay s).heap s.heap.length t.value :=
  t.layout_denotes (by rw [t.replay_drop])

/-- The object that a parse returns is the root of the tree of what it read. -/
theorem parse_denotes {buf : Bytes} {n : ℕ} {s s' : State} {p : Ptr}
    (h : (parseBencodedString buf n).run s = .returned p s') :
    ∃ t : Parsed, StartsWith buf t ∧ s' = t.replay s.rewind ∧ Denotes s'.heap p t.value := by
  obtain ⟨t, ht, rfl, rfl⟩ := parse_returned h
  exact ⟨t, ht, rfl, t.replay_denotes s.rewind⟩

end Btor
