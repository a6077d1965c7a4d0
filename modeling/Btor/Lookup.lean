import Btor.Main
import Btor.TotalLength

/-!
# Lookups in a tree

What the accessors of an object find in the tree that it is the root of. A chain of lookups in
`main` returns what is in the tree, and is ended by an exception where that is not there.
-/

namespace Btor

open Lib (Run Outcome OrderedMap)

/-! ## Parts of a tree -/

/-- The type of the object of a tree. -/
def Value.type : Value → BObjectT
  | integer _ => .bInteger
  | string _ => .bString
  | list _ => .bList
  | dict _ => .bDict

/-- The number of an integer. -/
def Value.number? : Value → Option ℤ
  | integer n => some n
  | _ => none

/-- The bytes of a string. -/
def Value.bytes? : Value → Option Bytes
  | string s => some s
  | _ => none

/-- The integer under a key of a dictionary. -/
def Value.int? (key : Bytes) (v : Value) : Option ℤ := (v.get? key).bind Value.number?

/-- The string under a key of a dictionary. -/
def Value.string? (key : Bytes) (v : Value) : Option Bytes := (v.get? key).bind Value.bytes?

/-- The run is ended by an exception, and nothing has changed. -/
def Main.Throws {α : Type} (x : Main α) (w : World) : Prop :=
  ∃ e, x.run w = .stopped (.stopped (.threw e)) w

/-- The method returns what `read` finds in the tree of its object, and throws if that is
nothing. -/
structure ReadsTree {α : Type} (method : BObject → Except Exn α) (read : Value → Option α) :
    Prop where
  ok : ∀ {heap p v a}, Denotes heap p v → read v = some a →
    ∃ obj, heap[p]? = some obj ∧ method obj = .ok a
  error : ∀ {heap p v}, Denotes heap p v → read v = none →
    ∃ obj e, heap[p]? = some obj ∧ method obj = .error e

/-! ## The accessors -/

section

variable {heap : List BObject} {p : Ptr} {v u : Value} {k : Bytes}

/-- The object of a tree has its type. -/
theorem Denotes.type_eq (h : Denotes heap p v) :
    ∃ obj, heap[p]? = some obj ∧ obj.type = v.type := by
  cases v <;> obtain ⟨obj, hobj, htype, -⟩ := h <;> exact ⟨obj, hobj, htype⟩

/-- `getInt` reads the integer of a tree. -/
theorem readsTree_getInt : ReadsTree BObject.getInt fun v => v.number?.map Int64.ofInt where
  ok {heap p v a} h ha := by
    cases v with
    | integer n =>
      obtain ⟨obj, hobj, htype, rfl⟩ := h
      refine ⟨obj, hobj, ?_⟩
      have hint : Int64.ofInt obj.intVal.toInt = a := Option.some.inj ha
      unfold BObject.getInt
      rw [if_neg (not_not.mpr htype), ← hint, Int64.ofInt_toInt]
    | _ => cases ha
  error {heap p v} h hnone := by
    obtain ⟨obj, hobj, htype⟩ := h.type_eq
    have hne : obj.type ≠ .bInteger := by
      cases v with
      | integer n => cases hnone
      | _ => exact fun heq => absurd (htype.symm.trans heq) (by simp [Value.type])
    refine ⟨obj, .bTypeException, hobj, ?_⟩
    unfold BObject.getInt
    rw [if_pos hne]

/-- `getString` reads the bytes of a tree. -/
theorem readsTree_getString : ReadsTree BObject.getString Value.bytes? where
  ok {heap p v a} h ha := by
    cases v with
    | string s =>
      obtain ⟨obj, hobj, htype, rfl⟩ := h
      refine ⟨obj, hobj, ?_⟩
      have hstring : obj.stringVal = a := Option.some.inj ha
      unfold BObject.getString
      rw [if_neg (not_not.mpr htype), hstring]
    | _ => cases ha
  error {heap p v} h hnone := by
    obtain ⟨obj, hobj, htype⟩ := h.type_eq
    have hne : obj.type ≠ .bString := by
      cases v with
      | string s => cases hnone
      | _ => exact fun heq => absurd (htype.symm.trans heq) (by simp [Value.type])
    refine ⟨obj, .bTypeException, hobj, ?_⟩
    unfold BObject.getString
    rw [if_pos hne]

/-- The pointer under a key is the root of the tree under it. -/
theorem denotesEntries_find {ps : List (Bytes × Ptr)} {es : List (Bytes × Value)}
    (h : DenotesEntries heap ps es) :
    Option.Rel (Denotes heap) ((ps.find? fun e => e.1 = k).map (·.2))
      ((es.find? fun e => e.1 = k).map (·.2)) := by
  induction es generalizing ps with
  | nil =>
    obtain rfl : ps = [] := h
    exact .none
  | cons e es ih =>
    obtain ⟨key, u⟩ := e
    obtain ⟨q, ps, rfl, hq, hps⟩ := h
    by_cases hkey : key = k
    · simpa [hkey] using hq
    · simpa [hkey] using ih hps

/-- In an object that is the root of a dictionary, a key has the tree that the dictionary has. -/
theorem Denotes.get?_rel {es : List (Bytes × Value)} (h : Denotes heap p (.dict es)) :
    ∃ obj, heap[p]? = some obj ∧ obj.type = .bDict ∧
      Option.Rel (Denotes heap) (obj.dictVal.get? k) ((Value.dict es).get? k) := by
  obtain ⟨obj, hobj, htype, hentries⟩ := h
  refine ⟨obj, hobj, htype, ?_⟩
  unfold OrderedMap.get?
  -- The map compares keys with the equality of their order.
  convert denotesEntries_find (k := k) hentries
  rfl

end

/-! ## Lookups in `main` -/

section

variable {α : Type} {w : World} {p : Ptr} {v u : Value} {k : Bytes} {obj : BObject}
  {method : BObject → Except Exn α} {read : Value → Option α}

/-- A method that returns leaves the world as it is. -/
theorem run_deref_ok {a : α} (hobj : w.state.heap[p]? = some obj) (ha : method obj = .ok a) :
    (Main.parser (deref p method)).run w = .returned a w := by
  unfold Main.parser deref
  simp only [hobj, ha]

/-- A method that throws ends the run. -/
theorem throws_deref {e : Exn} (hobj : w.state.heap[p]? = some obj) (he : method obj = .error e) :
    (Main.parser (deref p method)).Throws w := by
  refine ⟨e, ?_⟩
  unfold Main.parser deref
  simp only [hobj, he]

/-- What a call of the parser returns is returned to `main`. -/
theorem run_parser_of_returned {x : Parse α} {a : α} {s : State}
    (h : x.run w.state = .returned a s) :
    (Main.parser x).run w = .returned a { w with state := s } := by
  unfold Main.parser
  simp only [h]

/-- A parse makes the tree of what it reads, and collects the lengths in it. -/
theorem run_parser_of_startsWith {buf : Bytes} {fuel : ℕ} {t : Parsed} (ht : StartsWith buf t)
    (hfuel : 3 * t.bytes.length ≤ fuel) (w : World) : ∃ root w',
    (Main.parser (parseBencodedString buf fuel)).run w = .returned root w' ∧
      Denotes w'.state.heap root t.value ∧
      w'.state.collectedLength = w.state.collectedLength + t.lengths :=
  ⟨_, _, run_parser_of_returned (parse_of_startsWith ht hfuel w.state),
    t.replay_denotes w.state.rewind, t.replay_collectedLength w.state.rewind⟩

/-- An exception in a part of a run ends the run. -/
theorem Main.Throws.bind {β : Type} {x : Main α} {f : α → Main β} (h : x.Throws w) :
    (x >>= f).Throws w := by
  obtain ⟨e, he⟩ := h
  refine ⟨e, ?_⟩
  rw [Run.run_bind, he, Outcome.andThen_stopped]

/-- The value of a key is found. -/
theorem getByKey_of_some (h : Denotes w.state.heap p v) (hk : v.get? k = some u) :
    ∃ q, (Main.getByKey p k).run w = .returned q w ∧ Denotes w.state.heap q u := by
  cases v with
  | dict es =>
    obtain ⟨obj, hobj, htype, hrel⟩ := h.get?_rel (k := k)
    rw [hk] at hrel
    cases hget : obj.dictVal.get? k with
    | none =>
      rw [hget] at hrel
      cases hrel
    | some q =>
      rw [hget] at hrel
      have hq : obj.getByKey k = .ok q := by
        unfold BObject.getByKey
        rw [if_neg (not_not.mpr htype), hget]
      obtain ⟨hdenotes⟩ := hrel
      exact ⟨q, run_deref_ok hobj hq, hdenotes⟩
  | _ => cases hk

/-- A key that is not there throws. -/
theorem getByKey_of_none (h : Denotes w.state.heap p v) (hk : v.get? k = none) :
    (Main.getByKey p k).Throws w := by
  cases v with
  | dict es =>
    obtain ⟨obj, hobj, htype, hrel⟩ := h.get?_rel (k := k)
    rw [hk] at hrel
    have hget : obj.dictVal.get? k = none := by
      cases hget : obj.dictVal.get? k with
      | none => rfl
      | some q =>
        rw [hget] at hrel
        cases hrel
    have hthrows : obj.getByKey k = .error .bDictKeyException := by
      unfold BObject.getByKey
      rw [if_neg (not_not.mpr htype), hget]
    exact throws_deref hobj hthrows
  | _ =>
    obtain ⟨obj, hobj, htype⟩ := h.type_eq
    have hthrows : obj.getByKey k = .error .bTypeException := by
      unfold BObject.getByKey
      rw [htype]
      rfl
    exact throws_deref hobj hthrows

/-- `checkIfHasKey` on a dictionary. -/
theorem checkIfHasKey_of_dict {es : List (Bytes × Value)}
    (h : Denotes w.state.heap p (.dict es)) :
    (Main.parser (deref p (·.checkIfHasKey k))).run w =
      .returned ((Value.dict es).get? k).isSome w := by
  obtain ⟨obj, hobj, htype, hrel⟩ := h.get?_rel (k := k)
  have hsome : (obj.dictVal.get? k).isSome = ((Value.dict es).get? k).isSome := by
    generalize obj.dictVal.get? k = q, (Value.dict es).get? k = u at hrel
    cases hrel <;> rfl
  refine run_deref_ok hobj ?_
  unfold BObject.checkIfHasKey
  rw [if_neg (not_not.mpr htype), hsome]

/-- The value of a key is read. -/
theorem callByKey_of_some (hread : ReadsTree method read) (h : Denotes w.state.heap p v) {a : α}
    (ha : (v.get? k).bind read = some a) : (Main.callByKey method p k).run w = .returned a w := by
  obtain ⟨u, hk, hu⟩ := Option.bind_eq_some_iff.mp ha
  obtain ⟨q, hq, hdenotes⟩ := getByKey_of_some h hk
  obtain ⟨obj, hobj, hok⟩ := hread.ok hdenotes hu
  unfold Main.callByKey
  rw [Run.run_bind_of_returned hq]
  exact run_deref_ok hobj hok

/-- A value that is not there, or is of another type, throws. -/
theorem callByKey_of_none (hread : ReadsTree method read) (h : Denotes w.state.heap p v)
    (ha : (v.get? k).bind read = none) : (Main.callByKey method p k).Throws w := by
  cases hk : v.get? k with
  | none => exact (getByKey_of_none h hk).bind
  | some u =>
    rw [hk, Option.bind_some] at ha
    obtain ⟨q, hq, hdenotes⟩ := getByKey_of_some h hk
    obtain ⟨obj, e, hobj, he⟩ := hread.error hdenotes ha
    unfold Main.callByKey Main.Throws
    rw [Run.run_bind_of_returned hq]
    exact throws_deref hobj he

/-- The integer of a key is read modulo `2^64`. -/
theorem getIntByKey_of_some (h : Denotes w.state.heap p v) {n : ℤ} (hn : v.int? k = some n) :
    (Main.getIntByKey p k).run w = .returned (Int64.ofInt n) w := by
  refine callByKey_of_some readsTree_getInt h ?_
  unfold Value.int? at hn
  obtain ⟨u, hk, hu⟩ := Option.bind_eq_some_iff.mp hn
  simp only [hk, Option.bind_some, hu, Option.map_some]

/-- An integer that is not there throws. -/
theorem getIntByKey_of_none (h : Denotes w.state.heap p v) (hn : v.int? k = none) :
    (Main.getIntByKey p k).Throws w := by
  refine callByKey_of_none readsTree_getInt h ?_
  unfold Value.int? at hn
  cases hk : v.get? k with
  | none => rfl
  | some u =>
    rw [hk, Option.bind_some] at hn
    simp only [Option.bind_some, hn, Option.map_none]

/-- The string of a key is read. -/
theorem getStringByKey_of_some (h : Denotes w.state.heap p v) {s : Bytes}
    (hs : v.string? k = some s) : (Main.getStringByKey p k).run w = .returned s w :=
  callByKey_of_some readsTree_getString h hs

/-- A string that is not there throws. -/
theorem getStringByKey_of_none (h : Denotes w.state.heap p v) (hs : v.string? k = none) :
    (Main.getStringByKey p k).Throws w :=
  callByKey_of_none readsTree_getString h hs

end

end Btor
