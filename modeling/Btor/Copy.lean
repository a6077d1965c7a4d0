import Btor.BObject
import Btor.Lib.Alike

/-!
# Copies of objects

The copy constructor of `BObject` copies the payload of the object's type and leaves the other three
empty. As long as the type is not changed nothing tells a copy from its original. `setType` changes
the type and no payload, and then shows what was not copied (`copy_alike_iff`).
-/

namespace Btor

open Lib (OrderedMap Run Outcome Alike)

namespace BObject

/-- What the accessors return or throw. -/
structure Answers where
  getType : BObjectT
  getLength : Except Exn UInt32
  getInt : Except Exn Int64
  getString : Except Exn Bytes
  getList : Except Exn (List Ptr)
  getDict : Except Exn (OrderedMap Bytes Ptr)
  checkIfHasKey : Bytes → Except Exn Bool
  getByKey : Bytes → Except Exn Ptr

/-- The answers of all accessors of an object. -/
def answers (o : BObject) : Answers where
  getType := o.getType
  getLength := o.getLength
  getInt := o.getInt
  getString := o.getString
  getList := o.getList
  getDict := o.getDict
  checkIfHasKey := o.checkIfHasKey
  getByKey := o.getByKey

/-- The methods that change an object, with their arguments. -/
inductive Op where
  | pushBack (obj : Ptr)
  | addKeyValue (key : Bytes) (val : Ptr)
  | setType (type : BObjectT)

/-- The call of a method that may throw. Both of them throw before they change anything. -/
def callMethod (method : BObject → Except Exn BObject) : Run BObject Exn Unit where
  run o :=
    match method o with
    | .error e => .stopped e o
    | .ok o' => .returned () o'

/-- A call on an object. -/
def Op.call : Op → Run BObject Exn Unit
  | pushBack obj => callMethod (·.pushBack obj)
  | addKeyValue key val => callMethod (·.addKeyValue key val)
  | setType type => ⟨fun o => .returned () (o.setType type)⟩

/-- The call does not set the type. -/
def Op.KeepsType : Op → Prop
  | setType _ => False
  | _ => True

/-- The objects that the constructors and the calls in `P` lead to. -/
inductive Reached (P : Op → Prop) : BObject → Prop where
  | new : Reached P new
  | ofType (initType : BObjectT) : Reached P (ofType initType)
  | ofInt (initInt : Int64) : Reached P (ofInt initInt)
  | ofString (initString : Bytes) : Reached P (ofString initString)
  | ofList (initList : List Ptr) : Reached P (ofList initList)
  | ofDict (initDict : OrderedMap Bytes Ptr) : Reached P (ofDict initDict)
  | copy {other : BObject} (h : Reached P other) : Reached P other.copy
  | call {o : BObject} (h : Reached P o) {op : Op} (hop : P op) : Reached P (op.call.run o).state

/-- The payloads of the other types are those of a new object. -/
structure OthersEmpty (o : BObject) : Prop where
  stringVal : o.type ≠ .bString → o.stringVal = []
  intVal : o.type ≠ .bInteger → o.intVal = 0
  listVal : o.type ≠ .bList → o.listVal = []
  dictVal : o.type ≠ .bDict → o.dictVal = .empty

/-! ## What a copy keeps -/

section

variable {o o' : BObject}

/-- A copy has the type of the original. -/
@[simp] theorem type_copy : o.copy.type = o.type := by
  unfold copy
  cases o.type <;> rfl

/-- The accessors read the payload of the type, which is copied. -/
theorem answers_copy : o.copy.answers = o.answers := by
  obtain ⟨type, stringVal, intVal, listVal, dictVal⟩ := o
  cases type <;> rfl

/-- A call that keeps the type does on the copy what it does on the original. -/
theorem call_copy {op : Op} (hop : op.KeepsType) :
    (op.call.run o.copy).reason = (op.call.run o).reason ∧
      (op.call.run o.copy).state = (op.call.run o).state.copy := by
  obtain ⟨type, stringVal, intVal, listVal, dictVal⟩ := o
  cases op with
  | pushBack obj => cases type <;> exact ⟨rfl, rfl⟩
  | addKeyValue key val => cases type <;> exact ⟨rfl, rfl⟩
  | setType type' => cases hop

/-- Nothing but the payload of the type is copied. -/
theorem othersEmpty_copy : o.copy.OthersEmpty := by
  obtain ⟨type, stringVal, intVal, listVal, dictVal⟩ := o
  constructor <;> cases type <;> intro h
  all_goals first
    | rfl
    | exact absurd rfl h

/-- A copy of an object whose other fields are empty is the same object. -/
theorem OthersEmpty.copy_eq (h : o.OthersEmpty) : o.copy = o := by
  obtain ⟨type, stringVal, intVal, listVal, dictVal⟩ := o
  obtain ⟨hstring, hint, hlist, hdict⟩ := h
  cases type <;> simp_all [copy]

/-- An object whose type was never set has one payload. -/
theorem Reached.othersEmpty (h : Reached Op.KeepsType o) : o.OthersEmpty := by
  induction h with
  | new => exact ⟨fun _ => rfl, fun _ => rfl, fun _ => rfl, fun _ => rfl⟩
  | ofType initType => exact ⟨fun _ => rfl, fun _ => rfl, fun _ => rfl, fun _ => rfl⟩
  | ofInt initInt => exact ⟨fun _ => rfl, fun h => absurd rfl h, fun _ => rfl, fun _ => rfl⟩
  | ofString initString => exact ⟨fun h => absurd rfl h, fun _ => rfl, fun _ => rfl, fun _ => rfl⟩
  | ofList initList => exact ⟨fun _ => rfl, fun _ => rfl, fun h => absurd rfl h, fun _ => rfl⟩
  | ofDict initDict => exact ⟨fun _ => rfl, fun _ => rfl, fun _ => rfl, fun h => absurd rfl h⟩
  | copy _ _ => exact othersEmpty_copy
  | @call o _ op hop ih =>
    -- The object was a copy of itself, so it still is.
    have hstate := (call_copy (o := o) hop).2
    rw [ih.copy_eq] at hstate
    rw [hstate]
    exact othersEmpty_copy

/-! ## Calls on the copy and the original -/

/-- Calls that keep the type do not tell a copy from its original. -/
theorem alike_copy {calls : List Op} (hcalls : ∀ op ∈ calls, op.KeepsType) :
    Alike Op.call answers calls o o.copy := by
  refine Lib.alike_of_keeps (R := fun s t => t = s.copy) ?_ ?_ rfl
  · rintro s _ rfl
    exact answers_copy.symm
  · rintro op hop s _ rfl
    obtain ⟨hreason, hstate⟩ := call_copy (o := s) (hcalls op hop)
    exact ⟨hreason.symm, hstate⟩

/-- If no calls tell a copy from its original they have the same payload of every type, which the
accessor of that type shows after a change to it. -/
theorem payload_copy {α : Type} (type : BObjectT) (get : Answers → Except Exn α)
    (payload : BObject → α) (hget : ∀ o : BObject, get (o.setType type).answers = .ok (payload o))
    (h : ∀ calls, Alike Op.call answers calls o o.copy) : payload o = payload o.copy := by
  have hanswers : (o.setType type).answers = (o.copy.setType type).answers :=
    (h [.setType type]).2.2
  have hpayload := congrArg get hanswers
  rw [hget, hget] at hpayload
  exact Except.ok.inj hpayload

/-- The payloads that were not copied are those of a new object. -/
theorem othersEmpty_of_alike (h : ∀ calls, Alike Op.call answers calls o o.copy) :
    o.OthersEmpty := by
  have hcopy : o.copy.OthersEmpty := othersEmpty_copy
  constructor
  · intro htype
    rw [← type_copy] at htype
    have hstring := payload_copy .bString Answers.getString stringVal (fun _ => rfl) h
    exact hstring.trans (hcopy.stringVal htype)
  · intro htype
    rw [← type_copy] at htype
    have hint := payload_copy .bInteger Answers.getInt intVal (fun _ => rfl) h
    exact hint.trans (hcopy.intVal htype)
  · intro htype
    rw [← type_copy] at htype
    have hlist := payload_copy .bList Answers.getList listVal (fun _ => rfl) h
    exact hlist.trans (hcopy.listVal htype)
  · intro htype
    rw [← type_copy] at htype
    have hdict := payload_copy .bDict Answers.getDict dictVal (fun _ => rfl) h
    exact hdict.trans (hcopy.dictVal htype)

/-- A call that throws leaves its object as it was. -/
theorem state_of_call_stopped {op : Op} {e : Exn} {s : BObject}
    (h : op.call.run o = .stopped e s) : s = o := by
  have hmethod : ∀ method, (callMethod method).run o = .stopped e s → s = o := by
    intro method hrun
    unfold callMethod at hrun
    dsimp only at hrun
    split at hrun
    · exact (Outcome.stopped.inj hrun).2.symm
    · cases hrun
  cases op with
  | pushBack obj => exact hmethod _ h
  | addKeyValue key val => exact hmethod _ h
  | setType type => cases h

end

/-- No calls tell a copy from its original exactly if the payloads of the types that the original
does not have are empty, as they are if its type was never set. Calls that do not set the type never
tell them apart, and a call that throws changes nothing. -/
theorem copy_alike_iff (o : BObject) :
    ((∀ calls, Alike Op.call answers calls o o.copy) ↔ o.OthersEmpty) ∧
      (Reached Op.KeepsType o → o.OthersEmpty) ∧
      (∀ calls, (∀ op ∈ calls, op.KeepsType) → Alike Op.call answers calls o o.copy) ∧
      ∀ (op : Op) (o' s : BObject) (e : Exn), op.call.run o' = .stopped e s → s = o' := by
  refine ⟨⟨othersEmpty_of_alike, fun h calls => ?_⟩, Reached.othersEmpty, fun _ => alike_copy,
    fun _ _ _ _ => state_of_call_stopped⟩
  rw [h.copy_eq]
  exact Lib.alike_rfl

/-- A list that is set to be null loses its items in a copy. -/
theorem not_forall_copy_alike : ¬ ∀ o : BObject, Reached (fun _ => True) o →
    ∀ calls, Alike Op.call answers calls o o.copy := by
  intro hclaim
  have hreached : Reached (fun _ => True) ((ofList [0]).setType .bNull) :=
    @Reached.call _ _ (.ofList [0]) (.setType .bNull) trivial
  have hlist := (othersEmpty_of_alike (hclaim _ hreached)).listVal (by decide)
  exact absurd hlist (by decide)

end BObject

end Btor
