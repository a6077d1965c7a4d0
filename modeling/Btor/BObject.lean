import Btor.Bytes
import Btor.Lib.OrderedMap

/-!
# BObject and the memory manager

`BObject` of `bencode.h` and `bobject.cpp`, with its four payloads, of which the type says the one
in use, and `BMemoryManager`. An object refers to others by pointers. The heap is the list of all
objects that `getNewBObject` has created, in order, and a pointer is the index of its object.
-/

namespace Btor

open Lib (OrderedMap)

/-- A `BObject*`: the index of the object in the heap. -/
abbrev Ptr := ℕ

/-- The exceptions that the parser and the objects throw. -/
inductive Exn where
  | bTypeException
  | bDictKeyException
  | bParserException (c : UInt8)
  | outOfRange
deriving DecidableEq

/-- `BObject_t` -/
inductive BObjectT where
  | bString
  | bInteger
  | bList
  | bDict
  | bNull
deriving DecidableEq

/-- `BObject` -/
structure BObject where
  type : BObjectT
  stringVal : Bytes := []
  intVal : Int64 := 0
  listVal : List Ptr := []
  dictVal : OrderedMap Bytes Ptr := .empty

namespace BObject

/-- `BObject()` -/
def new : BObject := { type := .bNull }

/-- `BObject(const BObject_t type)` -/
def ofType (initType : BObjectT) : BObject := { type := initType }

/-- `BObject(int64_t)` -/
def ofInt (initInt : Int64) : BObject := { type := .bInteger, intVal := initInt }

/-- `BObject(std::string initString)` -/
def ofString (initString : Bytes) : BObject := { type := .bString, stringVal := initString }

/-- `BObject(const BObject& other)` -/
def copy (other : BObject) : BObject :=
  match other.type with
  | .bInteger => { type := other.type, intVal := other.intVal }
  | .bString => { type := other.type, stringVal := other.stringVal }
  | .bList => { type := other.type, listVal := other.listVal }
  | .bDict => { type := other.type, dictVal := other.dictVal }
  | .bNull => { type := other.type }

/-- `BObject(std::vector<BObject*>)` -/
def ofList (initList : List Ptr) : BObject := { type := .bList, listVal := initList }

/-- `BObject(std::map<std::string, BObject*>)` -/
def ofDict (initDict : OrderedMap Bytes Ptr) : BObject := { type := .bDict, dictVal := initDict }

/-- `BObject::getType` -/
def getType (o : BObject) : BObjectT := o.type

/-- `BObject::setType` -/
def setType (o : BObject) (type : BObjectT) : BObject := { o with type := type }

/-- `BObject::pushBack` -/
def pushBack (o : BObject) (obj : Ptr) : Except Exn BObject :=
  if o.type ≠ .bList then .error .bTypeException
  else .ok { o with listVal := o.listVal ++ [obj] }

/-- `BObject::addKeyValue` -/
def addKeyValue (o : BObject) (key : Bytes) (val : Ptr) : Except Exn BObject :=
  if o.type ≠ .bDict then .error .bTypeException
  -- `std::map::insert` leaves an entry of the same key as it is.
  else .ok { o with dictVal := o.dictVal.insert key val }

/-- `BObject::checkIfHasKey` -/
def checkIfHasKey (o : BObject) (searchKey : Bytes) : Except Exn Bool :=
  if o.type ≠ .bDict then .error .bTypeException
  else .ok (o.dictVal.get? searchKey).isSome

/-- `BObject::getByKey` -/
def getByKey (o : BObject) (searchKey : Bytes) : Except Exn Ptr :=
  if o.type ≠ .bDict then .error .bTypeException
  else
    match o.dictVal.get? searchKey with
    | some val => .ok val
    | none => .error .bDictKeyException

/-- `BObject::getInt` -/
def getInt (o : BObject) : Except Exn Int64 :=
  if o.type ≠ .bInteger then .error .bTypeException else .ok o.intVal

/-- `BObject::getString` -/
def getString (o : BObject) : Except Exn Bytes :=
  if o.type ≠ .bString then .error .bTypeException else .ok o.stringVal

/-- `BObject::getList` -/
def getList (o : BObject) : Except Exn (List Ptr) :=
  if o.type ≠ .bList then .error .bTypeException else .ok o.listVal

/-- `BObject::getDict` -/
def getDict (o : BObject) : Except Exn (OrderedMap Bytes Ptr) :=
  if o.type ≠ .bDict then .error .bTypeException else .ok o.dictVal

/-- `BObject::getLength`, in an `unsigned int`. -/
def getLength (o : BObject) : Except Exn UInt32 :=
  match o.type with
  | .bList => .ok (UInt32.ofNat o.listVal.length)
  | .bString => .ok (UInt32.ofNat o.stringVal.length)
  | .bDict => .ok (UInt32.ofNat o.dictVal.entries.length)
  | .bInteger | .bNull => .error .bTypeException

/-- The pointers that an object holds. -/
def children (obj : BObject) : List Ptr := obj.listVal ++ obj.dictVal.entries.map (·.2)

end BObject

/-- `BMemoryManager`: the objects it created, and the pointers it keeps to delete them by. -/
structure BMemoryManager where
  heap : List BObject := []
  bObjects : List Ptr := []

end Btor
