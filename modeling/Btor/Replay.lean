import Btor.Parser
import Btor.Buffer
import Btor.Syntax

/-!
# What the parser does with what it reads

`Parsed.replay` is the effect of parsing a value on the parser's fields and the heap, as a function
of the value read, and `Broken.replay` that of an input the parser gave up on, up to the place where
it did; `Broken.stop` is the reason it stopped for.

The heap that a value leaves is the old one followed by the value's objects, laid out in the order
in which they were created, a container before what it holds (`Parsed.replay_heap`).
-/

namespace Btor

namespace State

/-- The state after `consumeChar` has returned the bytes `l`. -/
def feed (l : Bytes) (s : State) : State :=
  { s with
    cursor := advance s.cursor l
    collectedInfoDict := if s.collectInfoDict then s.collectedInfoDict ++ l else s.collectedInfoDict
    consumeCalls := s.consumeCalls + l.length }

/-- The state after `consumeChar` has found no byte. -/
def failRead (s : State) : State := { s with consumeCalls := s.consumeCalls + 1 }

/-- The state after `getNewBObject`. -/
def alloc (obj : BObject) (s : State) : State :=
  { s with heap := s.heap ++ [obj], bObjects := s.bObjects ++ [s.heap.length] }

/-- The state after a change of the flag. -/
def collect (b : Bool) (s : State) : State := { s with collectInfoDict := b }

/-- The state after an addition to the length. -/
def addLength (n : Int64) (s : State) : State :=
  { s with collectedLength := s.collectedLength + n }

/-- The state after a change of one object. -/
def update (p : Ptr) (f : BObject → BObject) (s : State) : State :=
  { s with heap := s.heap.modify p f }

/-- No bytes change nothing. -/
@[simp] theorem feed_nil (s : State) : s.feed [] = s := by simp [feed]

/-- Bytes consumed in two parts. -/
@[simp] theorem feed_feed (l l' : Bytes) (s : State) : (s.feed l).feed l' = s.feed (l ++ l') := by
  unfold feed
  split_ifs <;> simp [advance_append, Nat.add_assoc]

section

variable (l : Bytes) (obj : BObject) (b : Bool) (n : Int64) (p : Ptr) (f : BObject → BObject)
  (s : State)

/-- Bytes that are consumed move the cursor. -/
@[simp] theorem feed_cursor : (s.feed l).cursor = advance s.cursor l := rfl

/-- An object that is made does not. -/
@[simp] theorem alloc_cursor : (s.alloc obj).cursor = s.cursor := rfl

/-- A change of the flag does not. -/
@[simp] theorem collect_cursor : (s.collect b).cursor = s.cursor := rfl

/-- A length does not. -/
@[simp] theorem addLength_cursor : (s.addLength n).cursor = s.cursor := rfl

/-- A change of an object does not. -/
@[simp] theorem update_cursor : (s.update p f).cursor = s.cursor := rfl

/-- A read at the end of the buffer does not. -/
@[simp] theorem failRead_cursor : s.failRead.cursor = s.cursor := rfl

/-- Each byte is consumed by one call. -/
@[simp] theorem feed_consumeCalls :
    (s.feed l).consumeCalls = s.consumeCalls + l.length := rfl

/-- An object that is made consumes nothing. -/
@[simp] theorem alloc_consumeCalls : (s.alloc obj).consumeCalls = s.consumeCalls := rfl

/-- A change of the flag consumes nothing. -/
@[simp] theorem collect_consumeCalls : (s.collect b).consumeCalls = s.consumeCalls := rfl

/-- A length consumes nothing. -/
@[simp] theorem addLength_consumeCalls : (s.addLength n).consumeCalls = s.consumeCalls := rfl

/-- A change of an object consumes nothing. -/
@[simp] theorem update_consumeCalls : (s.update p f).consumeCalls = s.consumeCalls := rfl

/-- A read at the end of the buffer is a call as well. -/
@[simp] theorem failRead_consumeCalls : s.failRead.consumeCalls = s.consumeCalls + 1 := rfl

/-- Bytes that are consumed leave the heap alone. -/
@[simp] theorem feed_heap : (s.feed l).heap = s.heap := rfl

/-- An object that is made is the last one of the heap. -/
@[simp] theorem alloc_heap : (s.alloc obj).heap = s.heap ++ [obj] := rfl

/-- A change of the flag leaves the heap alone. -/
@[simp] theorem collect_heap : (s.collect b).heap = s.heap := rfl

/-- A length leaves the heap alone. -/
@[simp] theorem addLength_heap : (s.addLength n).heap = s.heap := rfl

/-- A change of an object changes the heap there. -/
@[simp] theorem update_heap : (s.update p f).heap = s.heap.modify p f := rfl

/-- A read at the end of the buffer leaves the heap alone. -/
@[simp] theorem failRead_heap : s.failRead.heap = s.heap := rfl

/-- Bytes that are consumed collect no length. -/
@[simp] theorem feed_collectedLength : (s.feed l).collectedLength = s.collectedLength := rfl

/-- An object that is made collects no length. -/
@[simp] theorem alloc_collectedLength : (s.alloc obj).collectedLength = s.collectedLength := rfl

/-- A change of the flag collects no length. -/
@[simp] theorem collect_collectedLength : (s.collect b).collectedLength = s.collectedLength := rfl

/-- A length is collected. -/
@[simp] theorem addLength_collectedLength :
    (s.addLength n).collectedLength = s.collectedLength + n := rfl

/-- A change of an object collects no length. -/
@[simp] theorem update_collectedLength : (s.update p f).collectedLength = s.collectedLength := rfl

/-- Bytes that are consumed leave the flag alone. -/
@[simp] theorem feed_collectInfoDict : (s.feed l).collectInfoDict = s.collectInfoDict := rfl

/-- An object that is made leaves the flag alone. -/
@[simp] theorem alloc_collectInfoDict : (s.alloc obj).collectInfoDict = s.collectInfoDict := rfl

/-- A change of the flag is one. -/
@[simp] theorem collect_collectInfoDict : (s.collect b).collectInfoDict = b := rfl

/-- A length leaves the flag alone. -/
@[simp] theorem addLength_collectInfoDict :
    (s.addLength n).collectInfoDict = s.collectInfoDict := rfl

/-- A change of an object leaves the flag alone. -/
@[simp] theorem update_collectInfoDict : (s.update p f).collectInfoDict = s.collectInfoDict := rfl

/-- Bytes that are consumed are collected if the flag is set. -/
@[simp] theorem feed_collectedInfoDict : (s.feed l).collectedInfoDict =
    if s.collectInfoDict then s.collectedInfoDict ++ l else s.collectedInfoDict := rfl

/-- An object that is made collects no bytes. -/
@[simp] theorem alloc_collectedInfoDict :
    (s.alloc obj).collectedInfoDict = s.collectedInfoDict := rfl

/-- A change of the flag collects no bytes. -/
@[simp] theorem collect_collectedInfoDict :
    (s.collect b).collectedInfoDict = s.collectedInfoDict := rfl

/-- A length collects no bytes. -/
@[simp] theorem addLength_collectedInfoDict :
    (s.addLength n).collectedInfoDict = s.collectedInfoDict := rfl

/-- A change of an object collects no bytes. -/
@[simp] theorem update_collectedInfoDict :
    (s.update p f).collectedInfoDict = s.collectedInfoDict := rfl

end

end State

/-- `pushBack` on a list. -/
def BObject.push (q : Ptr) (o : BObject) : BObject := { o with listVal := o.listVal ++ [q] }

/-- `addKeyValue` on a dictionary. -/
def BObject.bind (k : Bytes) (q : Ptr) (o : BObject) : BObject :=
  { o with dictVal := o.dictVal.insert k q }

/-- The integer of a value, for `getInt`. -/
def Parsed.intVal : Parsed → Int64
  | .integer body => intOf body
  | _ => 0

/-- The effect of a key, before its value is parsed. -/
def Text.enter (k : Text) (s : State) : State :=
  if k.payload = infoKey then (s.feed k.bytes).collect true else s.feed k.bytes

/-- The effect of a key, after its value `t` has been parsed. -/
def Text.leave (k : Text) (t : Parsed) (s : State) : State :=
  if k.payload = infoKey then s.collect false
  else if k.payload = lengthKey then s.addLength t.intVal
  else s

mutual

/-- The effect of parsing a value. -/
def Parsed.replay : Parsed → State → State
  | .integer body, s =>
    (s.feed (Ascii.i :: (body ++ [Ascii.e]))).alloc (.ofInt (intOf body))
  | .string k, s => (s.feed k.bytes).alloc (.ofString k.payload)
  | .list ts, s =>
    (itemsReplay ts s.heap.length ((s.feed [Ascii.l]).alloc (.ofType .bList))).feed [Ascii.e]
  | .dict es, s =>
    (entriesReplay es s.heap.length ((s.feed [Ascii.d]).alloc (.ofType .bDict))).feed [Ascii.e]

/-- The effect of parsing the items of the list at `p`. -/
def itemsReplay : List Parsed → Ptr → State → State
  | [], _, s => s
  | t :: ts, p, s => itemsReplay ts p ((t.replay s).update p (.push s.heap.length))

/-- The effect of parsing the entries of the dictionary at `p`. -/
def entriesReplay : List (Text × Parsed) → Ptr → State → State
  | [], _, s => s
  | (k, t) :: es, p, s =>
    entriesReplay es p
      ((k.leave t (t.replay (k.enter s))).update p (.bind k.payload s.heap.length))

end

/-- The reason for which the parser gave up on a string. -/
def BrokenText.stop : BrokenText → Stop
  | atEnd _ => .threw .outOfRange
  | badByte _ c => .threw (.bParserException c)
  | short _ _ => .threw .outOfRange

/-- The effect of a string that the parser gave up on. -/
def BrokenText.replay : BrokenText → State → State
  | atEnd ds, s => (s.feed ds).failRead
  | badByte ds c, s => s.feed (ds ++ [c])
  | short ds p, s => (s.feed (ds ++ Ascii.colon :: p)).failRead

/-- The reason for which the parser gave up on an integer. -/
def BrokenInteger.stop : BrokenInteger → Stop
  | atEnd _ => .threw .outOfRange
  | badSign _ => .threw (.bParserException Ascii.minus)

/-- The effect of an integer that the parser gave up on, its `i` already read. -/
def BrokenInteger.replay : BrokenInteger → State → State
  | atEnd body, s => (s.feed body).failRead
  | badSign body, s => s.feed (body ++ [Ascii.minus])

mutual

/-- The reason for which the parser gave up on a value. -/
def Broken.stop : Broken → Stop
  | .noByte => .ranOff
  | .badByte c => .threw (.bParserException c)
  | .integer b => b.stop
  | .string b => b.stop
  | .list b => b.stop
  | .dict b => b.stop

/-- The reason for which the parser gave up on the items of a list. -/
def BrokenItems.stop : BrokenItems → Stop
  | .item b => b.stop
  | .atEnd _ => .threw .outOfRange
  | .next _ b => b.stop

/-- The reason for which the parser gave up on the entries of a dictionary. -/
def BrokenEntries.stop : BrokenEntries → Stop
  | .key b => b.stop
  | .value _ b => b.stop
  | .notInteger _ _ => .threw .bTypeException
  | .atEnd _ _ => .threw .outOfRange
  | .next _ _ b => b.stop

end

mutual

/-- The effect of a value that the parser gave up on. -/
def Broken.replay : Broken → State → State
  | .noByte, s => s
  | .badByte _, s => s
  | .integer b, s => b.replay (s.feed [Ascii.i])
  | .string b, s => b.replay s
  | .list b, s => b.replay s.heap.length ((s.feed [Ascii.l]).alloc (.ofType .bList))
  | .dict b, s => b.replay s.heap.length ((s.feed [Ascii.d]).alloc (.ofType .bDict))

/-- The effect of items that the parser gave up on, of the list at `p`. -/
def BrokenItems.replay : BrokenItems → Ptr → State → State
  | .item b, _, s => b.replay s
  | .atEnd t, p, s => (t.replay s).update p (.push s.heap.length)
  | .next t b, p, s => b.replay p ((t.replay s).update p (.push s.heap.length))

/-- The effect of entries that the parser gave up on, of the dictionary at `p`. -/
def BrokenEntries.replay : BrokenEntries → Ptr → State → State
  | .key b, _, s => b.replay s
  | .value k b, _, s => b.replay (k.enter s)
  | .notInteger k t, _, s => t.replay (k.enter s)
  | .atEnd k t, p, s =>
    (k.leave t (t.replay (k.enter s))).update p (.bind k.payload s.heap.length)
  | .next k t b, p, s =>
    b.replay p ((k.leave t (t.replay (k.enter s))).update p (.bind k.payload s.heap.length))

end

end Btor
