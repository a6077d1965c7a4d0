import Btor.BObject
import Btor.Lib.Run

/-!
# The parser of `bencode.cpp`

`BParser` of `bencode.h` with its five mutually recursive functions. A run works on the parser's
fields and the memory manager together, and on the buffer it was given. The recursion and the loops
of the source have no bound, so each function takes a bound on their number, `fuel`, and stops with
`outOfFuel` past it (`Btor/Termination.lean` shows how much is enough).

Signed overflow of the accumulators wraps around. The cursor is an `unsigned int`, which wraps
around in a buffer of `2^32` bytes or more.
-/

namespace Btor

open Lib (Run Outcome)

/-- The fields of `BParser` other than the buffer and the memory manager it is given. -/
structure BParser where
  cursor : UInt32 := 0
  collectInfoDict : Bool := false
  collectedLength : Int64 := 0
  collectedInfoDict : Bytes := []

/-- What a run works on. `consumeCalls` counts the calls of `consumeChar`; nothing reads it. -/
structure State extends BParser, BMemoryManager where
  consumeCalls : ℕ := 0

/-- Why a run stops without returning. -/
inductive Stop where
  /-- An exception is thrown. -/
  | threw (e : Exn)
  /-- Control reaches the closing brace of `parseArbitrary`. -/
  | ranOff
  /-- An assertion fails. -/
  | assertFailed
  /-- A pointer that is no object's is followed. -/
  | badPointer
  /-- The bound on the number of steps is used up. -/
  | outOfFuel
deriving DecidableEq

/-- A run of a method of `BParser`. -/
abbrev Parse := Run State Stop

/-- `BParser::BParser()`, with a memory manager to work with. -/
def fresh (m : BMemoryManager) : State := { toBParser := {}, toBMemoryManager := m }

/-- `throw` -/
def throw {α : Type} (e : Exn) : Parse α := .stop (.threw e)

/-- `assert` -/
def assert (c : Bool) : Parse Unit := if c then pure () else .stop .assertFailed

/-- `BMemoryManager::getNewBObject`, on the object that the constructor makes of its argument. -/
def getNewBObject (obj : BObject) : Parse Ptr where
  run s := .returned s.heap.length
    { s with heap := s.heap ++ [obj], bObjects := s.bObjects ++ [s.heap.length] }

/-- `p->method()`, for a method that reads its object. -/
def deref {α : Type} (p : Ptr) (method : BObject → Except Exn α) : Parse α where
  run s :=
    match s.heap[p]? with
    -- The parser follows its own pointers only, so this is never reached.
    | none => .stopped .badPointer s
    | some obj =>
      match method obj with
      | .error e => .stopped (.threw e) s
      | .ok a => .returned a s

/-- `p->method()`, for a method that changes its object. -/
def derefSet (p : Ptr) (method : BObject → Except Exn BObject) : Parse Unit where
  run s :=
    match s.heap[p]? with
    | none => .stopped .badPointer s
    | some obj =>
      match method obj with
      | .error e => .stopped (.threw e) s
      | .ok obj' => .returned () { s with heap := s.heap.set p obj' }

/-- `this->collectInfoDict = b` -/
def setCollectInfoDict (b : Bool) : Parse Unit where
  run s := .returned () { s with collectInfoDict := b }

/-- `this->collectedLength += n` -/
def addCollectedLength (n : Int64) : Parse Unit where
  run s := .returned () { s with collectedLength := s.collectedLength + n }

/-- `BParser::getCollectedLength` -/
def BParser.getCollectedLength (b : BParser) : Int64 := b.collectedLength

/-- `BParser::getCollectedInfoDict` -/
def BParser.getCollectedInfoDict (b : BParser) : Bytes := b.collectedInfoDict

section

variable (buf : Bytes)

/-- `this->cursor < _parseBuf->size()` -/
def inBuffer : Parse Bool where
  run s := .returned (s.cursor.toNat < buf.length) s

/-- `BParser::consumeChar` -/
def consumeChar : Parse UInt8 where
  run s :=
    let s := { s with consumeCalls := s.consumeCalls + 1 }
    -- `at` throws past the end of the buffer, before anything is collected or moved.
    match buf[s.cursor.toNat]? with
    | none => .stopped (.threw .outOfRange) s
    | some tmp =>
      let s := if s.collectInfoDict then
        { s with collectedInfoDict := s.collectedInfoDict ++ [tmp] } else s
      .returned tmp { s with cursor := s.cursor + 1 }

/-- `BParser::peekChar` -/
def peekChar : Parse UInt8 where
  run s :=
    -- A byte that is only looked at is neither counted nor collected.
    match buf[s.cursor.toNat]? with
    | none => .stopped (.threw .outOfRange) s
    | some ch => .returned ch s

/-- The loop of `extractString` over the digits of the length, entered with `curChar` read. -/
def extractLength : ℕ → UInt8 → Int32 → Parse Int32
  | 0, _, _ => .stop .outOfFuel
  | fuel + 1, curChar, stringlength =>
    -- The colon may be the first byte: a length of no digits is zero.
    if curChar = Ascii.colon then pure stringlength
    else if isDigit curChar then do
      let next ← consumeChar buf
      -- Neither leading zeros nor an overflow of the `int` are noticed.
      extractLength fuel next (stringlength * 10 + Int32.ofNat (digit curChar))
    else throw (.bParserException curChar)

/-- The loop of `extractString` that reads `stringlength` bytes. -/
def extractBytes : ℕ → Int32 → Bytes → Parse Bytes
  | 0, _, _ => .stop .outOfFuel
  | fuel + 1, stringlength, rstring =>
    -- The test is for zero, so a length that has overflowed below zero counts down through all
    -- of the `int`.
    if stringlength = 0 then pure rstring
    else do
      let c ← consumeChar buf
      extractBytes fuel (stringlength - 1) (rstring ++ [c])

/-- `BParser::extractString` -/
def extractString (fuel : ℕ) : Parse Bytes := do
  let curChar ← consumeChar buf
  let stringlength ← extractLength buf fuel curChar 0
  extractBytes buf fuel stringlength []

/-- `BParser::parseString` -/
def parseString (fuel : ℕ) : Parse Ptr := do
  let bString ← extractString buf fuel
  getNewBObject (.ofString bString)

/-- The loop of `parseInteger`, which returns `intVal` and `negativeNumber`. -/
def parseIntegerLoop : ℕ → Int64 → Bool → Bool → Parse (Int64 × Bool)
  | 0, _, _, _ => .stop .outOfFuel
  | fuel + 1, intVal, firstChar, negativeNumber => do
    let curChar ← consumeChar buf
    -- The loop ends at the first `e`, also with no digit before it.
    if curChar = Ascii.e then pure (intVal, negativeNumber)
    else if curChar = Ascii.minus ∧ firstChar = false then throw (.bParserException Ascii.minus)
    else
      -- A byte that is neither the sign nor a digit is passed over.
      parseIntegerLoop fuel
        (if isDigit curChar then intVal * 10 + Int64.ofNat (digit curChar) else intVal) false
        (if curChar = Ascii.minus then true else negativeNumber)

/-- `BParser::parseInteger` -/
def parseInteger (fuel : ℕ) : Parse Ptr := do
  let curChar ← consumeChar buf
  assert (curChar = Ascii.i)
  let r ← parseIntegerLoop buf fuel 0 true false
  getNewBObject (.ofInt (if r.2 then -r.1 else r.1))

mutual

/-- `BParser::parseArbitrary`. Every branch of the body of its loop returns or throws, so the body
runs at most once. -/
def parseArbitrary : ℕ → Parse Ptr
  | 0 => .stop .outOfFuel
  | fuel + 1 => do
    let more ← inBuffer buf
    if more then do
      let ch ← peekChar buf
      if ch = Ascii.i then parseInteger buf fuel
      else if ch = Ascii.l then parseList fuel
      else if ch = Ascii.d then parseDictionary fuel
      else if isDigit ch then parseString buf fuel
      else throw (.bParserException ch)
    -- The loop is not entered at the end of the buffer, and no `return` follows it.
    else .stop .ranOff

/-- `BParser::parseList` -/
def parseList : ℕ → Parse Ptr
  | 0 => .stop .outOfFuel
  | fuel + 1 => do
    let curChar ← consumeChar buf
    assert (curChar = Ascii.l)
    let bObj ← getNewBObject (.ofType .bList)
    parseListLoop fuel bObj

/-- The loop of `parseList`, and the end of the list. -/
def parseListLoop : ℕ → Ptr → Parse Ptr
  | 0, _ => .stop .outOfFuel
  | fuel + 1, bObj => do
    -- The first item is parsed before the loop looks for the `e`, so an empty list is not one.
    let curVal ← parseArbitrary fuel
    derefSet bObj (·.pushBack curVal)
    let ch ← peekChar buf
    if ch ≠ Ascii.e then parseListLoop fuel bObj
    else do
      let _ ← consumeChar buf
      pure bObj

/-- `BParser::parseDictionary` -/
def parseDictionary : ℕ → Parse Ptr
  | 0 => .stop .outOfFuel
  | fuel + 1 => do
    let curChar ← consumeChar buf
    assert (curChar = Ascii.d)
    let bObj ← getNewBObject (.ofType .bDict)
    parseDictionaryLoop fuel bObj

/-- The loop of `parseDictionary`, and the end of the dictionary. The variable `grabLength` of the
source is set and never read. -/
def parseDictionaryLoop : ℕ → Ptr → Parse Ptr
  | 0, _ => .stop .outOfFuel
  | fuel + 1, bObj => do
    let curKey ← extractString buf fuel
    -- The flag is one for the whole parse. A key `info` further in sets and clears the same one.
    (if curKey = infoKey then setCollectInfoDict true else pure ())
    let curVal ← parseArbitrary fuel
    (if curKey = infoKey then setCollectInfoDict false
      else if curKey = lengthKey then do
        let n ← deref curVal BObject.getInt
        addCollectedLength n
      else pure ())
    -- A repeated key has had its effects by now, although its value is not inserted.
    derefSet bObj (·.addKeyValue curKey curVal)
    let ch ← peekChar buf
    if ch ≠ Ascii.e then parseDictionaryLoop fuel bObj
    else do
      let _ ← consumeChar buf
      pure bObj

end

/-- `BParser::parseBencodedString` -/
def parseBencodedString (fuel : ℕ) : Parse Ptr where
  run s := (parseArbitrary buf fuel).run { s with cursor := 0 }

end

end Btor
