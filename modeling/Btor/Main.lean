import Btor.BPeer
import Btor.Parser

/-!
# The main function

The two parts of `main` in `btor.cpp` that read what the parser returned: `startUp` makes the
metainfo of the torrent (`readTorrent`) and the file of an empty bitfield, where there is none yet,
and `readPeers` finds the list of peers in the tracker's response (`readReply`) and makes the peers
of it. Output to the console is left out.
-/

namespace Btor

open Lib (Run)

/-- What `main` works on: the parser with its memory manager, and the system calls made so far. -/
structure World where
  state : State
  calls : List SysCall := []

/-- Why `main` ends before its loop. -/
inductive Halt where
  /-- The parser or an object stops it. Nothing in `main` catches an exception. -/
  | stopped (e : Stop)
  /-- The `std::invalid_argument` of the constructor of `httplib::Client`. -/
  | invalidArgument
  /-- An operation is undefined. -/
  | undefined (u : Undefined)
  /-- `exit` -/
  | exit
  deriving DecidableEq

/-- A run of a part of `main`. -/
abbrev Main := Run World Halt

namespace Main

variable {α : Type}

/-- A call of a method of the parser or of an object. -/
def parser (x : Parse α) : Main α where
  run w :=
    match x.run w.state with
    | .returned a s => .returned a { w with state := s }
    | .stopped e s => .stopped (.stopped e) { w with state := s }

/-- A call of a method of a peer. -/
def peer (x : Sys α) : Main α where
  run w :=
    match x.run w.calls with
    | .returned a calls => .returned a { w with calls := calls }
    | .stopped _ calls => .stopped .exit { w with calls := calls }

/-- A computation that may be undefined. -/
def compute (x : Except Undefined α) : Main α :=
  match x with
  | .ok a => pure a
  | .error u => .stop (.undefined u)

/-- The fields of the parser. -/
def bParser : Main BParser where
  run w := .returned w.state.toBParser w

/-- `p->getByKey(key)` -/
def getByKey (p : Ptr) (key : Bytes) : Main Ptr := parser (deref p (·.getByKey key))

/-- `p->getByKey(key)->method()` -/
def callByKey (method : BObject → Except Exn α) (p : Ptr) (key : Bytes) : Main α := do
  let q ← getByKey p key
  parser (deref q method)

/-- `*p->getByKey(key)->getInt()` -/
def getIntByKey (p : Ptr) (key : Bytes) : Main Int64 := callByKey BObject.getInt p key

/-- `*p->getByKey(key)->getString()` -/
def getStringByKey (p : Ptr) (key : Bytes) : Main Bytes := callByKey BObject.getString p key

end Main

/-! ## From the torrent to the bitfield -/

/-- `fileio::createEmptyFile`: the offset at which the last byte of the file is written. -/
def createEmptyFile (filesize : UInt64) : UInt64 := filesize - 1

/-- `main` from the bytes of the torrent to the metainfo. `final` and `memory` are those of
`getSHA1`. -/
def readTorrent (final : Bytes → Vector UInt32 5) (memory : ℕ → UInt8) (torrent : Bytes)
    (fuel : ℕ) : Main Metainfo := do
  let root ← .parser (parseBencodedString torrent fuel)
  let bParser ← Main.bParser
  let info ← Main.getByKey root infoKey
  let pieceLength ← Main.getIntByKey info (literal "piece length")
  let announce ← Main.getStringByKey root (literal "announce")
  return getSHA1 final memory {
    announce := announce
    infodict := bParser.getCollectedInfoDict
    totalLength := bParser.getCollectedLength
    -- A negative length becomes a large one.
    pieceLength := pieceLength.toUInt64 }

/-- `main` from the bytes of the torrent to the file of the bitfield, which does not exist yet. It
ends with the offset that is sought in the file. -/
def startUp (final : Bytes → Vector UInt32 5) (memory : ℕ → UInt8) (torrent : Bytes) (fuel : ℕ) :
    Main UInt64 := do
  let metainfo ← readTorrent final memory torrent fuel
  let bitfieldSize ← .compute (getBitfieldSize metainfo)
  return createEmptyFile bitfieldSize

/-! ## From the response to the peers -/

/-- `main` from the response of the tracker to the objects of the list of peers. -/
def readReply (response : Bytes) (fuel : ℕ) : Main (List Ptr) := do
  if response = [] then .stop .exit
  else do
    let reply ← .parser (parseBencodedString response fuel)
    let failed ← .parser (deref reply (·.checkIfHasKey (literal "failure reason")))
    if failed then do
      let _ ← Main.getStringByKey reply (literal "failure reason")
      .stop .exit
    else do
      let _ ← Main.getIntByKey reply (literal "complete")
      let _ ← Main.getIntByKey reply (literal "incomplete")
      let _ ← Main.getIntByKey reply (literal "interval")
      let peers ← Main.getByKey reply (literal "peers")
      let dictType ← .parser (deref peers fun o => .ok o.getType)
      if dictType = .bString then do
        let _ ← Main.getStringByKey reply (literal "peers")
        -- The binary mode is not supported.
        .stop .exit
      else do
        let peers ← Main.getByKey reply (literal "peers")
        .parser (deref peers BObject.getList)

section

variable (os : Os) (memory : ℕ → Vector UInt8 4) (behind : ℕ → ℕ → UInt8)

/-- The loop of `main` over the list of peers, with the `id` of the next one. The `new` of that peer
finds the bytes `memory id` in its address, and `behind id` are those behind the string of its
address. -/
def newPeers : ℕ → List Ptr → Main (List BPeer)
  | _, [] => return []
  | id, p :: peers => do
    let peerIP ← Main.getStringByKey p (literal "ip")
    let port ← Main.getIntByKey p (literal "port")
    -- The port goes to an `int`, and from there to an `unsigned short`. An `id` that leaves `int`
    -- is taken to wrap around.
    let bpeer ← .peer (BPeer.new os (memory id) (behind id) peerIP port.toInt32.toUInt32.toUInt16
      (Int32.ofNat id))
    let bpeers ← newPeers (id + 1) peers
    return bpeer :: bpeers

/-- `main` from the response of the tracker to the list of peers. -/
def readPeers (response : Bytes) (fuel : ℕ) : Main (List BPeer) := do
  let list ← readReply response fuel
  newPeers os memory behind 0 list

end

end Btor
