import Btor.Butils
import Btor.Lib.Run

/-!
# Peers

`BPeer` of `bpeer.h` and `bpeer.cpp`: a peer's address and socket, the methods that work on the
socket, and the handshake. The operating system is a parameter, `Os`, which says what each call
returns after the calls made before. A method runs on the list of all calls made so far and appends
its own. `tryReceive` and `closeConnection` are declared to return an `int` and have no `return`;
what they return is not modelled, and nothing reads it.
-/

namespace Btor

open Lib (Run)

/-- A `SOCKET`, where `none` is `INVALID_SOCKET`. -/
abbrev Socket := Option ℕ

/-- `sockaddr_in`, with the address as the bytes of `sin_addr` in memory. -/
structure SockaddrIn where
  sinFamily : UInt16
  /-- The port in network byte order. -/
  sinPort : UInt16
  sinAddr : Vector UInt8 4
  sinZero : Vector UInt8 8
  deriving DecidableEq

/-- The calls of the operating system that a peer makes. -/
inductive SysCall where
  | socket
  | connect (s : Socket) (address : SockaddrIn)
  /-- `len` bytes of `buf` are sent. -/
  | send (s : Socket) (buf : Bytes) (len : Int32)
  | select (s : Socket)
  | recv (s : Socket)
  | shutdown (s : Socket)
  | closesocket (s : Socket)
  | wsaCleanup
  deriving DecidableEq

/-- The operating system. What it does may depend on the calls made before. -/
structure Os where
  /-- The socket that `socket` returns. -/
  newSocket : List SysCall → Socket
  /-- What a call of another function returns. -/
  result : List SysCall → SysCall → Int32
  /-- The socket is in the set that `select` leaves. -/
  isSet : List SysCall → Bool
  /-- The bytes that `recv` puts into its buffer. -/
  received : List SysCall → Bytes
  /-- What `InetPton`, the function for wide characters, makes of the string at a place in memory
  and of the bytes that are in the address. -/
  inetPton : (ℕ → UInt16) → Vector UInt8 4 → Vector UInt8 4

/-- A machine that gives out socket 4, and on which every other call returns zero. -/
def quietOs : Os where
  newSocket _ := some 4
  result _ _ := 0
  isSet _ := false
  received _ := []
  inetPton _ memory := memory

/-- The end of the process by `exit(EXIT_FAILURE)`. -/
inductive Exit where
  | failure
  deriving DecidableEq

/-- A run of code that calls the operating system. -/
abbrev Sys := Run (List SysCall) Exit

/-- `SOCKET_ERROR` -/
def socketError : Int32 := -1

/-- `htons`, on the little-endian machines of both platforms. -/
def htons (x : UInt16) : UInt16 := x <<< 8 ||| x >>> 8

/-- The bytes that `send` is given. -/
def SysCall.sent : SysCall → Bytes
  | .send _ buf len => buf.take len.toNatClampNeg
  | _ => []

/-- `strlen` of the `c_str()` of a string: it counts up to the first zero. -/
def strlen (s : Bytes) : ℕ := (s.takeWhile (· != 0)).length

/-- The memory from `c_str()` on: the string, the zero after it, and what is behind. -/
def cStr (s : Bytes) (behind : ℕ → UInt8) (i : ℕ) : UInt8 :=
  if i < s.length then s.getD i 0 else if i = s.length then 0 else behind i

/-- Memory read as wide characters. -/
def wideChars (memory : ℕ → UInt8) (i : ℕ) : UInt16 :=
  (memory (2 * i)).toUInt16 ||| (memory (2 * i + 1)).toUInt16 <<< 8

/-- `BPeer`, without the flags of the choking state, which none of these methods reads. -/
structure BPeer where
  peerNumId : Int32
  /-- Holds the connection info for this peer. -/
  peerAddress : SockaddrIn
  /-- One socket per connection. -/
  peerSocket : Socket
  readableIp : Bytes
  port : Int32

section

variable (os : Os)

/-- A call of the operating system. -/
def call (c : SysCall) : Sys Int32 where
  run calls := .returned (os.result calls c) (calls ++ [c])

/-- `socket(AF_INET, SOCK_STREAM, IPPROTO_TCP)` -/
def newSocket : Sys Socket where
  run calls := .returned (os.newSocket calls) (calls ++ [.socket])

/-- `FD_ISSET`, after `select`. -/
def isSet : Sys Bool where
  run calls := .returned (os.isSet calls) calls

/-- The buffer of `recv`, after the call. -/
def recvbuf : Sys Bytes where
  run calls := .returned (os.received calls) calls

namespace BPeer

/-- `BPeer::BPeer`. The address is in memory that `new` does not initialize, and holds the bytes
`memory` before `InetPton`. The string is cast to one of wide characters. -/
def new (memory : Vector UInt8 4) (behind : ℕ → UInt8) (ipaddr : Bytes) (port : UInt16)
    (peerNumId : Int32) : Sys BPeer := do
  let sAddr := os.inetPton (wideChars (cStr ipaddr behind)) memory
  let peerSocket ← newSocket os
  return {
    peerNumId := peerNumId
    peerAddress := {
      sinFamily := 2
      sinPort := htons port
      sinAddr := sAddr
      sinZero := .replicate 8 0 }
    peerSocket := peerSocket
    readableIp := ipaddr
    port := port.toUInt32.toInt32 }

variable (peer : BPeer)

/-- `BPeer::~BPeer` -/
def destructor : Sys Unit := do
  let _ ← call os (.closesocket peer.peerSocket)

/-- `BPeer::tryConnect`. A comment says that the socket is closed if it cannot connect; it is
not. -/
def tryConnect : Sys Int32 := do
  let result ← call os (.connect peer.peerSocket peer.peerAddress)
  if result < 0 then return -1 else return 0

/-- `BPeer::sendMessage`, for a message that is passed by its `c_str()`. -/
def sendMessage (msg : Bytes) : Sys Int32 := do
  let iResult ← call os (.send peer.peerSocket msg (Int32.ofNat (strlen msg)))
  if iResult = socketError then do
    let _ ← call os (.closesocket peer.peerSocket)
    return -1
  else return 0

/-- The end of the process after an error: the socket is closed, and `exit` called. -/
def fail : Sys Unit := do
  let _ ← call os (.closesocket peer.peerSocket)
  let _ ← call os .wsaCleanup
  .stop .failure

/-- `BPeer::tryReceive` -/
def tryReceive : Sys Unit := do
  let _ ← call os (.select peer.peerSocket)
  let ready ← isSet os
  if ready then do
    let iResult ← call os (.recv peer.peerSocket)
    if 0 < iResult then do
      -- Echo what was received back to the sender.
      let recvbuf ← recvbuf os
      let iSendResult ← call os (.send peer.peerSocket recvbuf iResult)
      if iSendResult = socketError then fail os peer else return ()
    else if iResult = 0 then return ()
    else fail os peer
  else return ()

/-- `BPeer::closeConnection` -/
def closeConnection : Sys Unit := do
  let iResult ← call os (.shutdown peer.peerSocket)
  if iResult = socketError then fail os peer
  else do
    -- The handle stays in `peerSocket`.
    let _ ← call os (.closesocket peer.peerSocket)

end BPeer

end

/-! ## The handshake -/

/-- `BState`, with the fields that the handshake is made of. -/
structure BState where
  metainfo : Metainfo
  uniqueId : Bytes

/-- `BPeer::getHandshake` -/
def getHandshake (state : BState) : Bytes :=
  literal "5BitTorrent protocol00000000" ++ state.metainfo.infoHashRaw ++ state.uniqueId

end Btor
