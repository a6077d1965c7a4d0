import Btor.Butils

/-!
# The announce request

The functions of `bhttp.cpp` that put the request to the tracker together, and the call of `main`
that sends it. `getServerAddress` and `getAnnouncePath` cut the announce URL at its last slash. The
index of the slash is a `size_t`, which both keep in an `unsigned int` and then compare with
`std::string::npos`. The width of a `size_t` depends on the platform that the program is built for.
-/

namespace Btor

/-- `std::to_string` of a `long long`. -/
def stdToString (x : Int64) : Bytes :=
  let magnitude := Lib.numeral 10 (fun d => UInt8.ofNat (48 + d)) x.toInt.natAbs
  if x < 0 then Ascii.minus :: magnitude else magnitude

/-- The query of an announce request. -/
def buildAnnounceParameters (metainfo : Metainfo) (peerId bEvent : Bytes) : Bytes :=
  let hash := metainfo.infoHashHex
  let encodedHash := urlEncode hash
  literal "?info_hash=" ++ encodedHash ++ literal "&peer_id=" ++ peerId ++
    literal "&uploaded=0&downloaded=0&left=" ++ stdToString metainfo.totalLength ++
    literal "&event=" ++ bEvent ++ literal "&port=6886"

/-! ## The announce URL -/

/-- The platforms of the project file. -/
inductive Platform where
  | win32
  | x64
  deriving DecidableEq, Repr

/-- The number of values of a `size_t`. -/
def Platform.sizeRange : Platform → ℕ
  | win32 => 2^32
  | x64 => 2^64

/-- The size of a pointer. -/
def Platform.pointerSize : Platform → ℕ
  | win32 => 4
  | x64 => 8

/-- `std::string::npos` -/
def Platform.npos (platform : Platform) : ℕ := platform.sizeRange - 1

/-- How the split of an announce URL may end without a part of it. -/
inductive UrlFailure where
  /-- `exit(EXIT_FAILURE)` -/
  | exit
  /-- The `std::out_of_range` of `substr`. -/
  | outOfRange
  deriving DecidableEq, Repr

/-- `find_last_of` for one character: the last index with it, or `npos`. -/
def findLastOf (platform : Platform) (s : Bytes) (c : UInt8) : ℕ :=
  match s.reverse.findIdx? (· == c) with
  | some i => s.length - 1 - i
  | none => platform.npos

/-- `substr`, which throws for a position past the end. -/
def substr (s : Bytes) (pos count : ℕ) : Except UrlFailure Bytes :=
  if pos ≤ s.length then return (s.drop pos).take count else throw .outOfRange

section

variable (platform : Platform) (announceUrl : Bytes)

/-- The `pathSeperatorIndex` of both functions, which exit without one. -/
def pathSeperatorIndex : Except UrlFailure UInt32 :=
  let index := UInt32.ofNat (findLastOf platform announceUrl Ascii.slash)
  if index.toNat = platform.npos then throw .exit else return index

/-- The announce URL up to the separator. -/
def getServerAddress : Except UrlFailure Bytes := do
  let index ← pathSeperatorIndex platform announceUrl
  substr announceUrl 0 index.toNat

/-- The announce URL after the separator. The sum is one of `unsigned int`. -/
def getAnnouncePath : Except UrlFailure Bytes := do
  let index ← pathSeperatorIndex platform announceUrl
  substr announceUrl (index + 1).toNat platform.npos

end

/-- The server and the path that `main` passes to `makeGetRequest`. -/
def startRequest (platform : Platform) (metainfo : Metainfo) (uniqueId : Bytes) :
    Except UrlFailure (Bytes × Bytes) := do
  let builtAddress := buildAnnounceParameters metainfo uniqueId (literal "started")
  let serverAddr ← getServerAddress platform metainfo.announce
  let announcePath ← getAnnouncePath platform metainfo.announce
  return (serverAddr, literal "/" ++ announcePath ++ builtAddress)

end Btor
