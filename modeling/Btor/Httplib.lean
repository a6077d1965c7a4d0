import Btor.Bhttp

/-!
# The client of the HTTP library

The part of `httplib.h` between `makeGetRequest` and the connection: the constructor of
`httplib::Client`, which takes the scheme, the host and the port out of a string, the check of the
path in `handle_request`, and `write_request`, which makes the bytes that are sent. `makeGetRequest`
passes both strings by their `c_str()` and sets no option of the client, so that there is no proxy,
no authentication and no `keep_alive`. The connection itself is left to the environment.
-/

namespace Btor

/-- What a function reads of a string that it gets by its `c_str()`. -/
def cString (s : Bytes) : Bytes := s.takeWhile (· != 0)

/-- A text without a zero is a string as a whole. -/
theorem cString_of_notMem {s : Bytes} (h : 0 ∉ s) : cString s = s := by
  unfold cString
  rw [List.takeWhile_eq_self_iff]
  intro c hc
  rw [bne_iff_ne]
  rintro rfl
  exact h hc

/-- A string has no zero. -/
theorem zero_notMem_cString (s : Bytes) : 0 ∉ cString s := by
  intro h
  exact absurd (List.mem_takeWhile_imp h) (by decide)

namespace Httplib

/-! ## The constructor of the client -/

/-- `ClientImpl`, or `SSLClient` if `isSsl`. -/
structure ClientImpl where
  isSsl : Bool
  host : Bytes
  port : Int32
  deriving DecidableEq

/-- The exceptions of the constructor of `Client`. -/
inductive ClientFailure where
  /-- The scheme is not supported. -/
  | invalidArgument
  /-- The `std::out_of_range` of `std::stoi`. -/
  | outOfRange
  deriving DecidableEq

/-- `[^:/?#]` -/
def isHostChar (c : UInt8) : Bool :=
  c != Ascii.colon && c != Ascii.slash && c != Ascii.question && c != 35

/-- `[a-z]` -/
def isLower (c : UInt8) : Bool := 97 ≤ c && c ≤ 122

/-- The groups of `([^:/?#]+)(?::(\d+))?`, if it matches all of the string. No `:` is taken for a
character of the host, so there is one way to match. -/
def matchHostPort (s : Bytes) : Option (Bytes × Bytes) :=
  let host := s.takeWhile isHostChar
  if host = [] then none
  else
    match s.dropWhile isHostChar with
    | [] => some (host, [])
    | c :: port =>
      if c = Ascii.colon ∧ port ≠ [] ∧ ∀ d ∈ port, isDigit d = true then some (host, port)
      else none

/-- The groups of `^(?:([a-z]+)://)?([^:/?#]+)(?::(\d+))?`. After letters and `://` there is no
match without the scheme, as what comes after that `:` is no port. -/
def matchSchemeHostPort (s : Bytes) : Option (Bytes × Bytes × Bytes) :=
  let scheme := s.takeWhile isLower
  let rest := s.dropWhile isLower
  if scheme ≠ [] ∧ literal "://" <+: rest then
    (matchHostPort (rest.drop (literal "://").length)).map fun (host, port) => (scheme, host, port)
  else (matchHostPort s).map fun (host, port) => ([], host, port)

/-- `std::stoi` of a text of digits. -/
def stoi (text : Bytes) : Except ClientFailure Int32 :=
  if decimal text < 2^31 then return Int32.ofNat (decimal text) else throw .outOfRange

/-- `Client::Client` -/
def client (schemeHostPort : Bytes) : Except ClientFailure ClientImpl :=
  match matchSchemeHostPort schemeHostPort with
  | some (scheme, host, portStr) => do
    if scheme ≠ [] ∧ scheme ≠ literal "http" ∧ scheme ≠ literal "https" then
      throw .invalidArgument
    else
      let isSsl := decide (scheme = literal "https")
      let port ← if portStr ≠ [] then stoi portStr else pure (if isSsl then 443 else 80)
      return { isSsl := isSsl, host := host, port := port }
  | none => return { isSsl := false, host := schemeHostPort, port := 80 }

/-- `host_and_port_` -/
def ClientImpl.hostAndPort (cli : ClientImpl) : Bytes :=
  cli.host ++ literal ":" ++ stdToString cli.port.toInt64

/-! ## The request -/

/-- The digits of `%02X`. -/
def upperHex (c : UInt8) : Bytes :=
  let symbol (d : UInt8) : UInt8 := if d < 10 then 48 + d else 55 + d
  [symbol (c / 16), symbol (c % 16)]

/-- One round of the loop of `encode_url`. -/
def encodeUrlChar (c : UInt8) : Bytes :=
  if c = 32 then literal "%20"
  else if c = 43 then literal "%2B"
  else if c = 13 then literal "%0D"
  else if c = 10 then literal "%0A"
  else if c = 39 then literal "%27"
  else if c = 44 then literal "%2C"
  else if c = 59 then literal "%3B"
  else if 128 ≤ c then Ascii.percent :: upperHex c
  else [c]

/-- `encode_url`. The loop ends at a zero. -/
def encodeUrl (s : Bytes) : Bytes := (cString s).flatMap encodeUrlChar

/-- `Headers`, a multimap in the order of its comparison. -/
abbrev Headers := List (Bytes × Bytes)

/-- `tolower` -/
def toLower (c : UInt8) : UInt8 := if 65 ≤ c ∧ c ≤ 90 then c + 32 else c

/-- `detail::ci`, which compares names without regard to case. -/
def ci (s₁ s₂ : Bytes) : Bool := decide (s₁.map toLower < s₂.map toLower)

/-- `emplace`: behind the headers with a smaller or an equal name. -/
def Headers.emplace (name value : Bytes) : Headers → Headers
  | [] => [(name, value)]
  | h :: headers =>
    if ci name h.1 then (name, value) :: h :: headers else h :: Headers.emplace name value headers

/-- `has_header` -/
def Headers.has (name : Bytes) (headers : Headers) : Bool :=
  headers.any fun h => !ci h.1 name && !ci name h.1

/-- The value of the `Host` header. The default port of the scheme is left out. -/
def ClientImpl.hostHeader (cli : ClientImpl) : Bytes :=
  if cli.isSsl then if cli.port = 443 then cli.host else cli.hostAndPort
  else if cli.port = 80 then cli.host else cli.hostAndPort

/-- The headers that `write_request` adds to those of a request without a body. -/
def ClientImpl.addHeaders (cli : ClientImpl) (closeConnection : Bool) (headers : Headers) :
    Headers :=
  let headers := if closeConnection then
    Headers.emplace (literal "Connection") (literal "close") headers else headers
  let headers := if !Headers.has (literal "Host") headers then
    Headers.emplace (literal "Host") cli.hostHeader headers else headers
  let headers := if !Headers.has (literal "Accept") headers then
    Headers.emplace (literal "Accept") (literal "*/*") headers else headers
  if !Headers.has (literal "User-Agent") headers then
    Headers.emplace (literal "User-Agent") (literal "cpp-httplib/0.7") headers else headers

/-- `write_headers` -/
def writeHeaders (headers : Headers) : Bytes :=
  (headers.flatMap fun h => h.1 ++ literal ": " ++ h.2 ++ literal "\r\n") ++ literal "\r\n"

/-- `write_request`: the bytes that are sent for a path. -/
def ClientImpl.writeRequest (cli : ClientImpl) (path : Bytes) : Bytes :=
  -- `keep_alive_` is not set.
  let headers := cli.addHeaders true []
  literal "GET" ++ literal " " ++ encodeUrl path ++ literal " HTTP/1.1\r\n" ++
    writeHeaders headers

/-- `ClientImpl::Get`: the request that is sent once there is a connection. `handle_request` refuses
an empty path before anything is written. -/
def ClientImpl.get (cli : ClientImpl) (path : Bytes) : Option Bytes :=
  if path = [] then none else some (cli.writeRequest path)

end Httplib

/-- What `makeGetRequest` does with its strings: the client that it makes, and what that sends. -/
def sendGetRequest (address path : Bytes) :
    Except Httplib.ClientFailure (Httplib.ClientImpl × Option Bytes) := do
  let cli ← Httplib.client (cString address)
  return (cli, cli.get (cString path))

end Btor
