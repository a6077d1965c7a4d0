import Btor.Client
import Btor.Httplib
import Btor.Lib.Hex
import Btor.Lib.Stream

/-!
# The reply to a request

The other part of `httplib.h` that `makeGetRequest` runs through: `process_request` after the
request is sent, for a `GET`. It reads the response line, the headers and the body from the stream
of the connection. A function that returns `false` stops, which is an error of the request in the
end. A line is read byte by byte. `regex_match`, `strtoul` and `strcmp` see it as a C string, which
ends at the first zero; the headers are read from all of its bytes. The library is built without
support for compression, no redirect is followed, and the body goes to a string.
-/

namespace Btor.Httplib

open Lib (Run Stream)
open Lib.Run (Post)
open Lib.Stream (read loop Progresses Shortens Consumes shortens_pure shortens_stop shortens_read
  post_read post_loop)

/-- The error of a request that is sent but not answered. -/
inductive Error where
  | read
  deriving DecidableEq

/-- A function that reads from the stream. -/
abbrev Reading := Run Stream Error

/-! ## Lines -/

/-- A round of the loop of `getline`, which appends to the line in the buffer. -/
def getlineRound (line : Bytes) : Reading (Bytes ⊕ Bytes) := do
  let bytes ← read 1
  match bytes with
  | none => .stop .read
  | some [] => if line = [] then .stop .read else return .inr line
  | some (byte :: _) =>
    if byte = 10 then return .inr (line ++ [byte]) else return .inl (line ++ [byte])

/-- A round of `getline` moves one character at most from the stream to the line, which has one
then. -/
theorem post_getlineRound {n : ℕ} (line : Bytes) (s : Stream)
    (hs : line.length + s.bytes.length ≤ n) : (getlineRound line).Post s
      (fun r s' => (r.elim id id).length + s'.bytes.length ≤ n ∧ r.elim id id ≠ [] ∧
        (r.isLeft → s'.bytes.length < s.bytes.length)) fun _ => True := by
  unfold getlineRound
  refine post_read.bind fun bytes s' hs' => ?_
  rcases bytes with _ | _ | ⟨byte, l⟩
  · exact Run.post_stop trivial
  · dsimp only
    split_ifs with hline
    · exact Run.post_stop trivial
    · have hle : s'.bytes.length ≤ s.bytes.length := hs' ▸ Nat.le_add_left _ _
      exact Run.post_pure ⟨(Nat.add_le_add_left hle _).trans hs, hline, nofun⟩
  · rw [Option.getD_some, List.length_cons] at hs'
    have hlength : (line ++ [byte]).length + s'.bytes.length ≤ n := by
      rw [List.length_append, List.length_singleton]
      omega
    have hne : line ++ [byte] ≠ [] := List.append_ne_nil_of_right_ne_nil _ (List.cons_ne_nil _ _)
    dsimp only
    split_ifs
    · exact Run.post_pure ⟨hlength, hne, nofun⟩
    · exact Run.post_pure ⟨hlength, hne, fun _ => by omega⟩

/-- A round of `getline` that is not the last one reads something. -/
theorem progresses_getlineRound : Progresses getlineRound := fun line s =>
  (post_getlineRound line s (le_refl _)).mono (fun _ _ h => h.2.2) fun _ h => h

/-- `stream_line_reader::getline` and what is in the buffer after it. -/
def getline : Reading Bytes := loop getlineRound progresses_getlineRound []

/-- A line that is read has a byte. -/
theorem consumes_getline : Consumes getline := by
  intro s
  have hloop : getline.Post s
      (fun line s' => line.length + s'.bytes.length ≤ s.bytes.length ∧ line ≠ []) fun _ => True :=
    post_loop (I := fun line s' => line.length + s'.bytes.length ≤ s.bytes.length)
      (fun line s' hs' => (post_getlineRound line s' hs').mono (fun r s₁ h => by
        cases r with
        | inl line => exact h.1
        | inr line => exact ⟨h.1, h.2.1⟩) fun _ h => h)
      (Nat.zero_add _).le
  refine hloop.mono (fun line s' h => ?_) fun _ h => h
  have hpos := List.length_pos_iff.mpr h.2
  omega

/-! ## The response line -/

/-- `Response` -/
structure Response where
  version : Bytes
  status : ℕ
  reason : Bytes
  headers : Headers := []
  body : Bytes := []

/-- The groups of `(HTTP/1\.[01]) (\d{3}) (.*?)\r\n`, if it matches all of the text. A `.` is no
line break. -/
def matchResponseLine (text : Bytes) : Option Response :=
  match text.drop (literal "HTTP/1.").length with
  | v :: s :: a :: b :: c :: s' :: rest =>
    let reason := rest.takeWhile fun ch => ch != 10 && ch != 13
    if literal "HTTP/1." <+: text ∧ (v = 48 ∨ v = 49) ∧ s = 32 ∧ isDigit a = true ∧
        isDigit b = true ∧ isDigit c = true ∧ s' = 32 ∧ rest = reason ++ literal "\r\n" then
      some {
        version := literal "HTTP/1." ++ [v]
        status := decimal [a, b, c]
        reason := reason }
    else none
  | _ => none

/-- A round of the loop that ignores `100 Continue`. -/
def skipContinueRound (res : Response) : Reading (Response ⊕ Response) := do
  if res.status = 100 then do
    let _ ← getline
    let line ← getline
    match matchResponseLine (cString line) with
    | none => .stop .read
    | some res => return .inl res
  else return .inr res

/-- So does a round over the responses with the status 100. -/
theorem progresses_skipContinueRound : Progresses skipContinueRound := by
  intro res s
  unfold skipContinueRound
  split_ifs
  · have hconsumes : Consumes (do
        let _ ← getline
        let line ← getline
        match matchResponseLine (cString line) with
        | none => .stop .read
        | some res => return .inl res : Reading (Response ⊕ Response)) := by
      refine consumes_getline.bind fun _ => consumes_getline.shortens.bind fun line => ?_
      cases matchResponseLine (cString line) with
      | none => exact shortens_stop _
      | some res => exact shortens_pure _
    exact (hconsumes s).mono (fun _ _ h _ => h) fun _ h => h
  · exact Run.post_pure nofun

/-- `ClientImpl::read_response_line` -/
def readResponseLine : Reading Response := do
  let line ← getline
  match matchResponseLine (cString line) with
  | none => .stop .read
  | some res => loop skipContinueRound progresses_skipContinueRound res

/-! ## The headers -/

/-- `from_hex_to_i`, for as many digits as `cnt` at the beginning of the text. -/
def fromHexToI (cnt : ℕ) (s : Bytes) : Option ℕ :=
  let digits := s.take cnt
  if digits.length = cnt ∧ ∀ c ∈ digits, (Lib.hexValue c).isSome = true then
    some (Lib.horner 16 Lib.hexDigitValue digits)
  else none

/-- `to_utf8` -/
def toUtf8 (code : ℕ) : Bytes :=
  if code < 0x80 then [UInt8.ofNat (code &&& 0x7F)]
  else if code < 0x800 then
    [UInt8.ofNat (0xC0 ||| code >>> 6 &&& 0x1F), UInt8.ofNat (0x80 ||| code &&& 0x3F)]
  else if 0xD800 ≤ code ∧ code < 0xE000 then []
  else if code < 0x10000 then
    [UInt8.ofNat (0xE0 ||| code >>> 12 &&& 0xF), UInt8.ofNat (0x80 ||| code >>> 6 &&& 0x3F),
      UInt8.ofNat (0x80 ||| code &&& 0x3F)]
  else if code < 0x110000 then
    [UInt8.ofNat (0xF0 ||| code >>> 18 &&& 0x7), UInt8.ofNat (0x80 ||| code >>> 12 &&& 0x3F),
      UInt8.ofNat (0x80 ||| code >>> 6 &&& 0x3F), UInt8.ofNat (0x80 ||| code &&& 0x3F)]
  else []

/-- `decode_url`, without `convert_plus_to_space`. -/
def decodeUrl (s : Bytes) : Bytes :=
  match s with
  | [] => []
  | c :: s =>
    if c = Ascii.percent ∧ s ≠ [] then
      if s.head? = some 117 then
        match fromHexToI 4 (s.drop 1) with
        | some val => toUtf8 val ++ decodeUrl (s.drop 5)
        | none => c :: decodeUrl s
      else
        match fromHexToI 2 s with
        | some val => UInt8.ofNat val :: decodeUrl (s.drop 2)
        | none => c :: decodeUrl s
    else c :: decodeUrl s
termination_by s.length
decreasing_by all_goals simp only [List.length_drop, List.length_cons]; omega

/-- `is_space_or_tab` -/
def isSpaceOrTab (c : UInt8) : Bool := c == 32 || c == 9

/-- `parse_header`, for the bytes of a line without its end. -/
def parseHeader (line : Bytes) : Option (Bytes × Bytes) :=
  -- Skip trailing spaces and tabs.
  let line := line.rdropWhile isSpaceOrTab
  match line.dropWhile (· != Ascii.colon) with
  | [] => none
  | _ :: text =>
    match text.dropWhile isSpaceOrTab with
    | [] => none
    | val => some (line.takeWhile (· != Ascii.colon), decodeUrl val)

/-- The headers with that of a line, if it is one. -/
def addHeader (headers : Headers) (line : Bytes) : Headers :=
  match parseHeader line with
  | some (key, val) => headers.emplace key val
  | none => headers

/-- What comes after a line in the loop of `read_headers`. -/
def nextHeaders (headers : Headers) (line : Bytes) : Headers ⊕ Headers :=
  if literal "\r\n" <:+ line then
    -- A blank line indicates the end of the headers.
    if line.length = 2 then .inr headers else .inl (addHeader headers (line.take (line.length - 2)))
  else .inl headers

/-- A round of the loop of `read_headers`. -/
def readHeadersRound (headers : Headers) : Reading (Headers ⊕ Headers) := do
  let line ← getline
  return nextHeaders headers line

/-- A round over the headers reads a line. -/
theorem consumes_readHeadersRound (headers : Headers) : Consumes (readHeadersRound headers) :=
  consumes_getline.bind fun _ => shortens_pure _

/-- So it reads something. -/
theorem progresses_readHeadersRound : Progresses readHeadersRound := fun headers s =>
  (consumes_readHeadersRound headers s).mono (fun _ _ h _ => h) fun _ h => h

/-- `detail::read_headers` -/
def readHeaders : Reading Headers := loop readHeadersRound progresses_readHeadersRound []

/-- The first of the headers with a name. -/
def Headers.find (key : Bytes) (headers : Headers) : Option Bytes :=
  (headers.find? fun h => !ci h.1 key && !ci key h.1).map (·.2)

/-- `detail::get_header_value` with the empty string as `def`: the C string of the value. -/
def Headers.getHeaderValue (key : Bytes) (headers : Headers) : Bytes :=
  cString ((headers.find key).getD [])

/-! ## Numbers -/

/-- `isspace` -/
def isSpace (c : UInt8) : Bool := c == 32 || 9 ≤ c && c ≤ 13

/-- A digit of a base. -/
def isDigitOf (base : ℕ) (c : UInt8) : Bool := (Lib.hexValue c).any (· < base)

/-- The digits of a hexadecimal number without the `0x` that may stand before them. -/
def skipHexMark (text : Bytes) : Bytes :=
  match text with
  | z :: x :: d :: rest =>
    if z = 48 ∧ (x = 120 ∨ x = 88) ∧ isDigitOf 16 d = true then d :: rest else text
  | _ => text

/-- `strtoul` and `strtoull`, for numbers below `range`. A text that does not begin with a number is
none. -/
def strtoul (range base : ℕ) (text : Bytes) : Option ℕ :=
  let text := (cString text).dropWhile isSpace
  let negative := decide (text.head? = some Ascii.minus)
  let text := if text.head? = some Ascii.minus ∨ text.head? = some 43 then text.tail else text
  let digits := (if base = 16 then skipHexMark text else text).takeWhile (isDigitOf base)
  let value := Lib.horner base Lib.hexDigitValue digits
  if digits = [] then none
  else if range ≤ value then some (range - 1)
  else some (if negative then (range - value) % range else value)

/-- `ULONG_MAX`, on Windows. -/
def ulongMax : ℕ := 2^32 - 1

/-! ## The body -/

/-- `CPPHTTPLIB_RECV_BUFSIZ` -/
def recvBufsiz : ℕ := 4096

/-- A round of the loop of `read_content_with_length`, after `r` bytes. -/
def withLengthRound (len : ℕ) (r : ℕ × Bytes) : Reading (ℕ × Bytes ⊕ Bytes) := do
  if r.1 < len then do
    let bytes ← read (min (len - r.1) recvBufsiz)
    match bytes with
    | some (b :: l) => return .inl (r.1 + (b :: l).length, r.2 ++ b :: l)
    | _ => .stop .read
  else return .inr r.2

/-- A round over a body with its length makes nothing longer. -/
theorem shortens_withLengthRound (len : ℕ) (r : ℕ × Bytes) : Shortens (withLengthRound len r) := by
  unfold withLengthRound
  split_ifs
  · refine (shortens_read _).bind fun bytes => ?_
    rcases bytes with _ | _ | ⟨b, l⟩
    · exact shortens_stop _
    · exact shortens_stop _
    · exact shortens_pure _
  · exact shortens_pure _

/-- It reads something if it is not the last one. -/
theorem progresses_withLengthRound (len : ℕ) : Progresses (withLengthRound len) := by
  intro r s
  unfold withLengthRound
  split_ifs
  · refine post_read.bind fun bytes s' hs' => ?_
    rcases bytes with _ | _ | ⟨b, l⟩
    · exact Run.post_stop trivial
    · exact Run.post_stop trivial
    · rw [Option.getD_some, List.length_cons] at hs'
      exact Run.post_pure fun _ => by omega
  · exact Run.post_pure nofun

/-- `read_content_with_length`, which appends what it reads to the body. -/
def readContentWithLength (len : ℕ) (body : Bytes) : Reading Bytes :=
  loop (withLengthRound len) (progresses_withLengthRound len) (0, body)

/-- A round of the loop of `read_content_without_length`. -/
def withoutLengthRound (body : Bytes) : Reading (Bytes ⊕ Bytes) := do
  let bytes ← read recvBufsiz
  match bytes with
  | none => .stop .read
  | some [] => return .inr body
  | some (b :: l) => return .inl (body ++ b :: l)

/-- So does a round over a body to the end of the connection. -/
theorem progresses_withoutLengthRound : Progresses withoutLengthRound := by
  intro body s
  refine post_read.bind fun bytes s' hs' => ?_
  rcases bytes with _ | _ | ⟨b, l⟩
  · exact Run.post_stop trivial
  · exact Run.post_pure nofun
  · rw [Option.getD_some, List.length_cons] at hs'
    exact Run.post_pure fun _ => by omega

/-- `read_content_without_length` -/
def readContentWithoutLength (body : Bytes) : Reading Bytes :=
  loop withoutLengthRound progresses_withoutLengthRound body

/-- A round of the loop of `read_content_chunked`, with the line of the size of the chunk. -/
def chunkRound (r : Bytes × Bytes) : Reading (Bytes × Bytes ⊕ Bytes) := do
  match strtoul (ulongMax + 1) 16 r.1 with
  | none => .stop .read
  | some chunkLen =>
    if chunkLen = ulongMax then .stop .read
    else if chunkLen = 0 then do
      -- The reader of the terminator, which comes after the loop.
      let line ← getline
      if cString line = literal "\r\n" then return .inr r.2 else .stop .read
    else do
      let body ← readContentWithLength chunkLen r.2
      let line ← getline
      -- `break`, and the function returns `true`.
      if cString line ≠ literal "\r\n" then return .inr body
      else do
        let line ← getline
        return .inl (line, body)

/-- A round over the chunks reads a line. -/
theorem consumes_chunkRound (r : Bytes × Bytes) : Consumes (chunkRound r) := by
  have hstop : Consumes (.stop .read : Reading (Bytes × Bytes ⊕ Bytes)) := fun _ => trivial
  unfold chunkRound
  cases strtoul (ulongMax + 1) 16 r.1 with
  | none => exact hstop
  | some chunkLen =>
    dsimp only
    split_ifs
    · exact hstop
    · refine consumes_getline.bind fun line => ?_
      split_ifs
      · exact shortens_pure _
      · exact shortens_stop _
    · refine (Shortens.loop (shortens_withLengthRound chunkLen) (0, r.2)).bind_consumes fun body =>
        consumes_getline.bind fun line => ?_
      split_ifs
      · exact shortens_pure _
      · exact consumes_getline.shortens.bind fun line => shortens_pure _

/-- So it reads something. -/
theorem progresses_chunkRound : Progresses chunkRound := fun r s =>
  (consumes_chunkRound r s).mono (fun _ _ h _ => h) fun _ h => h

/-- `read_content_chunked` -/
def readContentChunked (body : Bytes) : Reading Bytes := do
  let line ← getline
  loop chunkRound progresses_chunkRound (line, body)

/-- `is_chunked_transfer_encoding` -/
def isChunkedTransferEncoding (headers : Headers) : Bool :=
  (headers.getHeaderValue (literal "Transfer-Encoding")).map toLower == literal "chunked"

/-- The body is compressed, for which there is no support. -/
def isCompressed (headers : Headers) : Prop :=
  let encoding := headers.getHeaderValue (literal "Content-Encoding")
  literal "gzip" <:+: encoding ∨ literal "deflate" <:+: encoding ∨ literal "br" <:+: encoding

/-- Whether the body is compressed is decided by the headers. -/
instance (headers : Headers) : Decidable (isCompressed headers) :=
  inferInstanceAs (Decidable (_ ∨ _ ∨ _))

/-- `read_content`, with the largest `size_t` as `payload_max_length`. What is longer is skipped
before the function returns `false`. -/
def readContent (platform : Platform) (headers : Headers) : Reading Bytes := do
  if isCompressed headers then .stop .read
  else if isChunkedTransferEncoding headers then readContentChunked []
  else
    match headers.find (literal "Content-Length") with
    | none => readContentWithoutLength []
    | some value =>
      let len := (strtoul (2^64) 10 value).getD 0
      if platform.sizeRange ≤ len then .stop .read
      else if 0 < len then readContentWithLength len []
      else return []

/-! ## The reply -/

/-- `process_request`, after the request is sent. -/
def processRequest (platform : Platform) : Reading Response := do
  let res ← readResponseLine
  let headers ← readHeaders
  if res.status ≠ 204 then do
    let body ← readContent platform headers
    return { res with headers := headers, body := body }
  else return { res with headers := headers }

/-- What `Get` returns for what the server sends. -/
def reply (platform : Platform) (s : Stream) : Reply :=
  match (processRequest platform).run s with
  | .returned res _ => .response res.status res.body
  | .stopped _ _ => .error

end Btor.Httplib
