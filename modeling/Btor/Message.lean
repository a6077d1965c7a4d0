import Btor.Httplib
import Btor.Lib.Hex

/-!
# Responses as messages

A response of HTTP/1: a status line, after as many `100 Continue` as there are, lines of header
fields, an empty line and a body. The end of the body is known in one of three ways: its length is
given before it, it comes in chunks with their sizes, or the connection is closed after it. A
connection may end within a message. `Arrives` says which part of a message is taken for a whole
one, and with which body: the whole message, whatever part of a body that the end of the connection
ends, and a message in chunks that is cut off between the two characters behind a chunk.
-/

namespace Btor

/-- The end of a line. -/
def lineEnd : Bytes := [13, 10]

/-- A status line. -/
structure StatusLine where
  /-- The digit behind the point of the version. -/
  minor : UInt8
  code : UInt8 × UInt8 × UInt8
  reason : Bytes
  minor_eq : minor = 48 ∨ minor = 49
  isDigit_code : isDigit code.1 = true ∧ isDigit code.2.1 = true ∧ isDigit code.2.2 = true
  isReason : ∀ c ∈ reason, c ≠ 0 ∧ c ≠ 10 ∧ c ≠ 13

/-- The number of the status. -/
def StatusLine.status (l : StatusLine) : ℕ := decimal [l.code.1, l.code.2.1, l.code.2.2]

/-- The line as it is sent. -/
def StatusLine.text (l : StatusLine) : Bytes :=
  literal "HTTP/1." ++ l.minor :: 32 :: l.code.1 :: l.code.2.1 :: l.code.2.2 :: 32 :: l.reason ++
    lineEnd

/-- A header field. -/
structure Field where
  name : Bytes
  value : Bytes
  isName : ∀ c ∈ name, c ≠ Ascii.colon ∧ c ≠ 10
  isValue : 10 ∉ value

/-- The line of a field, without its end. -/
def Field.line (f : Field) : Bytes := f.name ++ literal ": " ++ f.value

/-- The field as it is sent. -/
def Field.text (f : Field) : Bytes := f.line ++ lineEnd

/-- The field has the name, in letters of either case. -/
def Field.IsNamed (f : Field) (name : Bytes) : Prop :=
  f.name.map Httplib.toLower = name.map Httplib.toLower

/-- The field does not say what the body is. -/
structure Field.Plain (f : Field) : Prop where
  not_length : ¬ f.IsNamed (literal "Content-Length")
  not_transfer : ¬ f.IsNamed (literal "Transfer-Encoding")
  not_encoding : ¬ f.IsNamed (literal "Content-Encoding")

/-! ## Bodies -/

/-- The size of a chunk in hexadecimal, and what may follow it on the line. -/
structure ChunkSize where
  digits : Bytes
  extension : Bytes
  digits_ne_nil : digits ≠ []
  isHex : ∀ c ∈ digits, (Lib.hexValue c).isSome = true
  notMem_extension : 10 ∉ extension
  head_extension : ∀ c ∈ extension.head?, c = 59

namespace ChunkSize

/-- The number that the digits stand for. -/
def value (size : ChunkSize) : ℕ := Lib.horner 16 Lib.hexDigitValue size.digits

/-- The line as it is sent. -/
def text (size : ChunkSize) : Bytes := size.digits ++ size.extension ++ lineEnd

end ChunkSize

/-- A chunk that is not the last one. -/
structure Chunk where
  size : ChunkSize
  data : Bytes
  data_ne_nil : data ≠ []
  value_eq : size.value = data.length

/-- The chunk as it is sent. -/
def Chunk.text (c : Chunk) : Bytes := c.size.text ++ c.data ++ lineEnd

/-- A body with its length, and the field that gives it. -/
structure SizedBody where
  data : Bytes
  field : Field
  isNamed : field.IsNamed (literal "Content-Length")
  value_ne_nil : field.value ≠ []
  isDigit_value : ∀ c ∈ field.value, isDigit c = true
  value_eq : decimal field.value = data.length

/-- A body in chunks, and the field that says so. -/
structure ChunkedBody where
  chunks : List Chunk
  last : ChunkSize
  field : Field
  isNamed : field.IsNamed (literal "Transfer-Encoding")
  value_eq : field.value.map Httplib.toLower = literal "chunked"
  last_eq : last.value = 0

/-- A body in one of the three ways. -/
inductive MessageBody where
  | sized (b : SizedBody)
  | chunked (b : ChunkedBody)
  | toEnd (data : Bytes)

namespace MessageBody

/-- The field that belongs to the body. -/
def field? : MessageBody → Option Field
  | sized b => some b.field
  | chunked b => some b.field
  | toEnd _ => none

/-- The body as it is sent. -/
def text : MessageBody → Bytes
  | sized b => b.data
  | chunked b => b.chunks.flatMap Chunk.text ++ (b.last.text ++ lineEnd)
  | toEnd data => data

/-- The lengths of the body and of its chunks are in the range of the reader's numbers. -/
def Fits (sizeRange chunkMax : ℕ) : MessageBody → Prop
  | sized b => b.data.length < sizeRange
  | chunked b => ∀ c ∈ b.chunks, c.data.length < chunkMax
  | toEnd _ => True

end MessageBody

/-- Chunks that arrive, up to a part of what is sent, and the body that they make. -/
inductive ChunksArrive (last : ChunkSize) : List Chunk → Bytes → Bool → Bytes → Prop
  | whole (closed : Bool) : ChunksArrive last [] (last.text ++ lineEnd) closed []
  /-- The connection is closed between the two characters behind a chunk. -/
  | cut (c : Chunk) (chunks : List Chunk) :
    ChunksArrive last (c :: chunks) (c.size.text ++ c.data ++ [13]) true c.data
  | chunk (c : Chunk) {chunks : List Chunk} {part : Bytes} {closed : Bool} {body : Bytes} :
    ChunksArrive last chunks part closed body →
    ChunksArrive last (c :: chunks) (c.text ++ part) closed (c.data ++ body)

/-- The part of the text of a body is taken for a whole body, which is `body`. -/
def MessageBody.Arrives : MessageBody → Bytes → Bool → Bytes → Prop
  | sized b, part, _, body => part = b.data ∧ body = b.data
  | chunked b, part, closed, body => ChunksArrive b.last b.chunks part closed body
  | toEnd _, part, closed, body => closed = true ∧ body = part

/-! ## Messages -/

/-- A response that has a body. -/
structure Message where
  continues : List StatusLine
  line : StatusLine
  before : List Field
  after : List Field
  body : MessageBody
  continues_eq : ∀ l ∈ continues, l.status = 100
  status_ne : line.status ≠ 100 ∧ line.status ≠ 204
  plain_before : ∀ f ∈ before, f.Plain
  plain_after : ∀ f ∈ after, f.Plain

namespace Message

variable (m : Message)

/-- The fields, among which is that of the body. -/
def fields : List Field := m.before ++ m.body.field?.toList ++ m.after

/-- The head: what comes before the body. -/
def head : Bytes :=
  m.continues.flatMap (fun l => l.text ++ lineEnd) ++ m.line.text ++
    (m.fields.flatMap Field.text ++ lineEnd)

/-- The message as it is sent. -/
def text : Bytes := m.head ++ m.body.text

/-- The part of the message is taken for a whole message, with the body `body`. -/
def Arrives (part : Bytes) (closed : Bool) (body : Bytes) : Prop :=
  ∃ part', part = m.head ++ part' ∧ m.body.Arrives part' closed body

end Message

end Btor
