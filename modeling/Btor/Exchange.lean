import Btor.Body

/-!
# What is made of the answer of a tracker

A tracker answers with a message, of which some part arrives, in pieces of any size, before the
connection is closed or fails. `makeGetRequest` returns a body exactly if the status is 200 and the
part is taken for a whole message (`makeGetRequest_returns_iff`). A comment in `main` asks whether
the response is not completed sometimes. Where a body has a length, only the whole of it is
returned. Where the end of the connection ends the body, every part is. And a body in chunks is
returned without its last chunks where the connection is closed between the two characters behind a
chunk, as the loop of `read_content_chunked` is left there with `true`.
-/

namespace Btor

open Lib (Stream)
open Lib.Stream (Gives Fails Takes Becomes gives_pure takes_pure isPrefix_append_cases)

namespace Httplib

/-! ## The message -/

section

variable {m : Message} {platform : Platform}

/-- The headers that are read from a message. -/
def headersOf (m : Message) : Headers :=
  m.fields.foldl (fun headers f => addHeader headers f.line) []

/-- A header is read of a field of the message. -/
theorem mem_headersOf {h : Bytes × Bytes} :
    h ∈ headersOf m ↔ ∃ f ∈ m.fields, parseHeader f.line = some h := by
  unfold headersOf
  rw [mem_foldl_addHeader]
  simp

/-- The header has the name of its field. -/
theorem name_of_parseHeader {f : Field} {h : Bytes × Bytes} (hparse : parseHeader f.line = some h) :
    h.1 = f.name := by
  rw [parseHeader_line] at hparse
  dsimp only at hparse
  split_ifs at hparse
  obtain rfl := Option.some.inj hparse
  rfl

/-- A name that no field has is not found. -/
theorem find_headersOf_none {key : Bytes} (h : ∀ f ∈ m.fields, ¬ f.IsNamed key) :
    (headersOf m).find key = none := by
  refine find_eq_none fun header hheader hname => ?_
  obtain ⟨f, hf, hparse⟩ := mem_headersOf.mp hheader
  rw [name_of_parseHeader hparse] at hname
  exact h f hf hname

/-- A name that one field has is found. -/
theorem find_headersOf_some {key : Bytes} {f : Field} (hf : f ∈ m.fields) (hname : f.IsNamed key)
    (hunique : ∀ g ∈ m.fields, g.IsNamed key → g = f)
    (hvalue : parseHeader f.line = some (f.name, f.value)) :
    (headersOf m).find key = some f.value := by
  refine find_eq_some (mem_headersOf.mpr ⟨f, hf, hvalue⟩) hname fun header hheader hname' => ?_
  obtain ⟨g, hg, hparse⟩ := mem_headersOf.mp hheader
  rw [name_of_parseHeader hparse] at hname'
  rw [hunique g hg hname', hvalue] at hparse
  rw [← Option.some.inj hparse]

/-- A field is that of the body, or does not say what the body is. -/
theorem plain_or_mem_field {f : Field} (hf : f ∈ m.fields) : f.Plain ∨ f ∈ m.body.field? := by
  unfold Message.fields at hf
  rw [List.mem_append, List.mem_append, Option.mem_toList] at hf
  rcases hf with (hf | hf) | hf
  · exact .inl (m.plain_before f hf)
  · exact .inr hf
  · exact .inl (m.plain_after f hf)

/-- The head is read up to the body. -/
theorem becomes_processRequest (part : Bytes) (closed : Bool) :
    Becomes (processRequest platform) (m.head ++ part)
      (readContent platform (headersOf m) >>= fun body =>
        pure { responseOf m.line with headers := headersOf m, body := body }) part closed := by
  unfold Message.head processRequest
  rw [List.append_assoc]
  refine ((takes_readResponseLine m.continues_eq m.status_ne.1).gives _ closed).becomes.trans ?_
  refine ((takes_readHeadersLoop m.fields []).gives part closed).becomes.trans ?_
  have hstatus : (responseOf m.line).status ≠ 204 := m.status_ne.2
  rw [if_pos hstatus]
  exact .refl _ _ _

/-- Within the head the read fails. -/
theorem fails_processRequest {part : Bytes} (hpart : part <+: m.head) (hne : part ≠ m.head)
    (closed : Bool) : Fails (processRequest platform) part closed := by
  unfold Message.head at hpart hne
  unfold processRequest
  have hline := takes_readResponseLine m.continues_eq m.status_ne.1
  rcases isPrefix_append_cases hpart with ⟨hlines, hne'⟩ | ⟨part, rfl, hfields⟩
  · exact (hline.fails part hlines hne' closed).bind
  · refine (hline.gives part closed).bind_fails ?_
    have hheaders := (takes_readHeadersLoop m.fields []).fails part hfields
      (fun heq => hne (congrArg _ heq)) closed
    exact hheaders.bind

/-- A field does not have two names. -/
theorem not_isNamed {f : Field} {name key : Bytes} (h : f.IsNamed name)
    (hne : name.map toLower ≠ key.map toLower) : ¬ f.IsNamed key :=
  fun hkey => hne (h.symm.trans hkey)

/-- A header that is not found has no value. -/
theorem getHeaderValue_of_none {key : Bytes} {headers : Headers} (h : headers.find key = none) :
    headers.getHeaderValue key = [] := by
  unfold Headers.getHeaderValue
  rw [h]
  rfl

/-- No message is compressed. -/
theorem not_isCompressed : ¬ isCompressed (headersOf m) := by
  have hnone : (headersOf m).find (literal "Content-Encoding") = none := by
    refine find_headersOf_none fun f hf => ?_
    rcases plain_or_mem_field hf with hplain | hbody
    · exact hplain.not_encoding
    · cases hm : m.body with
      | sized b =>
        rw [hm] at hbody
        obtain rfl := Option.some.inj hbody
        exact not_isNamed b.isNamed (by decide +kernel)
      | chunked b =>
        rw [hm] at hbody
        obtain rfl := Option.some.inj hbody
        exact not_isNamed b.isNamed (by decide +kernel)
      | toEnd data =>
        rw [hm] at hbody
        cases hbody
  unfold isCompressed
  dsimp only
  rw [getHeaderValue_of_none hnone]
  decide +kernel

/-- A message that is not in chunks does not say that it is. -/
theorem not_isChunked (h : ∀ f ∈ m.body.field?, f.IsNamed (literal "Content-Length")) :
    isChunkedTransferEncoding (headersOf m) = false := by
  have hnone : (headersOf m).find (literal "Transfer-Encoding") = none := by
    refine find_headersOf_none fun f hf => ?_
    rcases plain_or_mem_field hf with hplain | hbody
    · exact hplain.not_transfer
    · exact not_isNamed (h f hbody) (by decide +kernel)
  unfold isChunkedTransferEncoding
  rw [getHeaderValue_of_none hnone]
  decide +kernel

/-- The field of the body is one of the fields. -/
theorem field_mem_fields {f : Field} (h : f ∈ m.body.field?) : f ∈ m.fields := by
  unfold Message.fields
  rw [List.mem_append, List.mem_append, Option.mem_toList]
  exact .inl (.inr h)

/-- The field of the body is the only one with its name. -/
theorem find_field {f : Field} {key : Bytes} (hfield : f ∈ m.body.field?) (hname : f.IsNamed key)
    (hplain : ∀ g : Field, g.Plain → ¬ g.IsNamed key)
    (hvalue : parseHeader f.line = some (f.name, f.value)) :
    (headersOf m).find key = some f.value := by
  refine find_headersOf_some (field_mem_fields hfield) hname (fun g hg hg' => ?_) hvalue
  rcases plain_or_mem_field hg with hplain' | hbody
  · exact absurd hg' (hplain g hplain')
  · exact Option.some.inj (hbody.symm.trans hfield)

/-- A decimal digit is one for `strtoull`, with the same value. -/
theorem isDigitOf_of_isDigit : ∀ c : UInt8, isDigit c = true →
    isDigitOf 10 c = true ∧ Lib.hexDigitValue c = digit c := by
  decide +kernel

/-- A body of which the length is given is read to its last byte. -/
theorem takes_readContent_sized {b : SizedBody} (hm : m.body = .sized b)
    (hfits : b.data.length < platform.sizeRange) :
    Takes (readContent platform (headersOf m)) b.data b.data := by
  have hfield : b.field ∈ m.body.field? := by
    rw [hm]
    rfl
  have hchunked : isChunkedTransferEncoding (headersOf m) = false := by
    refine not_isChunked fun f hf => ?_
    obtain rfl := Option.some.inj (hfield.symm.trans hf)
    exact b.isNamed
  have hvalue : parseHeader b.field.line = some (b.field.name, b.field.value) := by
    refine parseHeader_value b.field b.value_ne_nil fun c hc => ?_
    have hdigit := b.isDigit_value c hc
    refine ⟨?_, ?_, ?_⟩
    · rintro rfl
      exact absurd hdigit (by decide)
    · rintro rfl
      exact absurd hdigit (by decide)
    · rintro rfl
      exact absurd hdigit (by decide)
  have hfind := find_field hfield b.isNamed (fun g hg => hg.not_length) hvalue
  have hlen : strtoul (2^64) 10 b.field.value = some b.data.length := by
    have hhorner : Lib.horner 10 Lib.hexDigitValue b.field.value = b.data.length := by
      rw [← b.value_eq]
      refine List.foldl_ext _ _ 0 fun n c hc => ?_
      rw [(isDigitOf_of_isDigit c (b.isDigit_value c hc)).2]
    have hrange : platform.sizeRange ≤ 2^64 := by cases platform <;> decide
    have hlt : Lib.horner 10 Lib.hexDigitValue b.field.value < 2^64 := by omega
    have hnil : ∀ c ∈ ([] : Bytes).head?, c = 59 ∨ c = 13 := nofun
    have hstrtoul := strtoul_digits (fun c hc => (isDigitOf_of_isDigit c (b.isDigit_value c hc)).1)
      hnil b.value_ne_nil hlt
    rwa [List.append_nil, hhorner] at hstrtoul
  unfold readContent
  rw [if_neg not_isCompressed, if_neg (by rw [hchunked]; exact Bool.false_ne_true), hfind]
  dsimp only
  rw [hlen, Option.getD_some, if_neg (not_le.mpr hfits)]
  split_ifs with hpos
  · exact takes_readContentWithLength b.data []
  · obtain hnil : b.data = [] := List.length_eq_zero_iff.mp (by omega)
    rw [hnil]
    exact takes_pure []

/-- A body in chunks is read as such. -/
theorem readContent_chunked {b : ChunkedBody} (hm : m.body = .chunked b) :
    readContent platform (headersOf m) = readContentChunked [] := by
  have hfield : b.field ∈ m.body.field? := by
    rw [hm]
    rfl
  -- The value has the letters of `chunked` only, in either case.
  have hmem {c : UInt8} (hc : toLower c ∉ literal "chunked") : c ∉ b.field.value := fun hvalue =>
    hc (b.value_eq ▸ List.mem_map_of_mem hvalue)
  have hne : b.field.value ≠ [] := by
    intro hnil
    have hvalue := b.value_eq
    rw [hnil] at hvalue
    exact absurd hvalue (by decide +kernel)
  have hvalue : parseHeader b.field.line = some (b.field.name, b.field.value) := by
    refine parseHeader_value b.field hne fun c hc => ⟨?_, ?_, ?_⟩
    · rintro rfl
      exact hmem (by decide +kernel) hc
    · rintro rfl
      exact hmem (by decide +kernel) hc
    · rintro rfl
      exact hmem (by decide +kernel) hc
  have hfind := find_field hfield b.isNamed (fun g hg => hg.not_transfer) hvalue
  have hchunked : isChunkedTransferEncoding (headersOf m) = true := by
    unfold isChunkedTransferEncoding Headers.getHeaderValue
    rw [hfind, Option.getD_some, cString_of_notMem (hmem (by decide +kernel)), b.value_eq]
    exact beq_self_eq_true _
  unfold readContent
  rw [if_neg not_isCompressed, if_pos hchunked]

/-- A body to the end of the connection is read as such. -/
theorem readContent_toEnd {data : Bytes} (hm : m.body = .toEnd data) :
    readContent platform (headersOf m) = readContentWithoutLength [] := by
  have hnone : (headersOf m).find (literal "Content-Length") = none := by
    refine find_headersOf_none fun f hf => ?_
    rcases plain_or_mem_field hf with hplain | hbody
    · exact hplain.not_length
    · rw [hm] at hbody
      cases hbody
  have hchunked : isChunkedTransferEncoding (headersOf m) = false := by
    refine not_isChunked fun f hf => ?_
    rw [hm] at hf
    cases hf
  unfold readContent
  rw [if_neg not_isCompressed, if_neg (by rw [hchunked]; exact Bool.false_ne_true), hnone]

/-- What is taken for a whole body is read. -/
theorem gives_of_arrives {part data : Bytes} {closed : Bool} (h : m.body.Arrives part closed data)
    (hfits : m.body.Fits platform.sizeRange ulongMax) :
    ∃ rest, Gives (readContent platform (headersOf m)) part closed data rest := by
  cases hm : m.body with
  | sized b =>
    rw [hm] at h hfits
    obtain ⟨rfl, rfl⟩ := h
    have hgives := (takes_readContent_sized hm hfits).gives [] closed
    rw [List.append_nil] at hgives
    exact ⟨[], hgives⟩
  | chunked b =>
    rw [hm] at h hfits
    rw [readContent_chunked hm]
    exact gives_of_chunksArrive h b.last_eq hfits []
  | toEnd data =>
    rw [hm] at h
    obtain ⟨rfl, rfl⟩ := h
    rw [readContent_toEnd hm]
    exact ⟨[], gives_readContentWithoutLength _ []⟩

/-- Of every part of a body, either a body is made, or the read fails. -/
theorem arrives_or_fails {part : Bytes} (hpart : part <+: m.body.text)
    (hfits : m.body.Fits platform.sizeRange ulongMax) (closed : Bool) :
    (∃ data, m.body.Arrives part closed data) ∨
      Fails (readContent platform (headersOf m)) part closed := by
  cases hm : m.body with
  | sized b =>
    rw [hm] at hpart hfits
    by_cases heq : part = b.data
    · exact .inl ⟨b.data, heq, rfl⟩
    · exact .inr ((takes_readContent_sized hm hfits).fails part hpart heq closed)
  | chunked b =>
    rw [hm] at hpart hfits
    rw [readContent_chunked hm]
    exact chunksArrive_or_fails b.last_eq hfits hpart closed []
  | toEnd data =>
    rw [readContent_toEnd hm]
    cases closed with
    | true => exact .inl ⟨part, rfl, rfl⟩
    | false => exact .inr (fails_readContentWithoutLength part [])

/-- The reply is what a whole message says, and an error for a part that is not taken for one. -/
theorem reply_eq_response_iff {part : Bytes} (hpart : part <+: m.text)
    (hfits : m.body.Fits platform.sizeRange ulongMax) (arrivals : ℕ → ℕ) (closed : Bool)
    {status : ℕ} {body : Bytes} : reply platform ⟨part, arrivals, closed⟩ = .response status body ↔
      status = m.line.status ∧ m.Arrives part closed body := by
  -- Behind the head, what becomes of the body is what becomes of the response.
  have hreply {part data rest : Bytes}
      (h : Gives (readContent platform (headersOf m)) part closed data rest) :
      reply platform ⟨m.head ++ part, arrivals, closed⟩ = .response m.line.status data := by
    obtain ⟨arrivals', hrun⟩ := (becomes_processRequest part closed).gives
      (h.bind (gives_pure _ _ _)) arrivals
    unfold reply
    rw [hrun]
    rfl
  have herror {part : Bytes} (h : Fails (processRequest platform) part closed) :
      reply platform ⟨part, arrivals, closed⟩ = .error := by
    obtain ⟨e, s', hrun⟩ := h arrivals
    unfold reply
    rw [hrun]
  constructor
  · intro h
    -- The part ends within the head, or behind it.
    rcases isPrefix_append_cases hpart with ⟨hhead, hne⟩ | ⟨part, rfl, hbody⟩
    · rw [herror (fails_processRequest hhead hne closed)] at h
      cases h
    · rcases arrives_or_fails hbody hfits closed with ⟨data, hdata⟩ | hfails
      · obtain ⟨rest, hgives⟩ := gives_of_arrives hdata hfits
        rw [hreply hgives] at h
        obtain ⟨rfl, rfl⟩ := Reply.response.inj h
        exact ⟨rfl, part, rfl, hdata⟩
      · rw [herror ((becomes_processRequest part closed).fails hfails.bind)] at h
        cases h
  · rintro ⟨rfl, part, rfl, hdata⟩
    obtain ⟨rest, hgives⟩ := gives_of_arrives hdata hfits
    exact hreply hgives

end

end Httplib

/-- A request that is sent returns a body exactly if the status is 200 and what arrives of the
answer is taken for a whole message with this body, in whatever pieces it arrives. -/
theorem makeGetRequest_returns_iff (env : Environment) {m : Machine} {address path : Bytes}
    {cli : Httplib.ClientImpl} {request : Bytes}
    (hsend : sendGetRequest address path = .ok (cli, some request)) {message : Message}
    {part : Bytes} (hpart : part <+: message.text)
    (hfits : message.body.Fits env.platform.sizeRange Httplib.ulongMax) {arrivals : ℕ → ℕ}
    {closed : Bool} (hget : env.get m.events cli request =
      Httplib.reply env.platform ⟨part, arrivals, closed⟩) (body : Bytes) :
    (∃ m', (makeGetRequest env address path).run m = .returned body m') ↔
      message.line.status = 200 ∧ message.Arrives part closed body := by
  -- What is returned is the body of a response with the status 200.
  have hreturns : (∃ m', (makeGetRequest env address path).run m = .returned body m') ↔
      env.get m.events cli request = .response 200 body := by
    constructor
    · rintro ⟨m', hrun⟩
      rcases makeGetRequest_cases env address path m with
        ⟨h, hstopped⟩ | ⟨cli', request', hsend', ⟨body', hbody, hreturned⟩ | ⟨-, hstopped⟩⟩
      · rw [hstopped] at hrun
        cases hrun
      · rw [hreturned] at hrun
        obtain ⟨rfl, -⟩ := Lib.Outcome.returned.inj hrun
        obtain ⟨rfl, hrequest⟩ := Prod.mk.inj (Except.ok.inj (hsend.symm.trans hsend'))
        obtain rfl := Option.some.inj hrequest
        exact hbody
      · rw [hstopped] at hrun
        cases hrun
    · exact fun h => ⟨_, run_makeGetRequest_of_response hsend h⟩
  rw [hreturns, hget, Httplib.reply_eq_response_iff hpart hfits arrivals closed, eq_comm]

/-- A message with the two characters `de`, the text of an empty dictionary, in one chunk. -/
def oneChunk : Message where
  continues := []
  line := {
    minor := 49
    code := (50, 48, 48)
    reason := literal "OK"
    minor_eq := .inr rfl
    isDigit_code := ⟨rfl, rfl, rfl⟩
    isReason := by decide +kernel }
  before := []
  after := []
  body := .chunked {
    chunks := [{
      size := {
        digits := [50]
        extension := []
        digits_ne_nil := List.cons_ne_nil _ _
        isHex := by decide +kernel
        notMem_extension := List.not_mem_nil
        head_extension := nofun }
      data := literal "de"
      data_ne_nil := List.cons_ne_nil _ _
      value_eq := rfl }]
    last := {
      digits := [48]
      extension := []
      digits_ne_nil := List.cons_ne_nil _ _
      isHex := by decide +kernel
      notMem_extension := List.not_mem_nil
      head_extension := nofun }
    field := {
      name := literal "Transfer-Encoding"
      value := literal "chunked"
      isName := by decide +kernel
      isValue := by decide +kernel }
    isNamed := rfl
    value_eq := by decide +kernel
    last_eq := rfl }
  continues_eq := nofun
  status_ne := by decide +kernel
  plain_before := nofun
  plain_after := nofun

/-- The connection is closed behind the first character after the chunk. -/
def cutEnvironment : Environment where
  __ := silentEnvironment
  get _ _ _ :=
    Httplib.reply .x64 ⟨oneChunk.head ++ literal "2\r\nde\r", fun _ => 0, true⟩

/-- The body is returned without a last chunk. -/
theorem makeGetRequest_returns_oneChunk :
    ∃ m', (makeGetRequest cutEnvironment (literal "http://t") (literal "/a")).run
      { state := fresh {}, files := fun _ => none } = .returned (literal "de") m' := by
  have hclient : Httplib.client (cString (literal "http://t")) =
      .ok ⟨false, literal "t", 80⟩ := by
    decide +kernel
  have hpath : cString (literal "/a") = literal "/a" := by decide +kernel
  have hsend : sendGetRequest (literal "http://t") (literal "/a") =
      .ok (⟨false, literal "t", 80⟩,
        some (Httplib.ClientImpl.writeRequest ⟨false, literal "t", 80⟩ (literal "/a"))) := by
    unfold sendGetRequest
    rw [hclient, hpath]
    rfl
  have hpart : oneChunk.head ++ literal "2\r\nde\r" <+: oneChunk.text := by
    refine (List.prefix_append_right_inj _).mpr ?_
    decide +kernel
  have hfits : oneChunk.body.Fits Platform.x64.sizeRange Httplib.ulongMax := by
    intro c hc
    obtain rfl := List.mem_singleton.mp hc
    decide +kernel
  have harrives : oneChunk.Arrives (oneChunk.head ++ literal "2\r\nde\r") true (literal "de") :=
    ⟨literal "2\r\nde\r", rfl, .cut _ _⟩
  have hstatus : oneChunk.line.status = 200 := by decide +kernel
  exact (makeGetRequest_returns_iff cutEnvironment hsend hpart hfits rfl _).mpr
    ⟨hstatus, harrives⟩

end Btor
