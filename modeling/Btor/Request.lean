import Btor.Announce
import Btor.Httplib
import Btor.Lib.RequestHead

/-!
# The request on the wire

What `httplib` sends for a path is one request, whatever characters the path has: a space or a line
break in it is encoded, so that it ends neither the target nor the line, and the target decodes to
what the path decodes to (`sendGetRequest_decodes`). The host is sent as it is.
-/

namespace Btor

open Lib (RequestHead percentDecode hexValue hexByte)

namespace Httplib

/-! ## Encoding -/

/-- The two digits of a byte denote it. -/
theorem hexByte_upperHex (c : UInt8) : ∃ x y, upperHex c = [x, y] ∧ hexByte x y = some c := by
  have hsymbol : ∀ d < 16, hexValue (if UInt8.ofNat d < 10 then 48 + UInt8.ofNat d
      else 55 + UInt8.ofNat d) = some d := by
    decide
  have hdigit (d : UInt8) (hd : d.toNat < 16) :
      hexValue (if d < 10 then 48 + d else 55 + d) = some d.toNat := by
    have hd := hsymbol d.toNat hd
    rwa [UInt8.ofNat_toNat] at hd
  have hhigh : (c / 16).toNat = c.toNat / 16 := UInt8.toNat_div ..
  have hlow : (c % 16).toNat = c.toNat % 16 := UInt8.toNat_mod ..
  have hlt := c.toNat_lt
  have hsum : (c / 16).toNat * 16 + (c % 16).toNat = c.toNat := by omega
  refine ⟨_, _, rfl, ?_⟩
  unfold hexByte
  rw [hdigit _ (by omega), hdigit _ (by omega)]
  simp only [Option.bind_eq_bind, Option.bind_some, hsum, UInt8.ofNat_toNat, Option.pure_def]

/-- A character is left as it is, or written with a `%` and read back. Those that are written so are
no hexadecimal digits. -/
theorem encodeUrlChar_cases (c : UInt8) : encodeUrlChar c = [c] ∨
    hexValue c = none ∧ ∃ x y, encodeUrlChar c = [37, x, y] ∧ hexByte x y = some c := by
  unfold encodeUrlChar
  split_ifs with h h h h h h h h
  iterate 7
    · subst h
      exact .inr ⟨by decide, _, _, rfl, by decide⟩
  · obtain ⟨x, y, hxy, hbyte⟩ := hexByte_upperHex c
    have hle : 128 ≤ c.toNat := UInt8.le_iff_toNat_le.mp h
    refine .inr ⟨?_, x, y, by rw [hxy], hbyte⟩
    unfold hexValue
    rw [if_neg (by omega), if_neg (by omega), if_neg (by omega)]
  · exact .inl rfl

/-- The characters of what a character is encoded as. -/
theorem of_mem_encodeUrlChar {x c : UInt8} (h : c ∈ encodeUrlChar x) :
    c = x ∧ encodeUrlChar x = [x] ∨ c = 37 ∨ ∃ n, hexValue c = some n := by
  rcases encodeUrlChar_cases x with heq | ⟨-, a, b, heq, hbyte⟩
  · rw [heq, List.mem_singleton] at h
    exact .inl ⟨h, heq⟩
  · obtain ⟨m, ha, hbyte⟩ := Option.bind_eq_some_iff.mp hbyte
    obtain ⟨n, hb, -⟩ := Option.bind_eq_some_iff.mp hbyte
    rw [heq, List.mem_cons, List.mem_cons, List.mem_singleton] at h
    rcases h with rfl | rfl | rfl
    · exact .inr (.inl rfl)
    · exact .inr (.inr ⟨m, ha⟩)
    · exact .inr (.inr ⟨n, hb⟩)

/-- An encoded path has no character that ends the request line or a part of it. -/
theorem ne_of_mem_encodeUrl {s : Bytes} {c : UInt8} (h : c ∈ encodeUrl s) :
    c ≠ 32 ∧ c ≠ 13 ∧ c ≠ 10 := by
  obtain ⟨x, -, hx⟩ := List.mem_flatMap.mp h
  rcases of_mem_encodeUrlChar hx with ⟨rfl, heq⟩ | rfl | ⟨n, hn⟩
  · refine ⟨?_, ?_, ?_⟩ <;> rintro rfl <;> exact absurd heq (by decide)
  · decide
  · refine ⟨?_, ?_, ?_⟩ <;> rintro rfl <;> cases hn

/-- A character that is no hexadecimal digit and not encoded is not made by encoding. -/
theorem notMem_flatMap_encodeUrlChar {s : Bytes} {c : UInt8} (h : c ∉ s) (hc : c ≠ 37)
    (hnone : hexValue c = none) : c ∉ s.flatMap encodeUrlChar := by
  intro hmem
  obtain ⟨x, hx, hcx⟩ := List.mem_flatMap.mp hmem
  rcases of_mem_encodeUrlChar hcx with ⟨rfl, -⟩ | hpercent | ⟨n, hn⟩
  · exact h hx
  · exact hc hpercent
  · rw [hnone] at hn
    cases hn

/-- Encoding changes nothing in what a text decodes to. -/
theorem percentDecode_flatMap_encodeUrlChar (s : Bytes) :
    percentDecode (s.flatMap encodeUrlChar) = percentDecode s := by
  have hpercent (rest : Bytes) : (37 :: rest).flatMap encodeUrlChar =
      37 :: rest.flatMap encodeUrlChar := rfl
  have hnone : hexValue 37 = none := by decide
  -- By the cases of the decoder. The percent sign itself is not encoded, so an escape in the path
  -- stays one, and what is no escape stays none.
  induction s using Lib.percentDecode.induct with
  | case1 => rfl
  | case2 a b rest ih =>
    rw [hpercent, List.flatMap_cons, List.flatMap_cons]
    -- Of two characters behind a percent sign, one that is encoded is no digit, and starts with a
    -- percent sign, which is none either.
    rcases encodeUrlChar_cases a with ha | ⟨ha, x, y, hxy, -⟩
    · rcases encodeUrlChar_cases b with hb | ⟨hb, x, y, hxy, -⟩
      · rw [ha, hb]
        simp only [List.cons_append, List.nil_append, percentDecode, ih]
      · rw [ha, hxy, Lib.percentDecode_of_second hb]
        exact Lib.percentDecode_of_second hnone a _
    · rw [hxy, Lib.percentDecode_of_first ha]
      exact Lib.percentDecode_of_first hnone _
  | case3 rest hrest =>
    rw [hpercent]
    cases rest with
    | nil => rfl
    | cons a rest =>
      cases rest with
      | nil =>
        rcases encodeUrlChar_cases a with ha | ⟨ha, x, y, hxy, -⟩
        · rw [List.flatMap_singleton, ha]
        · rw [List.flatMap_singleton, hxy, Lib.percentDecode_of_first hnone]
          exact (Lib.percentDecode_of_first ha []).symm
      | cons b rest => exact (hrest a b rest rfl rfl).elim
  | case4 c rest hrest hc ih =>
    have hplain (l : Bytes) : percentDecode (c :: l) = (percentDecode l).map (c :: ·) := by
      rw [percentDecode]
      · exact if_neg hc
      · exact fun _ _ _ h => absurd h hc
    rw [List.flatMap_cons, hplain]
    -- Anything else is sent as it is, or as an escape that is read back.
    rcases encodeUrlChar_cases c with hc | ⟨-, x, y, hxy, hbyte⟩
    · rw [hc, List.singleton_append, hplain, ih]
    · rw [hxy]
      simp only [List.cons_append, List.nil_append, percentDecode, hbyte, ih]
      cases percentDecode rest <;> rfl

/-! ## The head of the request -/

/-- The headers are in the order of their names. -/
theorem ClientImpl.addHeaders_eq (cli : ClientImpl) : cli.addHeaders true [] = [
    (literal "Accept", literal "*/*"),
    (literal "Connection", literal "close"),
    (literal "Host", cli.hostHeader),
    (literal "User-Agent", literal "cpp-httplib/0.7")] := by
  rfl

/-- The head of the request for a path. -/
def ClientImpl.head (cli : ClientImpl) (path : Bytes) : RequestHead where
  method := literal "GET"
  target := encodeUrl path
  version := literal "HTTP/1.1"
  fields := cli.addHeaders true []

/-- What is written is that head. -/
theorem ClientImpl.writeRequest_eq (cli : ClientImpl) (path : Bytes) :
    cli.writeRequest path = (cli.head path).encode := by
  -- The line of the request and those of the fields are as the reader has them.
  have hline : literal "GET" ++ literal " " ++ encodeUrl path ++ literal " HTTP/1.1\r\n" =
      RequestHead.writeLine
        (literal "GET" ++ 32 :: encodeUrl path ++ 32 :: literal "HTTP/1.1") := by
    have hend : literal " HTTP/1.1\r\n" = 32 :: literal "HTTP/1.1" ++ [13, 10] := rfl
    have hspace : literal " " = [32] := rfl
    unfold RequestHead.writeLine
    rw [hend, hspace]
    simp
  have hfield (h : Bytes × Bytes) : h.1 ++ literal ": " ++ h.2 ++ literal "\r\n" =
      RequestHead.writeLine (RequestHead.fieldLine h) := by
    have hcolon : literal ": " = [58, 32] := rfl
    have hend : literal "\r\n" = [13, 10] := rfl
    unfold RequestHead.writeLine RequestHead.fieldLine
    rw [hcolon, hend]
    simp
  unfold ClientImpl.writeRequest writeHeaders RequestHead.encode ClientImpl.head
  dsimp only
  simp only [hfield]
  rw [hline, ← List.append_assoc]
  rfl

/-- The host has no space and no line break. -/
def ClientImpl.HasPlainHost (cli : ClientImpl) : Prop :=
  ∀ c ∈ cli.host, c ≠ 32 ∧ c ≠ 13 ∧ c ≠ 10

/-- Neither has the header for it. -/
theorem ClientImpl.HasPlainHost.hostHeader {cli : ClientImpl} (h : cli.HasPlainHost) :
    ∀ c ∈ cli.hostHeader, c ≠ 32 ∧ c ≠ 13 ∧ c ≠ 10 := by
  have hhostAndPort : ∀ c ∈ cli.hostAndPort, c ≠ 32 ∧ c ≠ 13 ∧ c ≠ 10 := by
    intro c hc
    rcases List.mem_append.mp hc with hc | hc
    · rcases List.mem_append.mp hc with hc | hc
      · exact h c hc
      · obtain rfl : c = 58 := List.mem_singleton.mp hc
        decide
    · have hunreserved := isUnreserved_of_mem_stdToString hc
      refine ⟨?_, ?_, ?_⟩ <;> rintro rfl <;> exact absurd hunreserved (by decide)
  unfold ClientImpl.hostHeader
  split_ifs
  · exact h
  · exact hhostAndPort
  · exact h
  · exact hhostAndPort

/-- The request is read as what was meant, whatever the path is. -/
theorem ClientImpl.decode_writeRequest {cli : ClientImpl} (h : cli.HasPlainHost) (path : Bytes) :
    RequestHead.decode (cli.writeRequest path) = some (cli.head path, []) := by
  have hwf : (cli.head path).WellFormed := by
    have hmethod : ∀ c ∈ literal "GET", c ≠ 32 ∧ c ≠ 13 ∧ c ≠ 10 := by decide +kernel
    have hversion : ∀ c ∈ literal "HTTP/1.1", c ≠ 32 ∧ c ≠ 13 ∧ c ≠ 10 := by decide +kernel
    refine ⟨hmethod, fun c => ne_of_mem_encodeUrl, hversion, ?_, ?_⟩
    · unfold ClientImpl.head
      rw [cli.addHeaders_eq]
      simp only [List.forall_mem_cons, List.not_mem_nil, false_implies, implies_true, and_true]
      exact ⟨by decide +kernel, by decide +kernel, by decide +kernel, by decide +kernel⟩
    · unfold ClientImpl.head
      rw [cli.addHeaders_eq]
      simp only [List.forall_mem_cons, List.not_mem_nil, false_implies, implies_true, and_true]
      refine ⟨by decide +kernel, by decide +kernel, ⟨?_, fun c hc => (h.hostHeader c hc).2⟩,
        by decide +kernel⟩
      intro hspace
      exact (h.hostHeader 32 (List.mem_of_mem_head? hspace)).1 rfl
  have hdecode := hwf.decode_encode []
  rwa [List.append_nil, ← cli.writeRequest_eq] at hdecode

end Httplib

/-- What is sent is the request of the client for the path. -/
theorem sendGetRequest_eq_ok {address path : Bytes} {request : Option Bytes}
    {cli : Httplib.ClientImpl} : sendGetRequest address path = .ok (cli, request) ↔
      Httplib.client (cString address) = .ok cli ∧ cli.get (cString path) = request := by
  unfold sendGetRequest
  cases Httplib.client (cString address) with
  | error e =>
    constructor
    · intro h
      cases h
    · rintro ⟨h, -⟩
      cases h
  | ok cli' =>
    constructor
    · intro h
      obtain ⟨rfl, rfl⟩ := Prod.mk.inj (Except.ok.inj h)
      exact ⟨rfl, rfl⟩
    · rintro ⟨h, rfl⟩
      obtain rfl := Except.ok.inj h
      rfl

/-- A request that is sent is what the client writes for the path. -/
theorem sendGetRequest_eq_some {address path request : Bytes} {cli : Httplib.ClientImpl} :
    sendGetRequest address path = .ok (cli, some request) ↔
      Httplib.client (cString address) = .ok cli ∧ cString path ≠ [] ∧
        cli.writeRequest (cString path) = request := by
  rw [sendGetRequest_eq_ok]
  unfold Httplib.ClientImpl.get
  split_ifs with hempty
  · simp [hempty]
  · simp [hempty]

/-- No request is sent for an empty path. For any other, the request is one head and nothing after
it, with a target that decodes to what the path decodes to, whatever characters the path has. -/
theorem sendGetRequest_decodes {address path : Bytes} {request : Option Bytes}
    {cli : Httplib.ClientImpl} (hsend : sendGetRequest address path = .ok (cli, request))
    (hhost : cli.HasPlainHost) : (request = none ↔ cString path = []) ∧
      ∀ bytes, request = some bytes →
        ∃ head, RequestHead.decode bytes = some (head, []) ∧ head.method = literal "GET" ∧
          percentDecode head.target = percentDecode (cString path) ∧
          head.fields = [
            (literal "Accept", literal "*/*"),
            (literal "Connection", literal "close"),
            (literal "Host", cli.hostHeader),
            (literal "User-Agent", literal "cpp-httplib/0.7")] := by
  constructor
  · rw [← (sendGetRequest_eq_ok.mp hsend).2]
    unfold Httplib.ClientImpl.get
    split_ifs with hempty
    · exact ⟨fun _ => hempty, fun _ => rfl⟩
    · exact ⟨nofun, fun h => absurd h hempty⟩
  · rintro bytes rfl
    obtain ⟨-, -, rfl⟩ := sendGetRequest_eq_some.mp hsend
    refine ⟨_, Httplib.ClientImpl.decode_writeRequest hhost _, rfl, ?_, cli.addHeaders_eq⟩
    -- A string has no zero, so nothing of it is cut off once more.
    have htarget : (cli.head (cString path)).target =
        (cString path).flatMap Httplib.encodeUrlChar :=
      congrArg (List.flatMap Httplib.encodeUrlChar) (cString_of_notMem (zero_notMem_cString path))
    rw [htarget, Httplib.percentDecode_flatMap_encodeUrlChar]

/-- A path with line breaks in it makes no second request. -/
theorem sendGetRequest_decodes_lines : ∃ bytes head,
    sendGetRequest (literal "http://a") (literal "/ HTTP/1.1\r\n\r\nGET /x") =
      .ok (⟨false, literal "a", 80⟩, some bytes) ∧
    RequestHead.decode bytes = some (head, []) ∧ head.method = literal "GET" ∧
      percentDecode head.target = percentDecode (literal "/ HTTP/1.1\r\n\r\nGET /x") ∧
      head.fields = [
        (literal "Accept", literal "*/*"),
        (literal "Connection", literal "close"),
        (literal "Host", literal "a"),
        (literal "User-Agent", literal "cpp-httplib/0.7")] := by
  have hclient : Httplib.client (cString (literal "http://a")) = .ok ⟨false, literal "a", 80⟩ := by
    decide +kernel
  have hpath : cString (literal "/ HTTP/1.1\r\n\r\nGET /x") =
      literal "/ HTTP/1.1\r\n\r\nGET /x" := by decide +kernel
  have hne : cString (literal "/ HTTP/1.1\r\n\r\nGET /x") ≠ [] := by
    rw [hpath]
    decide +kernel
  have hsend := sendGetRequest_eq_some.mpr ⟨hclient, hne, rfl⟩
  have hhost : ∀ c ∈ literal "a", c ≠ 32 ∧ c ≠ 13 ∧ c ≠ 10 := by
    decide +kernel
  obtain ⟨head, hdecodes⟩ := (sendGetRequest_decodes hsend hhost).2 _ rfl
  rw [hpath] at hdecodes
  exact ⟨_, head, hsend, hdecodes⟩

end Btor
