import Btor.Announce
import Btor.Completed
import Btor.InfoDict
import Btor.Request

/-!
# What the tracker is told

Every request that a process makes is one GET request with a query that decodes to the fields of an
announce. The info hash is the SHA-1 of the bytes of the info value in the torrent, the id has the
20 characters of `generateId`, and what is left is the total of the lengths in the torrent
(`client_announces`). This holds of processes that do not come to their end as well. It rests on the
announce URL: a question mark in it would be taken for the start of the query, a zero would end the
path, and a space or a line break in the host would tear the head of the request.
-/

namespace Btor

open Lib (Run RequestHead decodeQuery percentDecode)
open Lib.SecureHash (sha1)

/-! ## The query -/

/-- A text that is sent as it is. -/
def IsPlain (l : Bytes) : Prop := ∀ c ∈ l, c ≠ 0 ∧ Httplib.encodeUrlChar c = [c]

/-- Plain texts together are plain. -/
theorem IsPlain.append {l l' : Bytes} (h : IsPlain l) (h' : IsPlain l') : IsPlain (l ++ l') := by
  intro c hc
  rcases List.mem_append.mp hc with hc | hc
  · exact h c hc
  · exact h' c hc

/-- A plain text is sent as it is. -/
theorem IsPlain.flatMap_encodeUrlChar {l : Bytes} (h : IsPlain l) :
    l.flatMap Httplib.encodeUrlChar = l := by
  induction l with
  | nil => rfl
  | cons c l ih =>
    obtain ⟨hc, hl⟩ := List.forall_mem_cons.mp h
    rw [List.flatMap_cons, hc.2, ih hl]
    rfl

/-- A plain text has no zero. -/
theorem IsPlain.zero_notMem {l : Bytes} (h : IsPlain l) : 0 ∉ l := fun hc => (h 0 hc).1 rfl

/-- Characters that need no encoding are not encoded. -/
theorem isPlain_of_isUnreserved {l : Bytes} (h : ∀ c ∈ l, isUnreserved c = true) : IsPlain l := by
  intro c hc
  have hc := h c hc
  have hlt : c.toNat < 128 := by
    unfold isUnreserved at hc
    simp only [Bool.or_eq_true, Bool.and_eq_true, decide_eq_true_eq, beq_iff_eq, isDigit_iff,
      UInt8.le_iff_toNat_le, ← UInt8.toNat_inj, UInt8.reduceToNat] at hc
    omega
  refine ⟨?_, ?_⟩
  · rintro rfl
    exact absurd hc (by decide)
  -- The eight characters that are encoded are not among those.
  · unfold Httplib.encodeUrlChar
    split_ifs with h h h h h h h h
    iterate 7
      · subst h
        exact absurd hc (by decide)
    · have hle : 128 ≤ c.toNat := UInt8.le_iff_toNat_le.mp h
      omega
    · rfl

/-- The digits of the info hash and the signs before them are not encoded. -/
theorem isPlain_urlEncode (ws : List UInt32) : IsPlain (urlEncode (ws.flatMap hexWord)) := by
  intro c hc
  rw [urlEncode_eq] at hc
  rcases Lib.mem_of_mem_insertPercents hc with rfl | hc
  · exact ⟨by decide, rfl⟩
  · obtain ⟨w, -, hw⟩ := List.mem_flatMap.mp hc
    obtain ⟨d, hd⟩ := hexValue_of_mem_hexWord hw
    refine ⟨?_, (Httplib.encodeUrlChar_cases c).resolve_right fun h => ?_⟩
    · rintro rfl
      cases hd
    · rw [hd] at h
      cases h.1

/-- The query is not encoded. -/
theorem isPlain_buildAnnounceParameters {peerId event : Bytes}
    (hpeerId : ∀ c ∈ peerId, isUnreserved c = true) (hevent : ∀ c ∈ event, isUnreserved c = true)
    (final : Bytes → Vector UInt32 5) (memory : ℕ → UInt8) (read : Metainfo) :
    IsPlain (buildAnnounceParameters (getSHA1 final memory read) peerId event) := by
  have hhash : IsPlain (urlEncode (getSHA1 final memory read).infoHashHex) := isPlain_urlEncode _
  have hleft : IsPlain (stdToString read.totalLength) :=
    isPlain_of_isUnreserved fun _ => isUnreserved_of_mem_stdToString
  have hinfoHash : IsPlain (literal "?info_hash=") := by
    unfold IsPlain
    decide +kernel
  have hname : IsPlain (literal "&peer_id=") := by
    unfold IsPlain
    decide +kernel
  have hzeros : IsPlain (literal "&uploaded=0&downloaded=0&left=") := by
    unfold IsPlain
    decide +kernel
  have hevent' : IsPlain (literal "&event=") := by
    unfold IsPlain
    decide +kernel
  have hport : IsPlain (literal "&port=6886") := by
    unfold IsPlain
    decide +kernel
  have hid := isPlain_of_isUnreserved hpeerId
  have hvalue := isPlain_of_isUnreserved hevent
  unfold buildAnnounceParameters
  exact (((((((hinfoHash.append hhash).append hname).append hid).append hzeros).append
    hleft).append hevent').append hvalue).append hport

/-! ## The parts of the URL -/

section

variable {c : UInt8}

/-- The characters of a text up to a zero are characters of the text. -/
theorem mem_of_mem_cString {s : Bytes} (h : c ∈ cString s) : c ∈ s :=
  (List.takeWhile_prefix _).subset h

/-- A computation that ends well did so after its first part. -/
theorem exists_of_bind_eq_ok {ε α β : Type} {x : Except ε α} {f : α → Except ε β} {b : β}
    (h : x >>= f = .ok b) : ∃ a, x = .ok a ∧ f a = .ok b := by
  cases x with
  | error e => cases h
  | ok a => exact ⟨a, rfl, h⟩

/-- The characters of a part of a text are characters of the text. -/
theorem mem_of_mem_substr {s part : Bytes} {pos count : ℕ} (h : substr s pos count = .ok part)
    (hc : c ∈ part) : c ∈ s := by
  unfold substr at h
  split_ifs at h
  obtain rfl := Except.ok.inj h
  exact List.mem_of_mem_drop (List.mem_of_mem_take hc)

/-- The characters of the server part are those of the URL. -/
theorem mem_of_mem_serverAddress {platform : Platform} {announce server : Bytes}
    (h : getServerAddress platform announce = .ok server) (hc : c ∈ server) : c ∈ announce := by
  obtain ⟨index, -, hpart⟩ := exists_of_bind_eq_ok h
  exact mem_of_mem_substr hpart hc

/-- The characters of the path part are those of the URL. -/
theorem mem_of_mem_announcePath {platform : Platform} {announce path : Bytes}
    (h : getAnnouncePath platform announce = .ok path) (hc : c ∈ path) : c ∈ announce := by
  obtain ⟨index, -, hpart⟩ := exists_of_bind_eq_ok h
  exact mem_of_mem_substr hpart hc

namespace Httplib

/-- The characters of the host are those of the text that is matched. -/
theorem mem_of_matchHostPort {s host port : Bytes} (h : matchHostPort s = some (host, port))
    (hc : c ∈ host) : c ∈ s := by
  -- The host is what is in front, whatever comes behind it.
  have hhost : host = s.takeWhile isHostChar := by
    unfold matchHostPort at h
    dsimp only at h
    split_ifs at h
    split at h
    · exact (Prod.mk.inj (Option.some.inj h)).1.symm
    · split_ifs at h
      exact (Prod.mk.inj (Option.some.inj h)).1.symm
  rw [hhost] at hc
  exact (List.takeWhile_prefix _).subset hc

/-- They are still if the text has a scheme. -/
theorem mem_of_matchSchemeHostPort {s scheme host port : Bytes}
    (h : matchSchemeHostPort s = some (scheme, host, port)) (hc : c ∈ host) : c ∈ s := by
  unfold matchSchemeHostPort at h
  dsimp only at h
  split_ifs at h
  · obtain ⟨⟨host', port'⟩, hmatch, heq⟩ := Option.map_eq_some_iff.mp h
    obtain ⟨-, hhost⟩ := Prod.mk.inj heq
    obtain ⟨rfl, -⟩ := Prod.mk.inj hhost
    have hrest := List.mem_of_mem_drop (mem_of_matchHostPort hmatch hc)
    exact (List.dropWhile_suffix _).subset hrest
  · obtain ⟨⟨host', port'⟩, hmatch, heq⟩ := Option.map_eq_some_iff.mp h
    obtain ⟨-, hhost⟩ := Prod.mk.inj heq
    obtain ⟨rfl, -⟩ := Prod.mk.inj hhost
    exact mem_of_matchHostPort hmatch hc

/-- The characters of the host are those of the text that the client is made of. -/
theorem mem_of_mem_host {s : Bytes} {cli : ClientImpl} (h : client s = .ok cli)
    (hc : c ∈ cli.host) : c ∈ s := by
  unfold client at h
  cases hmatch : matchSchemeHostPort s with
  | none =>
    rw [hmatch] at h
    obtain rfl := Except.ok.inj h
    exact hc
  | some groups =>
    obtain ⟨scheme, host, portStr⟩ := groups
    rw [hmatch] at h
    dsimp only at h
    split_ifs at h
    iterate 3
      · obtain ⟨port, -, hcli⟩ := exists_of_bind_eq_ok h
        obtain rfl := Except.ok.inj hcli
        exact mem_of_matchSchemeHostPort hmatch hc

end Httplib

end

/-! ## The requests -/

/-- The bytes are a GET request for a path, with a query that a reader takes for these fields. -/
def Requests (request path : Bytes) (fields : List (Bytes × Bytes)) : Prop :=
  ∃ (head : RequestHead) (target query : Bytes), RequestHead.decode request = some (head, []) ∧
    head.method = literal "GET" ∧
    head.target = Ascii.slash :: target ++ Ascii.question :: query ∧ Ascii.question ∉ target ∧
    percentDecode target = percentDecode path ∧ decodeQuery query = some fields

/-- The fields of an announce for the torrent. -/
def announceOf (env : Environment) (slot : Slot) (left event : Bytes) : List (Bytes × Bytes) := [
  (literal "info_hash", digestBytes (sha1 slot.value.bytes)),
  (literal "peer_id", generateId env.rand),
  (literal "uploaded", literal "0"),
  (literal "downloaded", literal "0"),
  (literal "left", left),
  (literal "event", event),
  (literal "port", literal "6886")]

/-- The bytes announce an event for the torrent, and what is left reads as the total of its
lengths. -/
def Announces (env : Environment) (t : Parsed) (slot : Slot) (path event request : Bytes) : Prop :=
  ∃ left, readInteger left = some t.lengths.toInt ∧
    Requests request path (announceOf env slot left event)

/-- A path with a query after it is requested as such. -/
theorem Httplib.ClientImpl.requests_writeRequest {cli : Httplib.ClientImpl}
    (hhost : cli.HasPlainHost) {path query : Bytes} (hzero : 0 ∉ path)
    (hquestion : Ascii.question ∉ path) (hplain : IsPlain query) {fields : List (Bytes × Bytes)}
    (hquery : decodeQuery query = some fields) :
    Requests (cli.writeRequest (cString (Ascii.slash :: path ++ Ascii.question :: query))) path
      fields := by
  have hzero' : 0 ∉ Ascii.slash :: path ++ Ascii.question :: query := by
    simp only [List.cons_append, List.mem_cons, List.mem_append, not_or]
    exact ⟨by decide, hzero, by decide, hplain.zero_notMem⟩
  have htarget : Httplib.encodeUrl (Ascii.slash :: path ++ Ascii.question :: query) =
      Ascii.slash :: path.flatMap Httplib.encodeUrlChar ++ Ascii.question :: query := by
    have hslash : Httplib.encodeUrlChar Ascii.slash = [Ascii.slash] := rfl
    have hquestion : Httplib.encodeUrlChar Ascii.question = [Ascii.question] := rfl
    unfold Httplib.encodeUrl
    rw [cString_of_notMem hzero', List.flatMap_append, List.flatMap_cons, List.flatMap_cons, hslash,
      hquestion, hplain.flatMap_encodeUrlChar]
    rfl
  rw [cString_of_notMem hzero']
  refine ⟨_, path.flatMap Httplib.encodeUrlChar, query,
    Httplib.ClientImpl.decode_writeRequest hhost _, rfl, htarget, ?_, ?_, hquery⟩
  · exact Httplib.notMem_flatMap_encodeUrlChar hquestion (by decide) (by decide)
  · exact Httplib.percentDecode_flatMap_encodeUrlChar path

section

variable {env : Environment} {files : Files} {t : Parsed} {slot : Slot}

/-- The announce URL ends neither the path nor the head of the request, and starts no query. -/
def IsPlainUrl (announce : Bytes) : Prop :=
  ∀ c ∈ announce, c ≠ 0 ∧ c ≠ Ascii.question ∧ c ≠ 32 ∧ c ≠ 13 ∧ c ≠ 10

/-- The host of a plain URL is plain. -/
theorem Announcer.hasPlainHost (a : Announcer env files) (h : IsPlainUrl a.file.announce) :
    a.cli.HasPlainHost := fun _ hc =>
  have hserver := mem_of_mem_cString (Httplib.mem_of_mem_host a.cli_eq hc)
  (h _ (mem_of_mem_serverAddress a.serverAddr_eq hserver)).2.2

/-- What an announcer has read is the torrent in the file. -/
theorem Announcer.eq_of_readFile (a : Announcer env files) {torrent announce : Bytes}
    (hfile : readFile files torrentFileName env.readFile = some torrent)
    (ht : StartsWith torrent t) (h : t.value.string? (literal "announce") = some announce) :
    a.file.parsed = t ∧ a.file.announce = announce := by
  have htorrent := Option.some.inj (a.readFile_eq.symm.trans hfile)
  have hparsed : a.file.parsed = t := a.file.startsWith.unique (htorrent ▸ ht)
  have hfound := a.file.announce_eq
  rw [hparsed, h] at hfound
  exact ⟨hparsed, (Option.some.inj hfound).symm⟩

/-- What an announcer requests is an announce for its torrent. -/
theorem Announcer.announces (a : Announcer env files) (ht : a.file.parsed = t)
    (hslot : (t.slots 0).filter Slot.isInfo = [slot]) (hhost : a.cli.HasPlainHost)
    (hzero : 0 ∉ a.announcePath) (hquestion : Ascii.question ∉ a.announcePath) {event : Bytes}
    (hevent : ∀ c ∈ event, isUnreserved c = true) :
    Announces env t slot a.announcePath event (a.request event) := by
  subst ht
  have hid := (generateId_spec env.rand).2.2
  -- What the parser keeps of the torrent is the info value as it stands there.
  have hinfodict : (a.file.parsed.kept false).flatMap Token.bytes = slot.value.bytes := by
    rw [Parsed.kept_of_slots hslot, slot.value.flatMap_tokens]
  have hvalue : digestBytes (checksum ((a.file.parsed.kept false).flatMap Token.bytes)) =
      digestBytes (sha1 slot.value.bytes) := by
    rw [checksum_eq_sha1, hinfodict]
  let read : Metainfo := {
    announce := a.file.announce
    infodict := (a.file.parsed.kept false).flatMap Token.bytes
    totalLength := a.file.parsed.lengths
    pieceLength := (Int64.ofInt a.file.pieceLength).toUInt64 }
  let fields := announceFields hid hevent (checksum read.infodict) read.totalLength
  have hparameters : buildAnnounceParameters a.metainfo (generateId env.rand) event =
      Ascii.question :: [38].intercalate (fields.map Lib.Field.part) :=
    buildAnnounceParameters_eq hid hevent checksum env.hashMemory read
  have hplain : IsPlain ([38].intercalate (fields.map Lib.Field.part)) := by
    have hplain := isPlain_buildAnnounceParameters hid hevent checksum env.hashMemory read
    rw [buildAnnounceParameters_eq hid hevent checksum env.hashMemory read] at hplain
    exact fun c hc => hplain c (List.mem_cons_of_mem _ hc)
  -- The parameters are the fields as a query, and none of their characters is encoded once more.
  have hquery := Lib.decodeQuery_intercalate (List.cons_ne_nil _ _ : fields ≠ [])
  refine ⟨stdToString a.file.parsed.lengths, readInteger_stdToString _, ?_⟩
  have hrequests := Httplib.ClientImpl.requests_writeRequest hhost hzero hquestion hplain hquery
  have hpath : a.path event =
      Ascii.slash :: a.announcePath ++
        Ascii.question :: [38].intercalate (fields.map Lib.Field.part) := by
    unfold Announcer.path
    rw [hparameters]
    rfl
  unfold Announcer.request announceOf
  rw [hpath, ← hvalue]
  exact hrequests

/-- The characters of the two events need no encoding. -/
theorem isUnreserved_event {event : Bytes}
    (h : event = literal "started" ∨ event = literal "stopped") :
    ∀ c ∈ event, isUnreserved c = true := by
  rcases h with rfl | rfl
  · decide +kernel
  · decide +kernel

/-- A request of a process is one of its two announces. -/
theorem exists_announcer_of_get {fuel : ℕ} {cli : Httplib.ClientImpl} {request : Bytes}
    (h : .get cli request ∈ ((client env fuel).run (.start files)).state.events) :
    ∃ (a : Announcer env files) (event : Bytes),
      (event = literal "started" ∨ event = literal "stopped") ∧ cli = a.cli ∧
      request = a.request event := by
  rcases isClientEvent_of_mem fuel h with ⟨a, h | h⟩ | h | ⟨_, _, h⟩ | ⟨_, h⟩
  · obtain ⟨rfl, rfl⟩ := Event.get.inj h
    exact ⟨a, _, .inl rfl, rfl, rfl⟩
  · obtain ⟨rfl, rfl⟩ := Event.get.inj h
    exact ⟨a, _, .inr rfl, rfl, rfl⟩
  · cases h
  · cases h
  · cases h

end

/-- Every request of every process that reads a torrent with one info value and a plain announce URL
announces the start or the stop of that torrent: with the SHA-1 of the bytes of the info value, the
id of 20 characters, and the total of the lengths. -/
theorem client_announces (env : Environment) (fuel : ℕ) {files : Files} {torrent : Bytes}
    (hfile : readFile files torrentFileName env.readFile = some torrent) {t : Parsed}
    (ht : StartsWith torrent t) {slot : Slot} (hslot : (t.slots 0).filter Slot.isInfo = [slot])
    {announce : Bytes} (hannounce : t.value.string? (literal "announce") = some announce)
    (hplain : IsPlainUrl announce) : (generateId env.rand).length = 20 ∧
    ∀ cli request, .get cli request ∈ ((client env fuel).run (.start files)).state.events →
      ∃ path, Announces env t slot path (literal "started") request ∨
        Announces env t slot path (literal "stopped") request := by
  refine ⟨(generateId_spec env.rand).1, fun cli request hmem => ?_⟩
  obtain ⟨a, event, hevent, rfl, rfl⟩ := exists_announcer_of_get hmem
  obtain ⟨hparsed, heq⟩ := a.eq_of_readFile hfile ht hannounce
  have hplain : IsPlainUrl a.file.announce := heq ▸ hplain
  -- The path and the host have no other characters than the URL.
  have hpath {c : UInt8} (hc : c ∈ a.announcePath) :=
    hplain c (mem_of_mem_announcePath a.announcePath_eq hc)
  have hannounces := a.announces hparsed hslot (a.hasPlainHost hplain) (fun h => (hpath h).1 rfl)
    (fun h => (hpath h).2.1 rfl) (isUnreserved_event hevent)
  rcases hevent with rfl | rfl
  · exact ⟨_, .inl hannounces⟩
  · exact ⟨_, .inr hannounces⟩

/-- The info value of the torrent with no file. -/
def noLengthSlot : Slot :=
  ⟨infoKey, 30, .dict [(⟨[49, 50], literal "piece length"⟩, .integer [49])]⟩

/-- It has one info value. -/
theorem noLength_slots : (noLength.slots 0).filter Slot.isInfo = [noLengthSlot] := rfl

/-- The process reads that torrent. -/
theorem noLengthFiles_torrent : readFile noLengthFiles torrentFileName onePeerEnvironment.readFile =
    some noLength.bytes := onePeerAnnouncer.readFile_eq

/-- The process that has one peer makes a request. -/
theorem exists_get_noLength : ∃ cli request,
    .get cli request ∈
      ((client onePeerEnvironment 300).run (.start noLengthFiles)).state.events := by
  obtain ⟨s, m', hrun, hevents, -⟩ := returned_onePeer
  have hmem : s.announce (literal "started") ∈
      ((client onePeerEnvironment 300).run (.start noLengthFiles)).state.events := by
    rw [hrun, Lib.Outcome.state_returned, hevents]
    exact List.mem_cons_self
  exact ⟨_, _, hmem⟩

/-- The request announces the torrent. -/
theorem client_announces_noLength : ∃ cli request,
    .get cli request ∈
      ((client onePeerEnvironment 300).run (.start noLengthFiles)).state.events ∧
    ∃ path, Announces onePeerEnvironment noLength noLengthSlot path (literal "started") request ∨
      Announces onePeerEnvironment noLength noLengthSlot path (literal "stopped") request := by
  have hplain : IsPlainUrl (literal "http://t/a") := by
    unfold IsPlainUrl
    decide +kernel
  have hannounces := client_announces onePeerEnvironment 300 noLengthFiles_torrent
    noLength_startsWith noLength_slots rfl hplain
  obtain ⟨cli, request, hmem⟩ := exists_get_noLength
  exact ⟨cli, request, hmem, hannounces.2 cli request hmem⟩

end Btor
