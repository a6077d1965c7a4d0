import Btor.Handshake
import Btor.StartUp
import Btor.Trace

/-!
# A run of `main` that ends well

With a torrent that has what `main` looks up, a server that can be found and answers both requests,
and a response with a list of peers, `main` returns, and has done all that a session does. There is
one peer for each entry of the list, with the entry's address as text, its number and the last 16
bits of its port (`client_completes`). No call of the operating system by a peer needs to succeed
for that, and no stream except that of the torrent.
-/

namespace Btor

open Lib (Run)
open Lib.Run (Post Returns Keeps Emits)

/-! ## What is needed -/

section

variable {env : Environment} {files : Files}

/-- Nothing fails at the start, and both requests are answered, the first one by the response. -/
structure Answered (a : Announcer env files) (response : Bytes) : Prop where
  wsaStartup : env.wsaStartup = 0
  setConsoleCtrlHandler : env.setConsoleCtrlHandler = true
  started : env.get [] a.cli (a.request (literal "started")) = .response 200 response
  stopped : ∀ events, ∃ body,
    env.get events a.cli (a.request (literal "stopped")) = .response 200 body

/-- There is a bitfield, or its size can be computed. -/
def HasBitfield (files : Files) (metainfo : Metainfo) : Prop :=
  (files bitfieldFileName).isSome ∨ metainfo.pieceLength ≠ 0 ∧
    metainfo.totalLength.toUInt64.toNat / metainfo.pieceLength.toNat < 2^64 - 2^10

/-- Each entry of the list of peers has an address and a port. -/
def HasEndpoints (entries : List Value) : Prop :=
  ∀ e ∈ entries, ∃ ip port, e.string? (literal "ip") = some ip ∧ e.port? = some port

end

/-! ## The parts of the whole -/

section

variable {α : Type} {m : Machine}

/-- A part of `main` that runs on the parser and makes system calls. -/
theorem returns_world {x : Main α} {Q : α → World → Prop}
    (h : x.Returns { state := m.state, calls := m.calls } Q) :
    (Client.world x).Returns m fun a m' => ∃ w, m' = Client.resume m w ∧ Q a w :=
  (post_world h).mono (fun _ _ h => h) fun _ h => h.elim fun _ h => h.2

/-- The size of the bitfield is defined. -/
theorem exists_getBitfieldSize {metainfo : Metainfo} (hpiece : metainfo.pieceLength ≠ 0)
    (hpieces : metainfo.totalLength.toUInt64.toNat / metainfo.pieceLength.toNat < 2^64 - 2^10) :
    ∃ size, getBitfieldSize metainfo = .ok size := by
  rw [← UInt64.toNat_div] at hpieces
  obtain ⟨numberOfPieces, hnumber, -⟩ := ceil_of_fits hpieces
  have hbytes : (numberOfPieces / 8).toNat = numberOfPieces.toNat / 8 := UInt64.toNat_div ..
  have hlt := numberOfPieces.toNat_lt
  -- An eighth of a number of 64 bits is far below the bound.
  obtain ⟨size, hsize, -⟩ := ceil_of_fits (x := numberOfPieces / 8) (by omega)
  refine ⟨size, ?_⟩
  unfold getBitfieldSize
  rw [if_neg hpiece, hnumber]
  exact hsize

/-- The bitfield is loaded, whatever becomes of the streams. -/
theorem returns_loadBitfield (env : Environment) {metainfo : Metainfo}
    (h : HasBitfield m.files metainfo) :
    (loadBitfield env metainfo).Returns m fun _ _ => True := by
  have hfiles : Client.files.run m = .returned m.files m := rfl
  refine .bind_of_returned hfiles ?_
  unfold doesBitfieldFileExist
  split_ifs with hsome
  · exact Run.post_pure trivial
  · obtain ⟨hpiece, hpieces⟩ := h.resolve_left hsome
    obtain ⟨size, hsize⟩ := exists_getBitfieldSize hpiece hpieces
    have hcompute : (Main.compute (getBitfieldSize metainfo)).Returns
        { state := m.state, calls := m.calls } fun _ _ => True := by
      rw [hsize]
      exact Run.post_pure trivial
    exact (returns_world hcompute).bind fun _ _ _ => Run.returns_of_run rfl trivial

/-- The attempts to connect come to an end, whatever becomes of them. -/
theorem returns_tryConnects (os : Os) (breakEarly : ℕ) (bpeers : List BPeer)
    (calls : List SysCall) :
    (tryConnects os breakEarly bpeers).Returns calls fun _ _ => True := by
  -- By induction over the peers. The result of `tryConnect` is not read, so nothing is asked of it.
  induction bpeers generalizing breakEarly calls with
  | nil => exact Run.post_pure trivial
  | cons p bpeers ih =>
    have hcall : (p.tryConnect os).Returns calls fun _ _ => True := by
      unfold BPeer.tryConnect
      refine .bind_of_returned rfl ?_
      split_ifs
      · exact Run.post_pure trivial
      · exact Run.post_pure trivial
    unfold tryConnects
    refine hcall.bind fun _ calls' _ => ?_
    dsimp only
    split_ifs
    · exact Run.post_pure trivial
    · exact ih _ calls'

/-- A method of a peer that returns, as a part of `main`. -/
theorem returns_peer {x : Sys α} {w : World} (h : x.Returns w.calls fun _ _ => True) :
    (Main.peer x).Returns w fun _ _ => True := by
  obtain ⟨a, calls, hx, -⟩ := h.exists
  have hrun : (Main.peer x).run w = .returned a { w with calls := calls } := by
    unfold Main.peer
    dsimp only
    rw [hx]
  exact Run.returns_of_run hrun trivial

/-- The objects of the list of peers are erased. -/
theorem returns_erasePeers (peers : List Ptr) (m : Machine) :
    (erasePeers peers).Returns m fun _ _ => True := by
  induction peers generalizing m with
  | nil => exact Run.post_pure trivial
  | cons p peers ih => exact .bind_of_returned rfl (ih _)

end

/-! ## The whole -/

namespace Announcer

variable {env : Environment} {files : Files} (a : Announcer env files)

/-- A request that is answered returns. -/
theorem returns_makeGetRequest {event body : Bytes} {m : Machine}
    (h : env.get m.events a.cli (a.request event) = .response 200 body) :
    (makeGetRequest env a.serverAddr (a.path event)).Returns m fun response m' =>
      response = body ∧ m' = m.sent a.cli (a.request event) :=
  Run.returns_of_run (run_makeGetRequest_of_response (a.sendGetRequest_eq event) h) ⟨rfl, rfl⟩

/-- The handshake has 68 characters. -/
theorem length_getHandshake : (getHandshake a.state).length = 68 := by
  refine Btor.length_getHandshake a.state ?_ (generateId_spec env.rand).1
  have hraw : ((List.range 20).map env.hashMemory).length = 20 := by
    rw [List.length_map, List.length_range]
  exact hraw

variable {a} {response : Bytes} (hanswered : Answered a response)

include hanswered

/-- The run from the peers on returns. -/
theorem returns_finish (bitfield : Bytes) (peers : List Ptr) (bpeers : List BPeer) (m : Machine) :
    (finish env a.state a.serverAddr a.announcePath bitfield peers bpeers).Returns m
      fun _ _ => True := by
  have hassert : (Client.assert (decide ((getHandshake a.state).length = 68))).run m =
      .returned () m := by
    rw [decide_eq_true a.length_getHandshake]
    rfl
  unfold finish
  refine .bind_of_returned hassert ?_
  have hconnects : (Main.peer (tryConnects env.os 0 bpeers)).Returns
      { state := m.state, calls := m.calls } fun _ _ => True :=
    returns_peer (returns_tryConnects env.os 0 bpeers _)
  refine (returns_world hconnects).bind fun _ m₁ _ => ?_
  refine (returns_erasePeers peers m₁).bind fun _ m₂ _ => ?_
  obtain ⟨body, hbody⟩ := hanswered.stopped m₂.events
  exact (a.returns_makeGetRequest hbody).bind fun _ m₃ _ => Run.returns_of_run rfl trivial

/-- The run from the response on returns, if each entry has an address and a port. -/
theorem returns_meetPeers (reply : TrackerReply response) (hentries : HasEndpoints reply.entries)
    {fuel : ℕ} (hfuel : 3 * reply.parsed.bytes.length ≤ fuel) (bitfield : Bytes) (m : Machine) :
    (meetPeers env fuel a.state a.serverAddr a.announcePath bitfield response).Returns m
      fun _ _ => True := by
  -- The objects are those of the entries of this response, as it determines its entries.
  have hreply := (returns_readReply (w := { state := m.state, calls := m.calls }) reply
    hfuel).and (post_readReply response fuel _)
  refine (returns_world hreply).bind fun peers m₁ hm₁ => ?_
  obtain ⟨w, rfl, -, reply', hitems⟩ := hm₁
  obtain rfl := Subsingleton.elim reply' reply
  refine (returns_world (returns_newPeers env.os env.memory env.behind 0 hitems hentries)).bind
    fun bpeers m₂ _ => ?_
  exact returns_finish hanswered bitfield peers bpeers m₂

/-- The whole run returns. -/
theorem returns_client (reply : TrackerReply response) (hentries : HasEndpoints reply.entries)
    (hbitfield : HasBitfield files a.metainfo) {fuel : ℕ}
    (hfuel : 3 * a.file.parsed.bytes.length ≤ fuel)
    (hfuel' : 3 * reply.parsed.bytes.length ≤ fuel) :
    (client env fuel).Returns (.start files) fun _ _ => True := by
  have htorrent : (loadTorrent env).run (.start files) =
      .returned a.torrent (.start files) := by
    have hfiles : Client.files.run (.start files) = .returned files (.start files) := rfl
    unfold loadTorrent
    rw [Run.run_bind_of_returned hfiles, a.readFile_eq]
    rfl
  unfold client
  rw [if_neg (not_not.mpr hanswered.wsaStartup), hanswered.setConsoleCtrlHandler,
    if_neg (by decide)]
  refine .bind_of_returned htorrent ?_
  let w : World := { state := (Machine.start files).state, calls := (Machine.start files).calls }
  -- Nothing happens up to the first request, which is therefore the one that the tracker answers.
  have hread := (returns_readTorrent (w := w) checksum env.hashMemory rfl a.file hfuel).and
    ((keeps_readTorrent checksum env.hashMemory a.torrent fuel).post w)
  refine (returns_world hread).bind fun metainfo m₁ hm₁ => ?_
  obtain ⟨w₁, rfl, rfl, hw⟩ := hm₁
  have hkeeps : Keeps Machine.events (loadBitfield env a.metainfo) :=
    keeps_loadBitfield (fun _ _ => rfl) _
  have hload := (returns_loadBitfield (m := Client.resume (.start files) w₁) env hbitfield).and
    (hkeeps.post _)
  refine hload.bind fun bitfield m₂ hm₂ => ?_
  have hevents : m₂.events = [] := hm₂.2.trans (events_resume_of_keeps hw)
  -- The tracker is asked.
  have hserver : (Client.url (getServerAddress env.platform a.metainfo.announce)).run m₂ =
      .returned a.serverAddr m₂ := congrArg (fun x => (Client.url x).run m₂) a.serverAddr_eq
  have hpath : (Client.url (getAnnouncePath env.platform a.metainfo.announce)).run m₂ =
      .returned a.announcePath m₂ := congrArg (fun x => (Client.url x).run m₂) a.announcePath_eq
  refine .bind_of_returned hserver (.bind_of_returned hpath ?_)
  have hget : env.get m₂.events a.cli (a.request (literal "started")) = .response 200 response := by
    rw [hevents]
    exact hanswered.started
  refine (a.returns_makeGetRequest hget).bind fun response' m₃ hm₃ => ?_
  obtain ⟨rfl, rfl⟩ := hm₃
  exact returns_meetPeers hanswered reply hentries hfuel' bitfield _

end Announcer

/-- A torrent with an announce URL and no file:
`d8:announce10:http://t/a4:infod12:piece lengthi1eee`. -/
def noLength : Parsed :=
  .dict [(⟨[56], literal "announce"⟩, .string ⟨[49, 48], literal "http://t/a"⟩), (⟨[52], infoKey⟩,
    .dict [(⟨[49, 50], literal "piece length"⟩, .integer [49])])]

/-- Its bytes start with it. -/
theorem noLength_startsWith : StartsWith noLength.bytes noLength := by decide +kernel

/-- What `main` finds in it. -/
def noLengthTorrent : Torrent noLength.bytes where
  parsed := noLength
  info := .dict [(literal "piece length", .integer 1)]
  pieceLength := 1
  announce := literal "http://t/a"
  startsWith := noLength_startsWith
  info_eq := rfl
  pieceLength_eq := rfl
  announce_eq := rfl

/-- There is that torrent, and no bitfield. -/
def noLengthFiles : Files := Function.update (fun _ => none) torrentFileName (some noLength.bytes)

/-- A tracker that has one peer for everybody. -/
def onePeerEnvironment : Environment :=
  { silentEnvironment with get _ _ _ := .response 200 onePeer.bytes }

/-- The process finds the server `t`. -/
def onePeerAnnouncer : Announcer onePeerEnvironment noLengthFiles where
  torrent := noLength.bytes
  file := noLengthTorrent
  serverAddr := literal "http://t"
  announcePath := literal "a"
  cli := ⟨false, literal "t", 80⟩
  readFile_eq := by
    unfold readFile noLengthFiles
    rw [Function.update_self]
    rfl
  serverAddr_eq := by decide +kernel
  announcePath_eq := by decide +kernel
  cli_eq := by decide +kernel

/-- What `main` finds in the response. -/
def onePeerReply : TrackerReply onePeer.bytes where
  parsed := onePeer
  entries := [onePeerEntry]
  startsWith := onePeer_startsWith
  answers := ⟨rfl, by decide, by decide, by decide⟩
  peers_eq := onePeer_peers

/-- Its requests are answered. -/
theorem onePeerAnnouncer_answered : Answered onePeerAnnouncer onePeer.bytes :=
  ⟨rfl, rfl, rfl, fun _ => ⟨_, rfl⟩⟩

/-- The one entry has an address and a port. -/
theorem onePeerReply_hasEndpoints : HasEndpoints onePeerReply.entries :=
  List.forall_mem_singleton.mpr ⟨_, _, rfl, rfl⟩

/-- The bitfield can be made. -/
theorem noLengthFiles_hasBitfield : HasBitfield noLengthFiles onePeerAnnouncer.metainfo :=
  .inr ⟨by decide, by decide⟩

/-- The process comes to its end, and has made and connected the one peer. -/
theorem returned_onePeer : ∃ (s : ClientSession onePeerEnvironment noLengthFiles) (m' : Machine),
    (client onePeerEnvironment 300).run (.start noLengthFiles) = .returned () m' ∧
      m'.events = s.events ∧ s.reply.entries = [onePeerEntry] := by
  have hreturns := (Announcer.returns_client onePeerAnnouncer_answered onePeerReply
    onePeerReply_hasEndpoints noLengthFiles_hasBitfield (by decide +kernel) (by decide +kernel)).and
      (post_client onePeerEnvironment 300 noLengthFiles)
  obtain ⟨_, m', hrun, -, s, hevents⟩ := hreturns.exists
  exact ⟨s, m', hrun, hevents, s.entries_eq onePeerAnnouncer_answered.started onePeerReply⟩

end Btor
