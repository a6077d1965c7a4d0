import Btor.Client
import Btor.Inputs
import Btor.Lib.Log

/-!
# What a run of `main` does that others can see

A process that starts follows one course. It reads the torrent and finds the server (`Announcer`),
tells the tracker that it has started, makes a socket for each entry of the response, tries to
connect to the first six peers, deletes the objects of the list of peers, and tells the tracker that
it has stopped, by a request that differs from the first one in the event only
(`ClientSession.events`). A process that does not come to its end has done a first part of that, and
nothing else, whatever the environment answers (`ClientCourse`). In no run is anything sent to a
peer, and no socket of a peer is closed (`client_session`).
-/

namespace Btor

open Lib (Run)
open Lib.Run (Post Keeps Emits Follows)

/-! ## The parts that make no system call -/

section

variable {α β : Type} {m : Machine}

/-- The parser makes no system call. -/
theorem keeps_parsing (x : Parse α) : Keeps World.calls (Main.parser x) := by
  intro w
  unfold Main.parser
  dsimp only
  cases x.run w.state <;> rfl

/-- Neither does a look at the parser. -/
theorem keeps_bParser : Keeps World.calls Main.bParser := fun _ => rfl

/-- Neither does a method of the value of a key. -/
theorem keeps_callByKey (method : BObject → Except Exn α) (p : Ptr) (key : Bytes) :
    Keeps World.calls (Main.callByKey method p key) :=
  (keeps_parsing _).bind fun _ => keeps_parsing _

/-- Neither does the part that reads the torrent. -/
theorem keeps_readTorrent (final : Bytes → Vector UInt32 5) (memory : ℕ → UInt8) (torrent : Bytes)
    (fuel : ℕ) : Keeps World.calls (readTorrent final memory torrent fuel) :=
  (keeps_parsing _).bind fun _ => keeps_bParser.bind fun _ => (keeps_parsing _).bind fun _ =>
    (keeps_callByKey _ _ _).bind fun _ => (keeps_callByKey _ _ _).bind fun _ => Run.keeps_pure _

/-- Neither does the part that reads the response. -/
theorem keeps_readReply (response : Bytes) (fuel : ℕ) :
    Keeps World.calls (readReply response fuel) := by
  unfold readReply
  split_ifs
  · exact Run.keeps_stop _
  refine (keeps_parsing _).bind fun reply => (keeps_parsing _).bind fun failed => ?_
  split_ifs
  · exact (keeps_callByKey _ _ _).bind fun _ => Run.keeps_stop _
  refine (keeps_callByKey _ _ _).bind fun _ => (keeps_callByKey _ _ _).bind fun _ =>
    (keeps_callByKey _ _ _).bind fun _ => (keeps_parsing _).bind fun peers =>
      (keeps_parsing _).bind fun dictType => ?_
  split_ifs
  · exact (keeps_callByKey _ _ _).bind fun _ => Run.keeps_stop _
  · exact (keeps_parsing _).bind fun _ => keeps_parsing _

/-! ## The peers -/

/-- A call of the operating system by a peer is one of `main`. -/
theorem emits_peer {x : Sys α} {w : World} {Q : α → List SysCall → Prop}
    {E : List SysCall → Prop} (h : Emits id x w.calls Q E) :
    Emits World.calls (Main.peer x) w Q E := by
  unfold Emits Post Main.peer at *
  dsimp only [id_eq] at *
  cases hx : x.run w.calls with
  | returned a calls =>
    rw [hx] at h
    exact h
  | stopped e calls =>
    rw [hx] at h
    exact h

/-- A new peer makes a socket. -/
theorem emits_new (os : Os) (memory : Vector UInt8 4) (behind : ℕ → UInt8) (ipaddr : Bytes)
    (port : UInt16) (peerNumId : Int32) (calls : List SysCall) {E : List SysCall → Prop} :
    Emits id (BPeer.new os memory behind ipaddr port peerNumId) calls
      (fun _ l => l = [.socket]) E :=
  ⟨_, rfl, rfl⟩

/-- The loop over the list makes a socket for each peer. -/
theorem emits_newPeers (os : Os) (memory : ℕ → Vector UInt8 4) (behind : ℕ → ℕ → UInt8)
    (id : ℕ) (ps : List Ptr) (w : World) : Emits World.calls (newPeers os memory behind id ps) w
      (fun _ l => l = List.replicate ps.length .socket)
      (· <+: List.replicate ps.length .socket) := by
  induction ps generalizing id w with
  | nil => exact Run.emits_pure rfl
  | cons p ps ih =>
    have hsucc : List.replicate (p :: ps).length SysCall.socket =
        .socket :: List.replicate ps.length .socket := List.replicate_succ
    unfold newPeers
    rw [hsucc]
    have hnil : [] <+: SysCall.socket :: List.replicate ps.length .socket := List.nil_prefix
    refine (keeps_callByKey _ _ _).bind_emits hnil fun peerIP w₁ => ?_
    refine (keeps_callByKey _ _ _).bind_emits hnil fun port w₂ => ?_
    -- The two lookups make no call, the constructor makes one.
    refine (emits_peer (emits_new os _ _ _ _ _ _)).bind fun bpeer l w₃ hl => ?_
    subst hl
    refine ((ih (id + 1) w₃).mono (fun _ _ h => h) fun l hl => ?_).bind fun bpeers l w₄ hl => ?_
    · exact List.cons_prefix_cons.mpr ⟨rfl, hl⟩
    · subst hl
      exact Run.emits_pure (List.append_nil _ ▸ rfl)

end

/-- A call of the operating system is the one that happens. -/
theorem follows_call (os : Os) (c : SysCall) (calls : List SysCall) :
    Follows id (call os c) calls [c] := ⟨_, rfl, rfl⟩

/-- An attempt to connect makes one call, whatever that returns. -/
theorem follows_tryConnect (os : Os) (p : BPeer) (calls : List SysCall) :
    Follows id (p.tryConnect os) calls [.connect p.peerSocket p.peerAddress] := by
  change Follows id _ calls ([.connect p.peerSocket p.peerAddress] ++ [])
  unfold BPeer.tryConnect
  refine (follows_call os _ calls).bind fun result calls' => ?_
  split_ifs
  · exact (Run.keeps_pure _).follows calls'
  · exact (Run.keeps_pure _).follows calls'

/-- The loop connects to the first peers, until it has tried six. -/
theorem follows_tryConnects (os : Os) {breakEarly : ℕ} (h : breakEarly ≤ 5) (bpeers : List BPeer)
    (calls : List SysCall) :
    Follows id (tryConnects os breakEarly bpeers) calls
      ((bpeers.take (6 - breakEarly)).map fun p => .connect p.peerSocket p.peerAddress) := by
  induction bpeers generalizing breakEarly calls with
  | nil =>
    rw [List.take_nil]
    exact (Run.keeps_pure ()).follows calls
  | cons p bpeers ih =>
    have htake : 6 - breakEarly = (6 - (breakEarly + 1)) + 1 := by omega
    unfold tryConnects
    rw [htake, List.take_succ_cons, List.map_cons]
    refine (follows_tryConnect os p calls).bind fun _ calls' => ?_
    dsimp only
    split_ifs with hlast
    · obtain rfl : breakEarly = 5 := by omega
      exact (Run.keeps_pure ()).follows calls'
    · exact ih (by omega) calls'

/-! ## The parts of the whole -/

section

variable {α : Type} {m : Machine}

/-- What a part of `main` appends to the system calls happens. -/
theorem events_resume {w : World} {calls : List SysCall} (hw : w.calls = m.calls ++ calls) :
    (Client.resume m w).events = m.events ++ calls.map .sys := by
  unfold Client.resume
  rw [hw, List.drop_left]

/-- Nothing happens in a part that makes no system call. -/
theorem events_resume_of_keeps {w : World} (hw : w.calls = m.calls) :
    (Client.resume m w).events = m.events := by
  rw [events_resume (hw.trans (List.append_nil _).symm), List.map_nil, List.append_nil]

/-- What a part of `main` appends to the system calls is what happens. -/
theorem emits_world {x : Main α} {Q : α → List SysCall → Prop} {E : List SysCall → Prop}
    (h : Emits World.calls x { state := m.state, calls := m.calls } Q E) :
    Emits Machine.events (Client.world x) m (fun a l => ∃ calls, l = calls.map .sys ∧ Q a calls)
      (fun l => ∃ calls, l = calls.map .sys ∧ E calls) := by
  refine Post.mono (post_world h) (fun a m' hm' => ?_) fun m' hm' => ?_
  · obtain ⟨w, rfl, calls, hw, hQ⟩ := hm'
    exact ⟨_, events_resume hw, calls, rfl, hQ⟩
  · obtain ⟨w, rfl, calls, hw, hE⟩ := hm'
    exact ⟨_, events_resume hw, calls, rfl, hE⟩

/-- A request that is made is what happens, whatever is returned. -/
theorem follows_makeGetRequest {env : Environment} {address path request : Bytes}
    {cli : Httplib.ClientImpl} (hsend : sendGetRequest address path = .ok (cli, some request))
    (m : Machine) :
    Follows Machine.events (makeGetRequest env address path) m [.get cli request] := by
  -- There is one client and one request for an address and a path.
  have heq {cli' : Httplib.ClientImpl} {request' : Bytes}
      (hsend' : sendGetRequest address path = .ok (cli', some request')) :
      m.sent cli' request' = m.sent cli request := by
    obtain ⟨rfl, hrequest⟩ := Prod.mk.inj (Except.ok.inj (hsend.symm.trans hsend'))
    obtain rfl := Option.some.inj hrequest
    rfl
  refine (post_makeGetRequest env address path m).mono (fun body m' hm' => ?_) fun m' hm' => ?_
  · obtain ⟨cli', request', hsend', -, rfl⟩ := hm'
    exact ⟨_, congrArg Machine.events (heq hsend'), rfl⟩
  · rcases hm' with rfl | ⟨cli', request', hsend', rfl⟩
    · exact ⟨[], (List.append_nil _).symm, List.nil_prefix⟩
    · exact ⟨_, congrArg Machine.events (heq hsend'), List.prefix_rfl⟩

/-- What is said to happen happens. -/
theorem follows_emit (e : Event) (m : Machine) :
    Follows Machine.events (Client.emit e) m [e] := ⟨_, rfl, rfl⟩

/-- The objects are deleted in the order of the list. -/
theorem follows_erasePeers (peers : List Ptr) (m : Machine) :
    Follows Machine.events (erasePeers peers) m (peers.map .delete) := by
  induction peers generalizing m with
  | nil => exact (Run.keeps_pure ()).follows m
  | cons p peers ih => exact (follows_emit _ m).bind fun _ m' => ih m'

end

/-! ## The whole -/

/-- What a process knows that can announce itself: it has read the torrent, and found a server. -/
structure Announcer (env : Environment) (files : Files) where
  torrent : Bytes
  file : Torrent torrent
  serverAddr : Bytes
  announcePath : Bytes
  cli : Httplib.ClientImpl
  readFile_eq : readFile files torrentFileName env.readFile = some torrent
  serverAddr_eq : getServerAddress env.platform file.announce = .ok serverAddr
  announcePath_eq : getAnnouncePath env.platform file.announce = .ok announcePath
  cli_eq : Httplib.client (cString serverAddr) = .ok cli

namespace Announcer

variable {env : Environment} {files : Files}

/-- The environment and the files determine what the process knows. -/
instance : Subsingleton (Announcer env files) where
  allEq := by
    rintro ⟨torrent, file, server, path, cli, hread, hserver, hpath, hcli⟩
      ⟨torrent', file', server', path', cli', hread', hserver', hpath', hcli'⟩
    obtain rfl := Option.some.inj (hread.symm.trans hread')
    obtain rfl := Subsingleton.elim file file'
    obtain rfl := Except.ok.inj (hserver.symm.trans hserver')
    obtain rfl := Except.ok.inj (hpath.symm.trans hpath')
    obtain rfl := Except.ok.inj (hcli.symm.trans hcli')
    rfl

variable (a : Announcer env files) (event : Bytes)

/-- The metainfo of the torrent. -/
def metainfo : Metainfo := a.file.metainfo checksum env.hashMemory

/-- What `main` makes its requests of. -/
def state : BState where
  metainfo := a.metainfo
  uniqueId := generateId env.rand

/-- The path that `main` requests to announce an event. -/
def path : Bytes :=
  literal "/" ++ a.announcePath ++
    buildAnnounceParameters a.metainfo (generateId env.rand) event

/-- The bytes of the request. -/
def request : Bytes := a.cli.writeRequest (cString (a.path event))

/-- The request goes to the server. -/
def announce : Event := .get a.cli (a.request event)

/-- The path is not empty, so the request is sent. -/
theorem sendGetRequest_eq :
    sendGetRequest a.serverAddr (a.path event) = .ok (a.cli, some (a.request event)) := by
  have hget : a.cli.get (cString (a.path event)) = some (a.request event) := by
    have hne : cString (a.path event) ≠ [] := List.cons_ne_nil _ _
    unfold Httplib.ClientImpl.get
    rw [if_neg hne]
    rfl
  unfold sendGetRequest
  rw [a.cli_eq, ← hget]
  rfl

end Announcer

/-- What a process knows once it has read the response as well. -/
structure ClientSession (env : Environment) (files : Files) extends Announcer env files where
  response : Bytes
  reply : TrackerReply response
  /-- The objects of the list of peers. -/
  peers : List Ptr
  bpeers : List BPeer
  get_eq : env.get [] cli (toAnnouncer.request (literal "started")) = .response 200 response
  peers_length : peers.length = reply.entries.length
  areReadFrom : List.Forall₂ (fun e peer => IsReadFrom e.1 e.2 peer) reply.entries.zipIdx bpeers

namespace ClientSession

variable {env : Environment} {files : Files} (s : ClientSession env files)

/-- What happens once the peers are made: the first six are connected to, the objects of their list
are deleted, and the tracker is told that the process has stopped. -/
def ending : List Event :=
  ((s.bpeers.take 6).map fun p => .sys (.connect p.peerSocket p.peerAddress)) ++
    (s.peers.map .delete ++ [s.announce (literal "stopped")])

/-- All that happens: the tracker is told that the process has started, a socket is made for each
entry, and then comes the ending. -/
def events : List Event :=
  s.announce (literal "started") ::
    (List.replicate s.reply.entries.length (.sys .socket) ++ s.ending)

/-- The response determines the entries. -/
theorem entries_eq {a : Announcer env files} {response : Bytes}
    (hget : env.get [] a.cli (a.request (literal "started")) = .response 200 response)
    (reply : TrackerReply response) : s.reply.entries = reply.entries := by
  obtain rfl := Subsingleton.elim s.toAnnouncer a
  obtain ⟨-, hresponse⟩ := Reply.response.inj (s.get_eq.symm.trans hget)
  obtain rfl := hresponse
  rw [Subsingleton.elim s.reply reply]

/-- The run from the peers on. -/
theorem follows_finish (bitfield : Bytes) (m : Machine) :
    Follows Machine.events
      (finish env s.state s.serverAddr s.announcePath bitfield s.peers s.bpeers) m s.ending := by
  -- The calls of the peers are calls of the machine.
  have hconnects (m : Machine) : Follows Machine.events
      (Client.world (.peer (tryConnects env.os 0 s.bpeers))) m
      ((s.bpeers.take 6).map fun p => .sys (.connect p.peerSocket p.peerAddress)) := by
    have hcalls := follows_tryConnects env.os (Nat.zero_le 5) s.bpeers
    refine (emits_world (emits_peer (hcalls m.calls))).mono (fun _ l hl => ?_)
      fun l hl => ?_
    · obtain ⟨calls, rfl, rfl⟩ := hl
      rw [List.map_map]
      rfl
    · obtain ⟨calls, rfl, hcalls⟩ := hl
      have hsys := hcalls.map Event.sys
      rwa [List.map_map] at hsys
  exact ((Client.keeps_assert _).follows m).bind fun _ m => (hconnects m).bind fun _ m =>
    (follows_erasePeers s.peers m).bind fun _ m =>
      (follows_makeGetRequest (s.sendGetRequest_eq _) m).bind fun _ m =>
        (keeps_saveBitfield (fun _ _ => rfl) bitfield).follows m

end ClientSession

/-- What a process that does not come to its end has done. -/
inductive ClientCourse (env : Environment) (files : Files) : List Event → Prop where
  /-- It has not announced itself. -/
  | unannounced : ClientCourse env files []
  /-- It has announced itself, and has not made a peer. -/
  | announced (a : Announcer env files) : ClientCourse env files [a.announce (literal "started")]
  /-- It has made some of the peers of the response, or all. -/
  | connecting (a : Announcer env files) {response : Bytes} (reply : TrackerReply response)
      (hget : env.get [] a.cli (a.request (literal "started")) = .response 200 response)
      {calls : List SysCall} (h : calls <+: List.replicate reply.entries.length .socket) :
      ClientCourse env files (a.announce (literal "started") :: calls.map .sys)
  /-- It has made all of them, and has come some way to its end. -/
  | ending (s : ClientSession env files) {l : List Event} (h : l <+: s.events) :
      ClientCourse env files l

/-- A list of trees has as many pointers. -/
theorem DenotesItems.length_eq {heap : List BObject} {ps : List Ptr} {vs : List Value}
    (h : DenotesItems heap ps vs) : ps.length = vs.length := by
  induction vs generalizing ps with
  | nil =>
    obtain rfl : ps = [] := h
    rfl
  | cons v vs ih =>
    obtain ⟨p, ps', rfl, -, hps'⟩ := h
    exact congrArg (· + 1) (ih hps')

namespace Announcer

variable {env : Environment} {files : Files} (a : Announcer env files)

/-- A request that is sent to the server that was found makes the process known. -/
theorem exists_of_sendGetRequest {torrent : Bytes} (file : Torrent torrent)
    {serverAddr announcePath request : Bytes} {cli : Httplib.ClientImpl}
    (htorrent : readFile files torrentFileName env.readFile = some torrent)
    (hserver : getServerAddress env.platform file.announce = .ok serverAddr)
    (hpath : getAnnouncePath env.platform file.announce = .ok announcePath)
    (hsend : sendGetRequest serverAddr (literal "/" ++ announcePath ++
      buildAnnounceParameters (file.metainfo checksum env.hashMemory) (generateId env.rand)
        (literal "started")) = .ok (cli, some request)) :
    ∃ a : Announcer env files, a.metainfo = file.metainfo checksum env.hashMemory ∧
      a.serverAddr = serverAddr ∧ a.announcePath = announcePath ∧ a.cli = cli ∧
      a.request (literal "started") = request := by
  have hcli : Httplib.client (cString serverAddr) = .ok cli := by
    unfold sendGetRequest at hsend
    cases hcli : Httplib.client (cString serverAddr) with
    | error e =>
      rw [hcli] at hsend
      cases hsend
    | ok cli' =>
      rw [hcli] at hsend
      obtain ⟨rfl, -⟩ := Prod.mk.inj (Except.ok.inj hsend)
      rfl
  let a : Announcer env files :=
    ⟨torrent, file, serverAddr, announcePath, cli, htorrent, hserver, hpath, hcli⟩
  have hrequest := (a.sendGetRequest_eq (literal "started")).symm.trans hsend
  exact ⟨a, rfl, rfl, rfl, rfl, Option.some.inj (Prod.mk.inj (Except.ok.inj hrequest)).2⟩

/-- The run from the response on. -/
theorem emits_meetPeers (fuel : ℕ) (bitfield : Bytes) {response : Bytes}
    (hget : env.get [] a.cli (a.request (literal "started")) = .response 200 response) {m : Machine}
    (hm : m.events = [a.announce (literal "started")]) :
    (meetPeers env fuel a.state a.serverAddr a.announcePath bitfield response).Post m
      (fun _ m' => ∃ s : ClientSession env files, m'.events = s.events)
      fun m' => ClientCourse env files m'.events := by
  have hreply := post_world (m := m)
    (((keeps_readReply response fuel).post _).and (post_readReply response fuel _))
  -- Reading the response makes no call, so a process that ends there has announced itself.
  refine (hreply.mono (fun _ _ h => h) fun m' hm' => ?_).bind fun peers m₁ hm₁ => ?_
  · obtain ⟨w, rfl, hw, -⟩ := hm'
    rw [events_resume_of_keeps hw, hm]
    exact .announced a
  obtain ⟨w, rfl, hw, reply, hitems⟩ := hm₁
  have hevents : (Client.resume m w).events = [a.announce (literal "started")] :=
    (events_resume_of_keeps hw).trans hm
  have hlength := hitems.length_eq
  have hpeers := post_world (m := Client.resume m w)
    ((emits_newPeers env.os env.memory env.behind 0 peers _).and
      (post_newPeers env.os env.memory env.behind 0 hitems))
  -- A process that ends among the entries has made the sockets of those before.
  refine (hpeers.mono (fun _ _ h => h) fun m' hm' => ?_).bind fun bpeers m₂ hm₂ => ?_
  · obtain ⟨w', rfl, ⟨calls, hcalls, hpre⟩, -⟩ := hm'
    rw [events_resume hcalls, hevents]
    exact .connecting a reply hget (hlength ▸ hpre)
  obtain ⟨w', rfl, ⟨calls, hcalls, rfl⟩, hread⟩ := hm₂
  have hevents' : (Client.resume (Client.resume m w) w').events =
      a.announce (literal "started") ::
        List.replicate reply.entries.length (.sys .socket) := by
    rw [events_resume hcalls, hevents, List.map_replicate, hlength]
    rfl
  -- From here on all is known that makes a session.
  let s : ClientSession env files :=
    { a with
      response := response
      reply := reply
      peers := peers
      bpeers := bpeers
      get_eq := hget
      peers_length := hlength
      areReadFrom := hread }
  refine Post.mono (s.follows_finish bitfield _) (fun _ m' hm' => ?_) fun m' hm' => ?_
  · obtain ⟨l, hl, rfl⟩ := hm'
    exact ⟨s, by rw [hl, hevents']; rfl⟩
  · obtain ⟨l, hl, hpre⟩ := hm'
    have hall : a.announce (literal "started") ::
        (List.replicate reply.entries.length (.sys .socket) ++ l) <+: s.events :=
      List.cons_prefix_cons.mpr ⟨rfl, (List.prefix_append_right_inj _).mpr hpre⟩
    rw [hl, hevents']
    exact .ending s hall

end Announcer

/-- A process that comes to its end has done what a session does, and any other a first part of
it. -/
theorem post_client (env : Environment) (fuel : ℕ) (files : Files) :
    (client env fuel).Post (.start files)
      (fun _ m' => ∃ s : ClientSession env files, m'.events = s.events)
      fun m' => ClientCourse env files m'.events := by
  -- Nothing happens before the first request.
  have hsilent {m' : Machine} (h : m'.events = []) : ClientCourse env files m'.events :=
    h ▸ .unannounced
  unfold client
  split_ifs
  · exact Run.post_stop .unannounced
  · exact Run.post_stop .unannounced
  refine ((post_loadTorrent env _).mono (fun _ _ h => h) fun m' hm' => ?_).bind
    fun torrent m₁ hm₁ => ?_
  · exact hm' ▸ .unannounced
  obtain ⟨rfl, htorrent⟩ := hm₁
  have hread := post_world (m := .start files)
    (((keeps_readTorrent checksum env.hashMemory torrent fuel).post _).and
      (post_readTorrent checksum env.hashMemory rfl torrent fuel))
  refine (hread.mono (fun _ _ h => h) fun m' hm' => ?_).bind fun metainfo m₂ hm₂ => ?_
  · obtain ⟨w, rfl, hw, -⟩ := hm'
    exact hsilent (events_resume_of_keeps hw)
  obtain ⟨w, rfl, hw, file, rfl⟩ := hm₂
  have hevents₂ : (Client.resume (.start files) w).events = [] := events_resume_of_keeps hw
  refine (keeps_loadBitfield (fun _ _ => rfl) _).bind_post hevents₂ (fun m' => hsilent)
    fun bitfield m₃ hevents => ?_
  refine ((post_orStop _ _ m₃).mono (fun _ _ h => h) fun m' hm' => ?_).bind
    fun serverAddr m₄ hm₄ => ?_
  · exact hsilent (hm' ▸ hevents)
  obtain ⟨rfl, hserver⟩ := hm₄
  refine ((post_orStop _ _ m₄).mono (fun _ _ h => h) fun m' hm' => ?_).bind
    fun announcePath m₅ hm₅ => ?_
  · exact hsilent (hm' ▸ hevents)
  obtain ⟨rfl, hpath⟩ := hm₅
  have hsent {cli : Httplib.ClientImpl} {request : Bytes} :
      (m₅.sent cli request).events = [.get cli request] := congrArg (· ++ _) hevents
  refine ((post_makeGetRequest env _ _ m₅).mono (fun _ _ h => h) fun m' hm' => ?_).bind
    fun response m₆ hm₆ => ?_
  · rcases hm' with rfl | ⟨cli, request, hsend, rfl⟩
    · exact hsilent hevents
    · obtain ⟨a, -, -, -, rfl, rfl⟩ :=
        Announcer.exists_of_sendGetRequest file htorrent hserver hpath hsend
      rw [hsent]
      exact .announced a
  obtain ⟨cli, request, hsend, hget, rfl⟩ := hm₆
  obtain ⟨a, hmetainfo, rfl, rfl, rfl, rfl⟩ :=
    Announcer.exists_of_sendGetRequest file htorrent hserver hpath hsend
  rw [hevents] at hget
  rw [← hmetainfo]
  exact a.emits_meetPeers fuel bitfield hget hsent

/-! ## What can happen -/

section

variable {env : Environment} {files : Files} {e : Event}

/-- What can happen in a process: it announces itself, makes a socket for a peer or connects it, or
deletes an object. -/
def IsClientEvent (env : Environment) (files : Files) (e : Event) : Prop :=
  (∃ a : Announcer env files, e = a.announce (literal "started") ∨
    e = a.announce (literal "stopped")) ∨
  e = .sys .socket ∨ (∃ s address, e = .sys (.connect s address)) ∨ ∃ p, e = .delete p

/-- Nothing else happens in a session. -/
theorem ClientSession.isClientEvent (s : ClientSession env files) (h : e ∈ s.events) :
    IsClientEvent env files e := by
  unfold ClientSession.events ClientSession.ending at h
  simp only [List.mem_cons, List.mem_append, List.mem_map, List.mem_replicate, List.not_mem_nil,
    or_false] at h
  rcases h with rfl | ⟨-, rfl⟩ | ⟨p, -, rfl⟩ | ⟨p, -, rfl⟩ | rfl
  · exact .inl ⟨_, .inl rfl⟩
  · exact .inr (.inl rfl)
  · exact .inr (.inr (.inl ⟨_, _, rfl⟩))
  · exact .inr (.inr (.inr ⟨_, rfl⟩))
  · exact .inl ⟨_, .inr rfl⟩

/-- Nothing else happens in any course. -/
theorem ClientCourse.isClientEvent {l : List Event} (hl : ClientCourse env files l) (h : e ∈ l) :
    IsClientEvent env files e := by
  cases hl with
  | unannounced => cases h
  | announced a =>
    obtain rfl := List.mem_singleton.mp h
    exact .inl ⟨a, .inl rfl⟩
  | connecting a reply hget hcalls =>
    rcases List.mem_cons.mp h with rfl | h
    · exact .inl ⟨a, .inl rfl⟩
    · obtain ⟨c, hc, rfl⟩ := List.mem_map.mp h
      obtain rfl := List.eq_of_mem_replicate (hcalls.subset hc)
      exact .inr (.inl rfl)
  | ending s hpre => exact s.isClientEvent (hpre.subset h)

/-- Nothing else happens in any run. -/
theorem isClientEvent_of_mem (fuel : ℕ)
    (h : e ∈ ((client env fuel).run (.start files)).state.events) : IsClientEvent env files e := by
  revert h
  refine Post.state (P := fun m' => e ∈ m'.events → IsClientEvent env files e)
    (post_client env fuel files) (fun _ m' hm' h => ?_) fun m' hm' h => hm'.isClientEvent h
  obtain ⟨s, hs⟩ := hm'
  exact s.isClientEvent (hs ▸ h)

end

end Btor
