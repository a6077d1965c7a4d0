import Btor.Fileio
import Btor.Httplib
import Btor.Identity
import Btor.Lib.Post
import Btor.UniqueId

/-!
# The whole of `main`

`client` is `main` of `btor.cpp` from its first line to its last: it reads the torrent and the
bitfield, announces itself to the tracker, makes the peers of the response and tries to connect to
the first of them, erases the peers, tells the tracker that it stops, and writes the bitfield. It
is cut at the response (`meetPeers`) and once the peers are made (`finish`). It runs on a `Machine`,
with the files and with a log of what it does that others can see, and an `Environment` answers its
calls. Output to the console, and the cursor of the console, are left out.
-/

namespace Btor

open Lib (Run Outcome)
open Lib.Run (Post Keeps)

/-! ## The machine -/

/-- What becomes of a request. -/
inductive Reply where
  /-- There is no connection, and nothing is sent. -/
  | noConnection
  /-- The request is sent, or a part of it, and there is no response. -/
  | error
  | response (status : ℕ) (body : Bytes)
  deriving DecidableEq

/-- What the process does that others can see. -/
inductive Event where
  /-- A call of the operating system by a peer. -/
  | sys (c : SysCall)
  /-- The bytes of a request go to the server of a client of the HTTP library. -/
  | get (cli : Httplib.ClientImpl) (request : Bytes)
  /-- An object is deleted. -/
  | delete (p : Ptr)
  deriving DecidableEq

/-- The call of the operating system that an event is. -/
def Event.sysCall? : Event → Option SysCall
  | sys c => some c
  | _ => none

/-- What `main` runs in. -/
structure Environment where
  /-- What `WSAStartup` returns to the constructor of `BSock`. -/
  wsaStartup : Int32
  /-- The handler of the console is installed. -/
  setConsoleCtrlHandler : Bool
  rand : ℕ → ℕ
  platform : Platform
  os : Os
  /-- What becomes of a request, after what has happened before. -/
  get : List Event → Httplib.ClientImpl → Bytes → Reply
  /-- What becomes of the streams of the functions of `fileio`, each of which `main` calls once at
  most. -/
  readFile : Transfer
  createEmptyFile : Transfer
  readBitfield : Transfer
  writeBitfield : Transfer
  /-- The bytes of memory from the address of the vector on that `getSHA1` copies. -/
  hashMemory : ℕ → UInt8
  /-- The bytes that `new` finds in the address of a peer. -/
  memory : ℕ → Vector UInt8 4
  /-- The bytes behind the string of the address of a peer. -/
  behind : ℕ → ℕ → UInt8

/-- A process that starts, for whose requests there is no connection. -/
def silentEnvironment : Environment where
  wsaStartup := 0
  setConsoleCtrlHandler := true
  rand _ := 0
  platform := .x64
  os := quietOs
  get _ _ _ := .noConnection
  readFile := .whole
  createEmptyFile := .whole
  readBitfield := .whole
  writeBitfield := .whole
  hashMemory _ := 0
  memory _ := .replicate 4 0
  behind _ _ := 0

/-- The parser with its memory manager, the files, and what has happened so far. -/
structure Machine where
  state : State
  files : Files
  events : List Event := []

/-- A process that starts. -/
def Machine.start (files : Files) : Machine where
  state := fresh {}
  files := files

/-- The system calls made so far. -/
def Machine.calls (m : Machine) : List SysCall := m.events.filterMap Event.sysCall?

/-- The machine once a request has been sent. -/
def Machine.sent (m : Machine) (cli : Httplib.ClientImpl) (request : Bytes) : Machine :=
  { m with events := m.events ++ [.get cli request] }

/-- A run of `main`. The run returns where the process ends with `EXIT_SUCCESS`. -/
abbrev Client := Run Machine Halt

namespace Client

variable {α : Type}

/-- The machine after a part that runs on the parser and makes system calls. -/
def resume (m : Machine) (w : World) : Machine :=
  { m with
    state := w.state
    events := m.events ++ (w.calls.drop m.calls.length).map .sys }

/-- A part that runs on the parser and makes system calls. -/
def world (x : Main α) : Client α where
  run m :=
    match x.run { state := m.state, calls := m.calls } with
    | .returned a w => .returned a (resume m w)
    | .stopped h w => .stopped h (resume m w)

/-- The files as they are. -/
def files : Client Files where
  run m := .returned m.files m

/-- Files are written. -/
def setFiles (files : Files) : Client Unit where
  run m := .returned () { m with files := files }

/-- Something happens. -/
def emit (e : Event) : Client Unit where
  run m := .returned () { m with events := m.events ++ [e] }

/-- A value, or the end of the process for a reason. -/
def orStop {ε : Type} (halt : ε → Halt) (x : Except ε α) : Client α :=
  match x with
  | .ok a => pure a
  | .error e => .stop (halt e)

/-- A part of the announce URL. -/
def url (x : Except UrlFailure α) : Client α := orStop (fun
  | .exit => .exit
  | .outOfRange => .stopped (.threw .outOfRange)) x

/-- A client of the HTTP library. Nothing catches the exceptions of its constructor. -/
def httpClient (x : Except Httplib.ClientFailure α) : Client α := orStop (fun
  | .invalidArgument => .invalidArgument
  | .outOfRange => .stopped (.threw .outOfRange)) x

/-- `assert` -/
def assert (c : Bool) : Client Unit := if c then pure () else .stop (.stopped .assertFailed)

/-- A request is sent, if there is a connection, and answered. -/
def send (env : Environment) (cli : Httplib.ClientImpl) (request : Bytes) : Client Reply where
  run m :=
    match env.get m.events cli request with
    | .noConnection => .returned .noConnection m
    | reply => .returned reply (m.sent cli request)

end Client

/-! ## The parts of `main` -/

/-- `state.filename` -/
def torrentFileName : Bytes := literal "ubuntu2010.torrent"

/-- `bitfield_file_name` -/
def bitfieldFileName : Bytes := torrentFileName ++ literal "bf"

/-- The bytes of the torrent, by `readFile` and `getFileBuf`. -/
def loadTorrent (env : Environment) : Client Bytes := do
  let files ← Client.files
  match readFile files torrentFileName env.readFile with
  | some filebuf => return filebuf
  | none => .stop .exit

/-- The bitfield of the file, which is made first if there is none. -/
def loadBitfield (env : Environment) (metainfo : Metainfo) : Client Bytes := do
  let files ← Client.files
  if doesBitfieldFileExist files bitfieldFileName then
    return readBitfield files bitfieldFileName env.readBitfield
  else do
    let bitfieldSize ← .world (.compute (getBitfieldSize metainfo))
    .setFiles (createFile files bitfieldFileName bitfieldSize env.createEmptyFile)
    let files ← Client.files
    return readBitfield files bitfieldFileName env.readBitfield

/-- What `makeGetRequest` makes of a result: the body of a response with the status 200, or the end
of the process. -/
def bodyOf : Reply → Client Bytes
  | .response status body => if status ≠ 200 then .stop .exit else return body
  | _ => .stop .exit

/-- `makeGetRequest` -/
def makeGetRequest (env : Environment) (address path : Bytes) : Client Bytes := do
  let (cli, request) ← .httpClient (sendGetRequest address path)
  match request with
  | none => .stop .exit
  | some request => do
    let res ← Client.send env cli request
    bodyOf res

/-- The loop that connects to peers. What `tryConnect` returns is not read. -/
def tryConnects (os : Os) : ℕ → List BPeer → Sys Unit
  | _, [] => return ()
  | breakEarly, p :: bpeers => do
    let _ ← p.tryConnect os
    let breakEarly := breakEarly + 1
    if breakEarly > 5 then return () else tryConnects os breakEarly bpeers

/-- The loop that erases the peers: the objects of their list, not those of `BPeer`. -/
def erasePeers : List Ptr → Client Unit
  | [] => return ()
  | p :: peers => do
    .emit (.delete p)
    erasePeers peers

/-- The bitfield goes back to its file. -/
def saveBitfield (env : Environment) (bitfield : Bytes) : Client Unit := do
  let files ← Client.files
  .setFiles (writeBitfield files bitfieldFileName bitfield env.writeBitfield)

/-- `main` from the peers on. -/
def finish (env : Environment) (state : BState) (serverAddr announcePath bitfield : Bytes)
    (peers : List Ptr) (bpeers : List BPeer) : Client Unit := do
  let shake := getHandshake state
  Client.assert (shake.length = 68)
  .world (.peer (tryConnects env.os 0 bpeers))
  erasePeers peers
  -- Send the stop message.
  let builtAddress := buildAnnounceParameters state.metainfo state.uniqueId (literal "stopped")
  let _ ← makeGetRequest env serverAddr (literal "/" ++ announcePath ++ builtAddress)
  saveBitfield env bitfield

/-- `main` from the response on. -/
def meetPeers (env : Environment) (fuel : ℕ) (state : BState) (serverAddr announcePath : Bytes)
    (bitfield response : Bytes) : Client Unit := do
  let peers ← .world (readReply response fuel)
  let bpeers ← .world (newPeers env.os env.memory env.behind 0 peers)
  finish env state serverAddr announcePath bitfield peers bpeers

/-- `main` -/
def client (env : Environment) (fuel : ℕ) : Client Unit := do
  if env.wsaStartup ≠ 0 then .stop .exit
  else if !env.setConsoleCtrlHandler then .stop .exit
  else do
    let uniqueId := generateId env.rand
    let torrent ← loadTorrent env
    let metainfo ← .world (readTorrent checksum env.hashMemory torrent fuel)
    let bitfield ← loadBitfield env metainfo
    -- Send a start request.
    let builtAddress := buildAnnounceParameters metainfo uniqueId (literal "started")
    let serverAddr ← .url (getServerAddress env.platform metainfo.announce)
    let announcePath ← .url (getAnnouncePath env.platform metainfo.announce)
    let response ← makeGetRequest env serverAddr (literal "/" ++ announcePath ++ builtAddress)
    meetPeers env fuel { metainfo := metainfo, uniqueId := uniqueId } serverAddr announcePath
      bitfield response

/-! ## What a request comes to -/

section

variable {env : Environment} {address path request : Bytes} {cli : Httplib.ClientImpl}
  {m : Machine}

/-- A request goes to the server if there is a connection. -/
theorem run_send (hget : env.get m.events cli request ≠ .noConnection) :
    (Client.send env cli request).run m =
      .returned (env.get m.events cli request) (m.sent cli request) := by
  unfold Client.send
  cases hreply : env.get m.events cli request with
  | noConnection => exact absurd hreply hget
  | error => simp only [hreply]
  | response status body => simp only [hreply]

/-- What a request comes to, if there is one to send. -/
theorem run_makeGetRequest (hsend : sendGetRequest address path = .ok (cli, some request)) :
    (makeGetRequest env address path).run m =
      (Client.send env cli request >>= bodyOf).run m := by
  have hcli : (Client.httpClient (sendGetRequest address path)).run m =
      .returned (cli, some request) m := by
    rw [hsend]
    rfl
  unfold makeGetRequest
  rw [Run.run_bind_of_returned hcli]

/-- A response with the status 200 returns its body. -/
theorem run_makeGetRequest_of_response
    (hsend : sendGetRequest address path = .ok (cli, some request)) {body : Bytes}
    (hget : env.get m.events cli request = .response 200 body) :
    (makeGetRequest env address path).run m = .returned body (m.sent cli request) := by
  have hne : env.get m.events cli request ≠ .noConnection := by
    rw [hget]
    nofun
  rw [run_makeGetRequest hsend, Run.run_bind_of_returned (run_send hne), hget]
  rfl

/-- Any other result ends the process. -/
theorem run_bodyOf {reply : Reply} (h : ∀ body, reply ≠ .response 200 body) (m : Machine) :
    (bodyOf reply).run m = .stopped .exit m := by
  cases reply with
  | noConnection => rfl
  | error => rfl
  | response status body =>
    have hstatus : status ≠ 200 := fun hstatus => h body (hstatus ▸ rfl)
    unfold bodyOf
    dsimp only
    rw [if_pos hstatus]
    rfl

/-- A request comes to nothing before it is sent, or it is sent, and returns the body of a response
with the status 200 or ends the process. -/
theorem makeGetRequest_cases (env : Environment) (address path : Bytes) (m : Machine) :
    (∃ h, (makeGetRequest env address path).run m = .stopped h m) ∨
    ∃ cli request, sendGetRequest address path = .ok (cli, some request) ∧
      ((∃ body, env.get m.events cli request = .response 200 body ∧
        (makeGetRequest env address path).run m = .returned body (m.sent cli request)) ∨
      (∀ body, env.get m.events cli request ≠ .response 200 body) ∧
        (makeGetRequest env address path).run m = .stopped .exit (m.sent cli request)) := by
  cases hsend : sendGetRequest address path with
  | error e =>
    left
    unfold makeGetRequest
    rw [hsend]
    cases e <;> exact ⟨_, rfl⟩
  | ok sent =>
    obtain ⟨cli, request⟩ := sent
    cases request with
    | none =>
      left
      unfold makeGetRequest
      rw [hsend]
      exact ⟨.exit, rfl⟩
    | some request =>
      -- There is a request. It is answered as hoped for, or it is not sent, or anything else.
      by_cases hresponse : ∃ body, env.get m.events cli request = .response 200 body
      · obtain ⟨body, hget⟩ := hresponse
        exact .inr ⟨cli, request, rfl,
          .inl ⟨body, hget, run_makeGetRequest_of_response hsend hget⟩⟩
      have hother : ∀ body, env.get m.events cli request ≠ .response 200 body :=
        fun body h => hresponse ⟨body, h⟩
      by_cases hconnection : env.get m.events cli request = .noConnection
      · refine .inl ⟨.exit, ?_⟩
        rw [run_makeGetRequest hsend, Run.run_bind]
        unfold Client.send
        simp only [hconnection]
        rfl
      · refine .inr ⟨cli, request, rfl, .inr ⟨hother, ?_⟩⟩
        rw [run_makeGetRequest hsend, Run.run_bind_of_returned (run_send hconnection),
          run_bodyOf hother]

/-- What a request comes to, as a postcondition. -/
theorem post_makeGetRequest (env : Environment) (address path : Bytes) (m : Machine) :
    (makeGetRequest env address path).Post m
      (fun body m' => ∃ cli request, sendGetRequest address path = .ok (cli, some request) ∧
        env.get m.events cli request = .response 200 body ∧ m' = m.sent cli request)
      fun m' => m' = m ∨ ∃ cli request,
        sendGetRequest address path = .ok (cli, some request) ∧ m' = m.sent cli request := by
  unfold Post
  rcases makeGetRequest_cases env address path m with
    ⟨h, hrun⟩ | ⟨cli, request, hsend, ⟨body, hget, hrun⟩ | ⟨-, hrun⟩⟩
  · rw [hrun]
    exact .inl rfl
  · rw [hrun]
    exact ⟨cli, request, hsend, hget, rfl⟩
  · rw [hrun]
    exact .inr ⟨cli, request, hsend, rfl⟩

end

/-! ## What a part leaves as it is -/

section

variable {α τ : Type} {part : Machine → τ} {env : Environment} {m : Machine}

/-- A part of `main` that runs on the parser, as a run of the machine. -/
theorem post_world {x : Main α} {Q : α → World → Prop} {E : World → Prop}
    (h : x.Post { state := m.state, calls := m.calls } Q E) :
    (Client.world x).Post m (fun a m' => ∃ w, m' = Client.resume m w ∧ Q a w)
      fun m' => ∃ w, m' = Client.resume m w ∧ E w := by
  unfold Post Client.world at *
  dsimp only
  cases hx : x.run { state := m.state, calls := m.calls } with
  | returned a w =>
    rw [hx] at h
    exact ⟨w, rfl, h⟩
  | stopped e w =>
    rw [hx] at h
    exact ⟨w, rfl, h⟩

/-- A value that is needed to go on. -/
theorem post_orStop {ε : Type} (halt : ε → Halt) (x : Except ε α) (m : Machine) :
    (Client.orStop halt x).Post m (fun a m' => m' = m ∧ x = .ok a) (· = m) := by
  cases x with
  | ok a => exact Run.post_pure ⟨rfl, rfl⟩
  | error e => exact Run.post_stop rfl

/-- The torrent is read, or the process ends. -/
theorem post_loadTorrent (env : Environment) (m : Machine) : (loadTorrent env).Post m
    (fun torrent m' => m' = m ∧ readFile m.files torrentFileName env.readFile = some torrent)
    (· = m) := by
  have hfiles : Client.files.run m = .returned m.files m := rfl
  unfold loadTorrent Post
  rw [Run.run_bind_of_returned hfiles]
  cases readFile m.files torrentFileName env.readFile with
  | none => rfl
  | some torrent => exact ⟨rfl, rfl⟩

namespace Client

/-- The machine resumes as it was if nothing has been done. -/
theorem resume_self (m : Machine) : resume m { state := m.state, calls := m.calls } = m := by
  unfold resume
  rw [List.drop_length, List.map_nil, List.append_nil]

/-- Files that are looked at stay as they are. -/
theorem keeps_files : Keeps part files := fun _ => rfl

/-- Files that are written change nothing else. -/
theorem keeps_setFiles (hfiles : ∀ m files, part { m with files := files } = part m)
    (files : Files) : Keeps part (setFiles files) := fun m => hfiles m files

/-- A value that is needed to go on changes nothing. -/
theorem keeps_orStop {ε : Type} (halt : ε → Halt) (x : Except ε α) :
    Keeps part (orStop halt x) := by
  cases x with
  | ok a => exact Run.keeps_pure _
  | error e => exact Run.keeps_stop _

/-- Neither does an assertion. -/
theorem keeps_assert (c : Bool) : Keeps part (assert c) := by
  unfold assert
  split_ifs
  · exact Run.keeps_pure _
  · exact Run.keeps_stop _

/-- Neither does arithmetic. -/
theorem keeps_compute (x : Except Undefined α) : Keeps part (world (.compute x)) := by
  intro m
  cases x with
  | ok a => exact congrArg part (resume_self m)
  | error u => exact congrArg part (resume_self m)

end Client

/-- Neither does the torrent that is read. -/
theorem keeps_loadTorrent : Keeps part (loadTorrent env) := by
  refine Client.keeps_files.bind fun files => ?_
  cases readFile files torrentFileName env.readFile with
  | none => exact Run.keeps_stop _
  | some torrent => exact Run.keeps_pure _

/-- The bitfield that is loaded changes no part but the files. -/
theorem keeps_loadBitfield (hfiles : ∀ m files, part { m with files := files } = part m)
    (metainfo : Metainfo) : Keeps part (loadBitfield env metainfo) := by
  refine Client.keeps_files.bind fun files => ?_
  split_ifs
  · exact Run.keeps_pure _
  · exact (Client.keeps_compute _).bind fun _ => (Client.keeps_setFiles hfiles _).bind fun _ =>
      Client.keeps_files.bind fun _ => Run.keeps_pure _

/-- Neither does the bitfield that goes back to its file. -/
theorem keeps_saveBitfield (hfiles : ∀ m files, part { m with files := files } = part m)
    (bitfield : Bytes) : Keeps part (saveBitfield env bitfield) :=
  Client.keeps_files.bind fun _ => Client.keeps_setFiles hfiles _

/-- A request changes nothing but the log. -/
theorem keeps_makeGetRequest (hsent : ∀ m cli request, part (m.sent cli request) = part m)
    (address path : Bytes) : Keeps part (makeGetRequest env address path) := by
  intro m
  rcases makeGetRequest_cases env address path m with
    ⟨h, hrun⟩ | ⟨cli, request, -, ⟨body, -, hrun⟩ | ⟨-, hrun⟩⟩
  · rw [hrun]
    rfl
  · rw [hrun]
    exact hsent m cli request
  · rw [hrun]
    exact hsent m cli request

end

end Btor
