import Btor.Bhttp
import Btor.Handshake
import Btor.Lib.Log

/-!
# The socket that listens

`BSock` of `bsock.h` and `bsock.cpp`. The constructor starts Winsock, `OpenSocket` opens a socket
that listens, `MakeConnection` connects it to a peer, and the destructor cleans up. `main` makes a
`BSock` and calls neither method. What Winsock returns is a parameter, and a method appends its
calls to the list of those made so far. What is printed is left out.

Winsock wants a `WSACleanup` for each `WSAStartup`, a `closesocket` for each socket, and a
`freeaddrinfo` for each list of addresses. The lists are freed, each once. But `OpenSocket` cleans
up where it fails, as the destructor does after it, and nothing closes a socket that it leaves open.
So Winsock is left as it was found exactly if `OpenSocket` is never called
(`BSock.leavesWinsock_iff`).
-/

namespace Btor

open Lib (Run Outcome)
open Lib.Run (Emits emits_pure emits_stop)

/-- The calls of Winsock that a `BSock` makes, two of them with what they return. -/
inductive WinsockCall where
  | wsaStartup
  /-- The list of addresses, if there is no error. -/
  | getaddrinfo (result : Option ℕ)
  | freeaddrinfo (list : ℕ)
  | socket (list : ℕ) (s : Socket)
  | bind (s : Socket) (list : ℕ)
  | listen (s : Socket)
  | connect (s : Socket) (address : SockaddrIn) (namelen : Int32)
  | closesocket (s : Socket)
  | wsaCleanup
  deriving DecidableEq

/-- Winsock. What it does may depend on the calls made before. -/
structure Winsock where
  /-- The list of addresses that `getaddrinfo` gives, if there is no error. -/
  addrinfo : List WinsockCall → Option ℕ
  /-- The socket that `socket` returns. -/
  newSocket : List WinsockCall → ℕ → Socket
  /-- What a call of another function returns. -/
  result : List WinsockCall → WinsockCall → Int32

/-- A machine without errors, as `quietOs`. -/
def quietWinsock : Winsock where
  addrinfo _ := some 1
  newSocket _ _ := some 4
  result _ _ := 0

/-- `BSock`, with the calls made so far. -/
structure BSock where
  /-- `_socket` -/
  socket : Socket := none
  calls : List WinsockCall := []

namespace BSock

/-! ## The methods -/

section

variable (winsock : Winsock)

/-- A call of Winsock. -/
def call (c : WinsockCall) : Run BSock Exit Int32 where
  run s := .returned (winsock.result s.calls c) { s with calls := s.calls ++ [c] }

/-- `getaddrinfo(NULL, DEFAULT_PORT, &hints, &result)` -/
def getaddrinfo : Run BSock Exit (Option ℕ) where
  run s :=
    let result := winsock.addrinfo s.calls
    .returned result { s with calls := s.calls ++ [.getaddrinfo result] }

/-- `_socket = socket(...)`, for the first address of a list. -/
def openHandle (list : ℕ) : Run BSock Exit Socket where
  run s :=
    let handle := winsock.newSocket s.calls list
    .returned handle { socket := handle, calls := s.calls ++ [.socket list handle] }

/-- `_socket` -/
def handle : Run BSock Exit Socket where
  run s := .returned s.socket s

/-- `BSock::BSock` -/
def new : Run BSock Exit Unit := do
  let iResult ← call winsock .wsaStartup
  if iResult ≠ 0 then .stop .failure else return ()

/-- `BSock::~BSock` -/
def destructor : Run BSock Exit Unit := do
  let _ ← call winsock .wsaCleanup

/-- `BSock::OpenSocket` -/
def openSocket : Run BSock Exit Int32 := do
  let result ← getaddrinfo winsock
  match result with
  | none => do
    let _ ← call winsock .wsaCleanup
    return -1
  | some result => do
    let socket ← openHandle winsock result
    if socket = none then do
      let _ ← call winsock (.freeaddrinfo result)
      let _ ← call winsock .wsaCleanup
      return -1
    else do
      let iResult ← call winsock (.bind socket result)
      if iResult = socketError then do
        let _ ← call winsock (.freeaddrinfo result)
        let _ ← call winsock (.closesocket socket)
        let _ ← call winsock .wsaCleanup
        return -1
      else do
        let _ ← call winsock (.freeaddrinfo result)
        let iResult ← call winsock (.listen socket)
        if iResult = socketError then do
          let _ ← call winsock (.closesocket socket)
          let _ ← call winsock .wsaCleanup
          .stop .failure
        else return 0

/-- `BSock::MakeConnection`. The comparison with `SOCKET_ERROR`, which is one of `size_t`, is inside
of the last argument. -/
def makeConnection (platform : Platform) (peer : BPeer) : Run BSock Exit Unit := do
  let socket ← handle
  if socket = none then return ()
  else do
    let namelen : Int32 := if platform.pointerSize = platform.npos then 1 else 0
    let _ ← call winsock (.connect socket peer.peerAddress namelen)

/-- The methods, with their arguments. -/
inductive Op where
  | openSocket
  | makeConnection (peer : BPeer)

/-- The method is `OpenSocket`. -/
def Op.isOpenSocket : Op → Bool
  | openSocket => true
  | makeConnection _ => false

/-- A call of a method. -/
def Op.perform (platform : Platform) : Op → Run BSock Exit Unit
  | openSocket => do let _ ← BSock.openSocket winsock
  | makeConnection peer => BSock.makeConnection winsock platform peer

/-- Calls of methods, one after the other. -/
def performAll (platform : Platform) : List Op → Run BSock Exit Unit
  | [] => return ()
  | op :: ops => do
    op.perform winsock platform
    performAll platform ops

/-- A `BSock` from its constructor to its destructor. -/
def life (platform : Platform) (ops : List Op) : Run BSock Exit Unit := do
  new winsock
  performAll winsock platform ops
  destructor winsock

end

/-! ## What is taken and given back -/

/-- The list of addresses that a call gives. -/
@[simp] def given? : WinsockCall → Option ℕ
  | .getaddrinfo result => result
  | _ => none

/-- The list of addresses that a call frees. -/
@[simp] def freed? : WinsockCall → Option ℕ
  | .freeaddrinfo list => some list
  | _ => none

/-- The call gives a socket. -/
@[simp] def opens : WinsockCall → Bool
  | .socket _ (some _) => true
  | _ => false

/-- The call closes a socket. -/
@[simp] def closes : WinsockCall → Bool
  | .closesocket _ => true
  | _ => false

/-- Winsock is left as it was found: it is cleaned up as often as it is started, and as many sockets
are closed as are opened. -/
structure LeavesWinsock (calls : List WinsockCall) : Prop where
  cleanup : calls.count .wsaCleanup = calls.count .wsaStartup
  closed : calls.countP closes = calls.countP opens

/-- What is known of the calls that methods make, where `n` of these are `OpenSocket`. Each of the
`n` leaves a socket open, or cleans up once too often. -/
structure Ledger (n : ℕ) (calls : List WinsockCall) : Prop where
  freed : calls.filterMap freed? = calls.filterMap given?
  closed_le : calls.countP closes ≤ calls.countP opens
  count_eq : calls.count .wsaCleanup + calls.countP opens = calls.countP closes + n
  startup : calls.count .wsaStartup = 0
  namelen : ∀ s address k, .connect s address k ∈ calls → k = 0

/-- Nothing has happened. -/
theorem ledger_nil : Ledger 0 [] where
  freed := rfl
  closed_le := le_refl _
  count_eq := rfl
  startup := rfl
  namelen _ _ _ := nofun

/-- What happens in two parts of a run is added up. -/
theorem Ledger.append {n n' : ℕ} {l l' : List WinsockCall} (h : Ledger n l) (h' : Ledger n' l') :
    Ledger (n + n') (l ++ l') where
  freed := by rw [List.filterMap_append, List.filterMap_append, h.freed, h'.freed]
  closed_le := by
    rw [List.countP_append, List.countP_append]
    exact Nat.add_le_add h.closed_le h'.closed_le
  count_eq := by
    have heq := h.count_eq
    have heq' := h'.count_eq
    rw [List.count_append, List.countP_append, List.countP_append]
    omega
  startup := by rw [List.count_append, h.startup, h'.startup]
  namelen s address k hmem := by
    rcases List.mem_append.mp hmem with hmem | hmem
    · exact h.namelen s address k hmem
    · exact h'.namelen s address k hmem

/-- What is left once the calls of the constructor and of the destructor are taken off. -/
theorem leavesWinsock_calls_iff {l : List WinsockCall} (hstartup : l.count .wsaStartup = 0) :
    LeavesWinsock (.wsaStartup :: l ++ [.wsaCleanup]) ↔
      l.count .wsaCleanup = 0 ∧ l.countP closes = l.countP opens := by
  obtain ⟨calls, hcalls⟩ : ∃ calls : List WinsockCall, calls = .wsaStartup :: l ++ [.wsaCleanup] :=
    ⟨_, rfl⟩
  have hcleanup : calls.count .wsaCleanup = l.count .wsaCleanup + 1 := by
    simp [hcalls]
  have hstart : calls.count .wsaStartup = 1 := by
    simp [hcalls, hstartup]
  have hcloses : calls.countP closes = l.countP closes := by
    simp [hcalls]
  have hopens : calls.countP opens = l.countP opens := by
    simp [hcalls]
  rw [← hcalls]
  constructor
  · intro h
    have hbalance := h.cleanup
    have hclosed := h.closed
    rw [hcleanup, hstart] at hbalance
    rw [hcloses, hopens] at hclosed
    exact ⟨by omega, hclosed⟩
  · rintro ⟨hzero, hclosed⟩
    constructor
    · rw [hcleanup, hstart, hzero]
    · rw [hcloses, hopens, hclosed]

/-- No call is counted exactly if there is none. -/
theorem countP_isOpenSocket_eq_zero {ops : List Op} :
    ops.countP Op.isOpenSocket = 0 ↔ .openSocket ∉ ops := by
  rw [List.countP_eq_zero]
  constructor
  · intro h hmem
    exact h _ hmem rfl
  · intro h op hop
    cases op with
    | openSocket => exact absurd hop h
    | makeConnection peer => exact Bool.false_ne_true

/-! ## The calls of a method -/

section

variable {winsock : Winsock} {platform : Platform} {s : BSock}

/-- A call of Winsock is the one that happens. -/
theorem emits_call (c : WinsockCall) :
    Emits BSock.calls (call winsock c) s (fun _ l => l = [c]) fun _ => True := ⟨[c], rfl, rfl⟩

/-- A call that is followed by others. -/
theorem emits_call_bind {β : Type} {c : WinsockCall} {f : Int32 → Run BSock Exit β}
    {R : β → List WinsockCall → Prop}
    (hf : ∀ result s', Emits BSock.calls (f result) s' (fun b l => R b (c :: l)) fun _ => True) :
    Emits BSock.calls (call winsock c >>= f) s R fun _ => True := by
  refine (emits_call c).bind fun result l s' hl => ?_
  subst hl
  exact hf result s'

/-- `OpenSocket` leaves a socket open if it succeeds, and cleans up if it fails. -/
theorem emits_openSocket :
    Emits BSock.calls (openSocket winsock) s (fun _ l => Ledger 1 l) fun _ => True := by
  -- Both functions only answer with what they record.
  have hinfo : Emits BSock.calls (getaddrinfo winsock) s
      (fun result l => l = [.getaddrinfo result]) fun _ => True := ⟨_, rfl, rfl⟩
  have hopen (list : ℕ) (s : BSock) : Emits BSock.calls (openHandle winsock list) s
      (fun socket l => l = [.socket list socket]) fun _ => True := ⟨_, rfl, rfl⟩
  unfold openSocket
  refine hinfo.bind fun result l s₁ hl => ?_
  subst hl
  -- One case for each way out. In all of them the list of addresses is freed once, and not used
  -- after that.
  cases result with
  | none =>
    refine emits_call_bind fun _ s₂ => emits_pure ?_
    constructor <;> simp [List.filterMap]
  | some result =>
    refine (hopen result s₁).bind fun socket l s₂ hl => ?_
    subst hl
    cases socket with
    | none =>
      rw [if_pos rfl]
      refine emits_call_bind fun _ s₃ => emits_call_bind fun _ s₄ => emits_pure ?_
      constructor <;> simp [List.filterMap]
    | some handle =>
      rw [if_neg (Option.some_ne_none handle)]
      refine emits_call_bind fun iResult s₃ => ?_
      split_ifs
      -- The socket cannot be bound, and is closed.
      · refine emits_call_bind fun _ s₄ => emits_call_bind fun _ s₅ => emits_call_bind fun _ s₆ =>
          emits_pure ?_
        constructor <;> simp [List.filterMap, List.countP_cons]
      · refine emits_call_bind fun _ s₄ => emits_call_bind fun iResult s₅ => ?_
        split_ifs
        -- The process ends if there is no listening on the socket. If there is, the socket stays
        -- open.
        · exact emits_call_bind fun _ s₆ => emits_call_bind fun _ s₇ => emits_stop trivial
        · refine emits_pure ?_
          constructor <;> simp [List.filterMap, List.countP_cons]

/-- The length that `connect` is given is what a comparison of a size with `SOCKET_ERROR` gives. -/
theorem emits_makeConnection (peer : BPeer) :
    Emits BSock.calls (makeConnection winsock platform peer) s (fun _ l => Ledger 0 l)
      fun _ => True := by
  have hhandle : Emits BSock.calls handle s (fun _ l => l = []) fun _ => True :=
    ⟨[], (List.append_nil _).symm, rfl⟩
  have hsize : platform.pointerSize ≠ platform.npos := by
    cases platform <;> decide
  unfold makeConnection
  refine hhandle.bind fun socket l s' hl => ?_
  subst hl
  split_ifs
  · exact emits_pure ledger_nil
  · refine emits_call_bind fun _ s'' => emits_pure ?_
    constructor <;> simp [List.filterMap]

/-- All calls of a list keep the ledger, however many sockets they open. -/
theorem emits_performAll (ops : List Op) :
    Emits BSock.calls (performAll winsock platform ops) s
      (fun _ l => Ledger (ops.countP Op.isOpenSocket) l) fun _ => True := by
  induction ops generalizing s with
  | nil => exact emits_pure ledger_nil
  | cons op ops ih =>
    have hop : Emits BSock.calls (op.perform winsock platform) s
        (fun _ l => Ledger (if op.isOpenSocket then 1 else 0) l) fun _ => True := by
      cases op with
      | openSocket =>
        refine emits_openSocket.bind fun _ l s' hl => emits_pure ?_
        rwa [List.append_nil]
      | makeConnection peer => exact emits_makeConnection peer
    refine hop.bind fun _ l s' hl => ih.mono (fun _ l' hl' => ?_) fun _ _ => trivial
    rw [List.countP_cons, Nat.add_comm]
    exact hl.append hl'

end

/-! ## The whole life -/

variable {winsock : Winsock} {platform : Platform} {ops : List Op} {s : BSock}

/-- What a `BSock` that came to its destructor has called. -/
theorem calls_life (h : (life winsock platform ops).run {} = .returned () s) :
    ∃ l, s.calls = .wsaStartup :: l ++ [.wsaCleanup] ∧ Ledger (ops.countP Op.isOpenSocket) l := by
  have hlife : Emits BSock.calls (life winsock platform ops) {}
      (fun _ l => ∃ l', l = .wsaStartup :: l' ++ [.wsaCleanup] ∧
        Ledger (ops.countP Op.isOpenSocket) l') fun _ => True := by
    have hnew : Emits BSock.calls (new winsock) {} (fun _ l => l = [.wsaStartup])
        fun _ => True := by
      refine emits_call_bind fun result s' => ?_
      split_ifs
      · exact emits_stop trivial
      · exact emits_pure rfl
    refine hnew.bind fun _ l s₁ hl => ?_
    subst hl
    refine (emits_performAll ops).bind fun _ l s₂ hl => ?_
    exact emits_call_bind fun _ s₃ => emits_pure ⟨l, rfl, hl⟩
  obtain ⟨l, hcalls, hl⟩ := hlife.of_returned h
  obtain ⟨l', rfl, hledger⟩ := hl
  exact ⟨l', hcalls, hledger⟩

/-- A `BSock` that is destroyed has freed the lists of addresses that it got, each once, and it gave
`connect` no length but `0`. It leaves Winsock as it was exactly if `OpenSocket` was not called. -/
theorem leavesWinsock_iff (h : (life winsock platform ops).run {} = .returned () s) :
    s.calls.filterMap freed? = s.calls.filterMap given? ∧
      (∀ socket address namelen, .connect socket address namelen ∈ s.calls → namelen = 0) ∧
      (LeavesWinsock s.calls ↔ .openSocket ∉ ops) := by
  obtain ⟨l, hcalls, hl⟩ := calls_life h
  have hclosed_le := hl.closed_le
  have hcount := hl.count_eq
  rw [hcalls]
  refine ⟨?_, fun socket address namelen hmem => ?_, ?_⟩
  · simpa [List.filterMap_cons] using hl.freed
  · refine hl.namelen socket address namelen ?_
    simpa using hmem
  · rw [leavesWinsock_calls_iff hl.startup, ← countP_isOpenSocket_eq_zero]
    constructor
    · rintro ⟨hcleanup, hclosed⟩
      omega
    · intro hzero
      constructor <;> omega

/-- A `BSock` that listened and was connected to a peer, when it is destroyed. -/
def listened : BSock where
  socket := some 4
  calls := [.wsaStartup, .getaddrinfo (some 1), .socket 1 (some 4), .bind (some 4) 1,
    .freeaddrinfo 1, .listen (some 4), .connect (some 4) somePeer.peerAddress 0, .wsaCleanup]

/-- A socket that is opened is not closed. -/
theorem leavesWinsock_listened :
    (life quietWinsock .x64 [.openSocket, .makeConnection somePeer]).run {} =
        .returned () listened ∧ ¬ LeavesWinsock listened.calls := by
  have hrun : (life quietWinsock .x64 [.openSocket, .makeConnection somePeer]).run {} =
      .returned () listened := rfl
  refine ⟨hrun, fun h => ?_⟩
  have hops := (leavesWinsock_iff hrun).2.2.mp h
  exact hops List.mem_cons_self

end BSock

end Btor
