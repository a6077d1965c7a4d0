import Btor.BPeer

/-!
# The socket of a peer

A peer has its socket from the constructor on, and the destructor closes it. `sendMessage` and
`closeConnection` close it as well, the first only where `send` fails, and leave the handle in the
peer. In a run that does not exit the socket is closed once, and not used afterwards, exactly if
neither of them does (`closedOnce_iff`).
-/

namespace Btor

open Lib (Run Outcome)

/-- The methods that work on the socket, with their arguments. -/
inductive PeerOp where
  | tryConnect
  | sendMessage (msg : Bytes)
  | tryReceive
  | closeConnection

/-- The socket that a call is made with. -/
def SysCall.uses : SysCall → Socket → Prop
  | connect s _, s' => s = s'
  | send s _ _, s' => s = s'
  | select s, s' => s = s'
  | recv s, s' => s = s'
  | shutdown s, s' => s = s'
  | _, _ => False

/-- Among the calls there is one of `closesocket` with the socket, and no use of it after that. -/
structure ClosedOnce (s : Socket) (trace : List SysCall) : Prop where
  count_eq : trace.count (.closesocket s) = 1
  not_uses : ∀ before after, trace = before ++ .closesocket s :: after → ∀ c ∈ after, ¬ c.uses s

section

variable (os : Os)

/-- A call of a method. Nothing reads what it returns. -/
def PeerOp.perform (peer : BPeer) : PeerOp → Sys Unit
  | tryConnect => do let _ ← peer.tryConnect os
  | sendMessage msg => do let _ ← peer.sendMessage os msg
  | tryReceive => peer.tryReceive os
  | closeConnection => peer.closeConnection os

/-- Calls of methods, one after the other. -/
def performAll (peer : BPeer) : List PeerOp → Sys Unit
  | [] => return ()
  | op :: ops => do
    op.perform os peer
    performAll peer ops

/-- The methods that are called on a peer, up to its destructor. -/
def useAndDestroy (peer : BPeer) (ops : List PeerOp) : Sys Unit := do
  performAll os peer ops
  peer.destructor os

/-- The method does not close the socket: it is not `closeConnection`, and if it is `sendMessage`,
then `send` is not answered with `SOCKET_ERROR` after the calls made before. -/
def PeerOp.LeavesOpen (peer : BPeer) (calls : List SysCall) : PeerOp → Prop
  | sendMessage msg =>
    os.result calls (.send peer.peerSocket msg (Int32.ofNat (strlen msg))) ≠ socketError
  | closeConnection => False
  | _ => True

/-- None of the methods closes the socket, each called after those before it. -/
def AllLeaveOpen (peer : BPeer) : List PeerOp → List SysCall → Prop
  | [], _ => True
  | op :: ops, calls => op.LeavesOpen os peer calls ∧
      AllLeaveOpen peer ops ((op.perform os peer).run calls).state

end

/-! ## The calls of a method -/

section

variable {os : Os} {peer : BPeer} {calls calls' : List SysCall}

/-- The calls that a method adds if it returns. A close of the socket is among them exactly if the
method does not leave it open. -/
def AddsCalls (peer : BPeer) (calls calls' : List SysCall) (leavesOpen : Prop) : Prop :=
  ∃ added, calls' = calls ++ added ∧ (.closesocket peer.peerSocket ∉ added ↔ leavesOpen)

/-- A call is recorded and answered. -/
theorem run_call (c : SysCall) :
    (call os c).run calls = .returned (os.result calls c) (calls ++ [c]) := rfl

/-- `fail` closes the socket and Winsock, and ends the process. -/
theorem run_fail : (peer.fail os).run calls =
    .stopped .failure (calls ++ [.closesocket peer.peerSocket] ++ [.wsaCleanup]) := rfl

/-- `tryConnect` closes nothing. -/
theorem tryConnect_adds
    (h : (PeerOp.tryConnect.perform os peer).run calls = .returned () calls') :
    AddsCalls peer calls calls' True := by
  unfold PeerOp.perform BPeer.tryConnect at h
  simp only [Run.run_bind, run_call, Outcome.andThen_returned, Run.run_ite] at h
  split_ifs at h <;> obtain ⟨-, rfl⟩ := Outcome.returned.inj h
  all_goals exact ⟨[.connect peer.peerSocket peer.peerAddress], rfl, by simp⟩

/-- `sendMessage` closes the socket if `send` fails. -/
theorem sendMessage_adds {msg : Bytes}
    (h : ((PeerOp.sendMessage msg).perform os peer).run calls = .returned () calls') :
    AddsCalls peer calls calls' ((PeerOp.sendMessage msg).LeavesOpen os peer calls) := by
  unfold PeerOp.perform BPeer.sendMessage at h
  simp only [Run.run_bind, run_call, Outcome.andThen_returned, Run.run_ite] at h
  unfold PeerOp.LeavesOpen
  split_ifs at h with herror <;> obtain ⟨-, rfl⟩ := Outcome.returned.inj h
  · refine ⟨[.send peer.peerSocket msg (Int32.ofNat (strlen msg)),
      .closesocket peer.peerSocket], by simp, ?_⟩
    simp [herror]
  · refine ⟨[.send peer.peerSocket msg (Int32.ofNat (strlen msg))], rfl, ?_⟩
    simp [herror]

/-- `tryReceive` closes the socket only before it exits. -/
theorem tryReceive_adds
    (h : (PeerOp.tryReceive.perform os peer).run calls = .returned () calls') :
    AddsCalls peer calls calls' True := by
  unfold PeerOp.perform BPeer.tryReceive at h
  simp only [Run.run_bind, run_call, run_fail, isSet, recvbuf, Outcome.andThen_returned,
    Run.run_ite, Run.run_pure] at h
  split_ifs at h <;> obtain ⟨-, rfl⟩ := Outcome.returned.inj h
  · -- What was received is sent back.
    refine ⟨[.select peer.peerSocket, .recv peer.peerSocket, .send peer.peerSocket _ _],
      by simp only [List.append_assoc, List.cons_append, List.nil_append]; rfl, by simp⟩
  · exact ⟨[.select peer.peerSocket, .recv peer.peerSocket], by simp, by simp⟩
  · exact ⟨[.select peer.peerSocket], rfl, by simp⟩

/-- `closeConnection` closes the socket, or closes it and exits. -/
theorem closeConnection_adds
    (h : (PeerOp.closeConnection.perform os peer).run calls = .returned () calls') :
    AddsCalls peer calls calls' False := by
  unfold PeerOp.perform BPeer.closeConnection at h
  simp only [Run.run_bind, run_call, run_fail, Outcome.andThen_returned, Run.run_ite,
    Run.run_pure] at h
  split_ifs at h
  obtain ⟨-, rfl⟩ := Outcome.returned.inj h
  exact ⟨[.shutdown peer.peerSocket, .closesocket peer.peerSocket], by simp, by simp⟩

/-- A method that returns has left the socket open, or not. -/
theorem PeerOp.adds {op : PeerOp} (h : (op.perform os peer).run calls = .returned () calls') :
    AddsCalls peer calls calls' (op.LeavesOpen os peer calls) := by
  cases op with
  | tryConnect => exact tryConnect_adds h
  | sendMessage msg => exact sendMessage_adds h
  | tryReceive => exact tryReceive_adds h
  | closeConnection => exact closeConnection_adds h

/-- A sequence of methods that all return. -/
theorem performAll_adds {ops : List PeerOp}
    (h : (performAll os peer ops).run calls = .returned () calls') :
    AddsCalls peer calls calls' (AllLeaveOpen os peer ops calls) := by
  induction ops generalizing calls with
  | nil =>
    obtain ⟨-, rfl⟩ := Outcome.returned.inj h
    exact ⟨[], by simp, by simp [AllLeaveOpen]⟩
  | cons op ops ih =>
    obtain ⟨⟨⟩, calls₁, hop, h⟩ := Run.returned_of_bind h
    obtain ⟨added, rfl, hadded⟩ := PeerOp.adds hop
    obtain ⟨added', rfl, hadded'⟩ := ih h
    refine ⟨added ++ added', List.append_assoc _ _ _, ?_⟩
    unfold AllLeaveOpen
    rw [hop, Outcome.state_returned, List.mem_append, not_or, hadded, hadded']

/-! ## The whole life of a peer -/

/-- Calls that end in a close of the socket. -/
theorem closedOnce_append_iff {s : Socket} {added : List SysCall} :
    ClosedOnce s (added ++ [.closesocket s]) ↔ .closesocket s ∉ added := by
  constructor
  · rintro ⟨hcount, -⟩
    rw [List.count_append, List.count_singleton_self] at hcount
    exact List.count_eq_zero.mp (by omega)
  · intro hadded
    constructor
    · rw [List.count_append, List.count_singleton_self, List.count_eq_zero.mpr hadded]
    · intro before after heq
      rcases List.eq_nil_or_concat after with rfl | ⟨after, last, rfl⟩
      · simp
      · -- A close that is followed by another call is one of the calls before the last.
        have hsplit : added ++ [.closesocket s] =
            (before ++ .closesocket s :: after) ++ [last] := by
          rw [heq]
          simp
        have hbefore := (List.append_inj' hsplit rfl).1
        rw [hbefore] at hadded
        exact absurd (List.mem_append_right before List.mem_cons_self) hadded

/-- The socket is closed once exactly if all methods left it open. -/
theorem useAndDestroy_adds {ops : List PeerOp}
    (h : (useAndDestroy os peer ops).run calls = .returned () calls') :
    ∃ trace, calls' = calls ++ trace ∧
      (ClosedOnce peer.peerSocket trace ↔ AllLeaveOpen os peer ops calls) := by
  obtain ⟨⟨⟩, calls₁, hall, h⟩ := Run.returned_of_bind h
  obtain ⟨added, rfl, hadded⟩ := performAll_adds hall
  obtain ⟨-, rfl⟩ := Outcome.returned.inj h
  refine ⟨added ++ [.closesocket peer.peerSocket], List.append_assoc _ _ _, ?_⟩
  rw [closedOnce_append_iff, hadded]

end

/-- The socket of a peer is closed once and not used afterwards, in a run that does not exit,
exactly if the destructor is the first to close it. -/
theorem closedOnce_iff (os : Os) (memory : Vector UInt8 4) (behind : ℕ → UInt8) (ipaddr : Bytes)
    (port : UInt16) (peerNumId : Int32) (ops : List PeerOp) {peer : BPeer} {handle : ℕ}
    {calls calls₁ calls₂ : List SysCall}
    (hnew : (BPeer.new os memory behind ipaddr port peerNumId).run calls = .returned peer calls₁)
    (hvalid : peer.peerSocket = some handle)
    (hrun : (useAndDestroy os peer ops).run calls₁ = .returned () calls₂) :
    ∃ trace, calls₂ = calls ++ .socket :: trace ∧
      (ClosedOnce (some handle) trace ↔ AllLeaveOpen os peer ops calls₁) := by
  obtain ⟨trace, rfl, hclosed⟩ := useAndDestroy_adds hrun
  obtain ⟨-, rfl⟩ := Outcome.returned.inj hnew
  refine ⟨trace, List.append_assoc _ _ _, ?_⟩
  rw [← hclosed, hvalid]

/-- A peer that sends a message. -/
theorem closedOnce_quiet :
    ClosedOnce (some 4) [.send (some 4) [65] 1, .closesocket (some 4)] := by
  obtain ⟨trace, htrace, hclosed⟩ := @closedOnce_iff quietOs (.replicate 4 0) (fun _ => 0) [] 0 0
    [.sendMessage [65]] _ 4 [] _ _ rfl rfl rfl
  obtain ⟨-, rfl⟩ := List.cons.inj htrace
  have hsent : (0 : Int32) ≠ socketError := by decide
  exact hclosed.mpr ⟨hsent, trivial⟩

/-- `closeConnection` closes the socket, and the destructor closes it again. -/
theorem not_closedOnce : ¬ ∀ (os : Os) (memory : Vector UInt8 4) (behind : ℕ → UInt8)
    (ipaddr : Bytes) (port : UInt16) (peerNumId : Int32) (ops : List PeerOp) (peer : BPeer)
    (handle : ℕ) (calls calls₁ calls₂ : List SysCall),
    (BPeer.new os memory behind ipaddr port peerNumId).run calls = .returned peer calls₁ →
    peer.peerSocket = some handle →
    (useAndDestroy os peer ops).run calls₁ = .returned () calls₂ →
    ∃ trace, calls₂ = calls ++ .socket :: trace ∧ ClosedOnce (some handle) trace := by
  intro hclaim
  obtain ⟨trace, htrace, hclosed⟩ := hclaim quietOs (.replicate 4 0) (fun _ => 0) [] 0 0
    [.closeConnection] _ _ [] _ _ rfl rfl rfl
  obtain ⟨-, rfl⟩ := List.cons.inj htrace
  exact absurd hclosed.count_eq (by decide)

end Btor
