import Btor.BPeer

/-!
# The handshake on the wire

The comment of `getHandshake` gives the fields of a handshake: the length of the name of the
protocol, the name, the reserved bytes, the info hash and the id of the peer. `Handshake.encode`
writes them, and `decodeHandshake` reads what it writes. `getHandshake` writes the digit five for
the length and digits for the reserved bytes, and `sendMessage` ends at the first zero, so that what
is sent is never the handshake (`not_sendsHandshake`).
-/

namespace Btor

/-! ## Handshakes -/

/-- The fields of a handshake. -/
structure Handshake where
  pstr : Bytes
  reserved : Bytes
  infoHash : Bytes
  peerId : Bytes
  deriving DecidableEq

/-- The fields have the sizes of the protocol, and the size of the name fits its byte. -/
structure Handshake.WellFormed (h : Handshake) : Prop where
  pstr_lt : h.pstr.length < 256
  reserved_length : h.reserved.length = 8
  infoHash_length : h.infoHash.length = 20
  peerId_length : h.peerId.length = 20

/-- `<pstrlen><pstr><reserved><info_hash><peer_id>` -/
def Handshake.encode (h : Handshake) : Bytes :=
  UInt8.ofNat h.pstr.length :: (h.pstr ++ (h.reserved ++ (h.infoHash ++ h.peerId)))

/-- The first `n` bytes, and the rest. -/
def readBytes (n : ℕ) (bytes : Bytes) : Option (Bytes × Bytes) :=
  if n ≤ bytes.length then some (bytes.take n, bytes.drop n) else none

/-- Reads one byte `n`, `n` bytes of the name, 8 reserved bytes, 20 bytes of the hash and 20 of the
id, with nothing left over. -/
def decodeHandshake : Bytes → Option Handshake
  | [] => none
  | n :: bytes => do
    let (pstr, bytes) ← readBytes n.toNat bytes
    let (reserved, bytes) ← readBytes 8 bytes
    let (infoHash, bytes) ← readBytes 20 bytes
    let (peerId, bytes) ← readBytes 20 bytes
    if bytes = [] then some ⟨pstr, reserved, infoHash, peerId⟩ else none

/-- As many bytes as there are to read are read. -/
theorem readBytes_append {n : ℕ} {l : Bytes} (h : l.length = n) (rest : Bytes) :
    readBytes n (l ++ rest) = some (l, rest) := by
  have hle : n ≤ (l ++ rest).length := by
    rw [List.length_append]
    omega
  unfold readBytes
  rw [if_pos hle, List.take_left' h, List.drop_left' h]

/-- The bytes that are read are in front, as many as asked for. -/
theorem readBytes_eq_some {n : ℕ} {bytes l rest : Bytes} :
    readBytes n bytes = some (l, rest) ↔ bytes = l ++ rest ∧ l.length = n := by
  constructor
  · intro h
    unfold readBytes at h
    split_ifs at h with hle
    obtain ⟨rfl, rfl⟩ := Prod.mk.inj (Option.some.inj h)
    exact ⟨(List.take_append_drop n bytes).symm, List.length_take_of_le hle⟩
  · rintro ⟨rfl, h⟩
    exact readBytes_append h rest

/-- The bytes that decode are those of handshakes. -/
theorem decodeHandshake_eq_some {bytes : Bytes} {h : Handshake} :
    decodeHandshake bytes = some h ↔ h.WellFormed ∧ bytes = h.encode := by
  constructor
  · intro hdecode
    cases bytes with
    | nil => cases hdecode
    | cons n bytes =>
      unfold decodeHandshake at hdecode
      obtain ⟨⟨pstr, bytes₁⟩, hread₁, hdecode⟩ := Option.bind_eq_some_iff.mp hdecode
      obtain ⟨⟨reserved, bytes₂⟩, hread₂, hdecode⟩ := Option.bind_eq_some_iff.mp hdecode
      obtain ⟨⟨infoHash, bytes₃⟩, hread₃, hdecode⟩ := Option.bind_eq_some_iff.mp hdecode
      obtain ⟨⟨peerId, bytes₄⟩, hread₄, hdecode⟩ := Option.bind_eq_some_iff.mp hdecode
      dsimp only at hread₂ hread₃ hread₄ hdecode
      split_ifs at hdecode with hnil
      obtain rfl := Option.some.inj hdecode
      obtain ⟨rfl, hpstr⟩ := readBytes_eq_some.mp hread₁
      obtain ⟨rfl, hreserved⟩ := readBytes_eq_some.mp hread₂
      obtain ⟨rfl, hhash⟩ := readBytes_eq_some.mp hread₃
      obtain ⟨rfl, hid⟩ := readBytes_eq_some.mp hread₄
      subst hnil
      refine ⟨⟨hpstr ▸ n.toNat_lt, hreserved, hhash, hid⟩, ?_⟩
      unfold Handshake.encode
      rw [hpstr, UInt8.ofNat_toNat, List.append_nil]
  · rintro ⟨⟨hpstr, hreserved, hhash, hid⟩, rfl⟩
    have hn : h.pstr.length = (UInt8.ofNat h.pstr.length).toNat := by
      rw [UInt8.toNat_ofNat', Nat.mod_eq_of_lt hpstr]
    have hid' : readBytes 20 h.peerId = some (h.peerId, []) := by
      simpa using readBytes_append hid []
    unfold Handshake.encode decodeHandshake
    simp only [readBytes_append hn, readBytes_append hreserved, readBytes_append hhash, hid',
      Option.bind_some, bind, if_true]

/-! ## What is sent -/

/-- The handshake of a state: no reserved bit is set. -/
def BState.handshake (state : BState) : Handshake where
  pstr := literal "BitTorrent protocol"
  reserved := .replicate 8 0
  infoHash := state.metainfo.infoHashRaw
  peerId := state.uniqueId

section

variable (os : Os) (peer : BPeer) (state : BState) (calls : List SysCall)

/-- `sendMessage(getHandshake(state).c_str())` passes bytes to `send` that decode to the handshake
of the state. -/
def SendsHandshake : Prop :=
  ∃ c more, ((peer.sendMessage os (getHandshake state)).run calls).state = calls ++ c :: more ∧
    decodeHandshake c.sent = some state.handshake

/-- `sendMessage` calls `send` first. -/
theorem sendMessage_calls (msg : Bytes) : ∃ more,
    ((peer.sendMessage os msg).run calls).state =
      calls ++ .send peer.peerSocket msg (Int32.ofNat (strlen msg)) :: more := by
  unfold BPeer.sendMessage
  rw [Lib.Run.run_bind]
  simp only [call, Lib.Outcome.andThen_returned]
  split_ifs
  · exact ⟨[.closesocket peer.peerSocket], by simp⟩
  · exact ⟨[], by simp⟩

/-- The record starts with the character `5`. -/
theorem getHandshake_eq_cons : getHandshake state = 53 ::
    (literal "BitTorrent protocol00000000" ++ state.metainfo.infoHashRaw ++ state.uniqueId) := by
  have hliteral : literal "5BitTorrent protocol00000000" =
      53 :: literal "BitTorrent protocol00000000" := by decide
  unfold getHandshake
  rw [hliteral]
  rfl

/-- The first byte of a handshake is 19, and the digit five is the byte 53. -/
theorem decode_take_getHandshake (k : ℕ) :
    decodeHandshake ((getHandshake state).take k) ≠ some state.handshake := by
  intro hdecode
  have hbytes := (decodeHandshake_eq_some.mp hdecode).2
  have hfirst : state.handshake.encode.head? = some 19 := rfl
  rw [← hbytes, getHandshake_eq_cons] at hfirst
  cases k with
  | zero => cases hfirst
  | succ k => exact absurd (Option.some.inj hfirst) (by decide)

/-- What is sent is a part of the handshake that is built. -/
theorem SendsHandshake.exists_take {os peer state calls} (h : SendsHandshake os peer state calls) :
    ∃ k, decodeHandshake ((getHandshake state).take k) = some state.handshake := by
  obtain ⟨c, more, hcalls, hdecode⟩ := h
  obtain ⟨more', hsend⟩ := sendMessage_calls os peer calls (getHandshake state)
  have hc := List.append_cancel_left (hcalls.symm.trans hsend)
  obtain ⟨rfl, -⟩ := List.cons.inj hc
  exact ⟨_, hdecode⟩

/-- No handshake reaches the wire, whatever the hash and the id are. -/
theorem not_sendsHandshake : ¬ SendsHandshake os peer state calls := by
  intro h
  obtain ⟨k, hk⟩ := h.exists_take
  exact decode_take_getHandshake state k hk

end

/-- A peer with socket 4, at address zero. -/
def somePeer : BPeer where
  peerNumId := 0
  peerAddress := {
    sinFamily := 2
    sinPort := 0
    sinAddr := .replicate 4 0
    sinZero := .replicate 8 0 }
  peerSocket := some 4
  readableIp := []
  port := 0

/-- A state with a hash of zeros. -/
def zeroState : BState where
  metainfo := { infoHashRaw := .replicate 20 0 }
  uniqueId := .replicate 20 65

/-- A hash of zeros is not sent. -/
theorem not_forall_sendsHandshake : ¬ ∀ (os : Os) (peer : BPeer) (state : BState)
    (calls : List SysCall), state.metainfo.infoHashRaw.length = 20 →
    state.uniqueId.length = 20 → SendsHandshake os peer state calls := by
  intro hclaim
  obtain ⟨k, hk⟩ := (hclaim quietOs somePeer zeroState [] (by decide) (by decide)).exists_take
  exact decode_take_getHandshake zeroState k hk

/-! ## The part that is sent -/

section

variable (state : BState) (hhash : state.metainfo.infoHashRaw.length = 20)
  (hid : state.uniqueId.length = 20)

include hhash hid

/-- The assertion of `main` on the size of the handshake. -/
theorem length_getHandshake : (getHandshake state).length = 68 := by
  unfold getHandshake
  rw [List.length_append, List.length_append, hhash, hid]
  decide

/-- `send` is given the handshake up to the first zero. -/
theorem sent_getHandshake (s : Socket) :
    (SysCall.send s (getHandshake state) (Int32.ofNat (strlen (getHandshake state)))).sent =
      (getHandshake state).takeWhile (· != 0) := by
  have hle : strlen (getHandshake state) ≤ 68 :=
    (List.takeWhile_prefix _).length_le.trans (length_getHandshake state hhash hid).le
  have hlen : (Int32.ofNat (strlen (getHandshake state))).toNatClampNeg =
      strlen (getHandshake state) := Int32.toNatClampNeg_ofNat_of_lt (by omega)
  unfold SysCall.sent
  simp only [hlen]
  exact (List.prefix_iff_eq_take.mp (List.takeWhile_prefix _)).symm

/-- All of it is sent exactly if neither the hash nor the id has a zero. -/
theorem sent_getHandshake_iff (s : Socket) :
    (SysCall.send s (getHandshake state) (Int32.ofNat (strlen (getHandshake state)))).sent =
      getHandshake state ↔ 0 ∉ state.metainfo.infoHashRaw ∧ 0 ∉ state.uniqueId := by
  have hheader : 0 ∉ literal "5BitTorrent protocol00000000" := by decide
  rw [sent_getHandshake state hhash hid, List.takeWhile_eq_self_iff]
  unfold getHandshake
  constructor
  · intro h
    constructor
    · intro hmem
      simpa using h 0 (List.mem_append_left _ (List.mem_append_right _ hmem))
    · intro hmem
      simpa using h 0 (List.mem_append_right _ hmem)
  · rintro ⟨hraw, hunique⟩ x hx
    have hx0 : x ≠ 0 := by
      rcases List.mem_append.mp hx with hx | hx
      · rcases List.mem_append.mp hx with hx | hx
        · exact fun h => hheader (h ▸ hx)
        · exact fun h => hraw (h ▸ hx)
      · exact fun h => hunique (h ▸ hx)
    simpa using hx0

end

end Btor
