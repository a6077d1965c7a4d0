import Btor.Capture
import Btor.Lib.Post
import Btor.Peers

/-!
# What `main` reads

The torrent, with a fresh parser, and the response of the tracker, with the same parser again.
`Torrent` and `TrackerReply` are what `main` finds in the bytes of either, and `Torrent.metainfo` is
all that it keeps of the torrent. A part of `main` that returns has found one (`post_readTorrent`,
`post_readReply`), has made a peer of each entry of the response (`post_newPeers`), and returns if
there is one to find and fuel enough (`returns_readTorrent`, `returns_readReply`,
`returns_newPeers`).
-/

namespace Btor

open Lib (Run)
open Lib.Run (Post Returns)

/-- What `main` finds in the bytes of a torrent. -/
structure Torrent (bytes : Bytes) where
  parsed : Parsed
  info : Value
  pieceLength : ℤ
  announce : Bytes
  startsWith : StartsWith bytes parsed
  info_eq : parsed.value.get? infoKey = some info
  pieceLength_eq : info.int? (literal "piece length") = some pieceLength
  announce_eq : parsed.value.string? (literal "announce") = some announce

/-- The metainfo of a torrent: the bytes that the parser collects under the key `info` are hashed,
and the total is that of all lengths. -/
def Torrent.metainfo {bytes : Bytes} (file : Torrent bytes) (final : Bytes → Vector UInt32 5)
    (memory : ℕ → UInt8) : Metainfo :=
  getSHA1 final memory {
    announce := file.announce
    infodict := (file.parsed.kept false).flatMap Token.bytes
    totalLength := file.parsed.lengths
    pieceLength := (Int64.ofInt file.pieceLength).toUInt64 }

/-- What `main` finds in a response. -/
structure TrackerReply (response : Bytes) where
  parsed : Parsed
  entries : List Value
  startsWith : StartsWith response parsed
  answers : Answers parsed.value
  peers_eq : parsed.value.get? (literal "peers") = some (.list entries)

/-- The peer has the number of the entry, its address as text, and the last 16 bits of its port. -/
structure IsReadFrom (entry : Value) (id : ℕ) (peer : BPeer) : Prop where
  peerNumId : peer.peerNumId = Int32.ofNat id
  readableIp : entry.string? (literal "ip") = some peer.readableIp
  sinPort : ∃ port, entry.port? = some port ∧
    (networkOrder peer.peerAddress.sinPort : ℤ) = port % 2^16

/-! ## There is one way to read -/

/-- The bytes determine what is found in them. -/
instance {bytes : Bytes} : Subsingleton (Torrent bytes) where
  allEq := by
    rintro ⟨t, info, n, announce, ht, hinfo, hn, hannounce⟩
      ⟨t', info', n', announce', ht', hinfo', hn', hannounce'⟩
    obtain rfl := ht.unique ht'
    obtain rfl := Option.some.inj (hinfo.symm.trans hinfo')
    obtain rfl := Option.some.inj (hn.symm.trans hn')
    obtain rfl := Option.some.inj (hannounce.symm.trans hannounce')
    rfl

/-- The response determines what is found in it. -/
instance {response : Bytes} : Subsingleton (TrackerReply response) where
  allEq := by
    rintro ⟨t, entries, ht, hanswers, hpeers⟩ ⟨t', entries', ht', hanswers', hpeers'⟩
    obtain rfl := ht.unique ht'
    obtain rfl := Value.list.inj (Option.some.inj (hpeers.symm.trans hpeers'))
    rfl

/-! ## What a lookup that returns has found -/

section

variable {w : World} {p : Ptr} {v : Value} {k : Bytes}

/-- A key that is found is one of the tree. -/
theorem post_getByKey (h : Denotes w.state.heap p v) : (Main.getByKey p k).Post w
    (fun q w' => w' = w ∧ ∃ u, v.get? k = some u ∧ Denotes w.state.heap q u) fun _ => True := by
  unfold Post
  cases hk : v.get? k with
  | some u =>
    obtain ⟨q, hq, hdenotes⟩ := getByKey_of_some h hk
    rw [hq]
    exact ⟨rfl, u, rfl, hdenotes⟩
  | none =>
    obtain ⟨e, he⟩ := getByKey_of_none h hk
    rw [he]
    trivial

/-- An integer that is found is one of the tree. -/
theorem post_getIntByKey (h : Denotes w.state.heap p v) : (Main.getIntByKey p k).Post w
    (fun x w' => w' = w ∧ ∃ n, v.int? k = some n ∧ x = Int64.ofInt n) fun _ => True := by
  unfold Post
  cases hn : v.int? k with
  | some n =>
    rw [getIntByKey_of_some h hn]
    exact ⟨rfl, n, rfl, rfl⟩
  | none =>
    obtain ⟨e, he⟩ := getIntByKey_of_none h hn
    rw [he]
    trivial

/-- A string that is found is one of the tree. -/
theorem post_getStringByKey (h : Denotes w.state.heap p v) : (Main.getStringByKey p k).Post w
    (fun s w' => w' = w ∧ v.string? k = some s) fun _ => True := by
  unfold Post
  cases hs : v.string? k with
  | some s =>
    rw [getStringByKey_of_some h hs]
    exact ⟨rfl, rfl⟩
  | none =>
    obtain ⟨e, he⟩ := getStringByKey_of_none h hs
    rw [he]
    trivial

/-- A tree that is asked for a key is a dictionary. -/
theorem post_checkIfHasKey (h : Denotes w.state.heap p v) :
    (Main.parser (deref p (·.checkIfHasKey k))).Post w
      (fun found w' => w' = w ∧ found = (v.get? k).isSome) fun _ => True := by
  unfold Post
  cases v with
  | dict es =>
    rw [checkIfHasKey_of_dict h]
    exact ⟨rfl, rfl⟩
  -- Asking anything else for a key throws.
  | _ =>
    obtain ⟨obj, hobj, htype⟩ := h.type_eq
    have herror : obj.checkIfHasKey k = .error .bTypeException := by
      unfold BObject.checkIfHasKey
      rw [htype]
      rfl
    have hthrows : (Main.parser (deref p (·.checkIfHasKey k))).Throws w :=
      throws_deref hobj herror
    obtain ⟨e, he⟩ := hthrows
    rw [he]
    trivial

/-- A tree whose items are taken is a list. -/
theorem post_getList (h : Denotes w.state.heap p v) :
    (Main.parser (deref p BObject.getList)).Post w
      (fun ps w' => w' = w ∧ ∃ vs, v = .list vs ∧ DenotesItems w.state.heap ps vs)
      fun _ => True := by
  unfold Post
  cases v with
  | list vs =>
    obtain ⟨obj, hobj, htype, hitems⟩ := h
    have hgetList : obj.getList = .ok obj.listVal := by
      unfold BObject.getList
      rw [if_neg (not_not.mpr htype)]
    rw [run_deref_ok hobj hgetList]
    exact ⟨rfl, vs, rfl, hitems⟩
  -- Taking the items of anything else throws.
  | _ =>
    obtain ⟨obj, hobj, htype⟩ := h.type_eq
    have herror : obj.getList = .error .bTypeException := by
      unfold BObject.getList
      rw [htype]
      rfl
    obtain ⟨e, he⟩ := throws_deref hobj herror
    rw [he]
    trivial

/-- The type of an object that is found. -/
theorem post_getType (h : Denotes w.state.heap p v) :
    (Main.parser (deref p fun o => .ok o.getType)).Post w
      (fun _ w' => w' = w) fun _ => True := by
  obtain ⟨obj, hobj, -⟩ := h.type_eq
  have hrun : (Main.parser (deref p fun o => .ok o.getType)).run w = .returned obj.getType w :=
    run_deref_ok hobj rfl
  unfold Post
  rw [hrun]

/-- A parse that returns has read a tree, and points to it. -/
theorem post_parseBencodedString (buf : Bytes) (fuel : ℕ) (w : World) :
    (Main.parser (parseBencodedString buf fuel)).Post w
      (fun root w' => ∃ t : Parsed, StartsWith buf t ∧ w'.state = t.replay w.state.rewind ∧
        Denotes w'.state.heap root t.value) fun _ => True := by
  unfold Post Main.parser
  dsimp only
  cases hrun : (parseBencodedString buf fuel).run w.state with
  | returned root s => exact parse_denotes hrun
  | stopped e s => trivial

end

/-! ## What is read of the torrent -/

section

variable (final : Bytes → Vector UInt32 5) (memory : ℕ → UInt8) {w : World}
  (hfresh : w.state = fresh {})

include hfresh

/-- What a fresh parser has collected after a parse. -/
theorem collected_replay {t : Parsed} {s : State} (hs : s = t.replay w.state.rewind) :
    s.getCollectedInfoDict = (t.kept false).flatMap Token.bytes ∧
      s.getCollectedLength = t.lengths := by
  rw [hs, hfresh]
  unfold BParser.getCollectedInfoDict BParser.getCollectedLength
  rw [t.replay_collectedInfoDict, t.replay_collectedLength]
  exact ⟨rfl, Int64.zero_add _⟩

/-- A metainfo that is returned is that of the torrent. -/
theorem post_readTorrent (torrent : Bytes) (fuel : ℕ) :
    (readTorrent final memory torrent fuel).Post w
      (fun metainfo _ => ∃ file : Torrent torrent, metainfo = file.metainfo final memory)
      fun _ => True := by
  unfold readTorrent
  refine (post_parseBencodedString torrent fuel w).bind fun root w₁ hw₁ => ?_
  -- What the parser has collected is known of the state after the parse, which the lookups keep.
  obtain ⟨t, ht, hstate, hroot⟩ := hw₁
  obtain ⟨hinfodict, hlength⟩ := collected_replay hfresh hstate
  have hfields : Main.bParser.Post w₁
      (fun bParser w₂ => w₂ = w₁ ∧ bParser = w₁.state.toBParser) fun _ => True := ⟨rfl, rfl⟩
  refine hfields.bind fun bParser w₂ hparser => ?_
  obtain ⟨rfl, rfl⟩ := hparser
  refine (post_getByKey hroot).bind fun q w₃ hinfo => ?_
  obtain ⟨rfl, info, hinfo, hdenotes⟩ := hinfo
  refine (post_getIntByKey hdenotes).bind fun pieceLength w₄ hpiece => ?_
  obtain ⟨rfl, n, hpiece, rfl⟩ := hpiece
  refine (post_getStringByKey hroot).bind fun announce w₅ hannounce => ?_
  obtain ⟨rfl, hannounce⟩ := hannounce
  refine Run.post_pure ⟨⟨t, info, n, announce, ht, hinfo, hpiece, hannounce⟩, ?_⟩
  unfold Torrent.metainfo
  rw [← hinfodict, ← hlength]

/-- The metainfo of a torrent is returned. -/
theorem returns_readTorrent {torrent : Bytes} (file : Torrent torrent) {fuel : ℕ}
    (hfuel : 3 * file.parsed.bytes.length ≤ fuel) :
    (readTorrent final memory torrent fuel).Returns w
      fun metainfo _ => metainfo = file.metainfo final memory := by
  -- That it returns is enough: what it returns is then the metainfo of the one torrent in the
  -- bytes.
  have hreturns : (readTorrent final memory torrent fuel).Returns w fun _ _ => True := by
    obtain ⟨root, w', hparse, hroot, -⟩ := run_parser_of_startsWith file.startsWith hfuel w
    obtain ⟨q, hq, hdenotes⟩ := getByKey_of_some hroot file.info_eq
    have hfields : Main.bParser.run w' = .returned w'.state.toBParser w' := rfl
    have hpiece := getIntByKey_of_some hdenotes file.pieceLength_eq
    have hannounce := getStringByKey_of_some hroot file.announce_eq
    unfold readTorrent
    refine .bind_of_returned hparse (.bind_of_returned hfields (.bind_of_returned hq ?_))
    exact .bind_of_returned hpiece (.bind_of_returned hannounce (Run.post_pure trivial))
  refine (hreturns.and (post_readTorrent final memory hfresh torrent fuel)).mono fun _ _ h => ?_
  obtain ⟨-, file', rfl⟩ := h
  rw [Subsingleton.elim file' file]

end

/-! ## What is read of the response -/

section

variable {w : World} {response : Bytes} {fuel : ℕ}

/-- Objects that are returned are those of the entries of the response. -/
theorem post_readReply (response : Bytes) (fuel : ℕ) (w : World) :
    (readReply response fuel).Post w
      (fun ps w' => ∃ reply : TrackerReply response, DenotesItems w'.state.heap ps reply.entries)
      fun _ => True := by
  unfold readReply
  split_ifs with hempty
  · exact Run.post_stop trivial
  refine (post_parseBencodedString response fuel w).bind fun root w₁ hw₁ => ?_
  obtain ⟨t, ht, -, hroot⟩ := hw₁
  refine (post_checkIfHasKey hroot).bind fun failed w₂ hfailed => ?_
  obtain ⟨rfl, rfl⟩ := hfailed
  split_ifs with hfailed
  · exact (Run.post_true _ _).bind fun _ _ _ => Run.post_stop trivial
  have hreason : t.value.get? (literal "failure reason") = none := by
    simpa using hfailed
  refine (post_getIntByKey hroot).bind fun _ w₃ hcomplete => ?_
  obtain ⟨rfl, complete, hcomplete, -⟩ := hcomplete
  refine (post_getIntByKey hroot).bind fun _ w₄ hincomplete => ?_
  obtain ⟨rfl, incomplete, hincomplete, -⟩ := hincomplete
  refine (post_getIntByKey hroot).bind fun _ w₅ hinterval => ?_
  obtain ⟨rfl, interval, hinterval, -⟩ := hinterval
  have hanswers : Answers t.value :=
    { failureReason := hreason
      complete := Option.ne_none_iff_exists'.mpr ⟨_, hcomplete⟩
      incomplete := Option.ne_none_iff_exists'.mpr ⟨_, hincomplete⟩
      interval := Option.ne_none_iff_exists'.mpr ⟨_, hinterval⟩ }
  refine (post_getByKey hroot).bind fun q w₆ hpeers => ?_
  obtain ⟨rfl, u, hpeers, hdenotes⟩ := hpeers
  refine (post_getType hdenotes).bind fun dictType w₇ hw₇ => ?_
  obtain rfl := hw₇
  split_ifs with htype
  · exact (Run.post_true _ _).bind fun _ _ _ => Run.post_stop trivial
  -- `main` looks the list up once more.
  refine (post_getByKey hroot).bind fun q w₈ hpeers' => ?_
  obtain ⟨rfl, u', hpeers', hdenotes⟩ := hpeers'
  refine (post_getList hdenotes).mono (fun ps w₉ hlist => ?_) fun _ h => h
  obtain ⟨rfl, entries, rfl, hitems⟩ := hlist
  exact ⟨⟨t, entries, ht, hanswers, hpeers'⟩, hitems⟩

/-- The objects of the entries of a response are returned. -/
theorem returns_readReply (reply : TrackerReply response)
    (hfuel : 3 * reply.parsed.bytes.length ≤ fuel) :
    (readReply response fuel).Returns w fun _ _ => True := by
  rcases readReply_run (w := w) reply.startsWith hfuel reply.peers_eq with
    ⟨hanswers, -⟩ | ⟨-, ps, w', -, hrun⟩
  · exact absurd reply.answers hanswers
  · exact Run.returns_of_run hrun trivial

end

/-! ## The peers -/

section

variable (os : Os) (memory : ℕ → Vector UInt8 4) (behind : ℕ → ℕ → UInt8) {w : World}
  {entry : Value} {entries : List Value}

/-- The peer that is made of an entry is read from it. -/
theorem run_new_isReadFrom {ip : Bytes} {port : ℤ} (id : ℕ) (w : World)
    (hip : entry.string? (literal "ip") = some ip) (hport : entry.port? = some port) :
    ∃ peer w', (Main.peer (BPeer.new os (memory id) (behind id) ip
      (Int64.ofInt port).toInt32.toUInt32.toUInt16 (Int32.ofNat id))).run w = .returned peer w' ∧
        w'.state = w.state ∧ IsReadFrom entry id peer := by
  refine ⟨_, _, rfl, rfl, rfl, hip, port, hport, ?_⟩
  rw [networkOrder_htons, toNat_port]

/-- The peers that the loop returns are those of the entries, in their order. -/
theorem post_newPeers {ps : List Ptr} (id : ℕ) (hitems : DenotesItems w.state.heap ps entries) :
    (newPeers os memory behind id ps).Post w
      (fun bpeers _ => List.Forall₂ (fun e peer => IsReadFrom e.1 e.2 peer) (entries.zipIdx id)
        bpeers) fun _ => True := by
  -- By induction over the list of entries, with the heap of the response as it is.
  induction entries generalizing id ps w with
  | nil =>
    obtain rfl : ps = [] := hitems
    exact Run.post_pure .nil
  | cons entry entries ih =>
    obtain ⟨p, ps', rfl, hp, hps'⟩ := hitems
    unfold newPeers
    refine (post_getStringByKey hp).bind fun ip w₁ hip => ?_
    obtain ⟨rfl, hip⟩ := hip
    refine (post_getIntByKey hp).bind fun port w₂ hport => ?_
    obtain ⟨rfl, port, hport, rfl⟩ := hport
    obtain ⟨peer, w₃, hpeer, hstate, hread⟩ := run_new_isReadFrom os memory behind id w₂ hip hport
    have hnew : (Main.peer (BPeer.new os (memory id) (behind id) ip
        (Int64.ofInt port).toInt32.toUInt32.toUInt16 (Int32.ofNat id))).Post w₂
          (fun peer w' => w'.state = w₂.state ∧ IsReadFrom entry id peer) fun _ => True := by
      unfold Post
      rw [hpeer]
      exact ⟨hstate, hread⟩
    refine hnew.bind fun peer w₄ hw₄ => ?_
    obtain ⟨hstate, hread⟩ := hw₄
    -- A new peer makes a system call, and leaves the heap with the other entries alone.
    rw [← hstate] at hps'
    refine (ih (id + 1) hps').bind fun bpeers w₅ hbpeers => Run.post_pure ?_
    rw [List.zipIdx_cons]
    exact .cons hread hbpeers

/-- The loop returns if each entry has an address and a port. -/
theorem returns_newPeers {ps : List Ptr} (id : ℕ)
    (hitems : DenotesItems w.state.heap ps entries)
    (hentries : ∀ e ∈ entries, ∃ ip port, e.string? (literal "ip") = some ip ∧
      e.port? = some port) :
    (newPeers os memory behind id ps).Returns w fun _ _ => True := by
  induction entries generalizing id ps w with
  | nil =>
    obtain rfl : ps = [] := hitems
    exact Run.post_pure trivial
  | cons entry entries ih =>
    obtain ⟨p, ps', rfl, hp, hps'⟩ := hitems
    obtain ⟨⟨ip, port, hip, hport⟩, hentries⟩ := List.forall_mem_cons.mp hentries
    obtain ⟨peer, w₁, hpeer, hstate, -⟩ := run_new_isReadFrom os memory behind id w hip hport
    -- The rest of the list is found in the same heap.
    rw [← hstate] at hps'
    unfold newPeers
    refine .bind_of_returned (getStringByKey_of_some hp hip) ?_
    refine .bind_of_returned (getIntByKey_of_some hp hport) (.bind_of_returned hpeer ?_)
    exact (ih (id + 1) hps' hentries).bind fun _ _ _ => Run.post_pure trivial

end

end Btor
