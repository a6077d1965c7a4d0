import Btor.Lib.DottedQuad
import Btor.Lookup
import Btor.Progress

/-!
# The peers of a tracker's response

A response lists each peer with its IPv4 address as a dotted quad and its port. The constructor of
`BPeer` passes the address to `InetPton`, the one for wide characters, as a string of bytes that is
cast to a wide one. Two of its characters make a wide one that is none of a dotted quad, so the
address of the peer stays as it was in memory that nothing initialized. The port is an integer of 64
bits, of which the peer keeps the last 16. The list of peers is the response's only where memory and
ports happen to fit (`readPeers_faithful_iff`).
-/

namespace Btor

open Lib (Run Outcome dottedQuad readDottedQuad)

/-! ## What `InetPton` does -/

/-- The wide characters spell the text, with a zero after it. -/
def Spells (w : ℕ → UInt16) (text : Bytes) : Prop :=
  (∀ i (h : i < text.length), w i = text[i].toUInt16) ∧ w text.length = 0

/-- `InetPton` parses dotted quads of wide characters, and leaves the address untouched on any other
string. -/
structure ParsesDottedQuads (inetPton : (ℕ → UInt16) → Vector UInt8 4 → Vector UInt8 4) :
    Prop where
  parses : ∀ w a memory, Spells w (dottedQuad a) → inetPton w memory = a
  untouched : ∀ w memory, (∀ a, ¬ Spells w (dottedQuad a)) → inetPton w memory = memory

/-- The wide characters before a zero, but no more than `n` of them. -/
def wideText (w : ℕ → UInt16) : ℕ → List UInt16
  | 0 => []
  | n + 1 => if w 0 = 0 then [] else w 0 :: wideText (fun i => w (i + 1)) n

/-- The `InetPton` of dotted quads, which have no more than 15 characters. -/
def inetPtonW (w : ℕ → UInt16) (memory : Vector UInt8 4) : Vector UInt8 4 :=
  match readDottedQuad ((wideText w 16).map UInt16.toUInt8) with
  | some a => if wideText w 16 = (dottedQuad a).map UInt8.toUInt16 then a else memory
  | none => memory

/-- The first word spells the first character. -/
theorem spells_cons {w : ℕ → UInt16} {c : UInt8} {text : Bytes} :
    Spells w (c :: text) ↔ w 0 = c.toUInt16 ∧ Spells (fun i => w (i + 1)) text := by
  constructor
  · rintro ⟨hchars, hzero⟩
    exact ⟨hchars 0 (Nat.succ_pos _), fun i hi => hchars (i + 1) (Nat.succ_lt_succ hi), hzero⟩
  · rintro ⟨hfirst, hchars, hzero⟩
    refine ⟨fun i hi => ?_, hzero⟩
    cases i with
    | zero => exact hfirst
    | succ i => exact hchars i (Nat.lt_of_succ_lt_succ hi)

/-- The characters that are read tell whether they spell a text without zeros. -/
theorem spells_iff_wideText {w : ℕ → UInt16} {n : ℕ} {text : Bytes} (hlength : text.length < n)
    (hpos : ∀ c ∈ text, 0 < c.toNat) :
    Spells w text ↔ wideText w n = text.map UInt8.toUInt16 := by
  -- By induction over the text. The words end at the first zero, and no character of the text is
  -- one.
  induction text generalizing w n with
  | nil =>
    obtain ⟨n, rfl⟩ := Nat.exists_eq_succ_of_ne_zero (Nat.ne_zero_of_lt hlength)
    unfold wideText
    split_ifs with hzero
    · exact ⟨fun _ => rfl, fun _ => ⟨fun i hi => absurd hi (Nat.not_lt_zero i), hzero⟩⟩
    · exact ⟨fun h => absurd h.2 hzero, fun h => absurd h (List.cons_ne_nil _ _)⟩
  | cons c text ih =>
    obtain ⟨n, rfl⟩ := Nat.exists_eq_succ_of_ne_zero (Nat.ne_zero_of_lt hlength)
    obtain ⟨hc, htext⟩ := List.forall_mem_cons.mp hpos
    rw [spells_cons, List.map_cons, wideText]
    split_ifs with hzero
    · -- The first character is none of the text.
      have hne : w 0 ≠ c.toUInt16 := by
        intro heq
        have hnat := congrArg UInt16.toNat (hzero.symm.trans heq)
        rw [UInt8.toNat_toUInt16] at hnat
        exact hc.ne hnat
      exact ⟨fun h => absurd h.1 hne, fun h => h.elim⟩
    · rw [ih (Nat.lt_of_succ_lt_succ hlength) htext, List.cons.injEq]

/-- The words spell a dotted quad exactly if their text is one. -/
theorem spells_dottedQuad {w : ℕ → UInt16} {a : Vector UInt8 4} :
    Spells w (dottedQuad a) ↔ wideText w 16 = (dottedQuad a).map UInt8.toUInt16 :=
  spells_iff_wideText (Nat.lt_succ_of_le Lib.length_dottedQuad.2)
    fun _ => Lib.pos_of_mem_dottedQuad

/-- The function described above parses dotted quads. -/
theorem parsesDottedQuads_inetPtonW : ParsesDottedQuads inetPtonW where
  parses w a memory h := by
    have htext := spells_dottedQuad.mp h
    have hread : readDottedQuad ((wideText w 16).map UInt16.toUInt8) = some a := by
      have hid : UInt16.toUInt8 ∘ UInt8.toUInt16 = id := funext UInt8.toUInt8_toUInt16
      rw [Lib.readDottedQuad_eq_some, htext, List.map_map, hid, List.map_id]
    unfold inetPtonW
    simp only [hread]
    rw [if_pos htext]
  untouched w memory h := by
    unfold inetPtonW
    split
    · next a _ => rw [if_neg (spells_dottedQuad.not.mp (h a))]
    · rfl

/-! ## The peers of a response -/

/-- The IPv4 address of an entry of the list of peers. -/
def Value.ipv4? (entry : Value) : Option (Vector UInt8 4) :=
  (entry.string? (literal "ip")).bind readDottedQuad

/-- The port of an entry of the list of peers. -/
def Value.port? (entry : Value) : Option ℤ := entry.int? (literal "port")

/-- The number that the two bytes of a word in memory spell, the first one most significant. -/
def networkOrder (x : UInt16) : ℕ := x.toNat % 256 * 256 + x.toNat / 256

/-- The peer has the number, the address and the port of the entry. -/
structure IsPeerOf (entry : Value) (id : ℕ) (peer : BPeer) : Prop where
  peerNumId : peer.peerNumId.toInt = id
  sinAddr : entry.ipv4? = some peer.peerAddress.sinAddr
  sinPort : entry.port? = some (networkOrder peer.peerAddress.sinPort : ℤ)

/-- The response is rejected, or there is one peer for each entry, in the order of the list and
numbered from 0. -/
def Faithful (entries : List Value) : Outcome World Halt (List BPeer) → Prop
  | .returned bpeers _ => List.Forall₂ (fun e peer => IsPeerOf e.1 e.2 peer) entries.zipIdx bpeers
  | .stopped _ _ => True

/-- The tracker does not report a failure, and the response has the integers that `main` prints. -/
structure Answers (reply : Value) : Prop where
  failureReason : reply.get? (literal "failure reason") = none
  complete : reply.int? (literal "complete") ≠ none
  incomplete : reply.int? (literal "incomplete") ≠ none
  interval : reply.int? (literal "interval") ≠ none

/-- The entry has a dotted quad for an address and an integer for a port. -/
structure IsEntry (entry : Value) : Prop where
  ipv4 : ∃ a, entry.ipv4? = some a
  port : ∃ port, entry.port? = some port

/-- The number of the entry fits an `int`, the memory of its peer has its address already, and its
port is one. -/
structure Fits (memory : ℕ → Vector UInt8 4) (entry : Value) (id : ℕ) : Prop where
  id_lt : id < 2^31
  memory_eq : entry.ipv4? = some (memory id)
  port_range : ∃ port, entry.port? = some port ∧ 0 ≤ port ∧ port < 2^16

/-! ## Ports -/

/-- `htons` swaps the bytes. -/
theorem toNat_htons (x : UInt16) : (htons x).toNat = x.toNat % 256 * 256 + x.toNat / 256 := by
  have hx := x.toNat_lt
  have hright : (x >>> 8).toNat = x.toNat / 256 := by
    rw [UInt16.toNat_shiftRight, Nat.shiftRight_eq_div_pow]
    rfl
  have hleft : (x <<< 8).toNat = (x.toNat % 256) <<< 8 := by
    rw [UInt16.toNat_shiftLeft, Nat.shiftLeft_eq, Nat.shiftLeft_eq]
    have h8 : (8 : UInt16).toNat % 16 = 8 := rfl
    rw [h8]
    omega
  unfold htons
  rw [UInt16.toNat_or, hleft, hright,
    ← Nat.shiftLeft_add_eq_or_of_lt (by omega : x.toNat / 256 < 2^8), Nat.shiftLeft_eq]

/-- `htons` puts a number into the order of the network. -/
theorem networkOrder_htons (x : UInt16) : networkOrder (htons x) = x.toNat := by
  have hx := x.toNat_lt
  unfold networkOrder
  rw [toNat_htons]
  omega

/-- An `int` as an unsigned number is taken modulo `2^32`. -/
theorem toNat_toUInt32 (x : Int32) : (x.toUInt32.toNat : ℤ) = x.toInt % 2^32 := by
  have hbmod : x.toInt = (x.toUInt32.toNat : ℤ).bmod (2^32) := x.toBitVec.toInt_eq_toNat_bmod
  have hmod := Int.bmod_emod (x := (x.toUInt32.toNat : ℤ)) (m := 2^32)
  have hlt := x.toUInt32.toNat_lt
  rw [← hbmod] at hmod
  push_cast at hmod
  omega

/-- The last 16 bits of a port are kept on its way from an `int64_t` to an `unsigned short`. -/
theorem toNat_port (n : ℤ) :
    ((Int64.ofInt n).toInt32.toUInt32.toUInt16.toNat : ℤ) = n % 2^16 := by
  have hmod : (Int64.ofInt n).toInt32.toInt % 2^32 = n % 2^32 := by
    have hsize : 2^32 ∣ Int64.size := by decide
    rw [Int64.toInt_toInt32, Int64.toInt_ofInt, Int.bmod_bmod_of_dvd hsize]
    exact Int.bmod_emod
  rw [UInt32.toNat_toUInt16]
  push_cast
  rw [toNat_toUInt32, hmod]
  exact Int.emod_emod_of_dvd n (by decide)

/-! ## Addresses -/

/-- Two bytes of a string without zeros in it make a wide character of 256 or more. -/
theorem le_wideChars {text : Bytes} {behind : ℕ → UInt8} (hlength : 2 ≤ text.length)
    (hpos : ∀ c ∈ text, 0 < c.toNat) : 256 ≤ (wideChars (cStr text behind) 0).toNat := by
  have hsecond : cStr text behind (2 * 0 + 1) = text[1] := by
    unfold cStr
    rw [if_pos (by omega), List.getD_eq_getElem _ _ (by omega)]
  have hpos := hpos _ (List.getElem_mem (by omega : 1 < text.length))
  have hhigh : (text[1].toUInt16 <<< 8).toNat = 256 * text[1].toNat := by
    have hlt := text[1].toNat_lt
    have h8 : (8 : UInt16).toNat % 16 = 8 := rfl
    rw [UInt16.toNat_shiftLeft, h8, UInt8.toNat_toUInt16, Nat.shiftLeft_eq]
    omega
  unfold wideChars
  rw [hsecond, UInt16.toNat_or, hhigh]
  calc 256 ≤ 256 * text[1].toNat := by omega
    _ ≤ _ := Nat.right_le_or

/-- A dotted quad that is cast to a wide string is none. -/
theorem not_spells_wideChars {text : Bytes} {behind : ℕ → UInt8} (hlength : 2 ≤ text.length)
    (hpos : ∀ c ∈ text, 0 < c.toNat) (a : Vector UInt8 4) :
    ¬ Spells (wideChars (cStr text behind)) (dottedQuad a) := by
  rintro ⟨hchars, -⟩
  have hle : 256 ≤ (wideChars (cStr text behind) 0).toNat := le_wideChars hlength hpos
  have hlen := (Lib.length_dottedQuad (a := a)).1
  have hfirst := hchars 0 (by omega)
  rw [hfirst, UInt8.toNat_toUInt16] at hle
  have hlt := (dottedQuad a)[0].toNat_lt
  omega

/-! ## One peer for each entry -/

/-- A relation that each pair of two lists is in by what holds of its first component. -/
theorem forall₂_iff_forall {α β : Type} {r : α → β → Prop} {p : α → Prop} {as : List α}
    {bs : List β} (h : List.Forall₂ (fun a b => r a b ↔ p a) as bs) :
    List.Forall₂ r as bs ↔ ∀ a ∈ as, p a := by
  induction h with
  | nil => exact ⟨fun _ a ha => absurd ha List.not_mem_nil, fun _ => .nil⟩
  | cons hab _ ih => rw [List.forall₂_cons, List.forall_mem_cons, hab, ih]

section

variable {os : Os} (hparses : ParsesDottedQuads os.inetPton) (memory : ℕ → Vector UInt8 4)
  (behind : ℕ → ℕ → UInt8) {entry : Value} {entries : List Value}

include hparses

/-- `InetPton` leaves the address of a peer as it was. -/
theorem inetPton_wideChars {text : Bytes} {a : Vector UInt8 4} (htext : text = dottedQuad a)
    (bytes : ℕ → UInt8) (m : Vector UInt8 4) :
    os.inetPton (wideChars (cStr text bytes)) m = m := by
  refine hparses.untouched _ _ (not_spells_wideChars ?_ ?_)
  · have hlen := (Lib.length_dottedQuad (a := a)).1
    rw [htext]
    omega
  · rw [htext]
    exact fun c => Lib.pos_of_mem_dottedQuad

/-- The peer that is made of an entry is that of the entry exactly if the entry fits. -/
theorem run_new {text : Bytes} {a : Vector UInt8 4} {port : ℤ} (id : ℕ) (w : World)
    (ha : readDottedQuad text = some a) (hport : entry.port? = some port) : ∃ peer w',
    (Main.peer (BPeer.new os (memory id) (behind id) text
      (Int64.ofInt port).toInt32.toUInt32.toUInt16 (Int32.ofNat id))).run w = .returned peer w' ∧
      w'.state = w.state ∧ (IsPeerOf entry id peer ↔ Fits memory entry id) := by
  refine ⟨_, _, rfl, rfl, ?_⟩
  have haddr := inetPton_wideChars hparses (Lib.readDottedQuad_eq_some.mp ha) (behind id)
    (memory id)
  -- The number and the port are kept exactly if they are in the range of their types.
  have hnumber : (Int32.ofNat id).toInt = id ↔ id < 2^31 := by
    constructor
    · intro h
      have hlt := (Int32.ofNat id).toInt_lt
      omega
    · exact Int32.toInt_ofNat_of_lt
  have hrange : port % 2^16 = port ↔ 0 ≤ port ∧ port < 2^16 := by omega
  constructor
  · rintro ⟨hid, hsin, hsinPort⟩
    rw [hport, networkOrder_htons, toNat_port, Option.some_inj, eq_comm] at hsinPort
    exact ⟨hnumber.mp hid, hsin.trans (congrArg some haddr), port, hport, hrange.mp hsinPort⟩
  · rintro ⟨hid, hmemory, port', hport', hport_range⟩
    obtain rfl := Option.some.inj (hport.symm.trans hport')
    refine ⟨hnumber.mpr hid, hmemory.trans (congrArg some haddr.symm), ?_⟩
    rw [hport, networkOrder_htons, toNat_port, hrange.mpr hport_range]

/-- The loop makes a peer of each entry. -/
theorem run_newPeers {ps : List Ptr} (id : ℕ) (w : World)
    (hitems : DenotesItems w.state.heap ps entries) (hentries : ∀ e ∈ entries, IsEntry e) :
    ∃ bpeers w', (newPeers os memory behind id ps).run w = .returned bpeers w' ∧
      List.Forall₂ (fun e peer => IsPeerOf e.1 e.2 peer ↔ Fits memory e.1 e.2)
        (entries.zipIdx id) bpeers := by
  -- By induction over the list. A new peer leaves the heap alone, so the rest of the list is found
  -- there.
  induction entries generalizing id ps w with
  | nil =>
    obtain rfl : ps = [] := hitems
    exact ⟨[], w, rfl, .nil⟩
  | cons entry entries ih =>
    obtain ⟨p, ps', rfl, hp, hps'⟩ := hitems
    obtain ⟨hentry, hentries⟩ := List.forall_mem_cons.mp hentries
    obtain ⟨a, haddress⟩ := hentry.ipv4
    obtain ⟨text, hip, ha⟩ := Option.bind_eq_some_iff.mp haddress
    obtain ⟨port, hport⟩ := hentry.port
    obtain ⟨peer, w₁, hpeer, hstate, hfits⟩ := run_new hparses memory behind id w ha hport
    rw [← hstate] at hps'
    obtain ⟨bpeers, w₂, hbpeers, hall⟩ := ih (id + 1) w₁ hps' hentries
    refine ⟨peer :: bpeers, w₂, ?_, ?_⟩
    · unfold newPeers
      rw [Run.run_bind_of_returned (getStringByKey_of_some hp hip),
        Run.run_bind_of_returned (getIntByKey_of_some hp hport),
        Run.run_bind_of_returned hpeer, Run.run_bind_of_returned hbpeers]
      rfl
    · rw [List.zipIdx_cons]
      exact .cons hfits hall

end

/-! ## The response -/

section

variable {α : Type} {w : World} {p : Ptr} {v : Value} {k : Bytes}

/-- The run is ended. -/
def Main.Stops (x : Main α) (w : World) : Prop := ∃ h w', x.run w = .stopped h w'

/-- A run that throws stops. -/
theorem Main.Throws.stops {x : Main α} (h : x.Throws w) : x.Stops w := by
  obtain ⟨e, he⟩ := h
  exact ⟨_, _, he⟩

/-- A failure is printed, and the process ends. -/
theorem stops_exit (h : Denotes w.state.heap p v) :
    (do let _ ← Main.getStringByKey p k; .stop .exit : Main α).Stops w := by
  cases hs : v.string? k with
  | none => exact (getStringByKey_of_none h hs).bind.stops
  | some s =>
    refine ⟨.exit, w, ?_⟩
    rw [Run.run_bind_of_returned (getStringByKey_of_some h hs)]
    rfl

end

section

variable (entries : List Value)

/-- The run is ended if `answers` fails, and otherwise returns the objects of the entries. -/
def Reaches (answers : Prop) (x : Main (List Ptr)) (w : World) : Prop :=
  (¬ answers ∧ x.Stops w) ∨ (answers ∧ ∃ ps w', DenotesItems w'.state.heap ps entries ∧
    x.run w = .returned ps w')

variable {entries} {α : Type} {answers : Prop} {w : World} {p : Ptr} {v : Value} {k : Bytes}

/-- A part that returned comes before the rest. -/
theorem Reaches.bind {x : Main α} {f : α → Main (List Ptr)} {a : α} {w' : World}
    (hx : x.run w = .returned a w') (hf : Reaches entries answers (f a) w') :
    Reaches entries answers (x >>= f) w := by
  unfold Reaches Main.Stops
  rw [Run.run_bind_of_returned hx]
  exact hf

/-- An integer that is needed comes before the rest, or the run ends for the lack of it. -/
theorem Reaches.getIntByKey {f : Int64 → Main (List Ptr)} (hroot : Denotes w.state.heap p v)
    (hneeds : answers → v.int? k ≠ none)
    (hf : ∀ n, v.int? k = some n → Reaches entries answers (f (Int64.ofInt n)) w) :
    Reaches entries answers (Main.getIntByKey p k >>= f) w := by
  cases hn : v.int? k with
  | none => exact .inl ⟨fun h => hneeds h hn, (getIntByKey_of_none hroot hn).bind.stops⟩
  | some n => exact .bind (getIntByKey_of_some hroot hn) (hf n hn)

/-- What an accepted buffer starts with is not empty. -/
theorem StartsWith.ne_nil {buf : Bytes} {t : Parsed} (h : StartsWith buf t) : buf ≠ [] := by
  rintro rfl
  have hreads := h.reads
  obtain ⟨x, l, hbytes⟩ := List.exists_cons_of_ne_nil t.bytes_ne_nil
  rw [hbytes] at hreads
  cases hreads.1

/-- `main` finds the list of peers of a response that it does not reject. -/
theorem readReply_run {response : Bytes} {fuel : ℕ} {t : Parsed} (ht : StartsWith response t)
    (hfuel : 3 * t.bytes.length ≤ fuel)
    (hpeers : t.value.get? (literal "peers") = some (.list entries)) :
    Reaches entries (Answers t.value) (readReply response fuel) w := by
  obtain ⟨root, w', hparse, hroot, -⟩ := run_parser_of_startsWith ht hfuel w
  generalize t.value = v at hpeers hroot ⊢
  cases v with
  | dict es =>
    obtain ⟨q, hq, obj, hobj, htype, hitems⟩ := getByKey_of_some hroot hpeers
    have hgetType : (Main.parser (deref q fun o => .ok o.getType)).run w' =
        .returned .bList w' :=
      run_deref_ok hobj (congrArg Except.ok htype)
    have hgetList : obj.getList = .ok obj.listVal := by
      unfold BObject.getList
      rw [if_neg (not_not.mpr htype)]
    unfold readReply
    rw [if_neg ht.ne_nil]
    refine .bind hparse (.bind (checkIfHasKey_of_dict hroot) ?_)
    -- Either the tracker reports a failure, or one of the three integers is missing, or all is
    -- found.
    cases hfailure : (Value.dict es).get? (literal "failure reason") with
    | some u =>
      rw [if_pos Option.isSome_some]
      refine .inl ⟨fun h => ?_, stops_exit hroot⟩
      rw [h.failureReason] at hfailure
      cases hfailure
    | none =>
      rw [if_neg (by decide)]
      refine .getIntByKey hroot Answers.complete fun complete hcomplete => ?_
      refine .getIntByKey hroot Answers.incomplete fun incomplete hincomplete => ?_
      refine .getIntByKey hroot Answers.interval fun interval hinterval => ?_
      refine .bind hq (.bind hgetType ?_)
      rw [if_neg (by decide)]
      have hanswers : Answers (.dict es) :=
        { failureReason := hfailure
          complete := Option.ne_none_iff_exists'.mpr ⟨_, hcomplete⟩
          incomplete := Option.ne_none_iff_exists'.mpr ⟨_, hincomplete⟩
          interval := Option.ne_none_iff_exists'.mpr ⟨_, hinterval⟩ }
      exact .bind hq (.inr ⟨hanswers, _, _, hitems, run_deref_ok hobj hgetList⟩)
  | _ => cases hpeers

variable (os : Os) (memory : ℕ → Vector UInt8 4) (behind : ℕ → ℕ → UInt8)

/-- `main` makes the peers of a response that it does not reject. -/
theorem readPeers_run {response : Bytes} {fuel : ℕ} {t : Parsed} (ht : StartsWith response t)
    (hfuel : 3 * t.bytes.length ≤ fuel)
    (hpeers : t.value.get? (literal "peers") = some (.list entries)) :
    (¬ Answers t.value ∧ (readPeers os memory behind response fuel).Stops w) ∨
      (Answers t.value ∧ ∃ ps w', DenotesItems w'.state.heap ps entries ∧
        (readPeers os memory behind response fuel).run w =
          (newPeers os memory behind 0 ps).run w') := by
  unfold readPeers
  rcases readReply_run (w := w) ht hfuel hpeers with
    ⟨hanswers, h, w', hrun⟩ | ⟨hanswers, ps, w', hitems, hrun⟩
  · refine .inl ⟨hanswers, h, w', ?_⟩
    rw [Run.run_bind, hrun, Outcome.andThen_stopped]
  · exact .inr ⟨hanswers, ps, w', hitems, Run.run_bind_of_returned hrun⟩

/-- The peers of a list are those of its entries exactly if these fit. -/
theorem faithful_newPeers_iff {os : Os} (hparses : ParsesDottedQuads os.inetPton) {ps : List Ptr}
    (hitems : DenotesItems w.state.heap ps entries) (hentries : ∀ e ∈ entries, IsEntry e) :
    Faithful entries ((newPeers os memory behind 0 ps).run w) ↔
      ∀ e ∈ entries.zipIdx, Fits memory e.1 e.2 := by
  obtain ⟨bpeers, w', hrun, hall⟩ := run_newPeers hparses memory behind 0 w hitems hentries
  rw [hrun]
  exact forall₂_iff_forall hall

end

/-- The peers of a response are those of its list exactly if the response is rejected or the entries
fit. -/
theorem readPeers_faithful_iff {os : Os} (hparses : ParsesDottedQuads os.inetPton)
    (memory : ℕ → Vector UInt8 4) (behind : ℕ → ℕ → UInt8) {response : Bytes} {fuel : ℕ} (w : World)
    {t : Parsed} {entries : List Value} (ht : StartsWith response t)
    (hfuel : 3 * t.bytes.length ≤ fuel)
    (hpeers : t.value.get? (literal "peers") = some (.list entries))
    (hentries : ∀ e ∈ entries, IsEntry e) :
    Faithful entries ((readPeers os memory behind response fuel).run w) ↔
      ¬ Answers t.value ∨ ∀ e ∈ entries.zipIdx, Fits memory e.1 e.2 := by
  obtain ⟨hanswers, h, w', hrun⟩ | ⟨hanswers, ps, w', hitems, hrun⟩ :=
    readPeers_run os memory behind (w := w) ht hfuel hpeers
  · rw [hrun]
    exact ⟨fun _ => .inl hanswers, fun _ => trivial⟩
  · rw [hrun, faithful_newPeers_iff memory behind hparses hitems hentries,
      or_iff_right (not_not.mpr hanswers)]

/-- One peer in a response:
`d8:completei1e10:incompletei0e8:intervali9e5:peersld2:ip7:1.2.3.44:porti6881eeee`. -/
def onePeer : Parsed :=
  .dict [(⟨[56], literal "complete"⟩, .integer [49]),
    (⟨[49, 48], literal "incomplete"⟩, .integer [48]),
    (⟨[56], literal "interval"⟩, .integer [57]),
    (⟨[53], literal "peers"⟩, .list [.dict [
      (⟨[50], literal "ip"⟩, .string ⟨[55], literal "1.2.3.4"⟩),
      (⟨[52], literal "port"⟩, .integer [54, 56, 56, 49])]])]

/-- The entry of the peer. -/
def onePeerEntry : Value :=
  .dict [(literal "ip", .string (literal "1.2.3.4")), (literal "port", .integer 6881)]

/-- Its bytes start with it. -/
theorem onePeer_startsWith : StartsWith onePeer.bytes onePeer := by decide +kernel

/-- Its list has one entry. -/
theorem onePeer_peers : onePeer.value.get? (literal "peers") = some (.list [onePeerEntry]) := rfl

/-- The entry has the address 1.2.3.4. -/
theorem onePeerEntry_ipv4 : onePeerEntry.ipv4? = some #v[1, 2, 3, 4] := by
  have hip : onePeerEntry.string? (literal "ip") = some (literal "1.2.3.4") := rfl
  unfold Value.ipv4?
  rw [hip, Option.bind_some, Lib.readDottedQuad_eq_some]
  decide

/-- It has an address and a port. -/
theorem isEntry_onePeerEntry : ∀ e ∈ [onePeerEntry], IsEntry e := by
  rw [List.forall_mem_singleton]
  exact ⟨⟨_, onePeerEntry_ipv4⟩, ⟨6881, rfl⟩⟩

/-- `new` finds the address of the peer in its memory. -/
theorem readPeers_faithful_onePeer :
    Faithful [onePeerEntry] ((readPeers { quietOs with inetPton := inetPtonW }
      (fun _ => #v[1, 2, 3, 4]) (fun _ _ => 0) onePeer.bytes 240).run { state := fresh {} }) := by
  refine (readPeers_faithful_iff parsesDottedQuads_inetPtonW _ _ { state := fresh {} }
    onePeer_startsWith (by decide) onePeer_peers isEntry_onePeerEntry).mpr (.inr ?_)
  rintro e he
  obtain rfl := List.mem_singleton.mp he
  exact ⟨by decide, onePeerEntry_ipv4, 6881, rfl, by decide, by decide⟩

/-- With zeros in the memory of the peer its address stays `0.0.0.0`. -/
theorem not_readPeers_faithful : ¬ ∀ (os : Os) (memory : ℕ → Vector UInt8 4)
    (behind : ℕ → ℕ → UInt8) (response : Bytes) (fuel : ℕ) (w : World) (t : Parsed)
    (entries : List Value), ParsesDottedQuads os.inetPton → StartsWith response t →
    3 * t.bytes.length ≤ fuel → t.value.get? (literal "peers") = some (.list entries) →
    (∀ e ∈ entries, IsEntry e) →
    Faithful entries ((readPeers os memory behind response fuel).run w) := by
  intro hclaim
  have hfuel : 3 * onePeer.bytes.length ≤ 240 := by decide
  have hfaithful := hclaim { quietOs with inetPton := inetPtonW } (fun _ => .replicate 4 0)
    (fun _ _ => 0) _ _ { state := fresh {} } _ _ parsesDottedQuads_inetPtonW onePeer_startsWith
    hfuel onePeer_peers isEntry_onePeerEntry
  obtain ⟨hanswers, -⟩ | ⟨-, ps, w', hitems, hrun⟩ :=
    readPeers_run { quietOs with inetPton := inetPtonW } (fun _ => .replicate 4 0) (fun _ _ => 0)
      (w := { state := fresh {} }) onePeer_startsWith hfuel onePeer_peers
  · exact hanswers ⟨by decide, by decide, by decide, by decide⟩
  · rw [hrun, faithful_newPeers_iff _ _ parsesDottedQuads_inetPtonW hitems isEntry_onePeerEntry]
      at hfaithful
    -- The memory of the peer is all zeros, and the address is not.
    have hfits := hfaithful (onePeerEntry, 0) List.mem_cons_self
    have haddress := onePeerEntry_ipv4.symm.trans hfits.memory_eq
    exact absurd (Option.some.inj haddress) (by decide)

end Btor
