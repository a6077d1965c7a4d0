import Btor.Completed
import Btor.Ownership

/-!
# What a run of `main` deletes

`main` erases the objects of the list of peers, which belong to the memory manager. They are held by
that list and by nothing else, so no object is deleted twice. All of them are still registered, so
the destructor of the memory manager would delete them again. The process ends by `exit`, which
does not run it (`client_deletes`).
-/

namespace Btor

open Lib (Run)
open Lib.Run (Post Keeps)

/-- The object that an event deletes. -/
def Event.deleted? : Event → Option Ptr
  | delete p => some p
  | _ => none

/-- The objects deleted so far. -/
def Machine.deleted (m : Machine) : List Ptr := m.events.filterMap Event.deleted?

/-! ## Reading leaves the objects alone -/

section

variable {α : Type} {w : World} {m : Machine}

/-- A method that reads an object leaves the state of the parser alone. -/
theorem keepsState_deref (p : Ptr) (method : BObject → Except Exn α) :
    Keeps World.state (Main.parser (deref p method)) := by
  intro w
  unfold Main.parser deref
  dsimp only
  cases w.state.heap[p]? with
  | none => rfl
  | some obj =>
    dsimp only
    cases method obj <;> rfl

/-- So does a method of the value of a key. -/
theorem keepsState_callByKey (method : BObject → Except Exn α) (p : Ptr) (key : Bytes) :
    Keeps World.state (Main.callByKey method p key) :=
  (keepsState_deref _ _).bind fun _ => keepsState_deref _ _

/-- So does a look at the parser. -/
theorem keepsState_bParser : Keeps World.state Main.bParser := fun _ => rfl

/-- So do the methods of a peer. -/
theorem keepsState_peer (x : Sys α) : Keeps World.state (Main.peer x) := by
  intro w
  unfold Main.peer
  dsimp only
  cases x.run w.calls <;> rfl

/-- So does the loop that makes the peers. -/
theorem keepsState_newPeers (os : Os) (memory : ℕ → Vector UInt8 4) (behind : ℕ → ℕ → UInt8)
    (id : ℕ) (ps : List Ptr) : Keeps World.state (newPeers os memory behind id ps) := by
  induction ps generalizing id with
  | nil => exact Run.keeps_pure _
  | cons p ps ih =>
    exact (keepsState_callByKey _ _ _).bind fun _ => (keepsState_callByKey _ _ _).bind fun _ =>
      (keepsState_peer _).bind fun _ => (ih _).bind fun _ => Run.keeps_pure _

/-- The objects are owned after a parse. -/
theorem post_parse (buf : Bytes) (fuel : ℕ) (howned : Owned w.state.toBMemoryManager) :
    (Main.parser (parseBencodedString buf fuel)).Post w
      (fun _ w' => Owned w'.state.toBMemoryManager) fun w' => Owned w'.state.toBMemoryManager := by
  have hparse := builds_parseBencodedString buf fuel _ w.state rfl howned
  unfold Post Main.parser at *
  dsimp only
  cases hrun : (parseBencodedString buf fuel).run w.state with
  | returned p s =>
    rw [hrun] at hparse
    exact hparse.2.2.owned
  | stopped e s =>
    rw [hrun] at hparse
    exact hparse.owned

/-- A run that leaves the state alone leaves the objects owned. -/
theorem post_owned {x : Main α} (h : Keeps World.state x)
    (howned : Owned w.state.toBMemoryManager) :
    x.Post w (fun _ w' => Owned w'.state.toBMemoryManager)
      fun w' => Owned w'.state.toBMemoryManager :=
  (h.post w).mono (fun _ _ hw' => hw' ▸ howned) fun _ hw' => hw' ▸ howned

/-- The objects are owned after the torrent is read. -/
theorem post_readTorrent_owned (final : Bytes → Vector UInt32 5) (memory : ℕ → UInt8)
    (torrent : Bytes) (fuel : ℕ) (howned : Owned w.state.toBMemoryManager) :
    (readTorrent final memory torrent fuel).Post w
      (fun _ w' => Owned w'.state.toBMemoryManager) fun w' => Owned w'.state.toBMemoryManager :=
  (post_parse torrent fuel howned).bind fun root w' hw' => by
    refine post_owned (keepsState_bParser.bind fun _ => ?_) hw'
    exact (keepsState_deref _ _).bind fun _ => (keepsState_callByKey _ _ _).bind fun _ =>
      (keepsState_callByKey _ _ _).bind fun _ => Run.keeps_pure _

/-- The pointers are those of a list in the heap. -/
def IsListOf (heap : List BObject) (ps : List Ptr) : Prop :=
  ∃ (p : Ptr) (obj : BObject), heap[p]? = some obj ∧ obj.listVal = ps

/-- The run returns the items of a list in the heap, and leaves the objects owned. -/
def FindsList (x : Main (List Ptr)) (w : World) : Prop :=
  x.Post w (fun ps w' => Owned w'.state.toBMemoryManager ∧ IsListOf w'.state.heap ps)
    fun w' => Owned w'.state.toBMemoryManager

/-- A run that goes on after one that leaves the state alone. -/
theorem FindsList.bind {x : Main α} {f : α → Main (List Ptr)} (h : Keeps World.state x)
    (howned : Owned w.state.toBMemoryManager)
    (hf : ∀ a w', Owned w'.state.toBMemoryManager → FindsList (f a) w') :
    FindsList (x >>= f) w :=
  Post.bind (post_owned h howned) hf

/-- The items of a list object are those of a list in the heap. -/
theorem findsList_getList (p : Ptr) (howned : Owned w.state.toBMemoryManager) :
    FindsList (Main.parser (deref p BObject.getList)) w := by
  unfold FindsList Post Main.parser deref
  dsimp only
  cases hobj : w.state.heap[p]? with
  | none => exact howned
  | some obj =>
    dsimp only
    cases hlist : obj.getList with
    | error e => exact howned
    | ok ps =>
      unfold BObject.getList at hlist
      split_ifs at hlist
      exact ⟨howned, p, obj, hobj, Except.ok.inj hlist⟩

/-- The objects of the list of peers are held by it. -/
theorem findsList_readReply (response : Bytes) (fuel : ℕ)
    (howned : Owned w.state.toBMemoryManager) : FindsList (readReply response fuel) w := by
  unfold readReply
  split_ifs
  · exact Run.post_stop howned
  refine Post.bind (post_parse response fuel howned) fun reply w howned => ?_
  refine FindsList.bind (keepsState_deref _ _) howned fun failed w howned => ?_
  split_ifs
  · exact .bind (keepsState_callByKey _ _ _) howned fun _ _ howned => Run.post_stop howned
  refine .bind (keepsState_callByKey _ _ _) howned fun _ _ howned => ?_
  refine .bind (keepsState_callByKey _ _ _) howned fun _ _ howned => ?_
  refine .bind (keepsState_callByKey _ _ _) howned fun _ _ howned => ?_
  refine .bind (keepsState_deref _ _) howned fun peers w howned => ?_
  refine .bind (keepsState_deref _ _) howned fun dictType w howned => ?_
  split_ifs
  · exact .bind (keepsState_callByKey _ _ _) howned fun _ _ howned => Run.post_stop howned
  · exact .bind (keepsState_deref _ _) howned fun _ _ howned => findsList_getList _ howned

end

/-! ## The parts of the whole -/

section

variable {α : Type} {m : Machine}

/-- System calls delete no object. -/
theorem filterMap_deleted_sys (calls : List SysCall) :
    (calls.map Event.sys).filterMap Event.deleted? = [] := by
  rw [List.filterMap_map]
  exact List.filterMap_eq_nil_iff.mpr fun _ _ => rfl

/-- A part that makes system calls deletes no object by them. -/
theorem deleted_resume (m : Machine) (w : World) : (Client.resume m w).deleted = m.deleted := by
  unfold Machine.deleted Client.resume
  rw [List.filterMap_append, filterMap_deleted_sys, List.append_nil]

/-- A part that runs on the parser deletes no object. -/
theorem post_world_deleted {x : Main α} {Q : α → State → Prop} {E : State → Prop}
    (h : x.Post { state := m.state, calls := m.calls } (fun a w => Q a w.state)
      fun w => E w.state) :
    (Client.world x).Post m (fun a m' => m'.deleted = m.deleted ∧ Q a m'.state)
      fun m' => m'.deleted = m.deleted ∧ E m'.state := by
  refine (post_world h).mono (fun a m' hm' => ?_) fun m' hm' => ?_
  · obtain ⟨w, rfl, hw⟩ := hm'
    exact ⟨deleted_resume m w, hw⟩
  · obtain ⟨w, rfl, hw⟩ := hm'
    exact ⟨deleted_resume m w, hw⟩

/-- What the parser has, and what is deleted. -/
def Machine.objects (m : Machine) : State × List Ptr := (m.state, m.deleted)

/-- A request deletes no object. -/
theorem objects_sent (m : Machine) (cli : Httplib.ClientImpl) (request : Bytes) :
    (m.sent cli request).objects = m.objects := by
  have hdeleted : (m.sent cli request).deleted = m.deleted :=
    List.filterMap_append.trans (List.append_nil _)
  exact congrArg (Prod.mk m.state) hdeleted

/-- Neither does what `main` makes of the answer. -/
theorem keepsObjects_makeGetRequest (env : Environment) (address path : Bytes) :
    Keeps Machine.objects (makeGetRequest env address path) :=
  keeps_makeGetRequest objects_sent address path

/-- A part that leaves the state of the parser alone leaves the objects alone. -/
theorem keepsObjects_world {x : Main α} (h : Keeps World.state x) :
    Keeps Machine.objects (Client.world x) := by
  intro m
  have hpost := post_world_deleted (m := m) (Q := fun _ s => s = m.state) (E := (· = m.state))
    (h.post { state := m.state, calls := m.calls })
  refine Post.state (P := fun m' => m'.objects = m.objects) hpost (fun a m' hm' => ?_)
    fun m' hm' => ?_
  · exact Prod.ext hm'.2 hm'.1
  · exact Prod.ext hm'.2 hm'.1

/-- The objects are owned, and none is deleted. -/
structure Machine.Intact (m : Machine) : Prop where
  owned : Owned m.state.toBMemoryManager
  none_deleted : m.deleted = []

/-- No object is deleted twice, and those deleted are registered. -/
structure Machine.DeletesOnce (m : Machine) : Prop where
  nodup : m.deleted.Nodup
  registered : ∀ p ∈ m.deleted, m.state.destructor.count p = 1

/-- Where none is deleted, none is deleted twice. -/
theorem Machine.Intact.deletesOnce (h : m.Intact) : m.DeletesOnce where
  nodup := by
    rw [h.none_deleted]
    exact List.nodup_nil
  registered p hp := by
    rw [h.none_deleted] at hp
    cases hp

/-- The machine stays intact where its objects are kept. -/
theorem Machine.Intact.of_objects_eq {m' : Machine} (h : m.Intact) (hm' : m'.objects = m.objects) :
    m'.Intact := by
  obtain ⟨hstate, hdeleted⟩ := Prod.mk.inj hm'
  exact ⟨hstate ▸ h.owned, hdeleted.trans h.none_deleted⟩

/-- However the run ends, no object is deleted twice. -/
def Erases (x : Client α) (m : Machine) : Prop :=
  x.Post m (fun _ m' => m'.DeletesOnce) Machine.DeletesOnce

/-- A run that goes on after one that leaves the objects alone and deletes none. -/
theorem Erases.bind {β : Type} {x : Client α} {f : α → Client β} (hx : Keeps Machine.objects x)
    (h : m.Intact) (hf : ∀ a m', m'.Intact → m'.objects = m.objects → Erases (f a) m') :
    Erases (x >>= f) m := by
  refine ((hx.post m).mono (fun _ _ hm' => hm') fun m' hm' => ?_).bind fun a m' hm' => ?_
  · exact (h.of_objects_eq hm').deletesOnce
  · exact hf a m' (h.of_objects_eq hm') hm'

/-- A run that goes on after one that may make objects, and leaves them owned. -/
theorem Erases.bind_world {β : Type} {x : Main α} {f : α → Client β} {Q : α → State → Prop}
    (hx : x.Post { state := m.state, calls := m.calls }
      (fun a w => Owned w.state.toBMemoryManager ∧ Q a w.state)
      fun w => Owned w.state.toBMemoryManager)
    (h : m.Intact) (hf : ∀ a m', m'.Intact → Q a m'.state → Erases (f a) m') :
    Erases (Client.world x >>= f) m := by
  have hpost := post_world_deleted (Q := fun a s => Owned s.toBMemoryManager ∧ Q a s)
    (E := fun s => Owned s.toBMemoryManager) hx
  refine (hpost.mono (fun _ _ hm' => hm') fun m' hm' => ?_).bind fun a m' hm' => ?_
  · exact Machine.Intact.deletesOnce ⟨hm'.2, hm'.1.trans h.none_deleted⟩
  · exact hf a m' ⟨hm'.2.1, hm'.1.trans h.none_deleted⟩ hm'.2.2

/-- The items of a list are held by one object, so they differ, and they are registered. -/
theorem IsListOf.deletesOnce {s : State} {ps : List Ptr} (howned : Owned s.toBMemoryManager)
    (hlist : IsListOf s.heap ps) : ps.Nodup ∧ ∀ p ∈ ps, s.destructor.count p = 1 := by
  -- The items are children of one object, and in a forest no object is the child of two, or of one
  -- twice.
  obtain ⟨q, obj, hobj, rfl⟩ := hlist
  have hchildren : obj.children.Nodup :=
    (List.nodup_flatMap.mp howned.forest.nodup).1 obj (List.mem_of_getElem? hobj)
  refine ⟨(List.nodup_append.mp hchildren).1, fun p hp => ?_⟩
  have hlt := (howned.forest.forward q p ⟨obj, hobj, List.mem_append_left _ hp⟩).2
  have hregistered : s.destructor = List.range s.heap.length := howned.registered
  rw [hregistered]
  exact List.count_eq_one_of_mem List.nodup_range (List.mem_range.mpr hlt)

/-- The objects of the list of peers are deleted, one after the other. -/
theorem post_erasePeers (peers : List Ptr) (m : Machine) {E : Machine → Prop} :
    (erasePeers peers).Post m
      (fun _ m' => m'.state = m.state ∧ m'.deleted = m.deleted ++ peers) E := by
  -- By induction over the list.
  induction peers generalizing m with
  | nil => exact Run.post_pure ⟨rfl, (List.append_nil _).symm⟩
  | cons p peers ih =>
    have hemit : (Client.emit (.delete p)).Post m
        (fun _ m' => m'.state = m.state ∧ m'.deleted = m.deleted ++ [p]) E :=
      ⟨rfl, List.filterMap_append⟩
    refine hemit.bind fun _ m₁ hm₁ => (ih m₁).mono (fun _ m' hm' => ?_) fun _ h => h
    exact ⟨hm'.1.trans hm₁.1, by rw [hm'.2, hm₁.2, List.append_assoc]; rfl⟩

variable {env : Environment} (state : BState) (serverAddr announcePath bitfield : Bytes)

/-- The run from the peers on deletes the objects of their list. -/
theorem erases_finish {peers : List Ptr} (bpeers : List BPeer) (h : m.Intact)
    (hlist : IsListOf m.state.heap peers) :
    Erases (finish env state serverAddr announcePath bitfield peers bpeers) m := by
  have hpeers := hlist.deletesOnce h.owned
  unfold finish
  refine Erases.bind (Client.keeps_assert _) h fun _ m₁ h h₁ => ?_
  refine Erases.bind (keepsObjects_world (keepsState_peer _)) h fun _ m₂ h h₂ => ?_
  -- From here on the objects of the list are deleted.
  have hstate : m₂.state = m.state := (Prod.mk.inj (h₂.trans h₁)).1
  refine (post_erasePeers peers m₂).bind fun _ m₃ hm₃ => ?_
  have herased {m' : Machine} (hm' : m'.objects = m₃.objects) : m'.DeletesOnce := by
    obtain ⟨hstate', hdeleted⟩ := Prod.mk.inj hm'
    rw [hm₃.2, h.none_deleted, List.nil_append] at hdeleted
    rw [hm₃.1, hstate] at hstate'
    refine ⟨hdeleted ▸ hpeers.1, fun p hp => ?_⟩
    rw [hstate']
    exact hpeers.2 p (hdeleted ▸ hp)
  have hsaved : Keeps Machine.objects (saveBitfield env bitfield) :=
    keeps_saveBitfield (fun _ _ => rfl) bitfield
  have hlast := (keepsObjects_makeGetRequest env serverAddr (literal "/" ++ announcePath ++
    buildAnnounceParameters state.metainfo state.uniqueId (literal "stopped"))).bind fun _ => hsaved
  exact (hlast.post m₃).mono (fun _ _ hm' => herased hm') fun _ hm' => herased hm'

/-- The run from the response on deletes the objects of its list of peers. -/
theorem erases_meetPeers (fuel : ℕ) (response : Bytes) (h : m.Intact) :
    Erases (meetPeers env fuel state serverAddr announcePath bitfield response) m := by
  unfold meetPeers
  have hreply := findsList_readReply (w := { state := m.state, calls := m.calls }) response fuel
    h.owned
  refine Erases.bind_world (Q := fun ps s => IsListOf s.heap ps) hreply h fun peers m₁ h hlist => ?_
  refine Erases.bind (keepsObjects_world (keepsState_newPeers _ _ _ _ _)) h fun bpeers m₂ h h₂ => ?_
  have hstate : m₂.state = m₁.state := (Prod.mk.inj h₂).1
  exact erases_finish state serverAddr announcePath bitfield bpeers h (hstate ▸ hlist)

end

/-! ## The whole -/

/-- However a run of `main` ends, no object is deleted twice, and those deleted are registered with
the memory manager, whose destructor would delete them once more. -/
theorem client_deletes (env : Environment) (fuel : ℕ) {m : Machine} (h : m.Intact) :
    ((client env fuel).run m).state.DeletesOnce := by
  have herases : Erases (client env fuel) m := by
    unfold client
    split_ifs
    · exact Run.post_stop h.deletesOnce
    · exact Run.post_stop h.deletesOnce
    -- Up to the response nothing is deleted, and what is made is owned.
    refine Erases.bind keeps_loadTorrent h fun torrent m₁ h _ => ?_
    have htorrent : (readTorrent checksum env.hashMemory torrent fuel).Post
        { state := m₁.state, calls := m₁.calls }
        (fun _ w => Owned w.state.toBMemoryManager ∧ True)
        fun w => Owned w.state.toBMemoryManager :=
      (post_readTorrent_owned checksum env.hashMemory torrent fuel h.owned).mono
        (fun _ _ howned => ⟨howned, trivial⟩) fun _ howned => howned
    refine Erases.bind_world (Q := fun _ _ => True) htorrent h fun metainfo m₂ h _ => ?_
    refine Erases.bind (keeps_loadBitfield (fun _ _ => rfl) _) h fun bitfield m₃ h _ => ?_
    refine Erases.bind (Client.keeps_orStop _ _) h fun serverAddr m₄ h _ => ?_
    refine Erases.bind (Client.keeps_orStop _ _) h fun announcePath m₅ h _ => ?_
    refine Erases.bind (keepsObjects_makeGetRequest _ _ _) h fun response m₆ h _ => ?_
    exact erases_meetPeers _ serverAddr announcePath bitfield fuel response h
  exact Post.state herases (fun _ _ hm' => hm') fun _ hm' => hm'

/-- A process that comes to its end has deleted the objects of the list of peers. -/
theorem ClientSession.deleted_events {env : Environment} {files : Files}
    (s : ClientSession env files) : s.events.filterMap Event.deleted? = s.peers := by
  have hconnects : ((s.bpeers.take 6).map fun p =>
      Event.sys (.connect p.peerSocket p.peerAddress)).filterMap Event.deleted? = [] := by
    have h := filterMap_deleted_sys
      ((s.bpeers.take 6).map fun p => .connect p.peerSocket p.peerAddress)
    rwa [List.map_map] at h
  have hsockets : (List.replicate s.reply.entries.length (Event.sys .socket)).filterMap
      Event.deleted? = [] := by
    have h := filterMap_deleted_sys (List.replicate s.reply.entries.length .socket)
    rwa [List.map_replicate] at h
  have hdeletes : (s.peers.map Event.delete).filterMap Event.deleted? = s.peers := by
    rw [List.filterMap_map]
    exact List.filterMap_some
  unfold events ending
  rw [List.filterMap_cons_none (by rfl), List.filterMap_append, List.filterMap_append,
    List.filterMap_append, hsockets, hconnects, hdeletes, List.filterMap_cons_none (by rfl)]
  exact List.append_nil _

/-- The process that has one peer deletes one object, once. -/
theorem client_deletes_onePeer :
    ((client onePeerEnvironment 300).run (.start noLengthFiles)).state.DeletesOnce ∧
    ∃ p, ((client onePeerEnvironment 300).run (.start noLengthFiles)).state.deleted = [p] := by
  refine ⟨client_deletes onePeerEnvironment 300 ⟨owned_empty, rfl⟩, ?_⟩
  obtain ⟨s, m', hrun, hevents, hentries⟩ := returned_onePeer
  have hdeleted : m'.deleted = s.peers := by
    unfold Machine.deleted
    rw [hevents, s.deleted_events]
  have hlength : s.peers.length = 1 := by
    rw [s.peers_length, hentries]
    rfl
  rw [hrun, Lib.Outcome.state_returned, hdeleted]
  exact List.length_eq_one_iff.mp hlength

end Btor
