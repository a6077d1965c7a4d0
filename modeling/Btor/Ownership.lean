import Btor.Simulation
import Btor.Lib.Forest
import Btor.Lib.Post

/-!
# Who holds the parsed objects

`BMemoryManager` keeps each object it creates exactly once, and its heap is a forest: an object
holds later ones only, and no object is held twice (`Owned`). Every call keeps this from every step
to the next, however it ends, and leaves the objects of earlier calls alone (`parse_owned`). It
rests on the order of creation. A container is created before what it holds, so what is created
first while an item is parsed is held by nothing yet when it is linked. A value whose key is there
already is never linked, and stays registered.
-/

namespace Btor

open Lib (Run Forest Frame Holds)
open Lib.Run (Post Keeps)

/-- The objects that `~BMemoryManager` deletes, in order. -/
def BMemoryManager.destructor (m : BMemoryManager) : List Ptr := m.bObjects

/-- The objects form a forest, and each is registered once. -/
structure Owned (m : BMemoryManager) : Prop where
  /-- An object holds later objects, and no two places hold the same one. -/
  forest : Forest BObject.children m.heap
  /-- The objects are registered in the order in which they were created. -/
  registered : m.bObjects = List.range m.heap.length

/-- The objects of `m'` are owned, and those of `m` outside `c` are as they were. -/
structure Grows (c : Set Ptr) (m m' : BMemoryManager) : Prop where
  /-- The new objects are owned as well. -/
  owned : Owned m'
  /-- The old objects outside `c` are left alone. -/
  frame : Frame c m.heap m'.heap

/-- A heap that stays as it is has grown by nothing. -/
theorem Grows.of_eq {c : Set Ptr} {m m' : BMemoryManager} (hm : Owned m) (h : m' = m) :
    Grows c m m' := by
  subst h
  exact ⟨hm, Frame.refl c m'.heap⟩

/-- What has grown twice has grown. -/
theorem Grows.trans {c : Set Ptr} {m m' m'' : BMemoryManager} (h : Grows c m m')
    (h' : Grows c m' m'') : Grows c m m'' :=
  ⟨h'.owned, h.frame.trans h'.frame⟩

/-- What leaves more alone leaves less alone. -/
theorem Grows.mono {c c' : Set Ptr} {m m' : BMemoryManager} (hsub : c ⊆ c') (h : Grows c m m') :
    Grows c' m m' :=
  ⟨h.owned, h.frame.mono hsub⟩

/-! ## Steps that leave the objects alone -/

section

variable (buf : Bytes)

/-- The run leaves the memory manager as it is. -/
abbrev KeepsObjects {α : Type} (x : Parse α) : Prop := Keeps State.toBMemoryManager x

/-- A byte that is consumed leaves the objects alone. -/
theorem keeps_consumeChar : KeepsObjects (consumeChar buf) := by
  intro s
  cases h : buf[s.cursor.toNat]? with
  | none => rw [consumeChar_none h]; rfl
  | some c => rw [consumeChar_some h]; rfl

/-- So does one that is looked at. -/
theorem keeps_peekChar : KeepsObjects (peekChar buf) := by
  intro s
  cases h : buf[s.cursor.toNat]? with
  | none => rw [peekChar_none h]; rfl
  | some c => rw [peekChar_some h]; rfl

/-- So does the check for the end of the buffer. -/
theorem keeps_inBuffer : KeepsObjects (inBuffer buf) := fun _ => rfl

/-- So does an exception. -/
theorem keeps_throw {α : Type} (e : Exn) : KeepsObjects (throw e : Parse α) := Run.keeps_stop _

/-- So does an assertion. -/
theorem keeps_assert (c : Bool) : KeepsObjects (assert c) := by
  unfold assert
  split_ifs
  · exact Run.keeps_pure ()
  · exact Run.keeps_stop _

/-- A method that reads its object. -/
theorem keeps_deref {α : Type} (p : Ptr) (method : BObject → Except Exn α) :
    KeepsObjects (deref p method) := by
  intro s
  unfold deref
  dsimp only
  cases s.heap[p]? with
  | none => rfl
  | some obj =>
    dsimp only
    cases method obj <;> rfl

/-- So does a change of the flag. -/
theorem keeps_setCollectInfoDict (b : Bool) : KeepsObjects (setCollectInfoDict b) := fun _ => rfl

/-- So does an addition to the length. -/
theorem keeps_addCollectedLength (n : Int64) : KeepsObjects (addCollectedLength n) := fun _ => rfl

/-- So does the loop over the digits of a length. -/
theorem keeps_extractLength (n : ℕ) (c : UInt8) (len : Int32) :
    KeepsObjects (extractLength buf n c len) := by
  induction n generalizing c len with
  | zero => exact Run.keeps_stop _
  | succ n ih =>
    rw [extractLength]
    split_ifs
    · exact Run.keeps_pure len
    · exact (keeps_consumeChar buf).bind fun next => ih next _
    · exact keeps_throw _

/-- So does the loop over the bytes of a text. -/
theorem keeps_extractBytes (n : ℕ) (len : Int32) (l : Bytes) :
    KeepsObjects (extractBytes buf n len l) := by
  induction n generalizing len l with
  | zero => exact Run.keeps_stop _
  | succ n ih =>
    rw [extractBytes]
    split_ifs
    · exact Run.keeps_pure l
    · exact (keeps_consumeChar buf).bind fun c => ih _ _

/-- So does the whole of `extractString`. -/
theorem keeps_extractString (n : ℕ) : KeepsObjects (extractString buf n) :=
  (keeps_consumeChar buf).bind fun c =>
    (keeps_extractLength buf n c 0).bind fun len => keeps_extractBytes buf n len []

/-- So does the loop over the digits of an integer. -/
theorem keeps_parseIntegerLoop (n : ℕ) (v : Int64) (first negative : Bool) :
    KeepsObjects (parseIntegerLoop buf n v first negative) := by
  induction n generalizing v first negative with
  | zero => exact Run.keeps_stop _
  | succ n ih =>
    rw [parseIntegerLoop]
    refine (keeps_consumeChar buf).bind fun c => ?_
    split_ifs
    · exact Run.keeps_pure _
    · exact keeps_throw _
    all_goals exact ih _ _ _

end

/-! ## Steps that create and link objects -/

/-- A new object that holds none. -/
theorem Owned.alloc {m : BMemoryManager} (h : Owned m) {obj : BObject} (hobj : obj.children = []) :
    Owned { heap := m.heap ++ [obj], bObjects := m.bObjects ++ [m.heap.length] } where
  forest := h.forest.append_leaf hobj
  registered := by rw [h.registered, List.length_append, List.length_singleton, List.range_succ]

section

variable {m m' : BMemoryManager} {s : State}

/-- After a step that leaves the objects alone. -/
theorem post_after_keeps {α β : Type} {x : Parse α} {f : α → Parse β} {Q : β → State → Prop}
    {E : State → Prop} (hx : KeepsObjects x) (hs : s.toBMemoryManager = m)
    (hE : ∀ s', s'.toBMemoryManager = m → E s')
    (hf : ∀ a s', s'.toBMemoryManager = m → (f a).Post s' Q E) : (x >>= f).Post s Q E :=
  ((hx.post s).mono (fun _ _ h => h.trans hs) fun s' h => hE s' (h.trans hs)).bind hf

/-- A call that parses a value returns the first object that it created. However it ends, the
objects are owned and the old ones are as they were. -/
def Builds (x : Parse Ptr) : Prop :=
  ∀ (m : BMemoryManager) (s : State), s.toBMemoryManager = m → Owned m → x.Post s
    (fun p s' => p = m.heap.length ∧ p < s'.heap.length ∧ Grows ∅ m s'.toBMemoryManager)
    (fun s' => Grows ∅ m s'.toBMemoryManager)

/-- A loop that fills the object at `p` returns it. However it ends, the objects are owned and the
other old ones are as they were. -/
def Fills (p : Ptr) (x : Parse Ptr) : Prop :=
  ∀ (m : BMemoryManager) (s : State), s.toBMemoryManager = m → Owned m → p < m.heap.length →
    x.Post s (fun q s' => q = p ∧ p < s'.heap.length ∧ Grows {p} m s'.toBMemoryManager)
      (fun s' => Grows {p} m s'.toBMemoryManager)

/-- The creation of an object that holds none. -/
theorem builds_getNewBObject {obj : BObject} (hobj : obj.children = []) :
    Builds (getNewBObject obj) := by
  rintro m s rfl hm
  refine ⟨rfl, ?_, hm.alloc hobj, Frame.append ∅ s.heap obj⟩
  simp

/-- The creation of a container, and the loop that fills it. -/
theorem builds_container {obj : BObject} (hobj : obj.children = []) {loop : Ptr → Parse Ptr}
    (hloop : ∀ p, Fills p (loop p)) : Builds (getNewBObject obj >>= loop) := by
  rintro m s rfl hm
  have hnew : s.heap.length < (s.heap ++ [obj]).length := by simp
  have hfill := hloop s.heap.length _ (s.alloc obj) rfl (hm.alloc hobj) hnew
  -- The container is not among the old objects, so filling it changes none of these.
  refine hfill.mono (fun q s' h => ?_) fun s' h => ⟨h.owned, h.frame.of_append⟩
  obtain ⟨rfl, hlt, hgrows⟩ := h
  exact ⟨rfl, hlt, hgrows.owned, hgrows.frame.of_append⟩

/-- Linking the object that was created first since `m` to the older one at `p`, or not linking
it. -/
theorem post_link (hm : Owned m) (hgrows : Grows ∅ m m') (hlt : m.heap.length < m'.heap.length)
    {p : Ptr} (hp : p < m.heap.length) (method : BObject → Except Exn BObject)
    (hmethod : ∀ obj obj', method obj = .ok obj' →
      obj'.children.Perm (m.heap.length :: obj.children) ∨ obj'.children = obj.children)
    (hs : s.toBMemoryManager = m') :
    (derefSet p method).Post s (fun _ s' => p < s'.heap.length ∧ Grows {p} m s'.toBMemoryManager)
      (fun s' => Grows {p} m s'.toBMemoryManager) := by
  subst hs
  have hgrows' : Grows {p} m s.toBMemoryManager := hgrows.mono (Set.empty_subset _)
  unfold Run.Post derefSet
  dsimp only
  cases hobj : s.heap[p]? with
  | none => exact hgrows'
  | some obj =>
    dsimp only
    cases hok : method obj with
    | error e => exact hgrows'
    | ok obj' =>
      have hforest : Forest BObject.children (s.heap.set p obj') := by
        rcases hmethod obj obj' hok with hperm | hsame
        · exact hgrows.owned.forest.link hobj hperm hp hlt
            (hm.forest.notMem_children hgrows.owned.forest hgrows.frame)
        · exact hgrows.owned.forest.set_perm hobj (hsame ▸ List.Perm.refl _)
      have howned : Owned { heap := s.heap.set p obj', bObjects := s.bObjects } :=
        ⟨hforest, by rw [hgrows.owned.registered, List.length_set]⟩
      refine ⟨?_, howned, hgrows'.frame.trans (Frame.set s.heap p obj')⟩
      show p < (s.heap.set p obj').length
      rw [List.length_set]
      exact hp.trans hlt

/-- The end of an iteration of a loop: it goes on, or consumes the `e` and returns. -/
theorem fills_rest {p : Ptr} {buf : Bytes} {loop : Parse Ptr} (hloop : Fills p loop)
    (hgrows : Grows {p} m m') (hp : p < m'.heap.length) (hs : s.toBMemoryManager = m') :
    (peekChar buf >>= fun ch =>
      if ch ≠ Ascii.e then loop else consumeChar buf >>= fun _ => pure p).Post s
      (fun q s' => q = p ∧ p < s'.heap.length ∧ Grows {p} m s'.toBMemoryManager)
      (fun s' => Grows {p} m s'.toBMemoryManager) := by
  have hstop (s' : State) (h : s'.toBMemoryManager = m') : Grows {p} m s'.toBMemoryManager :=
    h ▸ hgrows
  refine post_after_keeps (keeps_peekChar buf) hs hstop fun ch s' hs' => ?_
  split_ifs
  · refine (hloop m' s' hs' hgrows.owned hp).mono (fun q s'' h => ?_) fun s'' h => hgrows.trans h
    exact ⟨h.1, h.2.1, hgrows.trans h.2.2⟩
  · refine post_after_keeps (keeps_consumeChar buf) hs' hstop fun c s'' hs'' => ?_
    exact Run.post_pure ⟨rfl, hs''.symm ▸ hp, hstop s'' hs''⟩

end

/-! ## The objects of a parse -/

/-- `pushBack` links its argument. -/
theorem pushBack_children {q : Ptr} {obj obj' : BObject} (h : obj.pushBack q = .ok obj') :
    obj'.children.Perm (q :: obj.children) := by
  unfold BObject.pushBack at h
  split_ifs at h
  cases h
  unfold BObject.children
  rw [List.append_assoc]
  exact List.perm_middle

/-- `addKeyValue` links its argument, or the key is there already. -/
theorem addKeyValue_children {k : Bytes} {q : Ptr} {obj obj' : BObject}
    (h : obj.addKeyValue k q = .ok obj') :
    obj'.children.Perm (q :: obj.children) ∨ obj'.children = obj.children := by
  unfold BObject.addKeyValue at h
  split_ifs at h
  cases h
  unfold BObject.children
  rcases Lib.insertEntry_cases k q obj.dictVal.entries with hperm | heq
  · exact .inl (((hperm.map (·.2)).append_left obj.listVal).trans List.perm_middle)
  · exact .inr (by rw [Lib.OrderedMap.entries_insert, heq])

section

variable (buf : Bytes)

/-- `parseString` makes one object. -/
theorem builds_parseString (n : ℕ) : Builds (parseString buf n) := by
  rintro m s hs hm
  refine post_after_keeps (keeps_extractString buf n) hs (fun s' h => Grows.of_eq hm h) ?_
  exact fun l s' hs' => builds_getNewBObject rfl m s' hs' hm

/-- A function that consumes the byte it was called for and then builds. -/
theorem builds_after_assert {x : Parse Ptr} (hx : Builds x) (c : UInt8) :
    Builds (consumeChar buf >>= fun ch => assert (ch = c) >>= fun _ => x) := by
  rintro m s hs hm
  have hstop (s' : State) (h : s'.toBMemoryManager = m) : Grows ∅ m s'.toBMemoryManager :=
    Grows.of_eq hm h
  refine post_after_keeps (keeps_consumeChar buf) hs hstop fun ch s₁ hs₁ => ?_
  exact post_after_keeps (keeps_assert _) hs₁ hstop fun _ s₂ hs₂ => hx m s₂ hs₂ hm

/-- `parseInteger` makes one object. -/
theorem builds_parseInteger (n : ℕ) : Builds (parseInteger buf n) := by
  refine builds_after_assert buf ?_ Ascii.i
  rintro m s hs hm
  refine post_after_keeps (keeps_parseIntegerLoop buf n 0 true false) hs
    (fun s' h => Grows.of_eq hm h) ?_
  exact fun r s' hs' => builds_getNewBObject rfl m s' hs' hm

/-- What the recursive functions do, for a bound on the number of steps. -/
structure BuildsAt (n : ℕ) : Prop where
  arbitrary : Builds (parseArbitrary buf n)
  list : Builds (parseList buf n)
  listLoop : ∀ p, Fills p (parseListLoop buf n p)
  dictionary : Builds (parseDictionary buf n)
  dictionaryLoop : ∀ p, Fills p (parseDictionaryLoop buf n p)

variable {buf} {n : ℕ}

/-- One step of `parseArbitrary`. -/
theorem BuildsAt.arbitrary_succ (h : BuildsAt buf n) : Builds (parseArbitrary buf (n + 1)) := by
  rintro m s hs hm
  have hstop (s' : State) (h : s'.toBMemoryManager = m) : Grows ∅ m s'.toBMemoryManager :=
    Grows.of_eq hm h
  rw [parseArbitrary]
  refine post_after_keeps (keeps_inBuffer buf) hs hstop fun more s₁ hs₁ => ?_
  split_ifs
  · refine post_after_keeps (keeps_peekChar buf) hs₁ hstop fun ch s₂ hs₂ => ?_
    split_ifs
    · exact builds_parseInteger buf n m s₂ hs₂ hm
    · exact h.list m s₂ hs₂ hm
    · exact h.dictionary m s₂ hs₂ hm
    · exact builds_parseString buf n m s₂ hs₂ hm
    · exact Run.post_stop (hstop s₂ hs₂)
  · exact Run.post_stop (hstop s₁ hs₁)

/-- One iteration of the loop of `parseList`. -/
theorem BuildsAt.listLoop_succ (h : BuildsAt buf n) (p : Ptr) :
    Fills p (parseListLoop buf (n + 1) p) := by
  rintro m s hs hm hp
  rw [parseListLoop]
  -- The item, the link to it, and the rest of the loop.
  have hitem := (h.arbitrary m s hs hm).mono (fun _ _ hQ => hQ) fun s' hgrows =>
    hgrows.mono (Set.empty_subset {p})
  refine hitem.bind fun q s₁ hq => ?_
  obtain ⟨rfl, hlt, hgrows⟩ := hq
  have hlink := post_link hm hgrows hlt hp (·.pushBack m.heap.length)
    (fun obj obj' hobj => .inl (pushBack_children hobj)) rfl
  refine hlink.bind fun _ s₂ hs₂ => ?_
  exact fills_rest (h.listLoop p) hs₂.2 hs₂.1 rfl

/-- One iteration of the loop of `parseDictionary`. -/
theorem BuildsAt.dictionaryLoop_succ (h : BuildsAt buf n) (p : Ptr) :
    Fills p (parseDictionaryLoop buf (n + 1) p) := by
  rintro m s hs hm hp
  have hstop (s' : State) (h : s'.toBMemoryManager = m) : Grows {p} m s'.toBMemoryManager :=
    Grows.of_eq hm h
  rw [parseDictionaryLoop]
  refine post_after_keeps (keeps_extractString buf n) hs hstop fun k s₁ hs₁ => ?_
  have hflag (b : Bool) : KeepsObjects (if k = infoKey then setCollectInfoDict b else pure ()) := by
    split_ifs
    · exact keeps_setCollectInfoDict b
    · exact Run.keeps_pure ()
  refine post_after_keeps (hflag true) hs₁ hstop fun _ s₂ hs₂ => ?_
  have hvalue := (h.arbitrary m s₂ hs₂ hm).mono (fun _ _ hQ => hQ) fun s' hgrows =>
    hgrows.mono (Set.empty_subset {p})
  refine hvalue.bind fun q s₃ hq => ?_
  obtain ⟨rfl, hlt, hgrows⟩ := hq
  -- The effects of the keys `info` and `length` come between the value and its link.
  have hkey : KeepsObjects (if k = infoKey then setCollectInfoDict false
      else if k = lengthKey then do
        let n ← deref m.heap.length BObject.getInt
        addCollectedLength n
      else pure ()) := by
    split_ifs
    · exact keeps_setCollectInfoDict false
    · exact (keeps_deref _ _).bind keeps_addCollectedLength
    · exact Run.keeps_pure ()
  refine post_after_keeps hkey rfl
    (fun s' h => h ▸ hgrows.mono (Set.empty_subset {p})) fun _ s₄ hs₄ => ?_
  have hlink := post_link hm hgrows hlt hp (·.addKeyValue k m.heap.length)
    (fun obj obj' hobj => addKeyValue_children hobj) hs₄
  refine hlink.bind fun _ s₅ hs₅ => ?_
  exact fills_rest (h.dictionaryLoop p) hs₅.2 hs₅.1 rfl

/-- The recursive functions build and fill, by induction on the bound. -/
theorem buildsAt (buf : Bytes) (n : ℕ) : BuildsAt buf n := by
  induction n with
  | zero =>
    have hbuilds : Builds (.stop .outOfFuel : Parse Ptr) := fun m s hs hm =>
      Run.post_stop (Grows.of_eq hm hs)
    have hfills (p : Ptr) : Fills p (.stop .outOfFuel : Parse Ptr) := fun m s hs hm _ =>
      Run.post_stop (Grows.of_eq hm hs)
    exact ⟨hbuilds, hbuilds, hfills, hbuilds, hfills⟩
  | succ n ih =>
    refine ⟨ih.arbitrary_succ, ?_, ih.listLoop_succ, ?_, ih.dictionaryLoop_succ⟩
    · exact builds_after_assert buf (builds_container rfl ih.listLoop) Ascii.l
    · exact builds_after_assert buf (builds_container rfl ih.dictionaryLoop) Ascii.d

/-- A call that parses a buffer builds, from whatever cursor. -/
theorem builds_parseBencodedString (buf : Bytes) (n : ℕ) : Builds (parseBencodedString buf n) :=
  fun m s hs hm => (buildsAt buf n).arbitrary m { s with cursor := 0 } hs hm

end

/-! ## Sequences of calls -/

/-- One call with the memory manager `m` leaves `m'`: by any parser in any state, on any buffer,
however it ends. A call that the bound on its steps cuts off shows the objects in between. -/
def Call (m m' : BMemoryManager) : Prop :=
  ∃ (buf : Bytes) (n : ℕ) (s : State), s.toBMemoryManager = m ∧
    ((parseBencodedString buf n).run s).state.toBMemoryManager = m'

/-- A call keeps the objects owned and leaves the old ones alone. -/
theorem Call.grows {m m' : BMemoryManager} (h : Call m m') (hm : Owned m) : Grows ∅ m m' := by
  obtain ⟨buf, n, s, hs, rfl⟩ := h
  exact (builds_parseBencodedString buf n m s hs hm).state (fun _ _ hQ => hQ.2.2) fun _ hE => hE

/-- So does a sequence of calls. -/
theorem grows_of_calls {m m' : BMemoryManager} (h : Relation.ReflTransGen Call m m')
    (hm : Owned m) : Grows ∅ m m' := by
  induction h with
  | refl => exact Grows.of_eq hm rfl
  | tail _ hcall ih => exact ih.trans (hcall.grows ih.owned)

/-- A new memory manager. -/
theorem owned_empty : Owned {} := ⟨Forest.nil, rfl⟩

/-- After any sequence of calls with one memory manager, each returning or stopping on its way:
every object created is registered exactly once and nothing else is, every object is held by at most
one place in a list or a dictionary, and none is its own descendant. What is reached from the object
that a further call returns was created by that call, then and after any calls that follow. -/
theorem parse_owned {m : BMemoryManager} (h : Relation.ReflTransGen Call {} m) :
    (∀ p, p < m.heap.length → m.destructor.count p = 1) ∧
    (∀ p ∈ m.destructor, p < m.heap.length) ∧
    (∀ q, (m.heap.flatMap BObject.children).count q ≤ 1) ∧
    (∀ p, ¬ Relation.TransGen (Holds BObject.children m.heap) p p) ∧
    ∀ (buf : Bytes) (n : ℕ) (s s' : State) (p : Ptr), s.toBMemoryManager = m →
      (parseBencodedString buf n).run s = .returned p s' →
      ∀ m', Relation.ReflTransGen Call s'.toBMemoryManager m' →
      ∀ q, Relation.ReflTransGen (Holds BObject.children m'.heap) p q →
        m.heap.length ≤ q ∧ q < s'.heap.length := by
  have hm : Owned m := (grows_of_calls h owned_empty).owned
  have hregistered : m.destructor = List.range m.heap.length := hm.registered
  refine ⟨fun p hp => ?_, fun p hp => ?_, List.nodup_iff_count_le_one.mp hm.forest.nodup,
    hm.forest.irrefl, fun buf n s s' p hs hrun m' hm' q hq => ?_⟩
  · rw [hregistered]
    exact List.count_eq_one_of_mem List.nodup_range (List.mem_range.mpr hp)
  · rw [hregistered] at hp
    exact List.mem_range.mp hp
  · obtain ⟨rfl, hlt, hgrows⟩ := (builds_parseBencodedString buf n m s hs hm).of_returned hrun
    -- Later calls do not change what is reached from the root.
    have hlater := grows_of_calls hm' hgrows.owned
    exact hgrows.owned.forest.le_of_reach hlt
      (hgrows.owned.forest.reach_of_frame hlater.frame hlt hq)

/-- The second value of `d1:ai1e1:ai2ee` is registered, although nothing holds it. -/
theorem parse_owned_repeated :
    (∀ p, p < 3 → ((parseBencodedString [100, 49, 58, 97, 105, 49, 101, 49, 58, 97, 105, 50, 101,
      101] 50).run (fresh {})).state.destructor.count p = 1) ∧
    ∀ q, (((parseBencodedString [100, 49, 58, 97, 105, 49, 101, 49, 58, 97, 105, 50, 101, 101]
      50).run (fresh {})).state.heap.flatMap BObject.children).count q ≤ 1 := by
  have h := parse_owned (.single ⟨[100, 49, 58, 97, 105, 49, 101, 49, 58, 97, 105, 50, 101, 101],
    50, fresh {}, rfl, rfl⟩)
  exact ⟨h.1, h.2.2.1⟩

end Btor
