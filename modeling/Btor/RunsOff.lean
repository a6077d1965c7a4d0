import Btor.Value

/-!
# Control off the end of `parseArbitrary`

`parseArbitrary` has no `return` after its loop, which is not entered when the cursor is at the end
of the buffer. `EndsAtValue` describes the buffers that end where a value is due: the empty one, a
list that ends after its `l` or in an item that does, and a dictionary that ends after a key or in a
value that does. On exactly these, control reaches the end of `parseArbitrary`, in the root call or
in one for an item or a value (`definedOutcome_iff`). On the others the parser throws, or returns an
object in which every pointer is one of an object in the heap.
-/

namespace Btor

open Lib (Outcome OrderedMap)

/-- The buffer ends where a value is due. After an item, the loop of a list peeks at the next byte,
so an end right there makes it throw; a dictionary reads the next key there, and throws as well. -/
inductive EndsAtValue : Bytes → Prop where
  | nil : EndsAtValue []
  | list {ts : List Parsed} {u : Bytes} (hts : ItemsAccepted ts) (hu : EndsAtValue u)
      (hne : ts = [] ∨ u ≠ []) : EndsAtValue (Ascii.l :: (itemsBytes ts ++ u))
  | dict {es : List (Text × Parsed)} {k : Text} {u : Bytes} (hes : EntriesAccepted es)
      (hk : k.Accepted) (hu : EndsAtValue u) :
      EndsAtValue (Ascii.d :: (entriesBytes es ++ (k.bytes ++ u)))

/-- A parse of the buffer ends, from every state, by returning a pointer to an object, in which all
pointers are to objects, or by throwing. -/
def DefinedOutcome (buf : Bytes) : Prop :=
  ∀ (n : ℕ) (s : State), 3 * buf.length + 3 ≤ n →
    (∃ p s', (parseBencodedString buf n).run s = .returned p s' ∧ p < s'.heap.length ∧
      ∀ obj ∈ s'.heap.drop s.heap.length, ∀ q ∈ obj.children, q < s'.heap.length) ∨
    ∃ x s', (parseBencodedString buf n).run s = .stopped (.threw x) s'

/-- The pointers to the items of a list are those of its objects. -/
theorem itemPtrs_lt : ∀ {ts : List Parsed} {base q : ℕ}, q ∈ itemPtrs ts base →
    q < base + itemsNodes ts
  | [], _, _, h => by cases h
  | t :: ts, base, q, h => by
    have hpos := t.nodes_pos
    rw [itemsNodes]
    rcases List.mem_cons.mp h with rfl | h
    · omega
    · have hlt := itemPtrs_lt h
      omega

/-- The pointers to the values of a dictionary are those of its objects. -/
theorem entryPtrs_lt : ∀ {es : List (Text × Parsed)} {base : ℕ} {e : Bytes × ℕ},
    e ∈ entryPtrs es base → e.2 < base + entriesNodes es
  | [], _, _, h => by cases h
  | (k, t) :: es, base, e, h => by
    have hpos := t.nodes_pos
    rw [entriesNodes]
    rcases List.mem_cons.mp h with rfl | h
    · show base < _
      omega
    · have hlt := entryPtrs_lt h
      omega

mutual

/-- The objects of a value hold pointers to objects of the value. -/
theorem Parsed.layout_children : ∀ {t : Parsed} {base q : ℕ} {obj : BObject},
    obj ∈ t.layout base → q ∈ obj.children → q < base + t.nodes
  | .integer _, _, _, _, hobj, hq => by
    -- An integer holds no pointers.
    obtain rfl := List.mem_singleton.mp hobj
    cases hq
  | .string _, _, _, _, hobj, hq => by
    obtain rfl := List.mem_singleton.mp hobj
    cases hq
  | .list ts, base, q, obj, hobj, hq => by
    rw [Parsed.nodes]
    rcases List.mem_cons.mp hobj with rfl | hobj
    · have hlt : q < base + 1 + itemsNodes ts :=
        itemPtrs_lt (by simpa [BObject.children] using hq)
      omega
    · have hlt := itemsLayout_children hobj hq
      omega
  | .dict es, base, q, obj, hobj, hq => by
    rw [Parsed.nodes]
    rcases List.mem_cons.mp hobj with rfl | hobj
    · obtain ⟨e, he, rfl⟩ : ∃ e, e ∈ (OrderedMap.empty.insertAll
          (entryPtrs es (base + 1))).entries ∧ e.2 = q := by
        simpa [BObject.children] using hq
      rcases OrderedMap.mem_insertAll he with hnil | he
      · cases hnil
      · have hlt := entryPtrs_lt he
        omega
    · have hlt := entriesLayout_children hobj hq
      omega

/-- The objects of the items point into their part of the heap. -/
theorem itemsLayout_children : ∀ {ts : List Parsed} {base q : ℕ} {obj : BObject},
    obj ∈ itemsLayout ts base → q ∈ obj.children → q < base + itemsNodes ts
  | [], _, _, _, hobj, _ => by cases hobj
  | t :: ts, base, q, obj, hobj, hq => by
    rw [itemsNodes]
    rcases List.mem_append.mp hobj with hobj | hobj
    · have hlt := Parsed.layout_children hobj hq
      omega
    · have hlt := itemsLayout_children hobj hq
      omega

/-- So do those of the entries. -/
theorem entriesLayout_children : ∀ {es : List (Text × Parsed)} {base q : ℕ} {obj : BObject},
    obj ∈ entriesLayout es base → q ∈ obj.children → q < base + entriesNodes es
  | [], _, _, _, hobj, _ => by cases hobj
  | (k, t) :: es, base, q, obj, hobj, hq => by
    rw [entriesNodes]
    rcases List.mem_append.mp hobj with hobj | hobj
    · have hlt := Parsed.layout_children hobj hq
      omega
    · have hlt := entriesLayout_children hobj hq
      omega

end

/-- A buffer that ends where a value is due, and is not empty, starts with a container. -/
theorem EndsAtValue.head {u : Bytes} (h : EndsAtValue u) (hne : u ≠ []) :
    ∃ x l, u = x :: l ∧ x ≠ Ascii.e := by
  cases h with
  | nil => exact absurd rfl hne
  | list hts hu hne => exact ⟨_, _, rfl, by decide⟩
  | dict hes hk hu => exact ⟨_, _, rfl, by decide⟩

section

variable {buf : Bytes}

mutual

/-- Where control runs off the end, the buffer ends, and what was read ends where a value is due. -/
theorem Broken.ranOff_endsAtValue : ∀ {b : Broken} {c : UInt32}, b.FoundAt buf c →
    b.stop = .ranOff → EndsAtValue b.bytes ∧ buf[(advance c b.bytes).toNat]? = none
  | .noByte, c, h, _ => ⟨.nil, by rwa [Broken.bytes, advance_nil]⟩
  | .badByte x, c, _, hs => by cases hs
  | .integer b, c, _, hs => by
    -- A number or a string that is cut short makes `consumeChar` throw.
    obtain ⟨x, hx⟩ := b.stop_threw
    exact absurd (hs.symm.trans hx) (by simp)
  | .string b, c, _, hs => by
    obtain ⟨x, hx⟩ := b.stop_threw
    exact absurd (hs.symm.trans hx) (by simp)
  | .list b, c, h, hs => by
    obtain ⟨ts, u, hts, hu, hne, hbytes, hend⟩ := BrokenItems.ranOff_endsAtValue h.2 hs
    rw [Broken.bytes, advance_cons]
    exact ⟨hbytes ▸ .list hts hu hne, hend⟩
  | .dict b, c, h, hs => by
    obtain ⟨es, k, u, hes, hk, hu, hbytes, hend⟩ := BrokenEntries.ranOff_endsAtValue h.2 hs
    rw [Broken.bytes, advance_cons]
    exact ⟨hbytes ▸ .dict hes hk hu, hend⟩

/-- Items that run off the end of the function end where a value is due. -/
theorem BrokenItems.ranOff_endsAtValue : ∀ {b : BrokenItems} {c : UInt32}, b.FoundAt buf c →
    b.stop = .ranOff → ∃ ts u, ItemsAccepted ts ∧ EndsAtValue u ∧ (ts = [] ∨ u ≠ []) ∧
      b.bytes = itemsBytes ts ++ u ∧ buf[(advance c b.bytes).toNat]? = none
  | .item b, c, h, hs => by
    obtain ⟨hu, hend⟩ := Broken.ranOff_endsAtValue (b := b) h hs
    exact ⟨[], b.bytes, trivial, hu, .inl rfl, rfl, hend⟩
  | .atEnd t, c, _, hs => by cases hs
  | .next t b, c, h, hs => by
    obtain ⟨hacc, hread, ⟨x, hx, -⟩, hb⟩ := h
    obtain ⟨ts, u, hts, hu, hne, hbytes, hend⟩ := BrokenItems.ranOff_endsAtValue hb hs
    refine ⟨t :: ts, u, ⟨hacc, hts⟩, hu, .inr ?_, ?_, ?_⟩
    · -- There is a byte after the item, so something was read after it.
      rintro rfl
      obtain rfl : ts = [] := hne.resolve_right (fun h => h rfl)
      rw [hbytes] at hend
      simp only [itemsBytes, List.append_nil, advance_nil] at hend
      exact absurd (hx.symm.trans hend) (by simp)
    · rw [BrokenItems.bytes, hbytes, itemsBytes, List.append_assoc]
    · rw [BrokenItems.bytes, advance_append]
      exact hend

/-- So do entries. -/
theorem BrokenEntries.ranOff_endsAtValue : ∀ {b : BrokenEntries} {c : UInt32}, b.FoundAt buf c →
    b.stop = .ranOff → ∃ es k u, EntriesAccepted es ∧ Text.Accepted k ∧ EndsAtValue u ∧
      b.bytes = entriesBytes es ++ (k.bytes ++ u) ∧ buf[(advance c b.bytes).toNat]? = none
  | .key b, c, _, hs => by
    obtain ⟨x, hx⟩ := b.stop_threw
    exact absurd (hs.symm.trans hx) (by simp)
  | .value k b, c, h, hs => by
    obtain ⟨hk, -, hb⟩ := h
    obtain ⟨hu, hend⟩ := Broken.ranOff_endsAtValue hb hs
    refine ⟨[], k, b.bytes, trivial, hk, hu, rfl, ?_⟩
    rw [BrokenEntries.bytes, advance_append]
    exact hend
  | .notInteger k t, c, _, hs => by cases hs
  | .atEnd k t, c, _, hs => by cases hs
  | .next k t b, c, h, hs => by
    obtain ⟨hkacc, hacc, hint, hread, -, hb⟩ := h
    obtain ⟨es, k', u, hes, hk', hu, hbytes, hend⟩ := BrokenEntries.ranOff_endsAtValue hb hs
    refine ⟨(k, t) :: es, k', u, ⟨hkacc, hacc, hint, hes⟩, hk', hu, ?_, ?_⟩
    · rw [BrokenEntries.bytes, hbytes, entriesBytes]
      simp
    · rw [BrokenEntries.bytes, advance_append]
      exact hend

end

/-- The items of a list, where the buffer ends in the next one. -/
theorem itemsFoundAt_of_endsAtValue {u : Bytes} (hu : EndsAtValue u)
    (ih : ∀ c : UInt32, Reads buf c u → buf[(advance c u).toNat]? = none →
      ∃ b : Broken, b.FoundAt buf c ∧ b.bytes = u ∧ b.stop = .ranOff) :
    ∀ {ts : List Parsed} {c : UInt32}, ItemsAccepted ts → (ts = [] ∨ u ≠ []) →
      Reads buf c (itemsBytes ts ++ u) → buf[(advance c (itemsBytes ts ++ u)).toNat]? = none →
      ∃ b : BrokenItems, b.FoundAt buf c ∧ b.bytes = itemsBytes ts ++ u ∧ b.stop = .ranOff
  | [], c, _, _, hread, hend => by
    obtain ⟨b, hfound, hbytes, hstop⟩ := ih c hread hend
    exact ⟨.item b, hfound, hbytes, hstop⟩
  | t :: ts, c, hts, hne, hread, hend => by
    have hune : u ≠ [] := hne.resolve_left (List.cons_ne_nil _ _)
    rw [itemsBytes, List.append_assoc] at hread hend
    rw [advance_append] at hend
    obtain ⟨ht, hrest⟩ := reads_append.mp hread
    obtain ⟨b, hfound, hbytes, hstop⟩ :=
      itemsFoundAt_of_endsAtValue hu ih hts.2 (.inr hune) hrest hend
    -- The byte after the item is that of the next one.
    obtain ⟨x, l, hx, hxe⟩ : ∃ x l, itemsBytes ts ++ u = x :: l ∧ x ≠ Ascii.e := by
      cases ts with
      | nil => exact hu.head hune
      | cons t' ts =>
        obtain ⟨x, l, hx, hxe⟩ := itemsBytes_head hts.2
        exact ⟨x, l ++ u, by rw [hx, List.cons_append], hxe⟩
    refine ⟨.next t b, ⟨hts.1, ht, ⟨x, ?_, hxe⟩, hfound⟩, ?_, hstop⟩
    · rw [hx] at hrest
      exact (reads_cons.mp hrest).1
    · rw [BrokenItems.bytes, hbytes, itemsBytes, List.append_assoc]

/-- The entries of a dictionary, where the buffer ends in the value of the next one. -/
theorem entriesFoundAt_of_endsAtValue {u : Bytes} {k : Text} (hk : k.Accepted)
    (ih : ∀ c : UInt32, Reads buf c u → buf[(advance c u).toNat]? = none →
      ∃ b : Broken, b.FoundAt buf c ∧ b.bytes = u ∧ b.stop = .ranOff) :
    ∀ {es : List (Text × Parsed)} {c : UInt32}, EntriesAccepted es →
      Reads buf c (entriesBytes es ++ (k.bytes ++ u)) →
      buf[(advance c (entriesBytes es ++ (k.bytes ++ u))).toNat]? = none →
      ∃ b : BrokenEntries, b.FoundAt buf c ∧ b.bytes = entriesBytes es ++ (k.bytes ++ u) ∧
        b.stop = .ranOff
  | [], c, _, hread, hend => by
    rw [entriesBytes, List.nil_append] at hread hend
    rw [advance_append] at hend
    obtain ⟨hkread, hrest⟩ := reads_append.mp hread
    obtain ⟨b, hfound, hbytes, hstop⟩ := ih _ hrest hend
    refine ⟨.value k b, ⟨hk, hkread, hfound⟩, ?_, hstop⟩
    rw [BrokenEntries.bytes, hbytes, entriesBytes, List.nil_append]
  | (k', t) :: es, c, hes, hread, hend => by
    have hsplit : entriesBytes ((k', t) :: es) ++ (k.bytes ++ u) =
        (k'.bytes ++ t.bytes) ++ (entriesBytes es ++ (k.bytes ++ u)) := by
      rw [entriesBytes]
      simp
    rw [hsplit] at hread hend
    rw [advance_append] at hend
    obtain ⟨hentry, hrest⟩ := reads_append.mp hread
    obtain ⟨b, hfound, hbytes, hstop⟩ := entriesFoundAt_of_endsAtValue hk ih hes.2.2.2 hrest hend
    -- The byte after the entry is that of the next key.
    obtain ⟨x, l, hx, hxe⟩ : ∃ x l, entriesBytes es ++ (k.bytes ++ u) = x :: l ∧ x ≠ Ascii.e := by
      cases es with
      | nil =>
        obtain ⟨x, l, hx, -⟩ := Text.bytes_head hk
        exact ⟨x, l ++ u, by rw [entriesBytes, hx]; rfl, Text.bytes_head_ne hk hx⟩
      | cons e' es =>
        obtain ⟨x, l, hx, hxe⟩ := entriesBytes_head (k := e'.1) (t := e'.2) hes.2.2.2
        exact ⟨x, l ++ (k.bytes ++ u), by rw [hx, List.cons_append], hxe⟩
    refine ⟨.next k' t b, ⟨hes.1, hes.2.1, hes.2.2.1, hentry, ⟨x, ?_, hxe⟩, hfound⟩, ?_, hstop⟩
    · rw [hx] at hrest
      exact (reads_cons.mp hrest).1
    · rw [BrokenEntries.bytes, hbytes, hsplit]

/-- Where the buffer ends as `EndsAtValue` says, the parser finds a broken value for which control
runs off the end. -/
theorem EndsAtValue.foundAt {u : Bytes} (hu : EndsAtValue u) : ∀ c : UInt32, Reads buf c u →
    buf[(advance c u).toNat]? = none →
    ∃ b : Broken, b.FoundAt buf c ∧ b.bytes = u ∧ b.stop = .ranOff := by
  induction hu with
  | nil => exact fun c _ hend => ⟨.noByte, by rwa [advance_nil] at hend, rfl, rfl⟩
  | @list ts u hts hu hne ih =>
    intro c hread hend
    obtain ⟨hl, hrest⟩ := reads_cons.mp hread
    rw [advance_cons] at hend
    obtain ⟨b, hfound, hbytes, hstop⟩ := itemsFoundAt_of_endsAtValue hu ih hts hne hrest hend
    exact ⟨.list b, ⟨hl, hfound⟩, by rw [Broken.bytes, hbytes], hstop⟩
  | @dict es k u hes hk hu ih =>
    intro c hread hend
    obtain ⟨hd, hrest⟩ := reads_cons.mp hread
    rw [advance_cons] at hend
    obtain ⟨b, hfound, hbytes, hstop⟩ := entriesFoundAt_of_endsAtValue hk ih hes hrest hend
    exact ⟨.dict b, ⟨hd, hfound⟩, by rw [Broken.bytes, hbytes], hstop⟩

/-- On a buffer shorter than `2^32` bytes, the outcome is defined exactly if the buffer does not end
where a value is due. -/
theorem definedOutcome_iff (hbuf : buf.length < 2^32) :
    DefinedOutcome buf ↔ ¬ EndsAtValue buf := by
  constructor
  · intro hdef hend
    -- The buffer ends as `EndsAtValue` says, so every parse runs off the end.
    have hself : Reads buf 0 buf := (reads_zero hbuf).mpr (List.prefix_refl _)
    have hnone : buf[(advance 0 buf).toNat]? = none := by
      rw [advance_toNat (by simpa using hbuf)]
      simp
    obtain ⟨b, hfound, hbytes, hstop⟩ := hend.foundAt 0 hself hnone
    have hrun := parse_of_foundAt hfound (n := 3 * buf.length + 3) (by rw [hbytes]) (fresh {})
    rw [hstop] at hrun
    rcases hdef _ (fresh {}) le_rfl with ⟨p, s', h, -⟩ | ⟨x, s', h⟩
    · exact absurd (hrun.symm.trans h) (by simp)
    · exact absurd (Outcome.stopped.inj (hrun.symm.trans h)).1 (by simp)
  · intro hend n s hn
    rcases parse_cases hbuf hn with ⟨t, -, hrun⟩ | ⟨b, hfound, hrun⟩
    · refine .inl ⟨_, _, hrun s, ?_, fun obj hobj q hq => ?_⟩
      · rw [t.replay_heap, List.length_append, t.layout_length]
        exact Nat.lt_add_of_pos_right t.nodes_pos
      · have hdrop := t.replay_drop s.rewind
        rw [State.rewind_heap] at hdrop
        rw [hdrop] at hobj
        rw [t.replay_heap, List.length_append, t.layout_length]
        exact Parsed.layout_children hobj hq
    · rcases b.stop_cases with ⟨x, hx⟩ | hstop
      · exact .inr ⟨x, _, hx ▸ hrun s⟩
      · -- What was read is the whole buffer.
        obtain ⟨hvalue, hnone⟩ := Broken.ranOff_endsAtValue hfound hstop
        have hpre := (reads_zero hbuf).mp hfound.reads
        have hle := hpre.length_le
        rw [advance_toNat (by simp; omega), List.getElem?_eq_none_iff] at hnone
        simp only [UInt32.toNat_zero, Nat.zero_add] at hnone
        exact absurd (hpre.eq_of_length_le hnone ▸ hvalue) hend

end

/-- The equivalence at the buffer `l`, a list that ends after its first byte. -/
theorem definedOutcome_iff_l : DefinedOutcome [108] ↔ ¬ EndsAtValue [108] :=
  definedOutcome_iff (by decide)

/-- On the empty buffer control runs off the end. -/
theorem not_definedOutcome_nil : ¬ DefinedOutcome [] := by
  intro h
  rcases h 3 (fresh {}) (by decide) with ⟨p, s', h, -⟩ | ⟨x, s', h⟩
  · cases h
  · cases h

end Btor
