import Btor.Lengths
import Btor.RoundTrip

/-!
# Encodings that the parser refuses

The trees that the parser can represent are those within its ranges (`Value.InRange`) without empty
lists and dictionaries (`Value.NonEmpty`) and with integers under the keys `length`
(`Value.LengthsInteger`). The parser throws on every encoding of another tree within its ranges: a
`BParserException` at the `e` of the first list or dictionary that is empty, or a `BTypeException`
at the first value under a key `length` that is no integer, whichever comes first
(`Encodes.obstacle`).
-/

namespace Btor

open Lib (Outcome OrderedMap)

/-! ## The conditions on a tree -/

mutual

/-- Integers are below `2^63` in magnitude, strings and keys are shorter than `2^31` bytes, and the
entries of a dictionary are listed in key order, so its keys are distinct. -/
def Value.InRange : Value → Prop
  | .integer n => |n| < 2^63
  | .string s => s.length < 2^31
  | .list vs => ItemsInRange vs
  | .dict es => es.Pairwise (·.1 < ·.1) ∧ EntriesInRange es

/-- Each item is in range. -/
def ItemsInRange : List Value → Prop
  | [] => True
  | v :: vs => v.InRange ∧ ItemsInRange vs

/-- Each key and each value is in range. -/
def EntriesInRange : List (Bytes × Value) → Prop
  | [] => True
  | (k, v) :: es => k.length < 2^31 ∧ v.InRange ∧ EntriesInRange es

end

mutual

/-- No list or dictionary of the tree is empty, at any depth. -/
def Value.NonEmpty : Value → Prop
  | .integer _ => True
  | .string _ => True
  | .list vs => vs ≠ [] ∧ ItemsNonEmpty vs
  | .dict es => es ≠ [] ∧ EntriesNonEmpty es

/-- No container in the items is empty. -/
def ItemsNonEmpty : List Value → Prop
  | [] => True
  | v :: vs => v.NonEmpty ∧ ItemsNonEmpty vs

/-- No container in the values is empty. -/
def EntriesNonEmpty : List (Bytes × Value) → Prop
  | [] => True
  | (_, v) :: es => v.NonEmpty ∧ EntriesNonEmpty es

end

/-- The condition on a dictionary's entries is one on each of them. -/
theorem entriesInRange_iff {es : List (Bytes × Value)} :
    EntriesInRange es ↔ ∀ e ∈ es, e.1.length < 2^31 ∧ e.2.InRange := by
  induction es with
  | nil => simp [EntriesInRange]
  | cons e es ih =>
    obtain ⟨k, v⟩ := e
    rw [EntriesInRange, List.forall_mem_cons, ← ih, and_assoc]

/-- The containers in entries are those in each. -/
theorem entriesNonEmpty_iff {es : List (Bytes × Value)} :
    EntriesNonEmpty es ↔ ∀ e ∈ es, e.2.NonEmpty := by
  induction es with
  | nil => simp [EntriesNonEmpty]
  | cons e es ih =>
    obtain ⟨k, v⟩ := e
    rw [EntriesNonEmpty, List.forall_mem_cons, ← ih]

mutual

/-- The parser can represent a tree if it meets the three conditions. -/
theorem Value.encodable_iff : ∀ v : Value,
    v.Encodable ↔ v.InRange ∧ v.NonEmpty ∧ v.LengthsInteger
  | .integer n => by simp [Value.Encodable, Value.InRange, Value.NonEmpty, Value.LengthsInteger]
  | .string s => by simp [Value.Encodable, Value.InRange, Value.NonEmpty, Value.LengthsInteger]
  | .list vs => by
    rw [Value.Encodable, Value.InRange, Value.NonEmpty, Value.LengthsInteger,
      itemsEncodable_iff vs]
    tauto
  | .dict es => by
    rw [Value.Encodable, Value.InRange, Value.NonEmpty, Value.LengthsInteger,
      entriesEncodable_iff' es]
    tauto

/-- Items can be encoded for the parser if they are in range, with no empty container and no length
that is no integer. -/
theorem itemsEncodable_iff : ∀ vs : List Value,
    ItemsEncodable vs ↔ ItemsInRange vs ∧ ItemsNonEmpty vs ∧ ValuesLengthsInteger vs
  | [] => by simp [ItemsEncodable, ItemsInRange, ItemsNonEmpty, ValuesLengthsInteger]
  | v :: vs => by
    rw [ItemsEncodable, ItemsInRange, ItemsNonEmpty, ValuesLengthsInteger, v.encodable_iff,
      itemsEncodable_iff vs]
    tauto

/-- So can entries. -/
theorem entriesEncodable_iff' : ∀ es : List (Bytes × Value),
    EntriesEncodable es ↔ EntriesInRange es ∧ EntriesNonEmpty es ∧ PairsLengthsInteger es
  | [] => by simp [EntriesEncodable, EntriesInRange, EntriesNonEmpty, PairsLengthsInteger]
  | (k, v) :: es => by
    rw [EntriesEncodable, EntriesInRange, EntriesNonEmpty, PairsLengthsInteger, v.encodable_iff,
      entriesEncodable_iff' es]
    tauto

end

mutual

/-- The tree of what the parser accepts has no empty list or dictionary. -/
theorem Parsed.Accepted.nonEmpty : ∀ {t : Parsed}, t.Accepted → t.value.NonEmpty
  | .integer _, _ => trivial
  | .string _, _ => trivial
  | .list ts, h => by
    refine ⟨?_, ItemsAccepted.nonEmpty h.2⟩
    cases ts with
    | nil => exact absurd rfl h.1
    | cons t ts => exact List.cons_ne_nil _ _
  | .dict es, h => by
    refine ⟨?_, entriesNonEmpty_iff.mpr fun e he => ?_⟩
    · -- The first key is in the map.
      cases es with
      | nil => exact absurd rfl h.1
      | cons e es =>
        obtain ⟨k, t⟩ := e
        obtain ⟨w, hw⟩ := OrderedMap.exists_mem_insertAll (m := OrderedMap.empty)
          (l := entriesValues ((k, t) :: es)) (.inr ⟨t.value, List.mem_cons_self⟩)
        exact List.ne_nil_of_mem hw
    · rcases OrderedMap.mem_insertAll he with hnil | he
      · cases hnil
      · exact entriesNonEmpty_iff.mp (EntriesAccepted.nonEmpty h.2) e he

/-- Accepted items have no empty container. -/
theorem ItemsAccepted.nonEmpty : ∀ {ts : List Parsed}, ItemsAccepted ts →
    ItemsNonEmpty (itemsValues ts)
  | [], _ => trivial
  | _ :: _, h => ⟨h.1.nonEmpty, h.2.nonEmpty⟩

/-- Neither have accepted entries. -/
theorem EntriesAccepted.nonEmpty : ∀ {es : List (Text × Parsed)}, EntriesAccepted es →
    EntriesNonEmpty (entriesValues es)
  | [], _ => trivial
  | (_, _) :: _, h => ⟨h.2.1.nonEmpty, h.2.2.2.nonEmpty⟩

end

/-! ## Where the parser gives up on an encoding -/

/-- The reason for which the parser gives up on a tree that is not free of empty containers, or that
has a value under a key `length` that is no integer. -/
def Refusal (nonEmpty lengthsInteger : Prop) (e : Stop) : Prop :=
  (e = .threw (.bParserException Ascii.e) ∧ ¬ nonEmpty) ∨
    (e = .threw .bTypeException ∧ ¬ lengthsInteger)

/-- A part is refused, and so is the whole. -/
theorem Refusal.mono {a a' b b' : Prop} {e : Stop} (h : Refusal a b e) (ha : a' → a)
    (hb : b' → b) : Refusal a' b' e :=
  h.imp (fun h => ⟨h.1, fun h' => h.2 (ha h')⟩) fun h => ⟨h.1, fun h' => h.2 (hb h')⟩

/-- The encoding of a string starts with a digit. -/
theorem EncodesString.head {s l : Bytes} (h : EncodesString s l) :
    ∃ x l', l = x :: l' ∧ isDigit x = true := by
  obtain ⟨hds, -⟩ := h
  rename_i ds
  cases ds with
  | nil => exact absurd rfl hds.ne_nil
  | cons x ds => exact ⟨x, _, rfl, hds.digits x List.mem_cons_self⟩

/-- No encoding starts with an `e`. -/
theorem Encodes.head {v : Value} {l : Bytes} (h : Encodes v l) :
    ∃ x l', l = x :: l' ∧ x ≠ Ascii.e := by
  cases h with
  | integer _ => exact ⟨_, _, rfl, by decide⟩
  | string h =>
    obtain ⟨x, l', rfl, hx⟩ := h.head
    exact ⟨x, l', rfl, (isDigit_ne hx).2.2.2.1⟩
  | list _ => exact ⟨_, _, rfl, by decide⟩
  | dict _ _ => exact ⟨_, _, rfl, by decide⟩

/-- The encoding of an item does not start with `e`. -/
theorem EncodesItems.head {vs : List Value} {l : Bytes} (h : EncodesItems vs l) (hvs : vs ≠ []) :
    ∃ x l', l = x :: l' ∧ x ≠ Ascii.e := by
  cases h with
  | nil => exact absurd rfl hvs
  | cons h _ =>
    obtain ⟨x, l', rfl, hx⟩ := h.head
    exact ⟨x, _, rfl, hx⟩

/-- Neither does that of an entry. -/
theorem EncodesEntries.head {es : List (Bytes × Value)} {l : Bytes} (h : EncodesEntries es l)
    (hes : es ≠ []) : ∃ x l', l = x :: l' ∧ x ≠ Ascii.e := by
  cases h with
  | nil => exact absurd rfl hes
  | cons hk _ _ =>
    obtain ⟨x, l', rfl, hx⟩ := hk.head
    exact ⟨x, _, rfl, (isDigit_ne hx).2.2.2.1⟩

/-- The encoding of a tree that the parser can represent is one that it accepts. -/
theorem Encodes.accepted {v : Value} {l : Bytes} (h : Encodes v l) (hv : v.Encodable) :
    ∃ t : Parsed, t.Accepted ∧ t.bytes = l ∧ t.value = v := by
  obtain ⟨t, -, hbytes, hrep⟩ := h.canonical
  obtain ⟨hacc, hvalue⟩ := hrep hv
  exact ⟨t, hacc, hbytes, hvalue⟩

/-- The encoding of a string shorter than `2^31` bytes is one that the parser accepts. -/
theorem EncodesString.accepted {s l : Bytes} (h : EncodesString s l) (hs : s.length < 2^31) :
    ∃ k : Text, k.Accepted ∧ k.bytes = l ∧ k.payload = s := by
  obtain ⟨hds, hlen⟩ := h
  rename_i ds
  exact ⟨⟨ds, s⟩, Text.Canonical.accepted ⟨hds, hlen⟩ (show s.length < 2^32 by omega), rfl, rfl⟩

/-- Only an integer has an integer as its tree. -/
theorem Parsed.isInteger_iff {t : Parsed} : t.IsInteger ↔ t.value.IsInteger := by
  cases t <;> rfl

mutual

/-- On an encoding of a tree within its ranges that it cannot represent, the parser gives up, for
one of the two reasons, wherever the encoding stands. -/
theorem Encodes.obstacle : ∀ {v : Value} {l : Bytes}, Encodes v l → v.InRange → ¬ v.Encodable →
    ∃ b : Broken, Refusal v.NonEmpty v.LengthsInteger b.stop ∧ b.bytes.length ≤ l.length ∧
      ∀ buf c, Reads buf c l → b.FoundAt buf c
  | .integer _, _, _, hr, hv => absurd hr hv
  | .string _, _, _, hr, hv => absurd hr hv
  | .list vs, _, .list h, hr, hv => by
    by_cases hnil : vs = []
    · -- The first item is parsed before the loop looks for the `e`.
      subst hnil
      cases h
      refine ⟨.list (.item (.badByte Ascii.e)), .inl ⟨rfl, fun hne => hne.1 rfl⟩, by decide, ?_⟩
      intro buf c hread
      obtain ⟨hl, he, -⟩ := hread
      exact ⟨hl, he, by decide⟩
    · obtain ⟨b, hb, hlen, hfound⟩ := EncodesItems.obstacle h hr fun hvs => hv ⟨hnil, hvs⟩
      refine ⟨.list b, hb.mono (fun hne => hne.2) (fun hli => hli), ?_, fun buf c hread => ?_⟩
      · simp only [Broken.bytes, List.length_cons, List.length_append]
        omega
      · exact ⟨hread.1, hfound buf (c + 1) (reads_append.mp hread.2).1⟩
  | .dict es, _, @Encodes.dict _ es' _ hperm h, hr, hv => by
    by_cases hnil : es' = []
    · -- The first key is parsed before the loop looks for the `e`.
      subst hnil
      obtain rfl := hperm.eq_nil
      cases h
      refine ⟨.dict (.key (.badByte [] Ascii.e)), .inl ⟨rfl, fun hne => hne.1 rfl⟩, by decide, ?_⟩
      intro buf c hread
      obtain ⟨hd, he, -⟩ := hread
      exact ⟨hd, by simp, ⟨he, trivial⟩, by decide⟩
    · -- The conditions on the entries do not depend on their order.
      have hr' : EntriesInRange es' := entriesInRange_iff.mpr fun e he =>
        entriesInRange_iff.mp hr.2 e (hperm.mem_iff.mpr he)
      have hv' : ¬ EntriesEncodable es' := fun hes => by
        refine hv ⟨?_, hr.1, entriesEncodable_iff.mpr fun e he =>
          entriesEncodable_iff.mp hes e (hperm.mem_iff.mp he)⟩
        rintro rfl
        exact hnil hperm.symm.eq_nil
      obtain ⟨b, hb, hlen, hfound⟩ := EncodesEntries.obstacle h hr' hv'
      refine ⟨.dict b, hb.mono (fun hne => ?_) (fun hli => ?_), ?_, fun buf c hread => ?_⟩
      · exact entriesNonEmpty_iff.mpr fun e he =>
          entriesNonEmpty_iff.mp hne.2 e (hperm.mem_iff.mpr he)
      · exact pairsLengthsInteger_iff.mpr fun e he =>
          pairsLengthsInteger_iff.mp hli e (hperm.mem_iff.mpr he)
      · simp only [Broken.bytes, List.length_cons, List.length_append]
        omega
      · exact ⟨hread.1, hfound buf (c + 1) (reads_append.mp hread.2).1⟩

/-- Items that cannot be encoded for the parser have a broken value in their encoding. -/
theorem EncodesItems.obstacle : ∀ {vs : List Value} {l : Bytes}, EncodesItems vs l →
    ItemsInRange vs → ¬ ItemsEncodable vs →
    ∃ b : BrokenItems, Refusal (ItemsNonEmpty vs) (ValuesLengthsInteger vs) b.stop ∧
      b.bytes.length ≤ l.length ∧ ∀ buf c, Reads buf c l → b.FoundAt buf c
  | [], _, _, _, hv => absurd trivial hv
  | v :: vs, _, @EncodesItems.cons _ _ l l' h h', hr, hv => by
    by_cases hfirst : v.Encodable
    · -- The first item is read, and what follows it is no `e`.
      obtain ⟨t, hacc, rfl, -⟩ := h.accepted hfirst
      have hrest : ¬ ItemsEncodable vs := fun hvs => hv ⟨hfirst, hvs⟩
      obtain ⟨b, hb, hlen, hfound⟩ := EncodesItems.obstacle h' hr.2 hrest
      obtain ⟨x, l'', rfl, hx⟩ := h'.head fun hnil => hrest (hnil ▸ trivial)
      refine ⟨.next t b, hb.mono (fun hne => hne.2) (fun hli => hli.2), ?_, fun buf c hread => ?_⟩
      · simp only [BrokenItems.bytes, List.length_append] at hlen ⊢
        omega
      · obtain ⟨hread, hread'⟩ := reads_append.mp hread
        exact ⟨hacc, hread, ⟨x, hread'.1, hx⟩, hfound buf _ hread'⟩
    · obtain ⟨b, hb, hlen, hfound⟩ := Encodes.obstacle h hr.1 hfirst
      refine ⟨.item b, hb.mono (fun hne => hne.1) (fun hli => hli.1), ?_, fun buf c hread => ?_⟩
      · simp only [BrokenItems.bytes, List.length_append]
        omega
      · exact hfound buf c (reads_append.mp hread).1

/-- So have entries. -/
theorem EncodesEntries.obstacle : ∀ {es : List (Bytes × Value)} {l : Bytes},
    EncodesEntries es l → EntriesInRange es → ¬ EntriesEncodable es →
    ∃ b : BrokenEntries, Refusal (EntriesNonEmpty es) (PairsLengthsInteger es) b.stop ∧
      b.bytes.length ≤ l.length ∧ ∀ buf c, Reads buf c l → b.FoundAt buf c
  | [], _, _, _, hv => absurd trivial hv
  | (key, v) :: es, _, @EncodesEntries.cons _ _ _ lk l l' hk h h', hr, hv => by
    obtain ⟨k, hkacc, rfl, rfl⟩ := hk.accepted hr.1
    by_cases hfirst : v.Encodable
    · obtain ⟨t, hacc, rfl, rfl⟩ := h.accepted hfirst
      by_cases hint : k.payload = lengthKey → t.value.IsInteger
      · -- The entry is read, and what follows it is no `e`.
        have hrest : ¬ EntriesEncodable es := fun hes => hv ⟨hr.1, hfirst, hint, hes⟩
        obtain ⟨b, hb, hlen, hfound⟩ := EncodesEntries.obstacle h' hr.2.2 hrest
        obtain ⟨x, l'', rfl, hx⟩ := h'.head fun hnil => hrest (hnil ▸ trivial)
        refine ⟨.next k t b, hb.mono (fun hne => hne.2) (fun hli => hli.2.2), ?_,
          fun buf c hread => ?_⟩
        · simp only [BrokenEntries.bytes, List.length_append] at hlen ⊢
          omega
        · rw [← List.append_assoc] at hread
          obtain ⟨hread, hread'⟩ := reads_append.mp hread
          exact ⟨hkacc, hacc, fun hl => Parsed.isInteger_iff.mpr (hint hl), hread,
            ⟨x, hread'.1, hx⟩, hfound buf _ hread'⟩
      · -- The value under the key `length` is read, and is no integer.
        obtain ⟨hl, hno⟩ := Classical.not_imp.mp hint
        refine ⟨.notInteger k t, .inr ⟨rfl, fun hli => hno (hli.1 hl)⟩, ?_, fun buf c hread => ?_⟩
        · simp only [BrokenEntries.bytes, List.length_append]
          omega
        · rw [← List.append_assoc] at hread
          exact ⟨hkacc, hacc, ⟨hl, fun h => hno (Parsed.isInteger_iff.mp h)⟩,
            (reads_append.mp hread).1⟩
    · obtain ⟨b, hb, hlen, hfound⟩ := Encodes.obstacle h hr.2.1 hfirst
      refine ⟨.value k b, hb.mono (fun hne => hne.1) (fun hli => hli.2.1), ?_,
        fun buf c hread => ?_⟩
      · simp only [BrokenEntries.bytes, List.length_append]
        omega
      · obtain ⟨hread, hread'⟩ := reads_append.mp hread
        exact ⟨hkacc, hread, hfound buf _ (reads_append.mp hread').1⟩

end

/-! ## Trees with empty containers -/

/-- The parser throws on a buffer that starts with an encoding of a tree within its ranges that it
cannot represent. -/
theorem parse_refused {v : Value} {e : Bytes} (he : Encodes v e) (hr : v.InRange)
    (hv : ¬ v.Encodable) {buf : Bytes} (hread : Reads buf 0 e) {n : ℕ} (hn : 3 * e.length + 3 ≤ n)
    (s : State) : ∃ x s', (parseBencodedString buf n).run s = .stopped x s' ∧
      Refusal v.NonEmpty v.LengthsInteger x := by
  obtain ⟨b, hb, hlen, hfound⟩ := he.obstacle hr hv
  exact ⟨_, _, parse_of_foundAt (hfound buf 0 hread) (by omega) s, hb⟩

/-- What the parser returns has no empty list or dictionary. -/
theorem parse_nonEmpty {buf : Bytes} {n : ℕ} {s s' : State} {p : Ptr} {v : Value}
    (h : (parseBencodedString buf n).run s = .returned p s') (hv : Denotes s'.heap p v) :
    v.NonEmpty := by
  obtain ⟨t, ht, -, ht'⟩ := parse_denotes h
  rw [denotes_unique hv ht']
  exact ht.accepted.nonEmpty

/-- No parse of an encoding of a tree with an empty list or dictionary returns the tree. In a buffer
shorter than `2^32` bytes the parser throws at the `e` of such a container. -/
theorem parse_empty {v : Value} {e : Bytes} (hr : v.InRange) (hl : v.LengthsInteger)
    (hempty : ¬ v.NonEmpty) (he : Encodes v e) (w : Bytes) :
    (∀ (n : ℕ) (s s' : State) (p : Ptr),
      (parseBencodedString (e ++ w) n).run s = .returned p s' → ¬ Denotes s'.heap p v) ∧
    ((e ++ w).length < 2^32 → ∀ (n : ℕ) (s : State), 3 * e.length + 3 ≤ n →
      ∃ s', (parseBencodedString (e ++ w) n).run s =
        .stopped (.threw (.bParserException Ascii.e)) s') := by
  refine ⟨fun n s s' p h hv => hempty (parse_nonEmpty h hv), fun hlen n s hn => ?_⟩
  have hread : Reads (e ++ w) 0 e := (reads_zero hlen).mpr (List.prefix_append e w)
  have hv : ¬ v.Encodable := fun hv => hempty (v.encodable_iff.mp hv).2.1
  obtain ⟨x, s', hrun, hx⟩ := parse_refused he hr hv hread hn s
  rcases hx with ⟨rfl, -⟩ | ⟨-, hno⟩
  · exact ⟨s', hrun⟩
  · exact absurd hl hno

/-- The parser throws on the empty list `le`. -/
theorem parse_empty_le : ∃ s', (parseBencodedString ([108, 101] ++ []) 9).run (fresh {}) =
    .stopped (.threw (.bParserException Ascii.e)) s' :=
  (parse_empty (v := .list []) trivial trivial (fun h => h.1 rfl) (.list .nil) []).2 (by decide) 9
    (fresh {}) (by decide)

/-- A tracker's reply without peers, `d5:peerslee`, encodes a tree that the parser does not
return. -/
theorem not_parse_empty : ¬ ∀ (v : Value) (e : Bytes), v.InRange → v.LengthsInteger →
    ¬ v.NonEmpty → Encodes v e → ∃ n p s',
      (parseBencodedString e n).run (fresh {}) = .returned p s' ∧ Denotes s'.heap p v := by
  intro h
  have hkey : EncodesString [112, 101, 101, 114, 115] [53, 58, 112, 101, 101, 114, 115] :=
    @EncodesString.mk _ [53] ⟨by simp, by simp [isDigit], by simp⟩ rfl
  have he : Encodes (.dict [([112, 101, 101, 114, 115], .list [])])
      [100, 53, 58, 112, 101, 101, 114, 115, 108, 101, 101] :=
    .dict (List.Perm.refl _) (.cons hkey (.list .nil) .nil)
  have hempty : ¬ (Value.dict [([112, 101, 101, 114, 115], .list [])]).NonEmpty :=
    fun hne => hne.2.1.1 rfl
  have hr : (Value.dict [([112, 101, 101, 114, 115], .list [])]).InRange :=
    ⟨List.pairwise_singleton _ _, by decide, trivial, trivial⟩
  have hl : (Value.dict [([112, 101, 101, 114, 115], .list [])]).LengthsInteger :=
    ⟨fun hk => absurd hk (by decide), trivial, trivial⟩
  obtain ⟨n, p, s', hrun, hv⟩ := h _ _ hr hl hempty he
  exact hempty (parse_nonEmpty hrun hv)

end Btor
