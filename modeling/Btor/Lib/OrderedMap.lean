import Mathlib

/-!
# Maps kept in key order

The map of a C++ `std::map`: its entries in strictly increasing key order, and an `insert` that
leaves the map unchanged when the key is already there. Strict order is a field of the map, so two
maps with the same entries in any order are equal (`OrderedMap.ext_perm`), and inserting a list of
entries with distinct keys yields exactly those entries (`OrderedMap.insertAll_perm`).
-/

namespace Lib

/-- The insertion of an entry into a list in key order. An entry of the same key stays. -/
def insertEntry {K V : Type} [LinearOrder K] (k : K) (v : V) : List (K × V) → List (K × V)
  | [] => [(k, v)]
  | e :: l =>
    if k < e.1 then (k, v) :: e :: l
    else if e.1 < k then e :: insertEntry k v l
    else e :: l

/-- A map as the list of its entries, in strictly increasing key order. -/
@[ext] structure OrderedMap (K V : Type) [LinearOrder K] where
  entries : List (K × V)
  sorted : entries.Pairwise (·.1 < ·.1)

section

variable {K V W : Type} [LinearOrder K]

/-- An entry of the list is the new one or one from before. -/
theorem mem_insertEntry {k : K} {v : V} {l : List (K × V)} {e : K × V}
    (h : e ∈ insertEntry k v l) : e = (k, v) ∨ e ∈ l := by
  induction l with
  | nil => simpa [insertEntry] using h
  | cons a l ih =>
    rw [insertEntry] at h
    split_ifs at h <;> grind

/-- After an insertion the key is there, and so are the keys that were. -/
theorem exists_mem_insertEntry {k : K} {v : V} {l : List (K × V)} {j : K}
    (h : j = k ∨ ∃ w, (j, w) ∈ l) : ∃ w, (j, w) ∈ insertEntry k v l := by
  induction l with
  | nil =>
    rcases h with rfl | ⟨w, hw⟩
    · exact ⟨v, List.mem_cons_self⟩
    · cases hw
  | cons a l ih =>
    rw [insertEntry]
    -- The new entry goes in front, further back, or nowhere: the key is that of `a`.
    split_ifs with h1 h2
    · rcases h with rfl | ⟨w, hw⟩
      · exact ⟨v, List.mem_cons_self⟩
      · exact ⟨w, List.mem_cons_of_mem _ hw⟩
    · rcases h with rfl | ⟨w, hw⟩
      · obtain ⟨w, hw⟩ := ih (.inl rfl)
        exact ⟨w, List.mem_cons_of_mem _ hw⟩
      · rcases List.mem_cons.mp hw with rfl | hw
        · exact ⟨w, List.mem_cons_self⟩
        · obtain ⟨w', hw'⟩ := ih (.inr ⟨w, hw⟩)
          exact ⟨w', List.mem_cons_of_mem _ hw'⟩
    · rcases h with rfl | ⟨w, hw⟩
      · exact ⟨a.2, le_antisymm (not_lt.mp h2) (not_lt.mp h1) ▸ List.mem_cons_self⟩
      · exact ⟨w, hw⟩

/-- The list stays sorted. -/
theorem insertEntry_sorted {k : K} {v : V} {l : List (K × V)} (h : l.Pairwise (·.1 < ·.1)) :
    (insertEntry k v l).Pairwise (·.1 < ·.1) := by
  induction l with
  | nil => simp [insertEntry]
  | cons a l ih =>
    obtain ⟨ha, hl⟩ := List.pairwise_cons.mp h
    rw [insertEntry]
    split_ifs with h1 h2
    · refine List.pairwise_cons.mpr ⟨fun e he => ?_, h⟩
      rcases List.mem_cons.mp he with rfl | he
      · exact h1
      · exact h1.trans (ha e he)
    · refine List.pairwise_cons.mpr ⟨fun e he => ?_, ih hl⟩
      rcases mem_insertEntry he with rfl | he
      · exact h2
      · exact ha e he
    · exact h

/-- A new key adds its entry and nothing else. -/
theorem insertEntry_perm {k : K} (v : V) {l : List (K × V)} (h : ∀ e ∈ l, e.1 ≠ k) :
    (insertEntry k v l).Perm ((k, v) :: l) := by
  induction l with
  | nil => exact List.Perm.refl _
  | cons a l ih =>
    rw [insertEntry]
    split_ifs with h1 h2
    · exact List.Perm.refl _
    · exact ((ih fun e he => h e (List.mem_cons_of_mem _ he)).cons a).trans (List.Perm.swap _ _ _)
    · exact absurd (le_antisymm (not_lt.mp h1) (not_lt.mp h2)) (h a List.mem_cons_self)

/-- An insertion adds its entry, or changes nothing. -/
theorem insertEntry_cases (k : K) (v : V) (l : List (K × V)) :
    (insertEntry k v l).Perm ((k, v) :: l) ∨ insertEntry k v l = l := by
  induction l with
  | nil => exact .inl (List.Perm.refl _)
  | cons a l ih =>
    rw [insertEntry]
    split_ifs with h1 h2
    · exact .inl (List.Perm.refl _)
    · rcases ih with hperm | heq
      · exact .inl ((hperm.cons a).trans (List.Perm.swap _ _ _))
      · exact .inr (by rw [heq])
    · exact .inr rfl

/-- Two lists of entries that agree key by key, with values related by `R`, still do after an
insertion of related values. -/
theorem insertEntry_forall₂ {R : V → W → Prop} {l : List (K × V)} {l' : List (K × W)}
    (h : List.Forall₂ (fun a b => a.1 = b.1 ∧ R a.2 b.2) l l') (k : K) {v : V} {w : W}
    (hvw : R v w) :
    List.Forall₂ (fun a b => a.1 = b.1 ∧ R a.2 b.2) (insertEntry k v l) (insertEntry k w l') := by
  induction h with
  | nil => exact .cons ⟨rfl, hvw⟩ .nil
  | @cons a b l l' hab hl ih =>
    rw [insertEntry, insertEntry, ← hab.1]
    split_ifs with h1 h2
    · exact .cons ⟨rfl, hvw⟩ (.cons hab hl)
    · exact .cons hab ih
    · exact .cons hab hl

end

namespace OrderedMap

variable {K V W : Type} [LinearOrder K]

/-- The map with no entries. -/
def empty : OrderedMap K V := ⟨[], List.Pairwise.nil⟩

/-- `std::map::insert`: adds the entry unless the key is already there. -/
def insert (m : OrderedMap K V) (k : K) (v : V) : OrderedMap K V :=
  ⟨insertEntry k v m.entries, insertEntry_sorted m.sorted⟩

/-- The value under a key. -/
def get? (m : OrderedMap K V) (k : K) : Option V :=
  (m.entries.find? (fun e => e.1 = k)).map (·.2)

/-- The empty map has no entries. -/
@[simp] theorem entries_empty : (empty : OrderedMap K V).entries = [] := rfl

/-- The entries of a map with a new entry. -/
@[simp] theorem entries_insert (m : OrderedMap K V) (k : K) (v : V) :
    (m.insert k v).entries = insertEntry k v m.entries := rfl

/-- The insertion of a list of entries, in order. -/
def insertAll (m : OrderedMap K V) (l : List (K × V)) : OrderedMap K V :=
  l.foldl (fun m e => m.insert e.1 e.2) m

/-- No entries are inserted. -/
@[simp] theorem insertAll_nil (m : OrderedMap K V) : m.insertAll [] = m := rfl

/-- The first entry is inserted before the others. -/
@[simp] theorem insertAll_cons (m : OrderedMap K V) (e : K × V) (l : List (K × V)) :
    m.insertAll (e :: l) = (m.insert e.1 e.2).insertAll l := rfl

/-- Maps with the same entries, in any order, are equal. -/
theorem ext_perm {m m' : OrderedMap K V} (h : m.entries.Perm m'.entries) : m = m' := by
  apply OrderedMap.ext
  refine List.Perm.eq_of_pairwise (fun a b _ _ hab hba => ?_) m.sorted m'.sorted h
  exact absurd (hab.trans hba) (lt_irrefl _)

/-- Entries with distinct keys, none of them in the map, all end up in it. -/
theorem insertAll_perm {m : OrderedMap K V} {l : List (K × V)} (hl : (l.map (·.1)).Nodup)
    (hm : ∀ e ∈ m.entries, ∀ e' ∈ l, e.1 ≠ e'.1) :
    (m.insertAll l).entries.Perm (m.entries ++ l) := by
  induction l generalizing m with
  | nil => simp
  | cons a l ih =>
    rw [List.map_cons, List.nodup_cons] at hl
    -- The first entry is new to the map, and the rest are new to what it makes of the map.
    have hnew : (insertEntry a.1 a.2 m.entries).Perm (a :: m.entries) :=
      insertEntry_perm a.2 fun e he => hm e he a List.mem_cons_self
    have htail : ((m.insert a.1 a.2).insertAll l).entries.Perm
        ((m.insert a.1 a.2).entries ++ l) := by
      apply ih hl.2
      intro e he e' he'
      rcases mem_insertEntry he with rfl | he
      · intro heq
        exact hl.1 (List.mem_map.mpr ⟨e', he', heq.symm⟩)
      · exact hm e he e' (List.mem_cons_of_mem _ he')
    refine htail.trans ((hnew.append_right l).trans ?_)
    exact List.perm_middle.symm

/-- A list of entries with distinct keys, inserted into the empty map, is the map's entries. -/
theorem insertAll_empty_perm {l : List (K × V)} (hl : (l.map (·.1)).Nodup) :
    ((empty : OrderedMap K V).insertAll l).entries.Perm l := by
  simpa using insertAll_perm (m := empty) hl (by simp)

/-- Maps that agree key by key, with values related by `R`, still do after an insertion. -/
theorem insert_forall₂ {R : V → W → Prop} {m : OrderedMap K V} {m' : OrderedMap K W}
    (h : List.Forall₂ (fun a b => a.1 = b.1 ∧ R a.2 b.2) m.entries m'.entries) (k : K) {v : V}
    {w : W} (hvw : R v w) :
    List.Forall₂ (fun a b => a.1 = b.1 ∧ R a.2 b.2) (m.insert k v).entries
      (m'.insert k w).entries :=
  insertEntry_forall₂ h k hvw

/-- Maps that agree key by key, with values related by `R`, still do after the insertion of entries
that do. -/
theorem insertAll_forall₂ {R : V → W → Prop} {m : OrderedMap K V} {m' : OrderedMap K W}
    (h : List.Forall₂ (fun a b => a.1 = b.1 ∧ R a.2 b.2) m.entries m'.entries) {l : List (K × V)}
    {l' : List (K × W)} (hl : List.Forall₂ (fun a b => a.1 = b.1 ∧ R a.2 b.2) l l') :
    List.Forall₂ (fun a b => a.1 = b.1 ∧ R a.2 b.2) (m.insertAll l).entries
      (m'.insertAll l').entries := by
  induction hl generalizing m m' with
  | nil => exact h
  | @cons a b l l' hab _ ih =>
    rw [insertAll_cons, insertAll_cons, ← hab.1]
    exact ih (insert_forall₂ h a.1 hab.2)

/-- An entry inserted with others was in the map or is one of them. -/
theorem mem_insertAll {m : OrderedMap K V} {l : List (K × V)} {e : K × V}
    (h : e ∈ (m.insertAll l).entries) : e ∈ m.entries ∨ e ∈ l := by
  induction l generalizing m with
  | nil => exact .inl h
  | cons a l ih =>
    rcases ih h with h | h
    · rcases mem_insertEntry h with rfl | h
      · exact .inr List.mem_cons_self
      · exact .inl h
    · exact .inr (List.mem_cons_of_mem _ h)

/-- Entries stay in a map while others are inserted. -/
theorem mem_insertAll_of_mem {m : OrderedMap K V} {l : List (K × V)} {e : K × V}
    (h : e ∈ m.entries) : e ∈ (m.insertAll l).entries := by
  induction l generalizing m with
  | nil => exact h
  | cons a l ih =>
    apply ih
    rw [entries_insert]
    rcases insertEntry_cases a.1 a.2 m.entries with hperm | heq
    · exact hperm.mem_iff.mpr (List.mem_cons_of_mem _ h)
    · rw [heq]
      exact h

/-- Of the entries of one key, the first to be inserted is the one in the map. -/
theorem mem_insertAll_of_first {k : K} (v : V) {l l' : List (K × V)} (h : ∀ e ∈ l, e.1 ≠ k) :
    (k, v) ∈ ((empty : OrderedMap K V).insertAll (l ++ (k, v) :: l')).entries := by
  have hsplit : (empty : OrderedMap K V).insertAll (l ++ (k, v) :: l') =
      ((empty.insertAll l).insert k v).insertAll l' := by
    simp [insertAll, List.foldl_append]
  rw [hsplit]
  apply mem_insertAll_of_mem
  -- The key is new to the map of the entries before.
  have hnew : ∀ e ∈ ((empty : OrderedMap K V).insertAll l).entries, e.1 ≠ k := fun e he => by
    rcases mem_insertAll he with hnil | he
    · cases hnil
    · exact h e he
  exact (insertEntry_perm v hnew).mem_iff.mpr List.mem_cons_self

/-- The keys of inserted entries are in the map. -/
theorem exists_mem_insertAll {m : OrderedMap K V} {l : List (K × V)} {j : K}
    (h : (∃ w, (j, w) ∈ m.entries) ∨ ∃ w, (j, w) ∈ l) : ∃ w, (j, w) ∈ (m.insertAll l).entries := by
  induction l generalizing m with
  | nil => simpa using h
  | cons a l ih =>
    apply ih
    rcases h with h | ⟨w, hw⟩
    · exact .inl (exists_mem_insertEntry (.inr h))
    · rcases List.mem_cons.mp hw with rfl | hw
      · exact .inl (exists_mem_insertEntry (.inl rfl))
      · exact .inr ⟨w, hw⟩

/-- A map has one entry for a key. -/
theorem keys_nodup (m : OrderedMap K V) : (m.entries.map (·.1)).Nodup := by
  rw [List.Nodup, List.pairwise_map]
  exact m.sorted.imp fun h => h.ne

/-- The keys of a map are those of the entries inserted into it, without repetitions. -/
theorem keys_insertAll_perm [DecidableEq K] (l : List (K × V)) :
    (((empty : OrderedMap K V).insertAll l).entries.map (·.1)).Perm (l.map (·.1)).dedup := by
  refine (List.perm_ext_iff_of_nodup (keys_nodup _) (List.nodup_dedup _)).mpr fun k => ?_
  rw [List.mem_dedup, List.mem_map, List.mem_map]
  constructor
  · rintro ⟨e, he, rfl⟩
    rcases mem_insertAll he with hnil | he
    · cases hnil
    · exact ⟨e, he, rfl⟩
  · rintro ⟨e, he, rfl⟩
    obtain ⟨w, hw⟩ := exists_mem_insertAll (m := empty) (l := l) (j := e.1) (.inr ⟨e.2, he⟩)
    exact ⟨_, hw, rfl⟩

/-- A key is found with the value of its entry. -/
theorem get?_eq_some {m : OrderedMap K V} {k : K} {v : V} :
    m.get? k = some v ↔ (k, v) ∈ m.entries := by
  constructor
  · intro h
    obtain ⟨e, he, rfl⟩ := Option.map_eq_some_iff.mp h
    have hk : e.1 = k := by simpa using List.find?_some he
    exact hk ▸ List.mem_of_find?_eq_some he
  · intro h
    obtain ⟨e, he⟩ : ∃ e, m.entries.find? (fun e => e.1 = k) = some e :=
      Option.isSome_iff_exists.mp (List.find?_isSome.mpr ⟨(k, v), h, by simp⟩)
    have hk : e.1 = k := by simpa using List.find?_some he
    -- Keys are distinct, so the entry found is this one.
    have hsame : e = (k, v) :=
      List.inj_on_of_nodup_map m.keys_nodup (List.mem_of_find?_eq_some he) h hk
    rw [get?, he, hsame]
    rfl

end OrderedMap

end Lib
