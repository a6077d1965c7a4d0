import Btor.Lengths

/-!
# The total length of a download

`main` stores the collected length as `Metainfo::total_length`, the "total size of the file in
bytes". `Value.downloadSize` is what that is for a metainfo file: the integer at `info.length`, or
the sum of those at `info.files[i].length`. The parser adds up all keys `length` instead, so it
collects the download size exactly if the integers under the other keys `length` of the file sum to
zero, modulo `2^64` (`parse_totalLength_iff`), as they do where there are none.
-/

namespace Btor

open Lib (OrderedMap)

/-! ## The size of a download -/

/-- `"files"`, the key of the list of files in the info dictionary. -/
def filesKey : Bytes := [102, 105, 108, 101, 115]

/-- The value of a dictionary under a key. -/
def Value.get? (key : Bytes) : Value → Option Value
  | .dict es => (es.find? fun e => e.1 = key).map (·.2)
  | _ => none

/-- The integer under the key `length` of a dictionary. -/
def Value.fileLength (v : Value) : Option ℤ :=
  match v.get? lengthKey with
  | some (.integer n) => some n
  | _ => none

/-- The size of the download that a metainfo file describes: that of its single file, or the sum of
those of its files. -/
def Value.downloadSize (root : Value) : Option ℤ :=
  match root.get? infoKey with
  | some (.dict es) =>
    match (Value.dict es).get? lengthKey, (Value.dict es).get? filesKey with
    | some (.integer n), none => some n
    | none, some (.list fs) => (fs.mapM Value.fileLength).map List.sum
    | _, _ => none
  | _ => none

/-- The sum of the integers under the keys `length` in a file's dictionary, without its own. -/
def Value.fileStray : Value → ℤ
  | .dict es => (es.map fun e => e.2.lengths).sum
  | _ => 0

/-- The sum of the integers under the keys `length` in the list of files, without those of the
files. -/
def Value.filesStray : Value → ℤ
  | .list fs => (fs.map Value.fileStray).sum
  | v => v.lengths

/-- The sum of the integers under the keys `length` in the info dictionary, without its own and
those of the files. -/
def Value.infoStray : Value → ℤ
  | .dict es => (es.map fun e => if e.1 = filesKey then e.2.filesStray else e.2.lengths).sum
  | v => v.lengths

/-- The sum of the integers under the keys `length` of a metainfo file that are not the sizes of its
files. -/
def Value.strayLengths : Value → ℤ
  | .dict es =>
    (es.map fun e => if e.1 = infoKey then e.2.infoStray else ownLength e + e.2.lengths).sum
  | v => v.lengths

/-! ## Trees in key order -/

mutual

/-- The entries of every dictionary of a tree are listed in key order. -/
def Value.Sorted : Value → Prop
  | .integer _ => True
  | .string _ => True
  | .list vs => ValuesSorted vs
  | .dict es => es.Pairwise (·.1 < ·.1) ∧ PairsSorted es

/-- The entries of every dictionary in the items of a list are listed in key order. -/
def ValuesSorted : List Value → Prop
  | [] => True
  | v :: vs => v.Sorted ∧ ValuesSorted vs

/-- The entries of every dictionary in the values of a dictionary are listed in key order. -/
def PairsSorted : List (Bytes × Value) → Prop
  | [] => True
  | (_, v) :: es => v.Sorted ∧ PairsSorted es

end

/-- The values of pairs are sorted if each is. -/
theorem pairsSorted_iff {es : List (Bytes × Value)} : PairsSorted es ↔ ∀ e ∈ es, e.2.Sorted := by
  induction es with
  | nil => simp [PairsSorted]
  | cons e es ih =>
    obtain ⟨k, v⟩ := e
    rw [PairsSorted, List.forall_mem_cons, ← ih]

mutual

/-- The tree of what the parser reads lists the entries of dictionaries in key order. -/
theorem Parsed.value_sorted : ∀ t : Parsed, t.value.Sorted
  | .integer _ => trivial
  | .string _ => trivial
  | .list ts => itemsValues_sorted ts
  | .dict es => by
    refine ⟨(OrderedMap.empty.insertAll (entriesValues es)).sorted, pairsSorted_iff.mpr ?_⟩
    intro e he
    rcases OrderedMap.mem_insertAll he with hnil | he
    · cases hnil
    · exact pairsSorted_iff.mp (entriesValues_sorted es) e he

/-- The trees of items are sorted. -/
theorem itemsValues_sorted : ∀ ts : List Parsed, ValuesSorted (itemsValues ts)
  | [] => trivial
  | t :: ts => ⟨t.value_sorted, itemsValues_sorted ts⟩

/-- So are the trees of entries. -/
theorem entriesValues_sorted : ∀ es : List (Text × Parsed), PairsSorted (entriesValues es)
  | [] => trivial
  | (_, t) :: es => ⟨t.value_sorted, entriesValues_sorted es⟩

end

/-! ## Lengths of the files and others -/

section

variable {es : List (Bytes × Value)} {k : Bytes} {w : Value}

/-- The value found under a key is that of an entry. -/
theorem mem_of_get? (h : (Value.dict es).get? k = some w) : (k, w) ∈ es := by
  obtain ⟨e, he, rfl⟩ := Option.map_eq_some_iff.mp h
  have hk : e.1 = k := by simpa using List.find?_some he
  exact hk ▸ List.mem_of_find?_eq_some he

/-- Where nothing is found under a key, no entry has it. -/
theorem ne_of_get?_none (h : (Value.dict es).get? k = none) : ∀ e ∈ es, e.1 ≠ k := by
  have hnone := List.find?_eq_none.mp (Option.map_eq_none_iff.mp h)
  exact fun e he => by simpa using hnone e he

/-- Two sums over the entries of a dictionary that differ at one key. -/
theorem sum_entries_eq {f g : Bytes × Value → ℤ} {d : ℤ} (hnodup : (es.map (·.1)).Nodup)
    (hmem : (k, w) ∈ es) (hk : f (k, w) = g (k, w) + d)
    (hother : ∀ e ∈ es, e.1 ≠ k → f e = g e) : (es.map f).sum = (es.map g).sum + d := by
  induction es with
  | nil => cases hmem
  | cons e es ih =>
    rw [List.map_cons, List.nodup_cons] at hnodup
    obtain ⟨hnew, hnodup⟩ := hnodup
    rw [List.map_cons, List.map_cons, List.sum_cons, List.sum_cons]
    rcases List.mem_cons.mp hmem with rfl | hmem
    · -- The other entries have other keys.
      have hrest : es.map f = es.map g := List.map_congr_left fun e he =>
        hother e (List.mem_cons_of_mem _ he) fun heq =>
          hnew (List.mem_map.mpr ⟨e, he, heq⟩)
      rw [hrest, hk]
      ring
    · have hne : e.1 ≠ k := fun heq => hnew (List.mem_map.mpr ⟨(k, w), hmem, heq.symm⟩)
      have hrest := ih hnodup hmem fun e he => hother e (List.mem_cons_of_mem _ he)
      rw [hother e List.mem_cons_self hne, hrest]
      ring

/-- Sorted keys differ. -/
theorem keys_nodup_of_sorted (h : es.Pairwise (·.1 < ·.1)) : (es.map (·.1)).Nodup :=
  OrderedMap.keys_nodup ⟨es, h⟩

/-- An entry with another key has no length of its own. -/
theorem ownLength_of_ne {e : Bytes × Value} (h : e.1 ≠ lengthKey) : ownLength e = 0 := if_neg h

end

/-- The lengths of a file's dictionary are its own and the others. -/
theorem Value.fileLength_lengths {v : Value} {n : ℤ} (hv : v.Sorted) (h : v.fileLength = some n) :
    v.lengths = v.fileStray + n := by
  rw [Value.fileLength] at h
  split at h
  · rename_i n' hget
    cases h
    cases v with
    | dict es =>
      rw [Value.lengths, pairsLengths_eq_sum]
      -- Its own length is at one key, and the other entries are the same in both sums.
      refine sum_entries_eq (keys_nodup_of_sorted hv.1) (mem_of_get? hget) ?_ fun e _ hne => ?_
      · simp [ownLength, Value.int, Value.lengths]
      · rw [ownLength_of_ne hne, zero_add]
    | _ => cases hget
  · cases h

/-- The lengths of the files are their own and the others. -/
theorem filesLength_lengths {fs : List Value} {ns : List ℤ} (hfs : ValuesSorted fs)
    (h : fs.mapM Value.fileLength = some ns) :
    valuesLengths fs = (fs.map Value.fileStray).sum + ns.sum := by
  induction fs generalizing ns with
  | nil =>
    obtain rfl : ns = [] := by simpa using h.symm
    rfl
  | cons f fs ih =>
    rw [List.mapM_cons] at h
    obtain ⟨n, hn, h⟩ := Option.bind_eq_some_iff.mp h
    obtain ⟨ns', hns', h⟩ := Option.bind_eq_some_iff.mp h
    obtain rfl : n :: ns' = ns := by simpa using h
    rw [valuesLengths, f.fileLength_lengths hfs.1 hn, ih hfs.2 hns', List.map_cons, List.sum_cons,
      List.sum_cons]
    ring

/-- The lengths of an info dictionary with a single file are the file's and the others. -/
theorem infoLength_single {es : List (Bytes × Value)} {n : ℤ} (hes : (Value.dict es).Sorted)
    (hlength : (Value.dict es).get? lengthKey = some (.integer n))
    (hfiles : (Value.dict es).get? filesKey = none) :
    (Value.dict es).lengths = (Value.dict es).infoStray + n := by
  rw [Value.lengths, pairsLengths_eq_sum]
  refine sum_entries_eq (keys_nodup_of_sorted hes.1) (mem_of_get? hlength) ?_ fun e he hne => ?_
  · -- At the key `length` the value is an integer, which has no further lengths in it.
    have hfk : lengthKey ≠ filesKey := by decide
    simp [ownLength, Value.int, Value.lengths, hfk]
  · rw [ownLength_of_ne hne, zero_add, if_neg (ne_of_get?_none hfiles e he)]

/-- The lengths of an info dictionary with several files are those of the files and the others. -/
theorem infoLength_multi {es : List (Bytes × Value)} {fs : List Value} {ns : List ℤ}
    (hes : (Value.dict es).Sorted) (hlength : (Value.dict es).get? lengthKey = none)
    (hfiles : (Value.dict es).get? filesKey = some (.list fs))
    (hns : fs.mapM Value.fileLength = some ns) :
    (Value.dict es).lengths = (Value.dict es).infoStray + ns.sum := by
  have hmem := mem_of_get? hfiles
  have hfs : ValuesSorted fs := pairsSorted_iff.mp hes.2 _ hmem
  rw [Value.lengths, pairsLengths_eq_sum]
  refine sum_entries_eq (keys_nodup_of_sorted hes.1) hmem ?_ fun e he hne => ?_
  · -- At the key `files` are the lengths of the files.
    rw [ownLength_of_ne (ne_of_get?_none hlength _ hmem), zero_add, if_pos rfl]
    exact filesLength_lengths hfs hns
  · rw [ownLength_of_ne (ne_of_get?_none hlength e he), zero_add, if_neg hne]

/-- The lengths of a metainfo file are the size of the download and the others. -/
theorem Value.downloadSize_lengths {v : Value} {d : ℤ} (hv : v.Sorted)
    (h : v.downloadSize = some d) : v.lengths = v.strayLengths + d := by
  rw [Value.downloadSize] at h
  split at h
  · rename_i es hinfo
    cases v with
    | dict root =>
      have hmem := mem_of_get? hinfo
      have hes : (Value.dict es).Sorted := pairsSorted_iff.mp hv.2 _ hmem
      have hsize : (Value.dict es).lengths = (Value.dict es).infoStray + d := by
        split at h
        · rename_i n hlength hfiles
          cases h
          exact infoLength_single hes hlength hfiles
        · rename_i fs hlength hfiles
          obtain ⟨ns, hns, rfl⟩ := Option.map_eq_some_iff.mp h
          exact infoLength_multi hes hlength hfiles hns
        · cases h
      -- At the key `info` are the lengths of its dictionary.
      have hown : ownLength (infoKey, Value.dict es) = 0 :=
        ownLength_of_ne (show infoKey ≠ lengthKey by decide)
      rw [Value.lengths, pairsLengths_eq_sum]
      refine sum_entries_eq (keys_nodup_of_sorted hv.1) hmem ?_ fun e _ hne => ?_
      · rw [if_pos rfl, hown, zero_add]
        exact hsize
      · rw [if_neg hne]
    | _ => cases hinfo
  · cases h

/-! ## The collected length -/

/-- A fresh parser collects the size of the download, where that fits 63 bits, exactly if the
integers under the other keys `length` of the metainfo file sum to zero, modulo `2^64`. -/
theorem parse_totalLength_iff {buf : Bytes} {n : ℕ} {m : BMemoryManager} {p : Ptr} {s' : State}
    {t : Parsed} {d : ℤ} (h : (parseBencodedString buf n).run (fresh m) = .returned p s')
    (ht : StartsWith buf t) (hno : t.NoRepeats) (hd : t.value.downloadSize = some d)
    (hfits : -2^63 ≤ d ∧ d < 2^63) :
    Denotes s'.heap p t.value ∧
      (s'.getCollectedLength.toInt = d ↔ 2^64 ∣ t.value.strayLengths) := by
  have hlengths := parse_collectedLength_value ht hno h
  rw [Value.downloadSize_lengths t.value_sorted hd] at hlengths
  obtain ⟨rfl, rfl⟩ := ht.of_returned h
  refine ⟨t.replay_denotes _, ?_⟩
  generalize (t.replay (fresh m).rewind).getCollectedLength = c at hlengths ⊢
  have hle := c.le_toInt
  have hlt := c.toInt_lt
  have hmod : (2^64 : ℤ) ∣ t.value.strayLengths + d - c.toInt := hlengths.dvd
  constructor
  · rintro hc
    rw [hc] at hmod
    simpa using hmod
  · intro hstray
    -- Both are 64-bit integers, so that they agree modulo `2^64` makes them equal.
    have hdiff : (2^64 : ℤ) ∣ d - c.toInt := by
      have hsub := dvd_sub hmod hstray
      have heq : t.value.strayLengths + d - c.toInt - t.value.strayLengths = d - c.toInt := by ring
      rwa [heq] at hsub
    omega

/-- In `d4:infod6:lengthi5eee` there are no other keys `length`. -/
theorem parse_totalLength_iff_single : ∃ p s',
    (parseBencodedString [100, 52, 58, 105, 110, 102, 111, 100, 54, 58, 108, 101, 110, 103, 116,
      104, 105, 53, 101, 101, 101] 63).run (fresh {}) = .returned p s' ∧
    (s'.getCollectedLength.toInt = 5 ↔ (2^64 : ℤ) ∣ 0) := by
  have ht : StartsWith [100, 52, 58, 105, 110, 102, 111, 100, 54, 58, 108, 101, 110, 103, 116,
      104, 105, 53, 101, 101, 101]
      (.dict [(⟨[52], infoKey⟩, .dict [(⟨[54], lengthKey⟩, .integer [53])])]) := by
    decide +kernel
  have h := parse_of_startsWith ht (n := 63) (by decide) (fresh {})
  have hno : (Parsed.dict
      [(⟨[52], infoKey⟩, .dict [(⟨[54], lengthKey⟩, .integer [53])])]).NoRepeats := by
    decide
  have hiff := parse_totalLength_iff h ht hno (d := 5) (by decide) (by decide)
  exact ⟨_, _, h, hiff.2⟩

/-- In `d4:infod6:lengthi5ee6:lengthi7ee` there is one: the parser collects 12. -/
theorem not_parse_totalLength : ¬ ∀ (buf : Bytes) (n : ℕ) (m : BMemoryManager) (p : Ptr)
    (s' : State) (t : Parsed) (d : ℤ),
    (parseBencodedString buf n).run (fresh m) = .returned p s' → StartsWith buf t → t.NoRepeats →
    t.value.downloadSize = some d → -2^63 ≤ d ∧ d < 2^63 → s'.getCollectedLength.toInt = d := by
  intro hclaim
  have ht : StartsWith [100, 52, 58, 105, 110, 102, 111, 100, 54, 58, 108, 101, 110, 103, 116,
      104, 105, 53, 101, 101, 54, 58, 108, 101, 110, 103, 116, 104, 105, 55, 101, 101]
      (.dict [(⟨[52], infoKey⟩, .dict [(⟨[54], lengthKey⟩, .integer [53])]),
        (⟨[54], lengthKey⟩, .integer [55])]) := by
    decide +kernel
  have h := parse_of_startsWith ht (n := 96) (by decide) (fresh {})
  have hno : (Parsed.dict [(⟨[52], infoKey⟩, .dict [(⟨[54], lengthKey⟩, .integer [53])]),
      (⟨[54], lengthKey⟩, .integer [55])]).NoRepeats := by
    decide
  have hsame := hclaim _ _ _ _ _ _ 5 h ht hno (by decide) (by decide)
  rw [parse_collectedLength ht h] at hsame
  exact absurd hsame (by decide)

end Btor
