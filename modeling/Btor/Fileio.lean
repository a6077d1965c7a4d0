import Btor.BitSet
import Btor.Main

/-!
# The files of the program

The functions of `bfileio.cpp` that `main` calls, on files that are given by their names. No
function checks its stream, and a `Transfer` says what becomes of it: the file may not be opened,
and where it is, all bytes may go through or only some. `writeBitfield` and `readBitfield` keep the
bitfield from one process to the next. `Store` says what they are for: a process adds numbers to a
set, asks for them, and saves the set for the next one. The file and the vector do what the store
does, whatever is done in whatever order (`bitfield_refines`). The file is emptied before it is
written, so a process that is killed while it saves loses numbers, and the room for them; there is
no way back from a file that is empty (`Store.Lost.step`).
-/

namespace Btor

open Lib (bitSet setBit)

/-- The files, by their names. -/
abbrev Files := Bytes → Option Bytes

/-! ## Streams -/

/-- What becomes of a stream. -/
inductive Transfer where
  /-- The file is not opened. -/
  | refused
  /-- The file is opened, and no more than `n` bytes go through. -/
  | cut (n : ℕ)
  /-- All bytes go through. -/
  | whole
  deriving DecidableEq

/-- What goes through, if the file is opened. -/
def Transfer.pass : Transfer → Bytes → Option Bytes
  | refused, _ => none
  | cut n, bytes => some (bytes.take n)
  | whole, bytes => some bytes

section

variable (files : Files) (filename : Bytes)

/-- `fileio::readFile` and `getFileBuf`, or none if `readFile` exits. The buffer has the length of
the file, and zeros where nothing was read. -/
def readFile (t : Transfer) : Option Bytes :=
  (files filename).bind fun content =>
    (t.pass content).map fun read => read ++ List.replicate (content.length - read.length) 0

/-- `std::filesystem::exists` -/
def doesBitfieldFileExist : Bool := (files filename).isSome

/-- `fileio::readBitfield`. A file that is not there, or is not opened, has no bytes to read. -/
def readBitfield (t : Transfer) : Bytes := (t.pass ((files filename).getD [])).getD []

/-- What the constructor of a `std::ofstream` leaves of a file that it opens: it is there, and
empty. -/
def truncate : Files := Function.update files filename (some [])

/-- `fileio::writeBitfield` -/
def writeBitfield (bitfield : Bytes) (t : Transfer) : Files :=
  match t.pass bitfield with
  | none => files
  | some written =>
    let files := truncate files filename
    if bitfield.length = 0 then files else Function.update files filename (some written)

/-- `fileio::createEmptyFile`: a zero is written behind as many bytes as the offset says, which are
zeros as well. The offset is a signed number, and is not sought if it is negative; then nothing is
written, and neither is where the zero does not go through. -/
def createFile (filesize : UInt64) (t : Transfer) : Files :=
  match t.pass [0] with
  | none => files
  | some written =>
    let files := truncate files filename
    let offset := createEmptyFile filesize
    if offset.toNat < 2^63 ∧ written ≠ [] then
      Function.update files filename (some (List.replicate offset.toNat 0 ++ written))
    else files

end

/-! ## What is in a file -/

section

variable {files : Files} {filename bitfield : Bytes} {t : Transfer}

/-- A file that is not opened stays as it is. -/
theorem writeBitfield_of_none (h : t.pass bitfield = none) :
    writeBitfield files filename bitfield t = files := by
  unfold writeBitfield
  rw [h]

/-- A file that is opened has what goes through. -/
theorem writeBitfield_of_some {written : Bytes} (h : t.pass bitfield = some written) :
    writeBitfield files filename bitfield t =
      Function.update files filename (some written) := by
  unfold writeBitfield truncate
  rw [h]
  dsimp only
  split_ifs with hempty
  · have hnil : bitfield = [] := List.eq_nil_of_length_eq_zero hempty
    have hwritten : written = [] := by
      rw [hnil] at h
      cases t with
      | refused => cases h
      | cut n => exact (Option.some.inj h).symm.trans List.take_nil
      | whole => exact (Option.some.inj h).symm
    rw [hwritten]
  · rw [Function.update_idem]

/-- A created file has as many zeros as it has bytes, and none if the size is zero or the last of
them is not written. -/
theorem createFile_of_some {filesize : UInt64} {written : Bytes} (h : filesize.toNat ≤ 2^63)
    (hpass : t.pass [0] = some written) : createFile files filename filesize t =
      Function.update files filename
        (some (if written = [] then [] else List.replicate filesize.toNat 0)) := by
  have hlt := filesize.toNat_lt
  have hwritten : written = [] ∨ written = [0] := by
    cases t with
    | refused => cases hpass
    | cut n =>
      obtain rfl := Option.some.inj hpass
      cases n with
      | zero => exact .inl rfl
      | succ n => exact .inr (congrArg (List.cons 0) List.take_nil)
    | whole => exact .inr (Option.some.inj hpass).symm
  unfold createFile truncate createEmptyFile
  rw [hpass]
  dsimp only
  rw [UInt64.toNat_sub]
  simp only [UInt64.toNat_one]
  -- The zero is written or not. If it is, the offset may still be negative, for a size of zero.
  rcases hwritten with rfl | rfl
  · rw [if_neg (fun h => h.2 rfl), if_pos rfl]
  · rw [if_neg (List.cons_ne_nil 0 [])]
    split_ifs with hoffset
    · obtain ⟨hoffset, -⟩ := hoffset
      rw [Function.update_idem, ← List.replicate_succ']
      congr 3
      omega
    · have hzero : filesize.toNat = 0 := by
        by_contra hne
        exact hoffset ⟨by omega, List.cons_ne_nil 0 []⟩
      rw [hzero, List.replicate_zero]

end

/-! ## From one process to the next -/

/-- The files, the bitfield of the process, and what its checks have returned so far. -/
structure Holding where
  files : Files
  bitfield : Bytes
  answers : List Bool := []

/-- What happens to a bitfield and its file. -/
inductive BitfieldOp where
  /-- A call of `setBitInBitfield`. -/
  | set (bit : Int32)
  /-- A call of `isBitInBitfieldSet`. -/
  | check (bit : Int32)
  /-- A call of `writeBitfield`. If the process is killed in it, a part of the bytes has gone
  through. -/
  | write (t : Transfer)
  /-- The process ends, and the next one calls `readBitfield`. -/
  | restart (t : Transfer)
  deriving DecidableEq

/-- One of these with the bitfield in the file. -/
def BitfieldOp.run (filename : Bytes) (s : Holding) : BitfieldOp → Except Undefined Holding
  | set bit => do return { s with bitfield := ← setBitInBitfield s.bitfield bit }
  | check bit => do return { s with answers := s.answers ++ [← isBitInBitfieldSet s.bitfield bit] }
  | write t => return { s with files := writeBitfield s.files filename s.bitfield t }
  | restart t => return { s with bitfield := readBitfield s.files filename t }

/-! ## Sets with a bound -/

/-- A set of numbers below a bound. -/
@[ext] structure NumberSet where
  room : ℕ
  numbers : Finset ℕ
  lt_room : ∀ n ∈ numbers, n < room

namespace NumberSet

/-- There is no room for a number. -/
def empty : NumberSet where
  room := 0
  numbers := ∅
  lt_room n hn := absurd hn (Finset.notMem_empty n)

variable (s : NumberSet)

/-- The room ends at a number. -/
def limit (n : ℕ) : NumberSet where
  room := min n s.room
  numbers := s.numbers.filter (· < n)
  lt_room k hk := by
    rw [Finset.mem_filter] at hk
    exact lt_min hk.2 (s.lt_room k hk.1)

/-- A number is added. -/
def add (n : Fin s.room) : NumberSet where
  room := s.room
  numbers := insert n.val s.numbers
  lt_room k hk := by
    rcases Finset.mem_insert.mp hk with rfl | hk
    · exact n.isLt
    · exact s.lt_room k hk

/-- The number that an `int` stands for. There are two ways for it to stand for none. -/
def find (bit : Int32) : Except Undefined (Fin s.room) :=
  if h : 0 ≤ bit.toInt ∧ bit.toInt < s.room then .ok ⟨bit.toInt.toNat, by omega⟩
  else if -8 < bit.toInt ∧ bit.toInt < 0 ∧ 0 < s.room then .error .shift
  else .error .index

/-- What goes through of a set. -/
def pass : Transfer → Option NumberSet
  | .refused => none
  | .cut n => some (s.limit (8 * n))
  | .whole => some s

end NumberSet

/-- The set that was saved, the set of the process, and the answers of the process. -/
structure Store where
  saved : NumberSet
  current : NumberSet
  answers : List Bool

/-- One of the operations on the sets. -/
def Store.step (s : Store) : BitfieldOp → Except Undefined Store
  | .set bit => do return { s with current := s.current.add (← s.current.find bit) }
  | .check bit => do
    let n ← s.current.find bit
    return { s with answers := s.answers ++ [decide (n.val ∈ s.current.numbers)] }
  | .write t => return { s with saved := (s.current.pass t).getD s.saved }
  | .restart t => return { s with current := (s.saved.pass t).getD .empty }

/-! ### A process that is killed -/

/-- There is no room for a number, neither in the process nor in the file. -/
structure Store.Lost (s : Store) : Prop where
  saved : s.saved = .empty
  current : s.current = .empty

/-- Where there is no room, nothing is found. -/
theorem NumberSet.find_empty (bit : Int32) : NumberSet.empty.find bit = .error .index := by
  have hroom : ¬ (0 ≤ bit.toInt ∧ bit.toInt < (NumberSet.empty.room : ℕ)) := by
    rintro ⟨hpos, hlt⟩
    exact absurd hlt (not_lt.mpr hpos)
  unfold NumberSet.find
  rw [dif_neg hroom, if_neg fun h => absurd h.2.2 (Nat.lt_irrefl 0)]

/-- A room that ends at once is none. -/
theorem NumberSet.limit_zero (s : NumberSet) : s.limit 0 = .empty := by
  refine NumberSet.ext (Nat.zero_min _) ?_
  exact Finset.filter_false_of_mem fun n _ => Nat.not_lt_zero n

/-- Nothing goes through of nothing. -/
theorem NumberSet.getD_pass_empty (t : Transfer) :
    (NumberSet.empty.pass t).getD .empty = .empty := by
  cases t with
  | refused => rfl
  | cut n => exact NumberSet.ext (Nat.min_zero _) (Finset.filter_empty _)
  | whole => rfl

/-- The next process finds no room if one is killed before anything is written. -/
theorem Store.lost_of_killed (s : Store) (t : Transfer) :
    ∃ s', [.write (.cut 0), .restart t].foldlM Store.step s = .ok s' ∧ s'.Lost := by
  have hempty : s.current.limit (8 * 0) = .empty := s.current.limit_zero
  refine ⟨_, rfl, hempty, ?_⟩
  change ((s.current.limit (8 * 0)).pass t).getD .empty = .empty
  rw [hempty, NumberSet.getD_pass_empty]

/-- There is no way back from there: a number that is added or asked for ends the process. -/
theorem Store.Lost.step {s : Store} (h : s.Lost) (op : BitfieldOp) :
    s.step op = .error .index ∨ ∃ s', s.step op = .ok s' ∧ s'.Lost := by
  obtain ⟨saved, current, answers⟩ := s
  obtain ⟨rfl, rfl⟩ : saved = .empty ∧ current = .empty := ⟨h.saved, h.current⟩
  cases op with
  | set bit =>
    left
    change Except.bind (NumberSet.empty.find bit) _ = _
    rw [NumberSet.find_empty]
    rfl
  | check bit =>
    left
    change Except.bind (NumberSet.empty.find bit) _ = _
    rw [NumberSet.find_empty]
    rfl
  | write t => exact .inr ⟨_, rfl, NumberSet.getD_pass_empty t, rfl⟩
  | restart t => exact .inr ⟨_, rfl, rfl, NumberSet.getD_pass_empty t⟩

/-! ## The bitfield is a set with a bound -/

/-- The set that a bitfield stands for. -/
def numberSet (v : Bytes) : NumberSet where
  room := 8 * v.length
  numbers := bitSet v
  lt_room _ hn := (Lib.mem_bitSet.mp hn).1

/-- The store that a bitfield and its file stand for. A file that is not there stands for the same
as an empty one. -/
def Holding.store (filename : Bytes) (s : Holding) : Store where
  saved := numberSet ((s.files filename).getD [])
  current := numberSet s.bitfield
  answers := s.answers

section

variable {v : Bytes} {bit : Int32}

/-- What goes through of a bitfield stands for what goes through of its set. -/
theorem map_numberSet_pass (t : Transfer) :
    (t.pass v).map numberSet = (numberSet v).pass t := by
  cases t with
  | refused => rfl
  | cut n =>
    have hroom : 8 * (v.take n).length = min (8 * n) (8 * v.length) := by
      rw [List.length_take]
      omega
    exact congrArg some (NumberSet.ext hroom (Lib.bitSet_take n))
  | whole => rfl

/-- An index is a number that there is room for. -/
theorem find_of_indexes (h : Indexes v bit) : ∃ n : Fin (numberSet v).room,
    (numberSet v).find bit = .ok n ∧ n.val = bit.toNatClampNeg := by
  have hroom : 0 ≤ bit.toInt ∧ bit.toInt < ((numberSet v).room : ℕ) := by
    obtain ⟨hpos, hlt⟩ := h
    refine ⟨hpos, ?_⟩
    unfold numberSet
    push_cast
    exact hlt
  refine ⟨⟨bit.toInt.toNat, by omega⟩, ?_, rfl⟩
  unfold NumberSet.find
  rw [dif_pos hroom]

/-- A number that is no index ends both functions as it ends the search. -/
theorem error_of_not_indexes (h : ¬ Indexes v bit) : ∃ e,
    (numberSet v).find bit = .error e ∧ setBitInBitfield v bit = .error e ∧
      isBitInBitfieldSet v bit = .error e := by
  have hroom : ¬ (0 ≤ bit.toInt ∧ bit.toInt < ((numberSet v).room : ℕ)) := by
    unfold numberSet
    push_cast
    exact h
  -- Before the first bit the shift is undefined if there is a first byte, and the access is if
  -- there is none. Everywhere else the access is.
  have hpos : 0 < (numberSet v).room ↔ 0 < v.length := by
    unfold numberSet
    dsimp only
    omega
  unfold NumberSet.find setBitInBitfield isBitInBitfieldSet
  rw [dif_neg hroom]
  by_cases hfirst : BeforeFirst v bit
  · obtain ⟨byte, hbyte, hmask⟩ := mask_of_beforeFirst hfirst
    rw [if_pos ⟨hfirst.gt, hfirst.neg, hpos.mpr hfirst.ne_nil⟩]
    dsimp only
    rw [hbyte, hmask]
    exact ⟨.shift, rfl, rfl, rfl⟩
  · rw [if_neg fun h => hfirst ⟨h.2.1, h.1, hpos.mp h.2.2⟩]
    dsimp only
    rw [element_of_not_indexes h hfirst]
    exact ⟨.index, rfl, rfl, rfl⟩

/-- A bit that is set is a number that is added. -/
theorem map_numberSet_setBitInBitfield (v : Bytes) (bit : Int32) :
    (setBitInBitfield v bit).map numberSet =
      ((numberSet v).find bit).map (numberSet v).add := by
  by_cases h : Indexes v bit
  · obtain ⟨n, hfind, hn⟩ := find_of_indexes h
    rw [hfind, h.setBitInBitfield_eq]
    refine congrArg Except.ok (NumberSet.ext (congrArg (8 * ·) Lib.length_setBit) ?_)
    change bitSet (setBit v bit.toNatClampNeg) = insert n.val (bitSet v)
    rw [Lib.bitSet_setBit h.toNatClampNeg_lt.2, hn]
  · obtain ⟨e, hfind, hset, -⟩ := error_of_not_indexes h
    rw [hfind, hset]
    rfl

/-- A check asks for a number. -/
theorem isBitInBitfieldSet_eq_find : isBitInBitfieldSet v bit =
    ((numberSet v).find bit).map fun n => decide (n.val ∈ (numberSet v).numbers) := by
  by_cases h : Indexes v bit
  · obtain ⟨n, hfind, hn⟩ := find_of_indexes h
    rw [hfind, h.isBitInBitfieldSet_eq, ← hn]
    rfl
  · obtain ⟨e, hfind, -, hcheck⟩ := error_of_not_indexes h
    rw [hfind, hcheck]
    rfl

end

/-! ## The file and the vector do what the store does -/

/-- What holds of one operation holds of a sequence of them. -/
theorem foldlM_map {σ τ ι ε : Type} {f : σ → ι → Except ε σ} {g : τ → ι → Except ε τ} {abs : σ → τ}
    (hstep : ∀ s op, (f s op).map abs = g (abs s) op) (ops : List ι) (s : σ) :
    (ops.foldlM f s).map abs = ops.foldlM g (abs s) := by
  -- By induction over the operations.
  induction ops generalizing s with
  | nil => rfl
  | cons op ops ih =>
    have hop := hstep s op
    rw [List.foldlM_cons, List.foldlM_cons, ← hop]
    cases hf : f s op with
    | error e => rfl
    | ok s' => exact ih s'

/-- What holds of the state and is kept by one operation holds after a sequence of them. -/
theorem foldlM_keeps {σ ι ε : Type} {f : σ → ι → Except ε σ} {P : σ → Prop}
    (hstep : ∀ s op s', f s op = .ok s' → P s → P s') {ops : List ι} {s s' : σ}
    (h : ops.foldlM f s = .ok s') (hs : P s) : P s' := by
  induction ops generalizing s with
  | nil =>
    obtain rfl := Except.ok.inj h
    exact hs
  | cons op ops ih =>
    rw [List.foldlM_cons] at h
    cases hf : f s op with
    | error e =>
      rw [hf] at h
      cases h
    | ok s₁ =>
      rw [hf] at h
      exact ih h (hstep s op s₁ hf hs)

section

variable {filename : Bytes} (s : Holding) (op : BitfieldOp)

/-- One operation on the file and the vector is one on the store. -/
theorem BitfieldOp.map_store_run :
    (op.run filename s).map (Holding.store filename) = (s.store filename).step op := by
  cases op with
  | set bit =>
    have hset := map_numberSet_setBitInBitfield s.bitfield bit
    change Except.map _ (Except.bind (setBitInBitfield s.bitfield bit) _) =
      Except.bind ((numberSet s.bitfield).find bit) _
    cases hbit : setBitInBitfield s.bitfield bit with
    | error e =>
      rw [hbit] at hset
      cases hfind : (numberSet s.bitfield).find bit with
      | error e' =>
        rw [hfind] at hset
        obtain rfl := Except.error.inj hset
        rfl
      | ok n =>
        rw [hfind] at hset
        cases hset
    | ok v =>
      rw [hbit] at hset
      cases hfind : (numberSet s.bitfield).find bit with
      | error e' =>
        rw [hfind] at hset
        cases hset
      | ok n =>
        rw [hfind] at hset
        have hset : numberSet v = (numberSet s.bitfield).add n := Except.ok.inj hset
        change Except.ok (Store.mk _ (numberSet v) _) = _
        rw [hset]
        rfl
  | check bit =>
    change Except.map _ (Except.bind (isBitInBitfieldSet s.bitfield bit) _) =
      Except.bind ((numberSet s.bitfield).find bit) _
    rw [isBitInBitfieldSet_eq_find]
    cases (numberSet s.bitfield).find bit <;> rfl
  -- The file stands for what goes through of the set.
  | write t =>
    have hsaved : numberSet ((writeBitfield s.files filename s.bitfield t filename).getD []) =
        ((numberSet s.bitfield).pass t).getD (numberSet ((s.files filename).getD [])) := by
      rw [← map_numberSet_pass]
      cases hpass : t.pass s.bitfield with
      | none =>
        rw [writeBitfield_of_none hpass]
        rfl
      | some written =>
        rw [writeBitfield_of_some hpass, Function.update_self]
        rfl
    exact congrArg (fun saved => Except.ok (Store.mk saved _ _)) hsaved
  -- So does the vector of the next process.
  | restart t =>
    have hread : numberSet (readBitfield s.files filename t) =
        ((numberSet ((s.files filename).getD [])).pass t).getD .empty := by
      unfold readBitfield
      rw [← map_numberSet_pass]
      cases t.pass ((s.files filename).getD []) <;> rfl
    exact congrArg (fun current => Except.ok (Store.mk _ current _)) hread

variable {s op}

/-- No operation changes another file. -/
theorem BitfieldOp.run_frame {s' : Holding} {name : Bytes} (hname : name ≠ filename)
    (h : op.run filename s = .ok s') : s'.files name = s.files name := by
  cases op with
  | set bit =>
    change Except.bind (setBitInBitfield s.bitfield bit) _ = _ at h
    cases hbit : setBitInBitfield s.bitfield bit with
    | error e =>
      rw [hbit] at h
      cases h
    | ok v =>
      rw [hbit] at h
      obtain rfl := Except.ok.inj h
      rfl
  | check bit =>
    change Except.bind (isBitInBitfieldSet s.bitfield bit) _ = _ at h
    cases hbit : isBitInBitfieldSet s.bitfield bit with
    | error e =>
      rw [hbit] at h
      cases h
    | ok answer =>
      rw [hbit] at h
      obtain rfl := Except.ok.inj h
      rfl
  | write t =>
    obtain rfl := Except.ok.inj h
    change writeBitfield s.files filename s.bitfield t name = _
    cases hpass : t.pass s.bitfield with
    | none => rw [writeBitfield_of_none hpass]
    | some written => rw [writeBitfield_of_some hpass, Function.update_of_ne hname]
  | restart t =>
    obtain rfl := Except.ok.inj h
    rfl

end

/-- A bitfield and its file do what the store does, in every sequence of operations: with the same
answers, or the same end, and no other file changes. -/
theorem bitfield_refines (filename : Bytes) (s : Holding) (ops : List BitfieldOp) :
    (ops.foldlM (BitfieldOp.run filename) s).map (Holding.store filename) =
      ops.foldlM Store.step (s.store filename) ∧
    ∀ s', ops.foldlM (BitfieldOp.run filename) s = .ok s' →
      ∀ name, name ≠ filename → s'.files name = s.files name := by
  refine ⟨foldlM_map (fun s op => op.map_store_run s) ops s, fun s' h name hname => ?_⟩
  exact foldlM_keeps (P := fun s' => s'.files name = s.files name)
    (fun _ _ _ hop hs => (BitfieldOp.run_frame hname hop).trans hs) h rfl

end Btor
