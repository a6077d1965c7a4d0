import Btor.Grammar
import Btor.Effect

/-!
# Inputs that the parser gives up on

`Broken.FoundAt` states what stands at a cursor when the parser gives up there with a broken value:
the complete parts that it read, and the byte or the end of the buffer that stopped it. It is to the
failures of the parser what `Parsed.Accepted` is to its results. A scan that gets stuck has found
its broken value (`scanArbitrary_stuck`), and a scan from where a broken value stands gets stuck
with it (`scanArbitrary_foundAt`).
-/

namespace Btor

/-! ## What was read, and what stands there -/

/-- The bytes of a string that were read before the parser gave up. -/
def BrokenText.bytes : BrokenText → Bytes
  | atEnd ds => ds
  | badByte ds c => ds ++ [c]
  | short ds p => ds ++ Ascii.colon :: p

/-- The bytes of an integer that were read after its `i` before the parser gave up. -/
def BrokenInteger.bytes : BrokenInteger → Bytes
  | atEnd body => body
  | badSign body => body ++ [Ascii.minus]

mutual

/-- The bytes of a value that were read before the parser gave up. -/
def Broken.bytes : Broken → Bytes
  | .noByte => []
  | .badByte _ => []
  | .integer b => Ascii.i :: b.bytes
  | .string b => b.bytes
  | .list b => Ascii.l :: b.bytes
  | .dict b => Ascii.d :: b.bytes

/-- The bytes of a list's items that were read before the parser gave up. -/
def BrokenItems.bytes : BrokenItems → Bytes
  | .item b => b.bytes
  | .atEnd t => t.bytes
  | .next t b => t.bytes ++ b.bytes

/-- The bytes of a dictionary's entries that were read before the parser gave up. -/
def BrokenEntries.bytes : BrokenEntries → Bytes
  | .key b => b.bytes
  | .value k b => k.bytes ++ b.bytes
  | .notInteger k t => k.bytes ++ t.bytes
  | .atEnd k t => k.bytes ++ t.bytes
  | .next k t b => (k.bytes ++ t.bytes) ++ b.bytes

end

/-- What stands at a cursor where the parser gave up on a string. -/
def BrokenText.FoundAt (buf : Bytes) (c : UInt32) : BrokenText → Prop
  | atEnd ds => (∀ x ∈ ds, isDigit x = true) ∧ Reads buf c ds ∧ buf[(advance c ds).toNat]? = none
  | badByte ds x => (∀ y ∈ ds, isDigit y = true) ∧ Reads buf c (ds ++ [x]) ∧
      x ≠ Ascii.colon ∧ isDigit x = false
  | short ds p => (∀ x ∈ ds, isDigit x = true) ∧ Reads buf c (ds ++ Ascii.colon :: p) ∧
      p.length < decimal ds % 2^32 ∧ buf[(advance c (ds ++ Ascii.colon :: p)).toNat]? = none

/-- What stands at a cursor where the parser gave up on an integer, after its `i`; a sign was still
allowed there if `first` is true. -/
def BrokenInteger.FoundAt (buf : Bytes) (c : UInt32) (first : Bool) : BrokenInteger → Prop
  | atEnd body => Ascii.e ∉ body ∧ Ascii.minus ∉ body.tail ∧
      (first = false → Ascii.minus ∉ body) ∧ Reads buf c body ∧
      buf[(advance c body).toNat]? = none
  | badSign body => Ascii.e ∉ body ∧ Ascii.minus ∉ body.tail ∧
      (first = false → Ascii.minus ∉ body) ∧ (first = true → body ≠ []) ∧
      Reads buf c (body ++ [Ascii.minus])

mutual

/-- What stands at a cursor where the parser gave up on a value. -/
def Broken.FoundAt (buf : Bytes) : UInt32 → Broken → Prop
  | c, .noByte => buf[c.toNat]? = none
  | c, .badByte x => buf[c.toNat]? = some x ∧ x ≠ Ascii.i ∧ x ≠ Ascii.l ∧ x ≠ Ascii.d ∧
      isDigit x = false
  | c, .integer b => buf[c.toNat]? = some Ascii.i ∧ b.FoundAt buf (c + 1) true
  | c, .string b => (∃ x, buf[c.toNat]? = some x ∧ isDigit x = true) ∧ b.FoundAt buf c
  | c, .list b => buf[c.toNat]? = some Ascii.l ∧ b.FoundAt buf (c + 1)
  | c, .dict b => buf[c.toNat]? = some Ascii.d ∧ b.FoundAt buf (c + 1)

/-- What stands at a cursor where the parser gave up on the items of a list. -/
def BrokenItems.FoundAt (buf : Bytes) : UInt32 → BrokenItems → Prop
  | c, .item b => b.FoundAt buf c
  | c, .atEnd t => t.Accepted ∧ Reads buf c t.bytes ∧ buf[(advance c t.bytes).toNat]? = none
  | c, .next t b => t.Accepted ∧ Reads buf c t.bytes ∧
      (∃ x, buf[(advance c t.bytes).toNat]? = some x ∧ x ≠ Ascii.e) ∧
      b.FoundAt buf (advance c t.bytes)

/-- What stands at a cursor where the parser gave up on the entries of a dictionary. -/
def BrokenEntries.FoundAt (buf : Bytes) : UInt32 → BrokenEntries → Prop
  | c, .key b => b.FoundAt buf c
  | c, .value k b => k.Accepted ∧ Reads buf c k.bytes ∧ b.FoundAt buf (advance c k.bytes)
  | c, .notInteger k t => k.Accepted ∧ t.Accepted ∧ (k.payload = lengthKey ∧ ¬ t.IsInteger) ∧
      Reads buf c (k.bytes ++ t.bytes)
  | c, .atEnd k t => k.Accepted ∧ t.Accepted ∧ (k.payload = lengthKey → t.IsInteger) ∧
      Reads buf c (k.bytes ++ t.bytes) ∧ buf[(advance c (k.bytes ++ t.bytes)).toNat]? = none
  | c, .next k t b => k.Accepted ∧ t.Accepted ∧ (k.payload = lengthKey → t.IsInteger) ∧
      Reads buf c (k.bytes ++ t.bytes) ∧
      (∃ x, buf[(advance c (k.bytes ++ t.bytes)).toNat]? = some x ∧ x ≠ Ascii.e) ∧
      b.FoundAt buf (advance c (k.bytes ++ t.bytes))

end

/-! ## Scans that get stuck -/

section

variable {buf : Bytes} {n : ℕ}

/-- A scan of a length that gets stuck has found digits, and no colon after them. -/
theorem scanDigits_stuck {c : UInt32} {b : BrokenText} (h : scanDigits buf n c = .stuck b) :
    b.FoundAt buf c ∧ ∀ ds p, b ≠ .short ds p := by
  induction n generalizing c b with
  | zero =>
    rw [scanDigits] at h
    split_ifs at h with hx
    cases h
    exact ⟨⟨by simp, trivial, by simpa using hx⟩, by simp⟩
  | succ n ih =>
    rw [scanDigits] at h
    split at h
    · rename_i hx
      cases h
      exact ⟨⟨by simp, trivial, by simpa using hx⟩, by simp⟩
    · rename_i x hx
      split_ifs at h with hcolon hdigit
      · obtain ⟨b', hb', rfl⟩ := Scan.map_eq_stuck.mp h
        obtain ⟨hfound, hshort⟩ := ih hb'
        cases b' with
        | atEnd ds =>
          obtain ⟨hall, hread, hend⟩ := hfound
          exact ⟨⟨List.forall_mem_cons.mpr ⟨hdigit, hall⟩, reads_cons.mpr ⟨hx, hread⟩,
            by rwa [advance_cons]⟩, by simp [BrokenText.cons]⟩
        | badByte ds y =>
          obtain ⟨hall, hread, hbad⟩ := hfound
          exact ⟨⟨List.forall_mem_cons.mpr ⟨hdigit, hall⟩, reads_cons.mpr ⟨hx, hread⟩, hbad⟩,
            by simp [BrokenText.cons]⟩
        -- The scan of the digits gives up on nothing after the colon.
        | short ds p => exact absurd rfl (hshort ds p)
      · cases h
        exact ⟨⟨by simp, reads_cons.mpr ⟨hx, trivial⟩, hcolon, by simpa using hdigit⟩, by simp⟩

/-- A scan of a string's bytes that gets stuck has found fewer than the length counts. -/
theorem scanPayload_stuck {c : UInt32} {len : Int32} {p : Bytes}
    (h : scanPayload buf n c len = .stuck p) :
    p.length < len.toUInt32.toNat ∧ Reads buf c p ∧ buf[(advance c p).toNat]? = none := by
  induction n generalizing c len p with
  | zero => cases h
  | succ n ih =>
    rw [scanPayload] at h
    split_ifs at h with hlen
    -- One more byte and the countdown one lower, so what is missing stays the same.
    have hsub := toNat_sub_one hlen
    split at h
    · rename_i hx
      cases h
      exact ⟨by simp; omega, trivial, by simpa using hx⟩
    · rename_i x hx
      obtain ⟨p', hp', rfl⟩ := Scan.map_eq_stuck.mp h
      obtain ⟨hcount, hread, hend⟩ := ih hp'
      exact ⟨by rw [List.length_cons]; omega, reads_cons.mpr ⟨hx, hread⟩, by rwa [advance_cons]⟩

/-- A scan of a string that gets stuck has found its broken string. -/
theorem scanText_stuck {c : UInt32} {b : BrokenText} (h : scanText buf n c = .stuck b) :
    b.FoundAt buf c := by
  rw [scanText] at h
  split at h
  · cases h
  · rename_i b' hb'
    cases h
    exact (scanDigits_stuck hb').1
  · rename_i ds hds
    obtain ⟨p, hp, rfl⟩ := Scan.map_eq_stuck.mp h
    obtain ⟨hall, hdigits⟩ := scanDigits_sound hds
    obtain ⟨hcount, hpayload, hend⟩ := scanPayload_stuck hp
    -- The digits with their colon are one scan, and the bytes another.
    have hsplit : ds ++ Ascii.colon :: p = (ds ++ [Ascii.colon]) ++ p := by simp
    refine ⟨hall, ?_, by rwa [← textLength_toNat], ?_⟩
    · rw [hsplit]
      exact reads_append.mpr ⟨hdigits, hpayload⟩
    · rw [hsplit, advance_append]
      exact hend

/-- A scan of an integer that gets stuck has found its broken integer. -/
theorem scanBody_stuck {c : UInt32} {first : Bool} {b : BrokenInteger}
    (h : scanBody buf n c first = .stuck b) : b.FoundAt buf c first := by
  induction n generalizing c first b with
  | zero => cases h
  | succ n ih =>
    rw [scanBody] at h
    split at h
    · rename_i hx
      cases h
      exact ⟨by simp, by simp, by simp, trivial, by simpa using hx⟩
    · rename_i x hx
      split_ifs at h with he hsign
      · cases h
        exact ⟨by simp, by simp, by simp, fun hf => by simp [hf] at hsign,
          reads_cons.mpr ⟨hsign.1 ▸ hx, trivial⟩⟩
      · obtain ⟨b', hb', rfl⟩ := Scan.map_eq_stuck.mp h
        -- The byte read is no sign where none was allowed any more.
        have hne (hf : first = false) : x ≠ Ascii.minus := fun hm => hsign ⟨hm, hf⟩
        cases b' with
        | atEnd body =>
          obtain ⟨hnot, -, hminus, hread, hend⟩ := ih hb'
          refine ⟨by simpa using ⟨Ne.symm he, hnot⟩, hminus rfl, fun hf => ?_,
            reads_cons.mpr ⟨hx, hread⟩, by rwa [advance_cons]⟩
          simpa using ⟨Ne.symm (hne hf), hminus rfl⟩
        | badSign body =>
          obtain ⟨hnot, -, hminus, -, hread⟩ := ih hb'
          refine ⟨by simpa using ⟨Ne.symm he, hnot⟩, hminus rfl, fun hf => ?_, by simp,
            reads_cons.mpr ⟨hx, hread⟩⟩
          simpa using ⟨Ne.symm (hne hf), hminus rfl⟩

/-- The scans of the recursive functions that get stuck have found their broken values, with the
fuel `n`. -/
structure StuckAt (buf : Bytes) (n : ℕ) : Prop where
  arbitrary : ∀ c b, scanArbitrary buf n c = .stuck b → b.FoundAt buf c
  list : ∀ c b, scanList buf n c = .stuck b → b.FoundAt buf (c + 1)
  items : ∀ c b, scanItems buf n c = .stuck b → b.FoundAt buf c
  dictionary : ∀ c b, scanDictionary buf n c = .stuck b → b.FoundAt buf (c + 1)
  entries : ∀ c b, scanEntries buf n c = .stuck b → b.FoundAt buf c

/-- A value that the scan is stuck in is found there. -/
theorem StuckAt.arbitrary_succ (ih : StuckAt buf n) {c : UInt32} {b : Broken}
    (h : scanArbitrary buf (n + 1) c = .stuck b) : b.FoundAt buf c := by
  rw [scanArbitrary] at h
  split at h
  · rename_i hx
    cases h
    exact hx
  · rename_i x hx
    split_ifs at h with hi hl hd hdigit
    · obtain ⟨b', hb', rfl⟩ := Scan.map_eq_stuck.mp h
      exact ⟨hi ▸ hx, scanBody_stuck hb'⟩
    · obtain ⟨b', hb', rfl⟩ := Scan.map_eq_stuck.mp h
      exact ⟨hl ▸ hx, ih.list c b' hb'⟩
    · obtain ⟨b', hb', rfl⟩ := Scan.map_eq_stuck.mp h
      exact ⟨hd ▸ hx, ih.dictionary c b' hb'⟩
    · obtain ⟨b', hb', rfl⟩ := Scan.map_eq_stuck.mp h
      exact ⟨⟨x, hx, hdigit⟩, scanText_stuck hb'⟩
    · cases h
      exact ⟨hx, hi, hl, hd, by simpa using hdigit⟩

/-- So are the items. -/
theorem StuckAt.items_succ (ih : StuckAt buf n) {c : UInt32} {b : BrokenItems}
    (h : scanItems buf (n + 1) c = .stuck b) : b.FoundAt buf c := by
  rw [scanItems] at h
  split at h
  · cases h
  · rename_i b' hb'
    cases h
    exact ih.arbitrary c b' hb'
  · rename_i t ht
    obtain ⟨hacc, hread⟩ := scanArbitrary_sound ht
    split at h
    · rename_i hx
      cases h
      exact ⟨hacc, hread, hx⟩
    · rename_i x hx
      split_ifs at h with he
      obtain ⟨b', hb', rfl⟩ := Scan.map_eq_stuck.mp h
      exact ⟨hacc, hread, ⟨x, hx, he⟩, ih.items _ b' hb'⟩

/-- So are the entries. -/
theorem StuckAt.entries_succ (ih : StuckAt buf n) {c : UInt32} {b : BrokenEntries}
    (h : scanEntries buf (n + 1) c = .stuck b) : b.FoundAt buf c := by
  rw [scanEntries] at h
  split at h
  · cases h
  · rename_i b' hb'
    cases h
    exact scanText_stuck hb'
  · rename_i k hk
    obtain ⟨hkacc, hkread⟩ := scanText_sound hk
    split at h
    · cases h
    · rename_i b' hb'
      cases h
      exact ⟨hkacc, hkread, ih.arbitrary _ b' hb'⟩
    · rename_i t ht
      obtain ⟨hacc, hread⟩ := scanArbitrary_sound ht
      -- The key and the value stand one after the other.
      have hentry := reads_append.mpr ⟨hkread, hread⟩
      split_ifs at h with hint
      · cases h
        exact ⟨hkacc, hacc, hint, hentry⟩
      · have hlen (hl : k.payload = lengthKey) : t.IsInteger := by_contra fun h' => hint ⟨hl, h'⟩
        split at h
        · rename_i hx
          cases h
          exact ⟨hkacc, hacc, hlen, hentry, hx⟩
        · rename_i x hx
          split_ifs at h with he
          obtain ⟨b', hb', rfl⟩ := Scan.map_eq_stuck.mp h
          exact ⟨hkacc, hacc, hlen, hentry, ⟨x, hx, he⟩, ih.entries _ b' hb'⟩

/-- Where the scan is stuck, a broken value is found, with any fuel. -/
theorem stuckAt (buf : Bytes) (n : ℕ) : StuckAt buf n := by
  induction n with
  | zero =>
    refine ⟨fun _ _ h => ?_, fun _ _ h => ?_, fun _ _ h => ?_, fun _ _ h => ?_,
      fun _ _ h => ?_⟩ <;> cases h
  | succ n ih =>
    exact ⟨fun _ _ h => ih.arbitrary_succ h, fun _ _ h => ih.items _ _ h,
      fun _ _ h => ih.items_succ h, fun _ _ h => ih.entries _ _ h, fun _ _ h => ih.entries_succ h⟩

/-- A scan that gets stuck has found its broken value. -/
theorem scanArbitrary_stuck {c : UInt32} {b : Broken} (h : scanArbitrary buf n c = .stuck b) :
    b.FoundAt buf c :=
  (stuckAt buf n).arbitrary c b h

/-! ## Scans from where a broken value stands -/

/-- The scan of a length gets stuck where a broken string stands, unless that breaks after the
colon. -/
theorem scanDigits_foundAt {n : ℕ} {c : UInt32} {b : BrokenText} (hn : b.bytes.length ≤ n)
    (h : b.FoundAt buf c) (hshort : ∀ ds p, b ≠ .short ds p) : scanDigits buf n c = .stuck b := by
  induction n generalizing c b with
  | zero =>
    cases b with
    | atEnd ds =>
      obtain rfl : ds = [] := List.length_eq_zero_iff.mp (by simpa [BrokenText.bytes] using hn)
      obtain ⟨-, -, hend⟩ := h
      simp only [advance_nil] at hend
      simp [scanDigits, hend]
    | badByte ds x => simp [BrokenText.bytes] at hn
    | short ds p => exact absurd rfl (hshort ds p)
  | succ n ih =>
    cases b with
    | atEnd ds =>
      obtain ⟨hall, hread, hend⟩ := h
      cases ds with
      | nil =>
        simp only [advance_nil] at hend
        simp [scanDigits, hend]
      | cons x ds =>
        obtain ⟨hx, hrest⟩ := reads_cons.mp hread
        obtain ⟨hdigit, htail⟩ := List.forall_mem_cons.mp hall
        rw [advance_cons] at hend
        have hscan := @ih (c + 1) (.atEnd ds) (by simpa [BrokenText.bytes] using hn)
          ⟨htail, hrest, hend⟩ (by simp)
        simp [scanDigits, hx, hdigit, (isDigit_ne hdigit).2.2.2.2.1, hscan, BrokenText.cons]
    | badByte ds y =>
      obtain ⟨hall, hread, hcolon, hbad⟩ := h
      cases ds with
      | nil =>
        obtain ⟨hx, -⟩ := reads_cons.mp hread
        simp [scanDigits, hx, hcolon, hbad]
      | cons x ds =>
        obtain ⟨hx, hrest⟩ := reads_cons.mp hread
        obtain ⟨hdigit, htail⟩ := List.forall_mem_cons.mp hall
        have hscan := @ih (c + 1) (.badByte ds y)
          (by simpa [BrokenText.bytes] using hn) ⟨htail, hrest, hcolon, hbad⟩ (by simp)
        simp [scanDigits, hx, hdigit, (isDigit_ne hdigit).2.2.2.2.1, hscan, BrokenText.cons]
    | short ds p => exact absurd rfl (hshort ds p)

/-- The scan of a string's bytes gets stuck where the buffer ends in them. -/
theorem scanPayload_foundAt {n : ℕ} {c : UInt32} {len : Int32} {p : Bytes} (hn : p.length < n)
    (hlen : p.length < len.toUInt32.toNat) (h : Reads buf c p)
    (hend : buf[(advance c p).toNat]? = none) : scanPayload buf n c len = .stuck p := by
  induction p generalizing n c len with
  | nil =>
    obtain ⟨n, rfl⟩ : ∃ m, n = m + 1 := ⟨n - 1, by simp at hn; omega⟩
    have hne : len ≠ 0 := by
      rintro rfl
      exact absurd hlen (Nat.not_lt_zero _)
    simp only [advance_nil] at hend
    simp [scanPayload, hne, hend]
  | cons x p ih =>
    obtain ⟨n, rfl⟩ : ∃ m, n = m + 1 := ⟨n - 1, by simp at hn; omega⟩
    obtain ⟨hx, hrest⟩ := reads_cons.mp h
    have hne : len ≠ 0 := by
      rintro rfl
      exact absurd hlen (Nat.not_lt_zero _)
    have hsub := toNat_sub_one hne
    rw [advance_cons] at hend
    have hscan : scanPayload buf n (c + 1) (len - 1) = .stuck p :=
      ih (by simpa using hn) (by rw [List.length_cons] at hlen; omega) hrest hend
    simp [scanPayload, hne, hx, hscan]

/-- The scan of a string gets stuck where a broken string stands. -/
theorem scanText_foundAt {n : ℕ} {c : UInt32} {b : BrokenText} (hn : b.bytes.length ≤ n)
    (h : b.FoundAt buf c) : scanText buf n c = .stuck b := by
  cases b with
  | atEnd ds => rw [scanText, scanDigits_foundAt hn h (by simp)]
  | badByte ds x => rw [scanText, scanDigits_foundAt hn h (by simp)]
  | short ds p =>
    obtain ⟨hall, hread, hcount, hend⟩ := h
    have hsplit : ds ++ Ascii.colon :: p = (ds ++ [Ascii.colon]) ++ p := by simp
    rw [hsplit, advance_append] at hend
    obtain ⟨hdigits, hpayload⟩ := reads_append.mp (hsplit ▸ hread)
    simp only [BrokenText.bytes, List.length_append, List.length_cons] at hn
    have hd : scanDigits buf n c = .done ds := scanDigits_complete (by omega) hall hdigits
    have hp : scanPayload buf n (advance c (ds ++ [Ascii.colon])) (textLength ds) = .stuck p :=
      scanPayload_foundAt (by omega) (by rwa [textLength_toNat]) hpayload hend
    simp [scanText, hd, hp]

/-- The scan of an integer gets stuck where a broken integer stands. -/
theorem scanBody_foundAt {n : ℕ} {c : UInt32} {first : Bool} {b : BrokenInteger}
    (hn : b.bytes.length < n) (h : b.FoundAt buf c first) :
    scanBody buf n c first = .stuck b := by
  induction n generalizing c first b with
  | zero => exact absurd hn (Nat.not_lt_zero _)
  | succ n ih =>
    cases b with
    | atEnd body =>
      obtain ⟨hnot, htail, hminus, hread, hend⟩ := h
      cases body with
      | nil =>
        simp only [advance_nil] at hend
        simp [scanBody, hend]
      | cons x body =>
        obtain ⟨hx, hrest⟩ := reads_cons.mp hread
        obtain ⟨hxe, hbody⟩ := not_or.mp (mt List.mem_cons.mpr hnot)
        have hsign : ¬ (x = Ascii.minus ∧ first = false) := by
          rintro ⟨rfl, hf⟩
          exact hminus hf List.mem_cons_self
        rw [advance_cons] at hend
        have hscan := @ih (c + 1) false (.atEnd body)
          (by simpa [BrokenInteger.bytes] using hn)
          ⟨hbody, fun hm => htail (List.mem_of_mem_tail hm), fun _ => htail, hrest, hend⟩
        rw [scanBody, hx]
        simp only [Ne.symm hxe, hsign, if_false, hscan, Scan.map_stuck, BrokenInteger.cons]
    | badSign body =>
      obtain ⟨hnot, htail, hminus, hfirst, hread⟩ := h
      cases body with
      | nil =>
        obtain ⟨hx, -⟩ := reads_cons.mp hread
        -- The sign is the first byte, so it was not allowed there to begin with.
        have hf : first = false := by
          by_contra hne
          exact hfirst (by simpa using hne) rfl
        simp [scanBody, hx, hf]
      | cons x body =>
        obtain ⟨hx, hrest⟩ := reads_cons.mp hread
        obtain ⟨hxe, hbody⟩ := not_or.mp (mt List.mem_cons.mpr hnot)
        have hsign : ¬ (x = Ascii.minus ∧ first = false) := by
          rintro ⟨rfl, hf⟩
          exact hminus hf List.mem_cons_self
        have hscan := @ih (c + 1) false (.badSign body)
          (by simpa [BrokenInteger.bytes] using hn)
          ⟨hbody, fun hm => htail (List.mem_of_mem_tail hm), fun _ => htail, by simp, hrest⟩
        rw [scanBody, hx]
        simp only [Ne.symm hxe, hsign, if_false, hscan, Scan.map_stuck, BrokenInteger.cons]

/-- The scans of an accepted key and of its accepted value. -/
theorem scanEntry_complete {n : ℕ} {c : UInt32} {k : Text} {t : Parsed}
    (hn : 3 * (k.bytes ++ t.bytes).length ≤ n + 1) (hk : k.Accepted) (ht : t.Accepted)
    (h : Reads buf c (k.bytes ++ t.bytes)) :
    scanText buf n c = .done k ∧ scanArbitrary buf n (advance c k.bytes) = .done t := by
  obtain ⟨hkread, hread⟩ := reads_append.mp h
  -- The value has two bytes and the key one, so the fuel for both is enough for each.
  have htwo := Parsed.two_le_length ht
  obtain ⟨x, l, hx, -⟩ := Text.bytes_head hk
  have hpos : 1 ≤ k.bytes.length := by simp [hx]
  rw [List.length_append] at hn
  exact ⟨scanText_complete (by omega) hk hkread, scanArbitrary_complete (by omega) ht hread⟩

mutual

/-- A scan from where a broken value stands gets stuck with it. -/
theorem scanArbitrary_foundAt : ∀ {b : Broken} {n : ℕ} {c : UInt32}, 3 * b.bytes.length + 3 ≤ n →
    b.FoundAt buf c → scanArbitrary buf n c = .stuck b
  | .noByte, n, c, hn, h => by
    obtain ⟨n, rfl⟩ : ∃ m, n = m + 1 := ⟨n - 1, by omega⟩
    rw [scanArbitrary, show buf[c.toNat]? = none from h]
  | .badByte x, n, c, hn, h => by
    obtain ⟨n, rfl⟩ : ∃ m, n = m + 1 := ⟨n - 1, by omega⟩
    obtain ⟨hx, hi, hl, hd, hdigit⟩ := h
    rw [scanArbitrary, hx]
    simp only [hi, hl, hd, hdigit, if_false, Bool.false_eq_true]
  | .integer b, n, c, hn, h => by
    obtain ⟨n, rfl⟩ : ∃ m, n = m + 1 := ⟨n - 1, by omega⟩
    obtain ⟨hx, hb⟩ := h
    have hbody : scanBody buf n (c + 1) true = .stuck b :=
      scanBody_foundAt (by simp [Broken.bytes] at hn; omega) hb
    simp [scanArbitrary, hx, hbody]
  | .string b, n, c, hn, h => by
    obtain ⟨n, rfl⟩ : ∃ m, n = m + 1 := ⟨n - 1, by omega⟩
    obtain ⟨⟨x, hx, hdigit⟩, hb⟩ := h
    have htext : scanText buf n c = .stuck b :=
      scanText_foundAt (by rw [Broken.bytes] at hn; omega) hb
    obtain ⟨hi, hl, hd, -⟩ := isDigit_ne hdigit
    rw [scanArbitrary, hx]
    simp only [hi, hl, hd, hdigit, if_true, if_false, htext, Scan.map_stuck]
  | .list b, n, c, hn, h => by
    obtain ⟨n, rfl⟩ : ∃ m, n = m + 2 := ⟨n - 2, by omega⟩
    obtain ⟨hx, hb⟩ := h
    have hitems : scanItems buf n (c + 1) = .stuck b :=
      scanItems_foundAt (by simp [Broken.bytes] at hn; omega) hb
    simp [scanArbitrary, hx, scanList, hitems]
  | .dict b, n, c, hn, h => by
    obtain ⟨n, rfl⟩ : ∃ m, n = m + 2 := ⟨n - 2, by omega⟩
    obtain ⟨hx, hb⟩ := h
    have hentries : scanEntries buf n (c + 1) = .stuck b :=
      scanEntries_foundAt (by simp [Broken.bytes] at hn; omega) hb
    simp [scanArbitrary, hx, scanDictionary, hentries]

/-- The scan is stuck in broken items. -/
theorem scanItems_foundAt : ∀ {b : BrokenItems} {n : ℕ} {c : UInt32},
    3 * b.bytes.length + 4 ≤ n → b.FoundAt buf c → scanItems buf n c = .stuck b
  | .item b, n, c, hn, h => by
    obtain ⟨n, rfl⟩ : ∃ m, n = m + 1 := ⟨n - 1, by omega⟩
    have hb : scanArbitrary buf n c = .stuck b :=
      scanArbitrary_foundAt (by rw [BrokenItems.bytes] at hn; omega) h
    rw [scanItems, hb]
  | .atEnd t, n, c, hn, h => by
    obtain ⟨n, rfl⟩ : ∃ m, n = m + 1 := ⟨n - 1, by omega⟩
    obtain ⟨hacc, hread, hend⟩ := h
    have ht : scanArbitrary buf n c = .done t :=
      scanArbitrary_complete (by rw [BrokenItems.bytes] at hn; omega) hacc hread
    rw [scanItems, ht]
    simp only [hend]
  | .next t b, n, c, hn, h => by
    obtain ⟨n, rfl⟩ : ∃ m, n = m + 1 := ⟨n - 1, by omega⟩
    obtain ⟨hacc, hread, ⟨x, hx, he⟩, hb⟩ := h
    have htwo := Parsed.two_le_length hacc
    rw [BrokenItems.bytes, List.length_append] at hn
    have ht : scanArbitrary buf n c = .done t := scanArbitrary_complete (by omega) hacc hread
    have hrest : scanItems buf n (advance c t.bytes) = .stuck b :=
      scanItems_foundAt (by omega) hb
    rw [scanItems, ht]
    simp only [hx, ne_eq, he, not_false_eq_true, if_true, hrest, Scan.map_stuck]

/-- The scan is stuck in broken entries. -/
theorem scanEntries_foundAt : ∀ {b : BrokenEntries} {n : ℕ} {c : UInt32},
    3 * b.bytes.length + 4 ≤ n → b.FoundAt buf c → scanEntries buf n c = .stuck b
  | .key b, n, c, hn, h => by
    obtain ⟨n, rfl⟩ : ∃ m, n = m + 1 := ⟨n - 1, by omega⟩
    have hb : scanText buf n c = .stuck b :=
      scanText_foundAt (by rw [BrokenEntries.bytes] at hn; omega) h
    rw [scanEntries, hb]
  | .value k b, n, c, hn, h => by
    obtain ⟨n, rfl⟩ : ∃ m, n = m + 1 := ⟨n - 1, by omega⟩
    obtain ⟨hkacc, hkread, hb⟩ := h
    rw [BrokenEntries.bytes, List.length_append] at hn
    have hk : scanText buf n c = .done k := scanText_complete (by omega) hkacc hkread
    have hv : scanArbitrary buf n (advance c k.bytes) = .stuck b :=
      scanArbitrary_foundAt (by omega) hb
    rw [scanEntries, hk]
    simp only [hv]
  | .notInteger k t, n, c, hn, h => by
    obtain ⟨n, rfl⟩ : ∃ m, n = m + 1 := ⟨n - 1, by omega⟩
    obtain ⟨hkacc, hacc, hint, hread⟩ := h
    obtain ⟨hk, ht⟩ := scanEntry_complete (n := n) (by rw [BrokenEntries.bytes] at hn; omega)
      hkacc hacc hread
    rw [scanEntries, hk]
    simp only [ht, if_pos hint]
  | .atEnd k t, n, c, hn, h => by
    obtain ⟨n, rfl⟩ : ∃ m, n = m + 1 := ⟨n - 1, by omega⟩
    obtain ⟨hkacc, hacc, hint, hread, hend⟩ := h
    obtain ⟨hk, ht⟩ := scanEntry_complete (n := n) (by rw [BrokenEntries.bytes] at hn; omega)
      hkacc hacc hread
    rw [scanEntries, hk]
    simp only [ht, if_neg fun h' : k.payload = lengthKey ∧ ¬ t.IsInteger => h'.2 (hint h'.1), hend]
  | .next k t b, n, c, hn, h => by
    obtain ⟨n, rfl⟩ : ∃ m, n = m + 1 := ⟨n - 1, by omega⟩
    obtain ⟨hkacc, hacc, hint, hread, ⟨x, hx, he⟩, hb⟩ := h
    have htwo := Parsed.two_le_length hacc
    rw [BrokenEntries.bytes, List.length_append, List.length_append] at hn
    obtain ⟨hk, ht⟩ := scanEntry_complete (n := n) (by rw [List.length_append]; omega) hkacc hacc
      hread
    have hrest : scanEntries buf n (advance c (k.bytes ++ t.bytes)) = .stuck b :=
      scanEntries_foundAt (by omega) hb
    rw [scanEntries, hk]
    simp only [ht, if_neg fun h' : k.payload = lengthKey ∧ ¬ t.IsInteger => h'.2 (hint h'.1), hx,
      ne_eq, he, not_false_eq_true, if_true, hrest, Scan.map_stuck]

end

/-- The bytes of a broken string stand where it was found. -/
theorem BrokenText.FoundAt.reads {c : UInt32} {b : BrokenText} (h : b.FoundAt buf c) :
    Reads buf c b.bytes := by
  cases b with
  | atEnd ds => exact h.2.1
  | badByte ds x => exact h.2.1
  | short ds p => exact h.2.1

/-- The bytes of a broken integer stand where it was found. -/
theorem BrokenInteger.FoundAt.reads {c : UInt32} {first : Bool} {b : BrokenInteger}
    (h : b.FoundAt buf c first) : Reads buf c b.bytes := by
  cases b with
  | atEnd body => exact h.2.2.2.1
  | badSign body => exact h.2.2.2.2

mutual

/-- The bytes of a broken value stand where it was found. -/
theorem Broken.FoundAt.reads : ∀ {b : Broken} {c : UInt32}, b.FoundAt buf c → Reads buf c b.bytes
  | .noByte, _, _ => trivial
  | .badByte _, _, _ => trivial
  | .integer _, _, h => reads_cons.mpr ⟨h.1, h.2.reads⟩
  | .string _, _, h => h.2.reads
  | .list _, _, h => reads_cons.mpr ⟨h.1, h.2.reads⟩
  | .dict _, _, h => reads_cons.mpr ⟨h.1, h.2.reads⟩

/-- The bytes of broken items are read where they are found. -/
theorem BrokenItems.FoundAt.reads : ∀ {b : BrokenItems} {c : UInt32}, b.FoundAt buf c →
    Reads buf c b.bytes
  | .item b, _, h => Broken.FoundAt.reads (b := b) h
  | .atEnd _, _, h => h.2.1
  | .next _ _, _, h => reads_append.mpr ⟨h.2.1, h.2.2.2.reads⟩

/-- So are those of broken entries. -/
theorem BrokenEntries.FoundAt.reads : ∀ {b : BrokenEntries} {c : UInt32}, b.FoundAt buf c →
    Reads buf c b.bytes
  | .key b, _, h => BrokenText.FoundAt.reads (b := b) h
  | .value _ _, _, h => reads_append.mpr ⟨h.2.1, h.2.2.reads⟩
  | .notInteger _ _, _, h => h.2.2.2
  | .atEnd _ _, _, h => h.2.2.2.1
  | .next _ _ _, _, h => reads_append.mpr ⟨h.2.2.2.1, h.2.2.2.2.2.reads⟩

end

end

/-! ## The cursor and the calls of `consumeChar` -/

/-- A broken string leaves the cursor after what was read of it. -/
@[simp] theorem BrokenText.replay_cursor (b : BrokenText) (s : State) :
    (b.replay s).cursor = advance s.cursor b.bytes := by
  cases b <;> rfl

/-- A broken integer leaves the cursor after what was read of it. -/
@[simp] theorem BrokenInteger.replay_cursor (b : BrokenInteger) (s : State) :
    (b.replay s).cursor = advance s.cursor b.bytes := by
  cases b <;> rfl

mutual

/-- A broken value leaves the cursor after what was read of it. -/
@[simp] theorem Broken.replay_cursor : ∀ (b : Broken) (s : State),
    (b.replay s).cursor = advance s.cursor b.bytes
  | .noByte, s => by rw [Broken.replay, Broken.bytes, advance_nil]
  | .badByte _, s => by rw [Broken.replay, Broken.bytes, advance_nil]
  | .integer b, s => by
    rw [Broken.replay, b.replay_cursor, Broken.bytes, State.feed_cursor, ← advance_append]
    rfl
  | .string b, s => b.replay_cursor s
  | .list b, s => by
    rw [Broken.replay, b.replay_cursor, Broken.bytes, State.alloc_cursor, State.feed_cursor,
      ← advance_append]
    rfl
  | .dict b, s => by
    rw [Broken.replay, b.replay_cursor, Broken.bytes, State.alloc_cursor, State.feed_cursor,
      ← advance_append]
    rfl

/-- The cursor is behind what was read of the items. -/
@[simp] theorem BrokenItems.replay_cursor : ∀ (b : BrokenItems) (p : Ptr) (s : State),
    (b.replay p s).cursor = advance s.cursor b.bytes
  | .item b, p, s => b.replay_cursor s
  | .atEnd t, p, s => t.replay_cursor s
  | .next t b, p, s => by
    rw [BrokenItems.replay, b.replay_cursor, BrokenItems.bytes, State.update_cursor,
      t.replay_cursor, advance_append]

/-- The cursor is behind what was read of the entries. -/
@[simp] theorem BrokenEntries.replay_cursor : ∀ (b : BrokenEntries) (p : Ptr) (s : State),
    (b.replay p s).cursor = advance s.cursor b.bytes
  | .key b, p, s => b.replay_cursor s
  | .value k b, p, s => by
    rw [BrokenEntries.replay, b.replay_cursor, BrokenEntries.bytes, Text.enter_cursor,
      advance_append]
  | .notInteger k t, p, s => by
    rw [BrokenEntries.replay, t.replay_cursor, BrokenEntries.bytes, Text.enter_cursor,
      advance_append]
  | .atEnd k t, p, s => by
    rw [BrokenEntries.replay, State.update_cursor, Text.leave_cursor, t.replay_cursor,
      Text.enter_cursor, BrokenEntries.bytes, advance_append]
  | .next k t b, p, s => by
    rw [BrokenEntries.replay, b.replay_cursor, State.update_cursor, Text.leave_cursor,
      t.replay_cursor, Text.enter_cursor, BrokenEntries.bytes, advance_append, advance_append]

end

/-- A broken string takes one call of `consumeChar` for each byte read, and one that finds none. -/
theorem BrokenText.replay_consumeCalls (b : BrokenText) (s : State) :
    (b.replay s).consumeCalls ≤ s.consumeCalls + b.bytes.length + 1 := by
  cases b <;> simp only [BrokenText.replay, BrokenText.bytes, State.failRead_consumeCalls,
    State.feed_consumeCalls] <;> omega

/-- A broken integer takes one call of `consumeChar` for each byte read, and one that finds none. -/
theorem BrokenInteger.replay_consumeCalls (b : BrokenInteger) (s : State) :
    (b.replay s).consumeCalls ≤ s.consumeCalls + b.bytes.length + 1 := by
  cases b <;> simp only [BrokenInteger.replay, BrokenInteger.bytes, State.failRead_consumeCalls,
    State.feed_consumeCalls] <;> omega

mutual

/-- A broken value takes one call of `consumeChar` for each byte read, and one that finds none. -/
theorem Broken.replay_consumeCalls : ∀ (b : Broken) (s : State),
    (b.replay s).consumeCalls ≤ s.consumeCalls + b.bytes.length + 1
  | .noByte, s => by rw [Broken.replay]; omega
  | .badByte _, s => by rw [Broken.replay]; omega
  | .integer b, s => by
    have h := b.replay_consumeCalls (s.feed [Ascii.i])
    simp only [Broken.replay, Broken.bytes, State.feed_consumeCalls, List.length_cons,
      List.length_nil] at h ⊢
    omega
  | .string b, s => b.replay_consumeCalls s
  | .list b, s => by
    have h := b.replay_consumeCalls s.heap.length ((s.feed [Ascii.l]).alloc (.ofType .bList))
    simp only [Broken.replay, Broken.bytes, State.alloc_consumeCalls, State.feed_consumeCalls,
      List.length_cons, List.length_nil] at h ⊢
    omega
  | .dict b, s => by
    have h := b.replay_consumeCalls s.heap.length ((s.feed [Ascii.d]).alloc (.ofType .bDict))
    simp only [Broken.replay, Broken.bytes, State.alloc_consumeCalls, State.feed_consumeCalls,
      List.length_cons, List.length_nil] at h ⊢
    omega

/-- No more than the bytes of the items are consumed, and one. -/
theorem BrokenItems.replay_consumeCalls : ∀ (b : BrokenItems) (p : Ptr) (s : State),
    (b.replay p s).consumeCalls ≤ s.consumeCalls + b.bytes.length + 1
  | .item b, p, s => b.replay_consumeCalls s
  | .atEnd t, p, s => by
    rw [BrokenItems.replay, State.update_consumeCalls, t.replay_consumeCalls, BrokenItems.bytes]
    omega
  | .next t b, p, s => by
    have h := b.replay_consumeCalls p ((t.replay s).update p (.push s.heap.length))
    rw [State.update_consumeCalls, t.replay_consumeCalls] at h
    rw [BrokenItems.replay, BrokenItems.bytes, List.length_append]
    omega

/-- No more than the bytes of the entries are consumed, and one. -/
theorem BrokenEntries.replay_consumeCalls : ∀ (b : BrokenEntries) (p : Ptr) (s : State),
    (b.replay p s).consumeCalls ≤ s.consumeCalls + b.bytes.length + 1
  | .key b, p, s => b.replay_consumeCalls s
  | .value k b, p, s => by
    have h := b.replay_consumeCalls (k.enter s)
    rw [Text.enter_consumeCalls] at h
    rw [BrokenEntries.replay, BrokenEntries.bytes, List.length_append]
    omega
  | .notInteger k t, p, s => by
    rw [BrokenEntries.replay, t.replay_consumeCalls, Text.enter_consumeCalls, BrokenEntries.bytes,
      List.length_append]
    omega
  | .atEnd k t, p, s => by
    rw [BrokenEntries.replay, State.update_consumeCalls, Text.leave_consumeCalls,
      t.replay_consumeCalls, Text.enter_consumeCalls, BrokenEntries.bytes, List.length_append]
    omega
  | .next k t b, p, s => by
    have h := b.replay_consumeCalls p
      ((k.leave t (t.replay (k.enter s))).update p (.bind k.payload s.heap.length))
    rw [State.update_consumeCalls, Text.leave_consumeCalls, t.replay_consumeCalls,
      Text.enter_consumeCalls] at h
    rw [BrokenEntries.replay, BrokenEntries.bytes, List.length_append, List.length_append]
    omega

end

end Btor
