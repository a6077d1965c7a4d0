import Btor.Scan

/-!
# Scans and the grammar

A scan that ends with a value has read the bytes of an accepted value (`scanArbitrary_sound`), and a
scan of the bytes of an accepted value ends with it, whatever comes after them
(`scanArbitrary_complete`). So the bytes at a cursor start at most one accepted value
(`accepted_unique`).

Soundness is an induction on the fuel, completeness one on the value.
-/

namespace Btor

/-! ## The length of a string -/

/-- The `int` in which `extractString` computes the length is the image of the number written. -/
theorem textLength_eq (ds : Bytes) : textLength ds = Int32.ofNat (decimal ds) := by
  -- One turn of the loop, in an `int` and in the natural numbers.
  have hstep (n : ℕ) (c : UInt8) :
      Int32.ofNat n * 10 + Int32.ofNat (digit c) = Int32.ofNat (n * 10 + digit c) := by
    rw [Int32.ofNat_add, Int32.ofNat_mul]
    rfl
  exact List.foldl_hom Int32.ofNat hstep

/-- The length that is counted down is the number written, modulo `2^32`. -/
theorem textLength_toNat (ds : Bytes) : (textLength ds).toUInt32.toNat = decimal ds % 2^32 := by
  rw [textLength_eq]
  simp

/-- The countdown of `extractString` from a length that is not zero. -/
theorem toNat_sub_one {len : Int32} (h : len ≠ 0) :
    (len - 1).toUInt32.toNat + 1 = len.toUInt32.toNat := by
  have h0 : len.toUInt32.toNat ≠ 0 := by
    intro h'
    apply h
    rw [← len.toInt32_toUInt32, UInt32.toNat_inj.mp (h'.trans UInt32.toNat_zero.symm)]
    rfl
  have hlt := len.toUInt32.toNat_lt
  have h1 : (1 : Int32).toUInt32.toNat = 1 := rfl
  rw [Int32.toUInt32_sub, UInt32.toNat_sub, h1]
  omega

section

variable {buf : Bytes}

/-- The digits that the scan of a length reads, up to the colon. -/
theorem scanDigits_sound {n : ℕ} {c : UInt32} {ds : Bytes} (h : scanDigits buf n c = .done ds) :
    (∀ x ∈ ds, isDigit x = true) ∧ Reads buf c (ds ++ [Ascii.colon]) := by
  induction n generalizing c ds with
  | zero =>
    rw [scanDigits] at h
    split_ifs at h
  | succ n ih =>
    rw [scanDigits] at h
    split at h
    · cases h
    · rename_i x hx
      split_ifs at h with hcolon hdigit
      · cases h
        exact ⟨by simp, reads_cons.mpr ⟨hcolon ▸ hx, trivial⟩⟩
      · obtain ⟨ds', hds', rfl⟩ := Scan.map_eq_done.mp h
        obtain ⟨hall, hread⟩ := ih hds'
        exact ⟨List.forall_mem_cons.mpr ⟨hdigit, hall⟩, reads_cons.mpr ⟨hx, hread⟩⟩

/-- The scan of a string's bytes reads as many as the length counts. -/
theorem scanPayload_sound {n : ℕ} {c : UInt32} {len : Int32} {p : Bytes}
    (h : scanPayload buf n c len = .done p) :
    p.length = len.toUInt32.toNat ∧ Reads buf c p := by
  induction n generalizing c len p with
  | zero => cases h
  | succ n ih =>
    rw [scanPayload] at h
    split_ifs at h with hlen
    · cases h
      rw [hlen]
      exact ⟨rfl, trivial⟩
    · split at h
      · cases h
      · rename_i x hx
        obtain ⟨p', hp', rfl⟩ := Scan.map_eq_done.mp h
        obtain ⟨hcount, hread⟩ := ih hp'
        exact ⟨by rw [List.length_cons, hcount, toNat_sub_one hlen], reads_cons.mpr ⟨hx, hread⟩⟩

/-- The scan of a string reads an accepted one. -/
theorem scanText_sound {n : ℕ} {c : UInt32} {k : Text} (h : scanText buf n c = .done k) :
    k.Accepted ∧ Reads buf c k.bytes := by
  rw [scanText] at h
  split at h
  · cases h
  · cases h
  · rename_i ds hds
    obtain ⟨p, hp, rfl⟩ := Scan.map_eq_done.mp h
    obtain ⟨hall, hdigits⟩ := scanDigits_sound hds
    obtain ⟨hcount, hpayload⟩ := scanPayload_sound hp
    refine ⟨⟨hall, by rw [hcount, textLength_toNat]⟩, ?_⟩
    have hread := reads_append.mpr ⟨hdigits, hpayload⟩
    rwa [List.append_assoc] at hread

/-- The scan of an integer reads up to the first `e`, with a sign nowhere but in front. -/
theorem scanBody_sound {n : ℕ} {c : UInt32} {first : Bool} {body : Bytes}
    (h : scanBody buf n c first = .done body) :
    Ascii.e ∉ body ∧ Ascii.minus ∉ body.tail ∧ (first = false → Ascii.minus ∉ body) ∧
      Reads buf c (body ++ [Ascii.e]) := by
  induction n generalizing c first body with
  | zero => cases h
  | succ n ih =>
    rw [scanBody] at h
    split at h
    · cases h
    · rename_i x hx
      split_ifs at h with he hsign
      · cases h
        exact ⟨by simp, by simp, by simp, reads_cons.mpr ⟨he ▸ hx, trivial⟩⟩
      · obtain ⟨body', hbody', rfl⟩ := Scan.map_eq_done.mp h
        obtain ⟨hnot, -, hminus, hread⟩ := ih hbody'
        refine ⟨?_, hminus rfl, fun hf => ?_, reads_cons.mpr ⟨hx, hread⟩⟩
        · simpa using ⟨Ne.symm he, hnot⟩
        · simpa using ⟨fun hm => hsign ⟨hm.symm, hf⟩, hminus rfl⟩

/-- The scans of the recursive functions read what the parser accepts, with the fuel `n`. -/
structure SoundAt (buf : Bytes) (n : ℕ) : Prop where
  arbitrary : ∀ c t, scanArbitrary buf n c = .done t → t.Accepted ∧ Reads buf c t.bytes
  list : ∀ c ts, buf[c.toNat]? = some Ascii.l → scanList buf n c = .done ts →
    (Parsed.list ts).Accepted ∧ Reads buf c (Parsed.list ts).bytes
  items : ∀ c ts, scanItems buf n c = .done ts →
    (ts ≠ [] ∧ ItemsAccepted ts) ∧ Reads buf c (itemsBytes ts ++ [Ascii.e])
  dictionary : ∀ c es, buf[c.toNat]? = some Ascii.d → scanDictionary buf n c = .done es →
    (Parsed.dict es).Accepted ∧ Reads buf c (Parsed.dict es).bytes
  entries : ∀ c es, scanEntries buf n c = .done es →
    (es ≠ [] ∧ EntriesAccepted es) ∧ Reads buf c (entriesBytes es ++ [Ascii.e])

variable {n : ℕ}

/-- A value that the scan returns is accepted, and read there. -/
theorem SoundAt.arbitrary_succ (ih : SoundAt buf n) {c : UInt32} {t : Parsed}
    (h : scanArbitrary buf (n + 1) c = .done t) : t.Accepted ∧ Reads buf c t.bytes := by
  rw [scanArbitrary] at h
  split at h
  · cases h
  · rename_i ch hch
    split_ifs at h with hi hl hd hdigit
    · obtain ⟨body, hbody, rfl⟩ := Scan.map_eq_done.mp h
      obtain ⟨hnot, hsign, -, hread⟩ := scanBody_sound hbody
      exact ⟨⟨hnot, hsign⟩, reads_cons.mpr ⟨hi ▸ hch, hread⟩⟩
    · obtain ⟨ts, hts, rfl⟩ := Scan.map_eq_done.mp h
      exact ih.list c ts (hl ▸ hch) hts
    · obtain ⟨es, hes, rfl⟩ := Scan.map_eq_done.mp h
      exact ih.dictionary c es (hd ▸ hch) hes
    · obtain ⟨k, hk, rfl⟩ := Scan.map_eq_done.mp h
      obtain ⟨hacc, hread⟩ := scanText_sound hk
      refine ⟨⟨hacc, fun hnil => ?_⟩, hread⟩
      -- The first byte is a digit, so it is not the colon.
      rw [Text.bytes, hnil, List.nil_append, reads_cons, hch] at hread
      exact (isDigit_ne hdigit).2.2.2.2.1 (Option.some.inj hread.1)

/-- So are the items. -/
theorem SoundAt.items_succ (ih : SoundAt buf n) {c : UInt32} {ts : List Parsed}
    (h : scanItems buf (n + 1) c = .done ts) :
    (ts ≠ [] ∧ ItemsAccepted ts) ∧ Reads buf c (itemsBytes ts ++ [Ascii.e]) := by
  rw [scanItems] at h
  split at h
  · cases h
  · cases h
  · rename_i t ht
    obtain ⟨hacc, hread⟩ := ih.arbitrary c t ht
    split at h
    · cases h
    · rename_i ch hch
      split_ifs at h with he
      · obtain ⟨ts', hts', rfl⟩ := Scan.map_eq_done.mp h
        obtain ⟨⟨-, hall⟩, hrest⟩ := ih.items _ _ hts'
        refine ⟨⟨List.cons_ne_nil _ _, hacc, hall⟩, ?_⟩
        rw [itemsBytes, List.append_assoc]
        exact reads_append.mpr ⟨hread, hrest⟩
      · cases h
        refine ⟨⟨List.cons_ne_nil _ _, hacc, trivial⟩, ?_⟩
        rw [itemsBytes, itemsBytes, List.append_nil]
        exact reads_append.mpr ⟨hread, reads_cons.mpr ⟨not_not.mp he ▸ hch, trivial⟩⟩

/-- So are the entries. -/
theorem SoundAt.entries_succ (ih : SoundAt buf n) {c : UInt32} {es : List (Text × Parsed)}
    (h : scanEntries buf (n + 1) c = .done es) :
    (es ≠ [] ∧ EntriesAccepted es) ∧ Reads buf c (entriesBytes es ++ [Ascii.e]) := by
  rw [scanEntries] at h
  split at h
  · cases h
  · cases h
  · rename_i k hk
    obtain ⟨hkacc, hkread⟩ := scanText_sound hk
    split at h
    · cases h
    · cases h
    · rename_i t ht
      obtain ⟨hacc, hread⟩ := ih.arbitrary _ t ht
      have hentry := reads_append.mpr ⟨hkread, hread⟩
      split_ifs at h with hint
      have hlen (hl : k.payload = lengthKey) : t.IsInteger := by_contra fun h' => hint ⟨hl, h'⟩
      split at h
      · cases h
      · rename_i ch hch
        split_ifs at h with he
        · obtain ⟨es', hes', rfl⟩ := Scan.map_eq_done.mp h
          obtain ⟨⟨-, hall⟩, hrest⟩ := ih.entries _ _ hes'
          refine ⟨⟨List.cons_ne_nil _ _, hkacc, hacc, hlen, hall⟩, ?_⟩
          rw [entriesBytes, ← List.append_assoc, List.append_assoc]
          exact reads_append.mpr ⟨hentry, hrest⟩
        · cases h
          refine ⟨⟨List.cons_ne_nil _ _, hkacc, hacc, hlen, trivial⟩, ?_⟩
          rw [entriesBytes, entriesBytes, List.append_nil]
          exact reads_append.mpr ⟨hentry, reads_cons.mpr ⟨not_not.mp he ▸ hch, trivial⟩⟩

/-- What the scan returns is accepted and read, with any fuel. -/
theorem soundAt (buf : Bytes) (n : ℕ) : SoundAt buf n := by
  induction n with
  | zero =>
    refine ⟨fun _ _ h => ?_, fun _ _ _ h => ?_, fun _ _ h => ?_, fun _ _ _ h => ?_,
      fun _ _ h => ?_⟩ <;> cases h
  | succ n ih =>
    refine ⟨fun c t h => ih.arbitrary_succ h, fun c ts hl h => ?_, fun c ts h => ih.items_succ h,
      fun c es hd h => ?_, fun c es h => ih.entries_succ h⟩
    · obtain ⟨hacc, hread⟩ := ih.items _ _ h
      exact ⟨hacc, reads_cons.mpr ⟨hl, hread⟩⟩
    · obtain ⟨hacc, hread⟩ := ih.entries _ _ h
      exact ⟨hacc, reads_cons.mpr ⟨hd, hread⟩⟩

/-- A scan that ends with a value has read the bytes of an accepted value. -/
theorem scanArbitrary_sound {c : UInt32} {t : Parsed} (h : scanArbitrary buf n c = .done t) :
    t.Accepted ∧ Reads buf c t.bytes :=
  (soundAt buf n).arbitrary c t h

/-- The scan of a length reads the digits that stand before a colon. -/
theorem scanDigits_complete {n : ℕ} {c : UInt32} {ds : Bytes} (hn : ds.length < n)
    (hds : ∀ x ∈ ds, isDigit x = true) (h : Reads buf c (ds ++ [Ascii.colon])) :
    scanDigits buf n c = .done ds := by
  induction ds generalizing n c with
  | nil =>
    obtain ⟨n, rfl⟩ : ∃ m, n = m + 1 := ⟨n - 1, by simp at hn; omega⟩
    obtain ⟨hx, -⟩ := reads_cons.mp h
    simp [scanDigits, hx]
  | cons x ds ih =>
    obtain ⟨n, rfl⟩ : ∃ m, n = m + 1 := ⟨n - 1, by simp at hn; omega⟩
    obtain ⟨hx, hrest⟩ := reads_cons.mp h
    obtain ⟨hdigit, hall⟩ := List.forall_mem_cons.mp hds
    have hscan : scanDigits buf n (c + 1) = .done ds := ih (by simpa using hn) hall hrest
    simp [scanDigits, hx, hdigit, (isDigit_ne hdigit).2.2.2.2.1, hscan]

/-- The scan of a string's bytes reads the bytes that the length counts. -/
theorem scanPayload_complete {n : ℕ} {c : UInt32} {len : Int32} {p : Bytes} (hn : p.length < n)
    (hlen : p.length = len.toUInt32.toNat) (h : Reads buf c p) :
    scanPayload buf n c len = .done p := by
  induction p generalizing n c len with
  | nil =>
    obtain ⟨n, rfl⟩ : ∃ m, n = m + 1 := ⟨n - 1, by simp at hn; omega⟩
    have h0 : len = 0 := by
      by_contra hne
      have hpos := toNat_sub_one hne
      simp at hlen
      omega
    simp [scanPayload, h0]
  | cons x p ih =>
    obtain ⟨n, rfl⟩ : ∃ m, n = m + 1 := ⟨n - 1, by simp at hn; omega⟩
    obtain ⟨hx, hrest⟩ := reads_cons.mp h
    have hne : len ≠ 0 := by
      rintro rfl
      exact absurd hlen (Nat.succ_ne_zero _)
    -- The countdown takes one from a length that is not zero, also where it is negative.
    have hsub := toNat_sub_one hne
    have hscan : scanPayload buf n (c + 1) (len - 1) = .done p :=
      ih (by simpa using hn) (by rw [List.length_cons] at hlen; omega) hrest
    simp [scanPayload, hne, hx, hscan]

/-- The scan of a string reads an accepted one. -/
theorem scanText_complete {n : ℕ} {c : UInt32} {k : Text} (hn : k.bytes.length ≤ n)
    (hk : k.Accepted) (h : Reads buf c k.bytes) : scanText buf n c = .done k := by
  have hlen : k.bytes.length = k.digits.length + 1 + k.payload.length := by
    simp [Text.bytes]
    omega
  have hsplit : k.bytes = (k.digits ++ [Ascii.colon]) ++ k.payload := by simp [Text.bytes]
  obtain ⟨hdigits, hpayload⟩ := reads_append.mp (hsplit ▸ h)
  have hd : scanDigits buf n c = .done k.digits :=
    scanDigits_complete (by omega) hk.1 hdigits
  have hp : scanPayload buf n (advance c (k.digits ++ [Ascii.colon])) (textLength k.digits) =
      .done k.payload :=
    scanPayload_complete (by omega) (by rw [hk.2, textLength_toNat]) hpayload
  simp [scanText, hd, hp]

/-- The scan of an integer reads up to the first `e`. -/
theorem scanBody_complete {n : ℕ} {c : UInt32} {first : Bool} {body : Bytes}
    (hn : body.length < n) (he : Ascii.e ∉ body) (hminus : Ascii.minus ∉ body.tail)
    (hfirst : first = false → Ascii.minus ∉ body) (h : Reads buf c (body ++ [Ascii.e])) :
    scanBody buf n c first = .done body := by
  induction body generalizing n c first with
  | nil =>
    obtain ⟨n, rfl⟩ : ∃ m, n = m + 1 := ⟨n - 1, by simp at hn; omega⟩
    obtain ⟨hx, -⟩ := reads_cons.mp h
    simp [scanBody, hx]
  | cons x body ih =>
    obtain ⟨n, rfl⟩ : ∃ m, n = m + 1 := ⟨n - 1, by simp at hn; omega⟩
    obtain ⟨hx, hrest⟩ := reads_cons.mp h
    obtain ⟨hxe, hbody⟩ := not_or.mp (mt List.mem_cons.mpr he)
    have hsign : ¬ (x = Ascii.minus ∧ first = false) := by
      rintro ⟨rfl, hf⟩
      exact hfirst hf List.mem_cons_self
    have hscan : scanBody buf n (c + 1) false = .done body :=
      ih (by simpa using hn) hbody (fun hm => hminus (List.mem_of_mem_tail hm)) (fun _ => hminus)
        hrest
    rw [scanBody, hx]
    simp only [Ne.symm hxe, hsign, if_false, hscan, Scan.map_done]

/-- A string starts with a digit or with the colon. -/
theorem Text.bytes_head {k : Text} (hk : k.Accepted) :
    ∃ x l, k.bytes = x :: l ∧ (isDigit x = true ∨ x = Ascii.colon) := by
  obtain ⟨ds, p⟩ := k
  cases ds with
  | nil => exact ⟨_, _, rfl, .inr rfl⟩
  | cons x ds => exact ⟨x, _, rfl, .inl (hk.1 x List.mem_cons_self)⟩

/-- A string starts with no delimiter of the containers. -/
theorem Text.bytes_head_ne {k : Text} (hk : k.Accepted) {x : UInt8} {l : Bytes}
    (h : k.bytes = x :: l) : x ≠ Ascii.e := by
  obtain ⟨x', l', hx', hor⟩ := Text.bytes_head hk
  -- The first byte is that of the length.
  obtain ⟨rfl, -⟩ := List.cons.inj (h.symm.trans hx')
  rcases hor with hd | rfl
  · exact (isDigit_ne hd).2.2.2.1
  · decide

/-- A string that is a value starts with a digit. -/
theorem Text.bytes_head_digit {k : Text} (hk : k.Accepted) (hne : k.digits ≠ []) :
    ∃ x l, k.bytes = x :: l ∧ isDigit x = true := by
  obtain ⟨ds, p⟩ := k
  obtain ⟨x, ds, rfl⟩ := List.exists_cons_of_ne_nil hne
  exact ⟨x, _, rfl, hk.1 x List.mem_cons_self⟩

/-- No accepted value starts with the byte that ends a container. -/
theorem Parsed.bytes_head {t : Parsed} (ht : t.Accepted) :
    ∃ x l, t.bytes = x :: l ∧ x ≠ Ascii.e := by
  cases t with
  | integer body => exact ⟨_, _, rfl, by decide⟩
  | string k =>
    obtain ⟨x, l, hx, hd⟩ := Text.bytes_head_digit ht.1 ht.2
    exact ⟨x, l, hx, (isDigit_ne hd).2.2.2.1⟩
  | list ts => exact ⟨_, _, rfl, by decide⟩
  | dict es => exact ⟨_, _, rfl, by decide⟩

/-- An accepted value has at least two bytes. -/
theorem Parsed.two_le_length {t : Parsed} (ht : t.Accepted) : 2 ≤ t.bytes.length := by
  cases t with
  | integer body => simp [Parsed.bytes]
  | string k =>
    have hpos := List.length_pos_of_ne_nil ht.2
    simp [Parsed.bytes, Text.bytes]
    omega
  | list ts => simp [Parsed.bytes]
  | dict es => simp [Parsed.bytes]

/-- What follows an item is the end of the list or, no `e`, the next item. -/
theorem itemsBytes_head {t : Parsed} {ts : List Parsed} (h : ItemsAccepted (t :: ts)) :
    ∃ x l, itemsBytes (t :: ts) = x :: l ∧ x ≠ Ascii.e := by
  obtain ⟨x, l, hx, hne⟩ := Parsed.bytes_head h.1
  exact ⟨x, l ++ itemsBytes ts, by rw [itemsBytes, hx, List.cons_append], hne⟩

/-- What follows an entry is the end of the dictionary or, no `e`, the next entry. -/
theorem entriesBytes_head {k : Text} {t : Parsed} {es : List (Text × Parsed)}
    (h : EntriesAccepted ((k, t) :: es)) :
    ∃ x l, entriesBytes ((k, t) :: es) = x :: l ∧ x ≠ Ascii.e := by
  obtain ⟨x, l, hx, -⟩ := Text.bytes_head h.1
  exact ⟨x, l ++ (t.bytes ++ entriesBytes es), by rw [entriesBytes, hx, List.cons_append],
    Text.bytes_head_ne h.1 hx⟩

mutual

/-- A scan of the bytes of an accepted value ends with it, whatever comes after them. -/
theorem scanArbitrary_complete : ∀ {t : Parsed} {n : ℕ} {c : UInt32}, 3 * t.bytes.length ≤ n →
    t.Accepted → Reads buf c t.bytes → scanArbitrary buf n c = .done t
  | .integer body, n, c, hn, ht, h => by
    obtain ⟨n, rfl⟩ : ∃ m, n = m + 1 := ⟨n - 1, by simp [Parsed.bytes] at hn; omega⟩
    obtain ⟨hx, hrest⟩ := reads_cons.mp h
    have hbody : scanBody buf n (c + 1) true = .done body :=
      scanBody_complete (by simp [Parsed.bytes] at hn; omega) ht.1 ht.2 (by simp) hrest
    simp [scanArbitrary, hx, hbody]
  | .string k, n, c, hn, ht, h => by
    obtain ⟨n, rfl⟩ : ∃ m, n = m + 1 := ⟨n - 1, by simp [Parsed.bytes, Text.bytes] at hn; omega⟩
    obtain ⟨x, l, hbytes, hdigit⟩ := Text.bytes_head_digit ht.1 ht.2
    -- The dispatch sees the first digit of the length.
    have hx : buf[c.toNat]? = some x := by
      rw [Parsed.bytes, hbytes] at h
      exact (reads_cons.mp h).1
    have hpos : 1 ≤ k.bytes.length := by simp [hbytes]
    have hk : scanText buf n c = .done k :=
      scanText_complete (by rw [Parsed.bytes] at hn; omega) ht.1 h
    obtain ⟨hi, hl, hd, -⟩ := isDigit_ne hdigit
    rw [scanArbitrary, hx]
    simp only [hi, hl, hd, hdigit, if_true, if_false, hk, Scan.map_done]
  | .list ts, n, c, hn, ht, h => by
    obtain ⟨n, rfl⟩ : ∃ m, n = m + 2 := ⟨n - 2, by simp [Parsed.bytes] at hn; omega⟩
    obtain ⟨hx, hrest⟩ := reads_cons.mp h
    have hitems : scanItems buf n (c + 1) = .done ts :=
      scanItems_complete (by simp [Parsed.bytes] at hn; omega) ht.1 ht.2 hrest
    simp [scanArbitrary, hx, scanList, hitems]
  | .dict es, n, c, hn, ht, h => by
    obtain ⟨n, rfl⟩ : ∃ m, n = m + 2 := ⟨n - 2, by simp [Parsed.bytes] at hn; omega⟩
    obtain ⟨hx, hrest⟩ := reads_cons.mp h
    have hentries : scanEntries buf n (c + 1) = .done es :=
      scanEntries_complete (by simp [Parsed.bytes] at hn; omega) ht.1 ht.2 hrest
    simp [scanArbitrary, hx, scanDictionary, hentries]

/-- The scan returns the items that are accepted and read. -/
theorem scanItems_complete : ∀ {ts : List Parsed} {n : ℕ} {c : UInt32},
    3 * (itemsBytes ts).length + 3 ≤ n → ts ≠ [] → ItemsAccepted ts →
    Reads buf c (itemsBytes ts ++ [Ascii.e]) → scanItems buf n c = .done ts
  | [], _, _, _, hne, _, _ => (hne rfl).elim
  | t :: ts, n, c, hn, _, hts, h => by
    have htwo := Parsed.two_le_length hts.1
    rw [itemsBytes, List.length_append] at hn
    obtain ⟨n, rfl⟩ : ∃ m, n = m + 1 := ⟨n - 1, by omega⟩
    rw [itemsBytes, List.append_assoc] at h
    obtain ⟨hread, hrest⟩ := reads_append.mp h
    have ht : scanArbitrary buf n c = .done t := scanArbitrary_complete (by omega) hts.1 hread
    rw [scanItems, ht]
    cases ts with
    | nil =>
      -- The list ends after its last item.
      have hx := (reads_cons.mp hrest).1
      simp [hx]
    | cons t' ts =>
      -- The byte after the item is the next one's, which is no `e`.
      obtain ⟨x, l, hbytes, hne⟩ := itemsBytes_head hts.2
      have hx : buf[(advance c t.bytes).toNat]? = some x := by
        rw [hbytes] at hrest
        exact (reads_cons.mp hrest).1
      have htail : scanItems buf n (advance c t.bytes) = .done (t' :: ts) :=
        scanItems_complete (by omega) (List.cons_ne_nil _ _) hts.2 hrest
      simp only [hx, ne_eq, hne, not_false_eq_true, if_true, htail, Scan.map_done]

/-- So it does with entries. -/
theorem scanEntries_complete : ∀ {es : List (Text × Parsed)} {n : ℕ} {c : UInt32},
    3 * (entriesBytes es).length + 3 ≤ n → es ≠ [] → EntriesAccepted es →
    Reads buf c (entriesBytes es ++ [Ascii.e]) → scanEntries buf n c = .done es
  | [], _, _, _, hne, _, _ => (hne rfl).elim
  | (k, t) :: es, n, c, hn, _, hes, h => by
    have htwo := Parsed.two_le_length hes.2.1
    rw [entriesBytes, List.length_append, List.length_append] at hn
    obtain ⟨n, rfl⟩ : ∃ m, n = m + 1 := ⟨n - 1, by omega⟩
    rw [entriesBytes, ← List.append_assoc, List.append_assoc] at h
    obtain ⟨hentry, hrest⟩ := reads_append.mp h
    obtain ⟨hkread, hread⟩ := reads_append.mp hentry
    have hk : scanText buf n c = .done k := scanText_complete (by omega) hes.1 hkread
    have ht : scanArbitrary buf n (advance c k.bytes) = .done t :=
      scanArbitrary_complete (by omega) hes.2.1 hread
    have hint : ¬ (k.payload = lengthKey ∧ ¬ t.IsInteger) := fun h' => h'.2 (hes.2.2.1 h'.1)
    rw [scanEntries, hk]
    simp only [ht, if_neg hint]
    cases es with
    | nil =>
      -- The dictionary ends after its last entry.
      have hx := (reads_cons.mp hrest).1
      simp [hx]
    | cons e' es =>
      -- The byte after the entry is the next key's, which is no `e`.
      obtain ⟨x, l, hbytes, hne⟩ := entriesBytes_head (k := e'.1) (t := e'.2) hes.2.2.2
      have hx : buf[(advance c (k.bytes ++ t.bytes)).toNat]? = some x := by
        rw [hbytes] at hrest
        exact (reads_cons.mp hrest).1
      have htail : scanEntries buf n (advance c (k.bytes ++ t.bytes)) = .done (e' :: es) :=
        scanEntries_complete (by omega) (List.cons_ne_nil _ _) hes.2.2.2 hrest
      simp only [hx, ne_eq, hne, not_false_eq_true, if_true, htail, Scan.map_done]

end

/-- The bytes at a cursor start at most one accepted value. -/
theorem accepted_unique {c : UInt32} {t t' : Parsed} (ht : t.Accepted) (ht' : t'.Accepted)
    (h : Reads buf c t.bytes) (h' : Reads buf c t'.bytes) : t = t' := by
  -- One scan, with fuel for both, cannot end in two ways.
  have hscan := scanArbitrary_complete (n := 3 * t.bytes.length + 3 * t'.bytes.length)
    (by omega) ht h
  have hscan' := scanArbitrary_complete (n := 3 * t.bytes.length + 3 * t'.bytes.length)
    (by omega) ht' h'
  exact Scan.done.inj (hscan.symm.trans hscan')

end

end Btor
