import Btor.Tokens
import Btor.Value

/-!
# The documented format

The format as the comments at the top of `bencode.cpp` describe it, stated by itself: `Encodes v l`
says that `l` is an encoding of the tree `v`, in which the entries of a dictionary may stand in any
order. Numbers are decimal, without leading zeros and without `-0`, and a length counts the bytes
exactly.

An encoding is the bytes of a `Parsed` whose numbers are all written so (`Encodes.canonical`), and
the bytes of every such `Parsed` are an encoding (`Parsed.Canonical.encodes`). Where the tree is one
that the parser can represent, that `Parsed` is accepted, and its tree is the one encoded.
-/

namespace Btor

open Lib (OrderedMap)

/-! ## The format -/

/-- A decimal number without leading zeros. -/
structure IsDecimal (ds : Bytes) : Prop where
  /-- There is a digit. -/
  ne_nil : ds ≠ []
  /-- All bytes are digits. -/
  digits : ∀ c ∈ ds, isDigit c = true
  /-- The only number that starts with a zero is zero. -/
  zero : ds.head? = some Ascii.zero → ds = [Ascii.zero]

/-- The way an integer is written between its `i` and its `e`. -/
inductive EncodesInt : ℤ → Bytes → Prop where
  | nonneg {ds : Bytes} (h : IsDecimal ds) : EncodesInt (decimal ds) ds
  | neg {ds : Bytes} (h : IsDecimal ds) (hne : ds ≠ [Ascii.zero]) :
      EncodesInt (-decimal ds) (Ascii.minus :: ds)

/-- The way a string is written. -/
inductive EncodesString (s : Bytes) : Bytes → Prop where
  | mk {ds : Bytes} (h : IsDecimal ds) (hlen : decimal ds = s.length) :
      EncodesString s (ds ++ Ascii.colon :: s)

mutual

/-- The bytes are an encoding of the tree. -/
inductive Encodes : Value → Bytes → Prop where
  | integer {n : ℤ} {body : Bytes} (h : EncodesInt n body) :
      Encodes (.integer n) (Ascii.i :: (body ++ [Ascii.e]))
  | string {s l : Bytes} (h : EncodesString s l) : Encodes (.string s) l
  | list {vs : List Value} {l : Bytes} (h : EncodesItems vs l) :
      Encodes (.list vs) (Ascii.l :: (l ++ [Ascii.e]))
  | dict {es es' : List (Bytes × Value)} {l : Bytes} (hperm : es.Perm es')
      (h : EncodesEntries es' l) : Encodes (.dict es) (Ascii.d :: (l ++ [Ascii.e]))

/-- The bytes are encodings of the items, one after the other. -/
inductive EncodesItems : List Value → Bytes → Prop where
  | nil : EncodesItems [] []
  | cons {v : Value} {vs : List Value} {l l' : Bytes} (h : Encodes v l) (h' : EncodesItems vs l') :
      EncodesItems (v :: vs) (l ++ l')

/-- The bytes are encodings of the entries, each the key and then the value. -/
inductive EncodesEntries : List (Bytes × Value) → Bytes → Prop where
  | nil : EncodesEntries [] []
  | cons {k : Bytes} {v : Value} {es : List (Bytes × Value)} {lk l l' : Bytes}
      (hk : EncodesString k lk) (h : Encodes v l) (h' : EncodesEntries es l') :
      EncodesEntries ((k, v) :: es) (lk ++ (l ++ l'))

end

/-- The bytes are a value of the documented format. -/
def Documented (l : Bytes) : Prop := ∃ v, Encodes v l

/-! ## Values written as documented -/

/-- The bytes of an integer, as the documentation wants them. -/
def IntCanonical (body : Bytes) : Prop := ∃ n, EncodesInt n body

/-- A string as the documentation wants it: the length counts the bytes exactly. -/
def Text.Canonical (k : Text) : Prop := IsDecimal k.digits ∧ decimal k.digits = k.payload.length

mutual

/-- A value whose numbers are all written as the documentation wants them. -/
def Parsed.Canonical : Parsed → Prop
  | .integer body => IntCanonical body
  | .string k => k.Canonical
  | .list ts => ItemsCanonical ts
  | .dict es => EntriesCanonical es

/-- The numbers in the items of a list are written as the documentation wants them. -/
def ItemsCanonical : List Parsed → Prop
  | [] => True
  | t :: ts => t.Canonical ∧ ItemsCanonical ts

/-- The numbers in the entries of a dictionary are written as the documentation wants them. -/
def EntriesCanonical : List (Text × Parsed) → Prop
  | [] => True
  | (k, t) :: es => k.Canonical ∧ t.Canonical ∧ EntriesCanonical es

end

/-- A canonical string encodes its bytes. -/
theorem Text.Canonical.encodes {k : Text} (h : k.Canonical) : EncodesString k.payload k.bytes :=
  .mk h.1 h.2

mutual

/-- The bytes of a canonical value are an encoding. -/
theorem Parsed.Canonical.encodes : ∀ {t : Parsed}, t.Canonical → ∃ v, Encodes v t.bytes
  | .integer _, h => by
    obtain ⟨n, hn⟩ := h
    exact ⟨.integer n, .integer hn⟩
  | .string k, h => ⟨.string k.payload, .string (Text.Canonical.encodes h)⟩
  | .list _, h => by
    obtain ⟨vs, hvs⟩ := ItemsCanonical.encodes h
    exact ⟨.list vs, .list hvs⟩
  | .dict _, h => by
    obtain ⟨es, hes⟩ := EntriesCanonical.encodes h
    exact ⟨.dict es, .dict (List.Perm.refl es) hes⟩

/-- Canonical items encode a list of trees. -/
theorem ItemsCanonical.encodes : ∀ {ts : List Parsed}, ItemsCanonical ts →
    ∃ vs, EncodesItems vs (itemsBytes ts)
  | [], _ => ⟨[], .nil⟩
  | _ :: _, h => by
    obtain ⟨v, hv⟩ := h.1.encodes
    obtain ⟨vs, hvs⟩ := h.2.encodes
    exact ⟨v :: vs, .cons hv hvs⟩

/-- Canonical entries encode a list of pairs. -/
theorem EntriesCanonical.encodes : ∀ {es : List (Text × Parsed)}, EntriesCanonical es →
    ∃ vs, EncodesEntries vs (entriesBytes es)
  | [], _ => ⟨[], .nil⟩
  | (k, _) :: _, h => by
    obtain ⟨v, hv⟩ := h.2.1.encodes
    obtain ⟨vs, hvs⟩ := h.2.2.encodes
    exact ⟨(k.payload, v) :: vs, .cons h.1.encodes hv hvs⟩

end

/-! ## Trees that the parser can represent -/

mutual

/-- The trees that the parser can represent: integers below `2^63` in magnitude, strings shorter
than `2^31` bytes, no empty list or dictionary, and integers under the key `length`. The entries of
a dictionary are listed in key order, so its keys are distinct. -/
def Value.Encodable : Value → Prop
  | .integer n => |n| < 2^63
  | .string s => s.length < 2^31
  | .list vs => vs ≠ [] ∧ ItemsEncodable vs
  | .dict es => es ≠ [] ∧ es.Pairwise (·.1 < ·.1) ∧ EntriesEncodable es

/-- The trees of the items of a list are ones that the parser can represent. -/
def ItemsEncodable : List Value → Prop
  | [] => True
  | v :: vs => v.Encodable ∧ ItemsEncodable vs

/-- The keys and the trees of the entries of a dictionary are ones that the parser can represent. -/
def EntriesEncodable : List (Bytes × Value) → Prop
  | [] => True
  | (k, v) :: es =>
    k.length < 2^31 ∧ v.Encodable ∧ (k = lengthKey → v.IsInteger) ∧ EntriesEncodable es

end

/-- The condition on a dictionary's entries is one on each of them. -/
theorem entriesEncodable_iff {es : List (Bytes × Value)} : EntriesEncodable es ↔
    ∀ e ∈ es, e.1.length < 2^31 ∧ e.2.Encodable ∧ (e.1 = lengthKey → e.2.IsInteger) := by
  induction es with
  | nil => simp [EntriesEncodable]
  | cons e es ih =>
    obtain ⟨k, v⟩ := e
    rw [EntriesEncodable, List.forall_mem_cons, ← ih]
    simp only [and_assoc]

/-- What `parseInteger` computes of digits is the number that they denote, modulo `2^64`. -/
theorem intDigits_of_digits {ds : Bytes} (h : ∀ c ∈ ds, isDigit c = true) :
    intDigits ds = Int64.ofNat (decimal ds) := by
  have hfold (ds : Bytes) (h : ∀ c ∈ ds, isDigit c = true) (a : ℕ) :
      ds.foldl (fun n c => if isDigit c then n * 10 + Int64.ofNat (digit c) else n)
        (Int64.ofNat a) = Int64.ofNat (ds.foldl (fun n c => n * 10 + digit c) a) := by
    induction ds generalizing a with
    | nil => rfl
    | cons c ds ih =>
      obtain ⟨hc, hds⟩ := List.forall_mem_cons.mp h
      -- One turn of the loop, in an `int64_t` and in the natural numbers.
      have hstep : Int64.ofNat a * 10 + Int64.ofNat (digit c) = Int64.ofNat (a * 10 + digit c) := by
        rw [Int64.ofNat_add, Int64.ofNat_mul]
        rfl
      rw [List.foldl_cons, List.foldl_cons, if_pos hc, hstep, ih hds]
  exact hfold ds h 0

/-- Digits are none of the other bytes of an integer. -/
theorem notMem_of_digits {ds : Bytes} (h : ∀ c ∈ ds, isDigit c = true) :
    Ascii.e ∉ ds ∧ Ascii.minus ∉ ds :=
  ⟨fun hc => (isDigit_ne (h _ hc)).2.2.2.1 rfl, fun hc => (isDigit_ne (h _ hc)).2.2.2.2.2 rfl⟩

/-- An encoded integer passes the checks of `parseInteger`. -/
theorem EncodesInt.accepted {n : ℤ} {body : Bytes} (h : EncodesInt n body) : IntAccepted body := by
  cases h with
  | nonneg hds =>
    obtain ⟨he, hminus⟩ := notMem_of_digits hds.digits
    exact ⟨he, fun hm => hminus (List.mem_of_mem_tail hm)⟩
  | neg hds hne =>
    obtain ⟨he, hminus⟩ := notMem_of_digits hds.digits
    exact ⟨by simpa using he, hminus⟩

/-- An encoded integer below `2^63` in magnitude is read as it is. -/
theorem EncodesInt.intOf {n : ℤ} {body : Bytes} (h : EncodesInt n body) (hn : |n| < 2^63) :
    (intOf body).toInt = n := by
  have hbound := abs_lt.mp hn
  cases h with
  | nonneg hds =>
    obtain ⟨-, hminus⟩ := notMem_of_digits hds.digits
    rw [Btor.intOf, if_neg hminus, intDigits_of_digits hds.digits, ← Int64.ofInt_eq_ofNat,
      Int64.toInt_ofInt_of_le (by omega) (by omega)]
  | @neg ds hds hne =>
    -- The sign is passed over in the loop.
    have hdigits : intDigits (Ascii.minus :: ds) = Int64.ofNat (decimal ds) := by
      rw [← intDigits_of_digits hds.digits]
      rfl
    rw [Btor.intOf, if_pos List.mem_cons_self, hdigits, ← Int64.ofInt_eq_ofNat, ← Int64.ofInt_neg,
      Int64.toInt_ofInt_of_le (by omega) (by omega)]

/-- A canonical string shorter than `2^32` bytes passes the checks of `extractString`. -/
theorem Text.Canonical.accepted {k : Text} (h : k.Canonical) (hlen : k.payload.length < 2^32) :
    k.Accepted :=
  ⟨h.1.digits, by rw [h.2, Nat.mod_eq_of_lt hlen]⟩

/-- A tree that is an integer is read from an integer. -/
theorem Parsed.isInteger_of_value {t : Parsed} {n : ℤ} (h : t.value = .integer n) :
    t.IsInteger := by
  cases t with
  | integer body => trivial
  | _ => simp [Parsed.value] at h

/-- The keys of a dictionary and the trees of its values, inserted into an empty map, are the
entries of the dictionary in key order. -/
theorem insertAll_entries {es es' : List (Bytes × Value)} (hsorted : es.Pairwise (·.1 < ·.1))
    (hperm : es.Perm es') : (OrderedMap.empty.insertAll es').entries = es := by
  have hnodup : (es.map (·.1)).Nodup := OrderedMap.keys_nodup ⟨es, hsorted⟩
  have hnodup' : (es'.map (·.1)).Nodup := (hperm.map _).nodup_iff.mp hnodup
  have hentries := (OrderedMap.insertAll_empty_perm hnodup').trans hperm.symm
  exact congrArg OrderedMap.entries
    (OrderedMap.ext_perm hentries : _ = (⟨es, hsorted⟩ : OrderedMap Bytes Value))

mutual

/-- An encoding is written by a canonical value. The parser accepts it, and its tree is the one
encoded, if that is one that the parser can represent. -/
theorem Encodes.canonical : ∀ {v : Value} {l : Bytes}, Encodes v l →
    ∃ t : Parsed, t.Canonical ∧ t.bytes = l ∧ (v.Encodable → t.Accepted ∧ t.value = v)
  | _, _, @Encodes.integer n body h => by
    refine ⟨.integer body, ⟨n, h⟩, rfl, fun hv => ⟨h.accepted, ?_⟩⟩
    rw [Parsed.value, h.intOf hv]
  | .string s, _, .string (@EncodesString.mk _ ds h hlen) => by
    have hk : Text.Canonical ⟨ds, s⟩ := ⟨h, hlen⟩
    refine ⟨.string ⟨ds, s⟩, hk, rfl, fun hv => ⟨⟨hk.accepted ?_, h.ne_nil⟩, rfl⟩⟩
    have hs : s.length < 2^31 := hv
    show s.length < 2^32
    omega
  | _, _, .list h => by
    obtain ⟨ts, hts, hbytes, hrep⟩ := EncodesItems.canonical h
    refine ⟨.list ts, hts, by rw [Parsed.bytes, hbytes], fun hv => ?_⟩
    obtain ⟨hacc, hvalue⟩ := hrep hv.2
    refine ⟨⟨?_, hacc⟩, by rw [Parsed.value, hvalue]⟩
    rintro rfl
    exact hv.1 hvalue.symm
  | _, _, .dict hperm h => by
    obtain ⟨ts, hts, hbytes, hrep⟩ := EncodesEntries.canonical h
    refine ⟨.dict ts, hts, by rw [Parsed.bytes, hbytes], fun hv => ?_⟩
    obtain ⟨hne, hsorted, hes⟩ := hv
    -- The condition on the entries does not depend on their order.
    have hes' := entriesEncodable_iff.mpr fun e he =>
      entriesEncodable_iff.mp hes e (hperm.mem_iff.mpr he)
    obtain ⟨hacc, hvalue⟩ := hrep hes'
    refine ⟨⟨?_, hacc⟩, by rw [Parsed.value, hvalue, insertAll_entries hsorted hperm]⟩
    -- A dictionary that is not empty has no empty encoding.
    rintro rfl
    rw [entriesValues] at hvalue
    subst hvalue
    exact hne hperm.eq_nil

/-- An encoding of a list of trees has canonical items. -/
theorem EncodesItems.canonical : ∀ {vs : List Value} {l : Bytes}, EncodesItems vs l →
    ∃ ts : List Parsed, ItemsCanonical ts ∧ itemsBytes ts = l ∧
      (ItemsEncodable vs → ItemsAccepted ts ∧ itemsValues ts = vs)
  | _, _, .nil => ⟨[], trivial, rfl, fun _ => ⟨trivial, rfl⟩⟩
  | _, _, .cons h h' => by
    obtain ⟨t, ht, hbytes, hrep⟩ := Encodes.canonical h
    obtain ⟨ts, hts, hbytes', hrep'⟩ := EncodesItems.canonical h'
    refine ⟨t :: ts, ⟨ht, hts⟩, by rw [itemsBytes, hbytes, hbytes'], fun hvs => ?_⟩
    obtain ⟨hacc, hvalue⟩ := hrep hvs.1
    obtain ⟨hacc', hvalue'⟩ := hrep' hvs.2
    exact ⟨⟨hacc, hacc'⟩, by rw [itemsValues, hvalue, hvalue']⟩

/-- An encoding of a list of pairs has canonical entries. -/
theorem EncodesEntries.canonical : ∀ {es : List (Bytes × Value)} {l : Bytes},
    EncodesEntries es l → ∃ ts : List (Text × Parsed), EntriesCanonical ts ∧
      entriesBytes ts = l ∧ (EntriesEncodable es → EntriesAccepted ts ∧ entriesValues ts = es)
  | _, _, .nil => ⟨[], trivial, rfl, fun _ => ⟨trivial, rfl⟩⟩
  | (k, _) :: _, _, .cons (@EncodesString.mk _ ds hds hlen) h h' => by
    have hk : Text.Canonical ⟨ds, k⟩ := ⟨hds, hlen⟩
    obtain ⟨t, ht, hbytes, hrep⟩ := Encodes.canonical h
    obtain ⟨ts, hts, hbytes', hrep'⟩ := EncodesEntries.canonical h'
    refine ⟨(⟨ds, k⟩, t) :: ts, ⟨hk, ht, hts⟩, by rw [entriesBytes, hbytes, hbytes']; rfl,
      fun hes => ?_⟩
    obtain ⟨hklen, hv, hint, hes'⟩ := hes
    obtain ⟨hacc, hvalue⟩ := hrep hv
    obtain ⟨hacc', hvalue'⟩ := hrep' hes'
    refine ⟨⟨hk.accepted ?_, hacc, fun hl => ?_, hacc'⟩, by rw [entriesValues, hvalue, hvalue']⟩
    · show k.length < 2^32
      omega
    · -- The tree under the key `length` is an integer, so an integer was written.
      have hvint := hint hl
      cases hcase : t.value with
      | integer n => exact Parsed.isInteger_of_value hcase
      | _ =>
        rw [← hvalue, hcase] at hvint
        exact hvint.elim

end

/-! ## Tokens -/

mutual

/-- The tokens of a canonical value shorter than `2^32` bytes pass the parser's checks. -/
theorem Parsed.Canonical.lexical : ∀ {t : Parsed}, t.Canonical → t.bytes.length < 2^32 → t.Lexical
  | .integer body, h, _ => by
    obtain ⟨n, hn⟩ := h
    exact List.forall_mem_singleton.mpr hn.accepted
  | .string k, h, hlen => by
    refine List.forall_mem_singleton.mpr (Text.Canonical.accepted h ?_)
    simp only [Parsed.bytes, Text.bytes, List.length_append, List.length_cons] at hlen
    omega
  | .list ts, h, hlen => by
    simp only [Parsed.bytes, List.length_append, List.length_cons] at hlen
    exact List.forall_mem_cons.mpr ⟨trivial, List.forall_mem_append.mpr
      ⟨ItemsCanonical.lexical h (by omega), List.forall_mem_singleton.mpr trivial⟩⟩
  | .dict es, h, hlen => by
    simp only [Parsed.bytes, List.length_append, List.length_cons] at hlen
    exact List.forall_mem_cons.mpr ⟨trivial, List.forall_mem_append.mpr
      ⟨EntriesCanonical.lexical h (by omega), List.forall_mem_singleton.mpr trivial⟩⟩

/-- The tokens of canonical items are as the format has them. -/
theorem ItemsCanonical.lexical : ∀ {ts : List Parsed}, ItemsCanonical ts →
    (itemsBytes ts).length < 2^32 → ∀ a ∈ itemsTokens ts, a.Lexical
  | [], _, _ => by simp [itemsTokens]
  | t :: ts, h, hlen => by
    rw [itemsBytes, List.length_append] at hlen
    exact List.forall_mem_append.mpr ⟨h.1.lexical (by omega), h.2.lexical (by omega)⟩

/-- So are those of canonical entries. -/
theorem EntriesCanonical.lexical : ∀ {es : List (Text × Parsed)}, EntriesCanonical es →
    (entriesBytes es).length < 2^32 → ∀ a ∈ entriesTokens es, a.Lexical
  | [], _, _ => by simp [entriesTokens]
  | (k, t) :: es, h, hlen => by
    simp only [entriesBytes, Text.bytes, List.length_append, List.length_cons] at hlen
    exact List.forall_mem_cons.mpr ⟨Text.Canonical.accepted h.1 (by omega),
      List.forall_mem_append.mpr ⟨h.2.1.lexical (by omega), h.2.2.lexical (by omega)⟩⟩

end

end Btor
