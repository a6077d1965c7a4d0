import Btor.Lib.Numeral

/-!
# IPv4 addresses as text

The dotted quad of an address is its four bytes in decimal, with dots in between. `readDottedQuad`
reads the dotted quads and nothing else (`readDottedQuad_eq_some`). A dotted quad has seven to
fifteen characters, digits and dots.
-/

namespace Lib

/-- The dot. -/
def dot : UInt8 := 46

/-- A byte in decimal. -/
def octet (n : UInt8) : List UInt8 := numeral 10 (fun d => UInt8.ofNat (48 + d)) n.toNat

/-- The byte that is written in decimal. -/
def readOctet (l : List UInt8) : Option UInt8 :=
  let n := UInt8.ofNat (horner 10 (fun c : UInt8 => c.toNat - 48) l)
  if octet n = l then some n else none

/-- The four bytes of an address in decimal, separated by dots. -/
def dottedQuad (a : Vector UInt8 4) : List UInt8 := [dot].intercalate (a.toList.map octet)

/-- The address that is written as a dotted quad. -/
def readDottedQuad (l : List UInt8) : Option (Vector UInt8 4) := do
  let bytes ← (l.splitOn dot).mapM readOctet
  if h : bytes.length = 4 then some ⟨⟨bytes⟩, h⟩ else none

/-! ## Bytes in decimal -/

section

variable {n m c : UInt8} {l : List UInt8}

/-- Decimal digits are characters from `0` to `9`. -/
theorem digit_of_mem_octet (h : c ∈ octet n) : 48 ≤ c.toNat ∧ c.toNat ≤ 57 := by
  obtain ⟨d, hd, rfl⟩ := exists_of_mem_numeral (by decide) h
  rw [UInt8.toNat_ofNat']
  omega

/-- A number has no dot. -/
theorem dot_notMem_octet : dot ∉ octet n := by
  intro h
  exact absurd (digit_of_mem_octet h).1 (by decide)

/-- A number has one digit to three. -/
theorem length_octet : 1 ≤ (octet n).length ∧ (octet n).length ≤ 3 := by
  have hlt : n.toNat < 10^3 := by
    have := n.toNat_lt
    omega
  exact ⟨List.length_pos_of_ne_nil numeral_ne_nil, length_numeral_le (by decide) (by decide) hlt⟩

/-- The digits of a byte denote it. -/
theorem horner_octet (n : UInt8) :
    horner 10 (fun c : UInt8 => c.toNat - 48) (octet n) = n.toNat := by
  have hsymbol : ∀ d < 10, (UInt8.ofNat (48 + d)).toNat - 48 = d := by
    intro d hd
    rw [UInt8.toNat_ofNat']
    omega
  exact horner_numeral (by decide) hsymbol n.toNat

/-- A number is read of its digits, and of nothing else. -/
theorem readOctet_eq_some : readOctet l = some n ↔ l = octet n := by
  unfold readOctet
  dsimp only
  constructor
  · intro h
    split_ifs at h with hl
    rw [← hl, Option.some.inj h]
  · rintro rfl
    rw [horner_octet, UInt8.ofNat_toNat, if_pos rfl]

/-- Bytes are read one by one. -/
theorem mapM_readOctet_eq_some {ls : List (List UInt8)} {bytes : List UInt8} :
    ls.mapM readOctet = some bytes ↔ ls = bytes.map octet := by
  induction ls generalizing bytes with
  | nil =>
    rw [List.mapM_nil]
    constructor
    · rintro ⟨⟩
      rfl
    · intro h
      rw [List.map_eq_nil_iff.mp h.symm]
      rfl
  | cons l ls ih =>
    rw [List.mapM_cons]
    constructor
    · intro h
      obtain ⟨n, hn, h⟩ := Option.bind_eq_some_iff.mp h
      obtain ⟨bytes', hbytes', h⟩ := Option.bind_eq_some_iff.mp h
      obtain rfl : n :: bytes' = bytes := by simpa using h
      rw [readOctet_eq_some.mp hn, ih.mp hbytes', List.map_cons]
    · intro h
      cases bytes with
      | nil => cases h
      | cons n bytes =>
        obtain ⟨hl, hls⟩ := List.cons.inj h
        rw [readOctet_eq_some.mpr hl, ih.mpr hls]
        rfl

end

/-! ## Addresses -/

section

variable {a : Vector UInt8 4} {c : UInt8} {l : List UInt8}

/-- The bytes of an address are found between the dots. -/
theorem splitOn_dottedQuad : (dottedQuad a).splitOn dot = a.toList.map octet := by
  apply List.splitOn_intercalate
  · intro l hl
    obtain ⟨n, -, rfl⟩ := List.mem_map.mp hl
    exact dot_notMem_octet
  · intro hnil
    have hlength := congrArg List.length hnil
    simp at hlength

/-- The dotted quads are what is read, and each is read as its address. -/
theorem readDottedQuad_eq_some : readDottedQuad l = some a ↔ l = dottedQuad a := by
  unfold readDottedQuad
  constructor
  · intro h
    obtain ⟨bytes, hbytes, h⟩ := Option.bind_eq_some_iff.mp h
    split_ifs at h with hlength
    obtain rfl := Option.some.inj h
    have hjoin : [dot].intercalate (l.splitOn dot) = l := List.intercalate_splitOn dot
    unfold dottedQuad
    rw [← hjoin, mapM_readOctet_eq_some.mp hbytes]
    rfl
  · rintro rfl
    rw [splitOn_dottedQuad, mapM_readOctet_eq_some.mpr rfl, Option.bind_eq_bind,
      Option.bind_some, dif_pos a.length_toList]
    rfl

/-- The four numbers with the dots between them. -/
theorem dottedQuad_eq (a : Vector UInt8 4) : dottedQuad a =
    octet a[0] ++ dot :: (octet a[1] ++ dot :: (octet a[2] ++ dot :: octet a[3])) := by
  have hlist : a.toList = [a[0], a[1], a[2], a[3]] := by
    apply List.ext_getElem a.length_toList
    intro i hi _
    rw [a.length_toList] at hi
    interval_cases i <;> rfl
  unfold dottedQuad
  rw [hlist]
  simp [List.intercalate, List.intersperse]

/-- A dotted quad has 7 to 15 characters. -/
theorem length_dottedQuad : 7 ≤ (dottedQuad a).length ∧ (dottedQuad a).length ≤ 15 := by
  have h₀ := length_octet (n := a[0])
  have h₁ := length_octet (n := a[1])
  have h₂ := length_octet (n := a[2])
  have h₃ := length_octet (n := a[3])
  rw [dottedQuad_eq]
  simp only [List.length_append, List.length_cons]
  omega

/-- The characters of a dotted quad are not zero. -/
theorem pos_of_mem_dottedQuad (h : c ∈ dottedQuad a) : 0 < c.toNat := by
  rw [dottedQuad_eq] at h
  simp only [List.mem_append, List.mem_cons] at h
  rcases h with h | rfl | h | rfl | h | rfl | h
  all_goals first
    | decide
    | have hdigit := digit_of_mem_octet h; omega

end

end Lib
