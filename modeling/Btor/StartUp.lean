import Btor.Bitfield
import Btor.Lookup

/-!
# The arithmetic of the start-up

`main` takes the piece length and the collected length as they come out of the torrent, computes the
size of the bitfield and seeks to its last byte. A piece length of zero is divided by, and with
fewer than eight pieces there is no last byte, and the offset wraps around. Nothing on the way
checks for either (`startUp_safe_iff`).
-/

namespace Btor

open Lib (Run Outcome)

/-- The start-up is ended by an exception before it computes anything, or what it computes is
defined and the offset is that of the last byte of a file that is not empty. -/
def SafeStartUp : Outcome World Halt UInt64 → Prop
  | .returned offset _ => offset.toNat ≠ 2^64 - 1
  | .stopped (.stopped _) _ => True
  | .stopped _ _ => False

/-- The piece length is not zero, there are at least eight pieces, and not so many that a `double`
rounds their number to `2^64`. -/
def EnoughPieces (totalLength pieceLength : UInt64) : Prop :=
  pieceLength ≠ 0 ∧ 8 * pieceLength.toNat ≤ totalLength.toNat ∧
    totalLength.toNat / pieceLength.toNat < 2^64 - 2^10

/-! ## The size of the bitfield -/

section

variable {n : ℕ}

/-- A conversion to a `double` changes a number by less than a factor of two. -/
theorem toDouble_bounds (hn : n ≠ 0) : n ≤ 2 * toDouble n ∧ toDouble n ≤ 2 * n := by
  have hulp : 2^(n.log2 - 52) ≤ n :=
    (Nat.pow_le_pow_right (by decide) (Nat.sub_le _ _)).trans (Nat.log2_self_le hn)
  have hpos : 0 < 2^(n.log2 - 52) := Nat.two_pow_pos _
  unfold toDouble
  generalize 2^(n.log2 - 52) = ulp at hulp hpos
  -- The number is between two neighbouring multiples of `ulp`, the smaller of which is not zero.
  have hq : 1 ≤ n / ulp := Nat.div_pos hulp hpos
  have hle : n / ulp * ulp ≤ n := Nat.div_mul_le_self n ulp
  have hlt : n < (n / ulp + 1) * ulp := by
    rw [add_mul, one_mul]
    exact Nat.lt_div_mul_add hpos
  have hdouble : (n / ulp + 1) * ulp ≤ 2 * (n / ulp * ulp) := by
    rw [← mul_assoc]
    exact Nat.mul_le_mul_right ulp (by omega)
  dsimp only
  split_ifs <;> constructor <;> omega

/-- The conversion keeps small numbers apart from the others. -/
theorem le_toDouble_iff : 8 ≤ toDouble n ↔ 8 ≤ n := by
  rcases Nat.lt_or_ge n (2^53) with hlt | hge
  · rw [toDouble_of_lt hlt]
  · have hbounds := toDouble_bounds (n := n) (by omega)
    omega

/-- The largest numbers are rounded up to `2^64`. -/
theorem toDouble_lt_iff (hn : n < 2^64) : toDouble n < 2^64 ↔ n < 2^64 - 2^10 := by
  rcases Nat.lt_or_ge n (2^63) with hlt | hge
  · have hle : toDouble n < 2^64 := by
      rcases Nat.eq_zero_or_pos n with rfl | hpos
      · decide
      · have hbounds := toDouble_bounds hpos.ne'
        omega
    exact ⟨fun _ => by omega, fun _ => hle⟩
  · have hlog : n.log2 = 63 := (Nat.log2_eq_iff (by omega)).mpr ⟨hge, hn⟩
    unfold toDouble
    rw [hlog]
    dsimp only
    split_ifs <;> omega

/-- `ceil` converts what fits. -/
theorem ceil_of_fits {x : UInt64} (h : x.toNat < 2^64 - 2^10) :
    ∃ y, ceil x = .ok y ∧ y.toNat = toDouble x.toNat := by
  have hlt := (toDouble_lt_iff x.toNat_lt).mpr h
  refine ⟨UInt64.ofNat (toDouble x.toNat), ?_, UInt64.toNat_ofNat_of_lt' hlt⟩
  unfold ceil
  rw [if_pos hlt]
  rfl

/-- A number that is not below that bound does not fit. -/
theorem ceil_of_not_fits {x : UInt64} (h : ¬ x.toNat < 2^64 - 2^10) :
    ceil x = .error .conversion := by
  have hge := (toDouble_lt_iff x.toNat_lt).not.mpr h
  unfold ceil
  rw [if_neg hge]
  rfl

/-- The number of bytes is defined and not zero exactly if there are eight pieces, and no more than
fit. -/
theorem bytes_pos_iff (pieces : UInt64) :
    (∃ size, (do ceil ((← ceil pieces) / 8)) = .ok size ∧ size ≠ 0) ↔
      8 ≤ pieces.toNat ∧ pieces.toNat < 2^64 - 2^10 := by
  by_cases hfits : pieces.toNat < 2^64 - 2^10
  · obtain ⟨numberOfPieces, hnumber, hvalue⟩ := ceil_of_fits hfits
    have hbytes : (numberOfPieces / 8).toNat = toDouble pieces.toNat / 8 := by
      rw [UInt64.toNat_div, hvalue]
      rfl
    have hlt := numberOfPieces.toNat_lt
    obtain ⟨size, hsize, hvalue'⟩ := ceil_of_fits (x := numberOfPieces / 8) (by omega)
    have hrun : (do ceil ((← ceil pieces) / 8)) = .ok size := by
      rw [hnumber]
      exact hsize
    have hzero : size ≠ 0 ↔ 8 ≤ pieces.toNat := by
      have hnat : size ≠ 0 ↔ toDouble (toDouble pieces.toNat / 8) ≠ 0 := by
        rw [← hbytes, ← hvalue']
        exact UInt64.toNat_inj.not.symm
      rw [hnat, ← le_toDouble_iff]
      rcases Nat.eq_zero_or_pos (toDouble pieces.toNat / 8) with hnone | hsome
      · rw [hnone]
        exact ⟨fun h => absurd rfl h, fun h => by omega⟩
      · have hbounds := toDouble_bounds hsome.ne'
        omega
    rw [and_iff_left hfits, ← hzero]
    constructor
    · rintro ⟨size', hsize', hne⟩
      obtain rfl := Except.ok.inj (hrun.symm.trans hsize')
      exact hne
    · exact fun hne => ⟨size, hrun, hne⟩
  · constructor
    · rintro ⟨size, hsize, -⟩
      rw [ceil_of_not_fits hfits] at hsize
      cases hsize
    · exact fun h => absurd h.2 hfits

/-- With a piece length of zero there is no size. -/
theorem getBitfieldSize_pos_iff (metainfo : Metainfo) :
    (∃ size, getBitfieldSize metainfo = .ok size ∧ size ≠ 0) ↔
      EnoughPieces metainfo.totalLength.toUInt64 metainfo.pieceLength := by
  unfold getBitfieldSize
  by_cases hzero : metainfo.pieceLength = 0
  · rw [if_pos hzero]
    constructor
    · rintro ⟨size, hsize, -⟩
      cases hsize
    · exact fun h => absurd hzero h.1
  · have hpos : 0 < metainfo.pieceLength.toNat :=
      Nat.pos_iff_ne_zero.mpr fun h => hzero (UInt64.toNat_inj.mp h)
    unfold EnoughPieces
    rw [if_neg hzero, and_iff_right hzero, ← Nat.le_div_iff_mul_le hpos, ← UInt64.toNat_div]
    exact bytes_pos_iff _

end

/-! ## The start-up -/

section

variable (final : Bytes → Vector UInt32 5) (memory : ℕ → UInt8) {buf : Bytes} {fuel : ℕ}
  {w : World} {t : Parsed} {info : Value} {n : ℤ} (ht : StartsWith buf t)
  (hfuel : 3 * t.bytes.length ≤ fuel) (hinfo : t.value.get? infoKey = some info)
  (hpiece : info.int? (literal "piece length") = some n)

include ht hfuel hinfo hpiece

/-- `main` computes the size of the bitfield, or an exception has ended it. -/
theorem startUp_run : ∃ w',
    (t.value.string? (literal "announce") = none ∧
      ∃ e, (startUp final memory buf fuel).run w = .stopped (.stopped (.threw e)) w') ∨
    ∃ metainfo : Metainfo, t.value.string? (literal "announce") = some metainfo.announce ∧
      metainfo.totalLength = w.state.collectedLength + t.lengths ∧
      metainfo.pieceLength = (Int64.ofInt n).toUInt64 ∧
      (startUp final memory buf fuel).run w =
        (do return createEmptyFile (← Main.compute (getBitfieldSize metainfo)) :
          Main UInt64).run w' := by
  obtain ⟨root, w', hparse, hroot, hlength⟩ := run_parser_of_startsWith ht hfuel w
  refine ⟨w', ?_⟩
  obtain ⟨q, hq, hdenotes⟩ := getByKey_of_some hroot hinfo
  have hfields : Main.bParser.run w' = .returned w'.state.toBParser w' := rfl
  unfold startUp readTorrent
  simp only [Run.bind_assoc]
  rw [Run.run_bind_of_returned hparse, Run.run_bind_of_returned hfields,
    Run.run_bind_of_returned hq, Run.run_bind_of_returned (getIntByKey_of_some hdenotes hpiece)]
  cases hannounce : t.value.string? (literal "announce") with
  | none =>
    exact .inl ⟨rfl, (getStringByKey_of_none hroot hannounce).bind⟩
  | some announce =>
    rw [Run.run_bind_of_returned (getStringByKey_of_some hroot hannounce)]
    exact .inr ⟨_, rfl, hlength, rfl, rfl⟩

end

/-- The offset is that of a last byte exactly if the size is defined and not zero. -/
theorem safeStartUp_compute (x : Except Undefined UInt64) (w : World) :
    SafeStartUp ((do return createEmptyFile (← Main.compute x) : Main UInt64).run w) ↔
      ∃ size, x = .ok size ∧ size ≠ 0 := by
  cases x with
  | error u =>
    constructor
    · intro h
      cases h
    · rintro ⟨size, hsize, -⟩
      cases hsize
  | ok size =>
    have hoffset : (createEmptyFile size).toNat ≠ 2^64 - 1 ↔ size.toNat ≠ 0 := by
      have hlt := size.toNat_lt
      unfold createEmptyFile
      rw [UInt64.toNat_sub]
      simp only [UInt64.toNat_one]
      omega
    have hsafe : SafeStartUp ((do return createEmptyFile (← Main.compute (.ok size)) :
        Main UInt64).run w) ↔ size ≠ 0 := by
      have hzero : size ≠ 0 ↔ size.toNat ≠ 0 := UInt64.toNat_inj.not.symm
      exact hoffset.trans hzero.symm
    rw [hsafe]
    constructor
    · exact fun hne => ⟨size, rfl, hne⟩
    · rintro ⟨size', hsize, hne⟩
      obtain rfl := Except.ok.inj hsize
      exact hne

/-- The start-up is safe exactly if there is no announce URL, or enough pieces. The total length is
what the parser collected before and in the torrent, and a negative length is a large one. -/
theorem startUp_safe_iff (final : Bytes → Vector UInt32 5) (memory : ℕ → UInt8) {buf : Bytes}
    {fuel : ℕ} (w : World) {t : Parsed} {info : Value} {n : ℤ} (ht : StartsWith buf t)
    (hfuel : 3 * t.bytes.length ≤ fuel) (hinfo : t.value.get? infoKey = some info)
    (hpiece : info.int? (literal "piece length") = some n) :
    SafeStartUp ((startUp final memory buf fuel).run w) ↔
      t.value.string? (literal "announce") = none ∨
        EnoughPieces (w.state.collectedLength + t.lengths).toUInt64 (Int64.ofInt n).toUInt64 := by
  obtain ⟨w', ⟨hnone, e, hrun⟩ | ⟨metainfo, hannounce, hlength, hpieces, hrun⟩⟩ :=
    startUp_run final memory (w := w) ht hfuel hinfo hpiece
  · rw [hrun]
    exact ⟨fun _ => .inl hnone, fun _ => trivial⟩
  · have hsome : t.value.string? (literal "announce") ≠ none := by
      rw [hannounce]
      exact Option.some_ne_none _
    rw [hrun, safeStartUp_compute, getBitfieldSize_pos_iff, hlength, hpieces, or_iff_right hsome]

/-- Eight pieces of one byte: `d8:announce1:a4:infod6:lengthi8e12:piece lengthi1eee`. -/
def eightPieces : Parsed :=
  .dict [(⟨[56], literal "announce"⟩, .string ⟨[49], [97]⟩), (⟨[52], infoKey⟩,
    .dict [(⟨[54], lengthKey⟩, .integer [56]),
      (⟨[49, 50], literal "piece length"⟩, .integer [49])])]

/-- A torrent with eight pieces starts up. -/
theorem startUp_safe_eightPieces :
    SafeStartUp ((startUp (fun _ => .replicate 5 0) (fun _ => 0) eightPieces.bytes 156).run
      { state := fresh {} }) := by
  have ht : StartsWith eightPieces.bytes eightPieces := by decide +kernel
  have hinfo : eightPieces.value.get? infoKey =
      some (.dict [(lengthKey, .integer 8), (literal "piece length", .integer 1)]) := by
    rfl
  have hlength : ((fresh {}).collectedLength + eightPieces.lengths).toUInt64 = 8 := by decide
  have hpiece : (Int64.ofInt 1).toUInt64 = 1 := by decide
  refine (startUp_safe_iff _ _ { state := fresh {} } ht (by decide) hinfo (n := 1) rfl).mpr ?_
  rw [hlength, hpiece]
  exact .inr ⟨by decide, by decide, by decide⟩

/-- A piece length of zero: `d8:announce1:a4:infod12:piece lengthi0eee`. -/
def noPieceLength : Parsed :=
  .dict [(⟨[56], literal "announce"⟩, .string ⟨[49], [97]⟩), (⟨[52], infoKey⟩,
    .dict [(⟨[49, 50], literal "piece length"⟩, .integer [48])])]

/-- A piece length of zero is divided by. -/
theorem not_startUp_safe : ¬ ∀ (final : Bytes → Vector UInt32 5) (memory : ℕ → UInt8)
    (buf : Bytes) (fuel : ℕ) (w : World) (t : Parsed) (info : Value) (n : ℤ),
    StartsWith buf t → 3 * t.bytes.length ≤ fuel → t.value.get? infoKey = some info →
    info.int? (literal "piece length") = some n →
    SafeStartUp ((startUp final memory buf fuel).run w) := by
  intro hclaim
  have ht : StartsWith noPieceLength.bytes noPieceLength := by decide +kernel
  have hinfo : noPieceLength.value.get? infoKey =
      some (.dict [(literal "piece length", .integer 0)]) := by
    rfl
  have hsafe := hclaim (fun _ => .replicate 5 0) (fun _ => 0) noPieceLength.bytes 129
    { state := fresh {} } noPieceLength _ 0 ht (by decide) hinfo rfl
  obtain ⟨w', ⟨hnone, -⟩ | ⟨metainfo, -, -, hpieces, hrun⟩⟩ :=
    startUp_run (fun _ => .replicate 5 0) (fun _ => 0) (w := { state := fresh {} }) ht
      (show 3 * noPieceLength.bytes.length ≤ 129 by decide) hinfo (n := 0) rfl
  · exact absurd hnone (by decide)
  · rw [hrun, safeStartUp_compute, getBitfieldSize_pos_iff, hpieces] at hsafe
    exact hsafe.1 rfl

end Btor
