import Btor.Bhttp
import Btor.InfoHash
import Btor.Lib.Query

/-!
# What the announce query decodes to

A tracker splits the query at `&`, each part at its first `=`, and percent-decodes the values. It
gets the seven fields of `buildAnnounceParameters` in their order, with the bytes of the digest as
the info hash and a number that reads back as the total length (`announce_decodes`).
-/

namespace Btor

open Lib (Field decodeQuery hexDecode percentDecode insertPercents)

/-- The characters that need no encoding in a URL: letters, digits, and `-`, `.`, `_` and `~`. -/
def isUnreserved (ch : UInt8) : Bool :=
  isDigit ch || 65 ≤ ch && ch ≤ 90 || 97 ≤ ch && ch ≤ 122 ||
    ch == 45 || ch == 46 || ch == 95 || ch == 126

/-- The number that a text of digits denotes. -/
def readNat (text : Bytes) : Option ℕ :=
  if text ≠ [] ∧ ∀ c ∈ text, isDigit c = true then some (decimal text) else none

/-- The integer that a text of digits denotes, with a minus sign before it or none. -/
def readInteger : Bytes → Option ℤ
  | [] => none
  | c :: text =>
    if c = Ascii.minus then (readNat text).map fun n : ℕ => -(n : ℤ)
    else (readNat (c :: text)).map fun n : ℕ => (n : ℤ)

/-! ## The info hash in the query -/

/-- Two steps of the counter of `urlEncode` keep it even, also where it wraps. -/
theorem counter_even {i : UInt32} (h : i % 2 = 0) : (i + 1) % 2 ≠ 0 ∧ (i + 1 + 1) % 2 = 0 := by
  rw [← UInt32.toNat_inj, UInt32.toNat_mod] at h
  constructor
  · rw [ne_eq, ← UInt32.toNat_inj, UInt32.toNat_mod, UInt32.toNat_add]
    simp at h ⊢
    omega
  · rw [← UInt32.toNat_inj, UInt32.toNat_mod, UInt32.toNat_add, UInt32.toNat_add]
    simp at h ⊢
    omega

/-- The loop of `urlEncode` from an even counter. -/
theorem foldl_urlEncodeRound (l acc : Bytes) {i : UInt32} (hi : i % 2 = 0) :
    (l.foldl urlEncodeRound (acc, i)).1 = acc ++ insertPercents l := by
  induction l using Lib.insertPercents.induct generalizing acc i with
  | case1 => simp [insertPercents]
  | case2 a => simp [insertPercents, urlEncodeRound, hi]
  | case3 a b rest ih =>
    obtain ⟨hodd, heven⟩ := counter_even hi
    have hrounds : urlEncodeRound (urlEncodeRound (acc, i) a) b =
        (acc ++ [37, a, b], i + 1 + 1) := by
      simp [urlEncodeRound, hi, hodd]
    rw [List.foldl_cons, List.foldl_cons, hrounds, ih _ heven, insertPercents, List.append_assoc]
    rfl

/-- `urlEncode` puts a percent sign before every second character. -/
theorem urlEncode_eq (l : Bytes) : urlEncode l = insertPercents l :=
  foldl_urlEncodeRound l [] rfl

/-- The encoded info hash percent-decodes to the bytes of the digest. -/
theorem percentDecode_urlEncode (ws : List UInt32) :
    percentDecode (urlEncode (ws.flatMap hexWord)) = some (ws.flatMap wordBytes) := by
  rw [urlEncode_eq]
  exact Lib.percentDecode_insertPercents (hexDecode_flatMap_hexWord ws)

/-- The encoded info hash has no separator of the query. -/
theorem ampersand_notMem_urlEncode (ws : List UInt32) :
    Ascii.ampersand ∉ urlEncode (ws.flatMap hexWord) := by
  rw [urlEncode_eq]
  intro h
  rcases Lib.mem_of_mem_insertPercents h with h | h
  · exact absurd h (by decide)
  · obtain ⟨w, -, hw⟩ := List.mem_flatMap.mp h
    obtain ⟨d, hd⟩ := hexValue_of_mem_hexWord hw
    exact absurd hd (by simp [Lib.hexValue])

/-! ## The total length in the query -/

/-- The symbol of a digit stands for the digit. -/
theorem digit_symbol : ∀ d < 10, digit (UInt8.ofNat (48 + d)) = d := by decide

/-- It is a digit. -/
theorem isDigit_symbol : ∀ d < 10, isDigit (UInt8.ofNat (48 + d)) = true := by decide

/-- Every character of a decimal numeral is a digit. -/
theorem isDigit_of_mem_numeral {n : ℕ} {c : UInt8}
    (h : c ∈ Lib.numeral 10 (fun d => UInt8.ofNat (48 + d)) n) : isDigit c = true := by
  obtain ⟨d, hd, rfl⟩ := Lib.exists_of_mem_numeral (by decide) h
  exact isDigit_symbol d hd

/-- A decimal numeral reads back as its number. -/
theorem readNat_numeral (n : ℕ) :
    readNat (Lib.numeral 10 (fun d => UInt8.ofNat (48 + d)) n) = some n := by
  unfold readNat
  rw [if_pos ⟨Lib.numeral_ne_nil, fun c => isDigit_of_mem_numeral⟩]
  exact congrArg some (Lib.horner_numeral (by decide) digit_symbol n)

/-- A text of digits is read without a sign. -/
theorem readInteger_of_digits {text : Bytes} (h : ∀ c ∈ text, isDigit c = true) :
    readInteger text = (readNat text).map fun n : ℕ => (n : ℤ) := by
  cases text with
  | nil => rfl
  | cons c text =>
    have hc := (isDigit_ne (h c List.mem_cons_self)).2.2.2.2.2
    rw [readInteger, if_neg hc]

/-- The text of an integer reads back as it. -/
theorem readInteger_stdToString (x : Int64) : readInteger (stdToString x) = some x.toInt := by
  unfold stdToString
  split_ifs with hx
  · have hneg : x.toInt < 0 := Int64.lt_iff_toInt_lt.mp hx
    rw [readInteger, if_pos rfl, readNat_numeral, Option.map_some,
      Int.ofNat_natAbs_of_nonpos hneg.le, neg_neg]
  · have hpos : 0 ≤ x.toInt := not_lt.mp fun h => hx (Int64.lt_iff_toInt_lt.mpr h)
    rw [readInteger_of_digits fun c => isDigit_of_mem_numeral, readNat_numeral, Option.map_some,
      Int.natAbs_of_nonneg hpos]

/-- The text of an integer is of characters that need no encoding. -/
theorem isUnreserved_of_mem_stdToString {x : Int64} {c : UInt8} (h : c ∈ stdToString x) :
    isUnreserved c = true := by
  have hdigit {n : ℕ} (h : c ∈ Lib.numeral 10 (fun d => UInt8.ofNat (48 + d)) n) :
      isUnreserved c = true := by
    unfold isUnreserved
    rw [isDigit_of_mem_numeral h]
    rfl
  unfold stdToString at h
  split_ifs at h
  · rcases List.mem_cons.mp h with rfl | h
    · rfl
    · exact hdigit h
  · exact hdigit h

/-! ## The fields of the query -/

/-- A field with a value that needs no encoding. -/
def plainField (name value : Bytes) (hname : 61 ∉ name ∧ 38 ∉ name)
    (hvalue : ∀ c ∈ value, isUnreserved c = true) : Field where
  name := name
  text := value
  value := value
  equals_notMem := hname.1
  ampersand_notMem := by
    rw [List.mem_append]
    rintro (h | h)
    · exact hname.2 h
    · exact absurd (hvalue _ h) (by decide)
  decodes := Lib.percentDecode_of_notMem fun h => absurd (hvalue _ h) (by decide)

/-- The field of the info hash. -/
def infoHashField (digest : Vector UInt32 5) : Field where
  name := literal "info_hash"
  text := urlEncode (digest.toList.flatMap hexWord)
  value := digestBytes digest
  equals_notMem := by decide
  ampersand_notMem := by
    rw [List.mem_append]
    rintro (h | h)
    · exact absurd h (by decide)
    · exact ampersand_notMem_urlEncode _ h
  decodes := percentDecode_urlEncode _

section

variable {peerId event : Bytes} (hpeerId : ∀ c ∈ peerId, isUnreserved c = true)
    (hevent : ∀ c ∈ event, isUnreserved c = true)

/-- The fields of the query, in their order. -/
def announceFields (digest : Vector UInt32 5) (totalLength : Int64) : List Field := [
  infoHashField digest,
  plainField (literal "peer_id") peerId (by decide) hpeerId,
  plainField (literal "uploaded") (literal "0") (by decide) (by decide +kernel),
  plainField (literal "downloaded") (literal "0") (by decide) (by decide +kernel),
  plainField (literal "left") (stdToString totalLength) (by decide)
    fun _ => isUnreserved_of_mem_stdToString,
  plainField (literal "event") event (by decide) hevent,
  plainField (literal "port") (literal "6886") (by decide) (by decide +kernel)]

variable (final : Bytes → Vector UInt32 5) (memory : ℕ → UInt8) (metainfo : Metainfo)

/-- The query is put together from its fields, after a question mark. -/
theorem buildAnnounceParameters_eq :
    buildAnnounceParameters (getSHA1 final memory metainfo) peerId event = Ascii.question ::
      [38].intercalate ((announceFields hpeerId hevent (final metainfo.infodict)
        metainfo.totalLength).map Field.part) := by
  simp [announceFields, buildAnnounceParameters, getSHA1, literal, List.intercalate, Field.part,
    plainField, infoHashField]

include hpeerId hevent

/-- The query decodes to the seven fields: the info hash is the bytes of the digest, the peer id and
the event are those given, and what is left reads back as the total length. -/
theorem announce_decodes :
    ∃ query left, buildAnnounceParameters (getSHA1 final memory metainfo) peerId event =
        Ascii.question :: query ∧
      decodeQuery query = some [
        (literal "info_hash", digestBytes (final metainfo.infodict)),
        (literal "peer_id", peerId),
        (literal "uploaded", literal "0"),
        (literal "downloaded", literal "0"),
        (literal "left", left),
        (literal "event", event),
        (literal "port", literal "6886")] ∧
      readInteger left = some metainfo.totalLength.toInt := by
  refine ⟨_, stdToString metainfo.totalLength,
    buildAnnounceParameters_eq hpeerId hevent final memory metainfo, ?_,
    readInteger_stdToString _⟩
  exact Lib.decodeQuery_intercalate (by simp [announceFields])

end

/-- The announce of a torrent of five bytes. -/
theorem announce_decodes_started : ∃ query left,
    buildAnnounceParameters (getSHA1 (fun _ => #v[0, 1, 2, 3, 4]) (fun _ => 0)
      { totalLength := 5 }) (literal "-btor01-000000000000") (literal "started") =
        Ascii.question :: query ∧
      decodeQuery query = some [
        (literal "info_hash", [0, 0, 0, 0, 0, 0, 0, 1, 0, 0, 0, 2, 0, 0, 0, 3, 0, 0, 0, 4]),
        (literal "peer_id", literal "-btor01-000000000000"),
        (literal "uploaded", literal "0"),
        (literal "downloaded", literal "0"),
        (literal "left", left),
        (literal "event", literal "started"),
        (literal "port", literal "6886")] ∧
      readInteger left = some 5 :=
  announce_decodes (by decide +kernel) (by decide +kernel) (fun _ => #v[0, 1, 2, 3, 4])
    (fun _ => 0) { totalLength := 5 }

end Btor
