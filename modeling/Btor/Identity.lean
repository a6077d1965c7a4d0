import Btor.Hashing
import Btor.InfoHash

/-!
# The info hash identifies the info dictionary

`getSHA1` hashes the info dictionary with a fresh object, in one part. Where two info dictionaries
have the same info hash, they are the same, or two of the calls of `transform` that hash them
collide (`infodict_eq_or_collision`). The text of the hash loses nothing of the digest, and the
padding nothing of the dictionary.
-/

namespace Btor

open Lib (calls IsCollision)
open Lib.SecureHash (sha1 compress initial parse)

/-- What `checksum` returns to `getSHA1` for a message. -/
def checksum (message : Bytes) : Vector UInt32 5 := ((Sha1.SHA1.reset.update message).final).1

/-- `checksum` is the SHA-1 of the standard. -/
theorem checksum_eq_sha1 (message : Bytes) : checksum message = sha1 message := by
  have hholds := Sha1.holds_reset.update message
  unfold checksum
  rw [hholds.final, List.nil_append]

example : checksum (literal "abc") =
    #v[0xa9993e36, 0x4706816a, 0xba3e2571, 0x7850c26c, 0x9cd0d89d] := by decide +kernel

/-- `transform`, without what it leaves of the block. -/
def transformDigest (digest : Sha1.Digest) (block : Sha1.Block) : Sha1.Digest :=
  (Sha1.transform digest block).1

/-- `transform` is its compression function. -/
theorem transformDigest_eq : transformDigest = compress := by
  funext digest block
  exact Sha1.transform_eq_compress digest block

section

variable (memory memory' : ℕ → UInt8) (metainfo metainfo' : Metainfo)

/-- Info dictionaries with the same info hash are the same, or hashing them makes two calls of
`transform` that collide. -/
theorem infodict_eq_or_collision (hlength : metainfo.infodict.length < 2^61)
    (hlength' : metainfo'.infodict.length < 2^61)
    (h : (getSHA1 checksum memory metainfo).infoHashHex =
      (getSHA1 checksum memory' metainfo').infoHashHex) :
    metainfo.infodict = metainfo'.infodict ∨
      ∃ c ∈ calls transformDigest Sha1.initialDigest (parse metainfo.infodict),
        ∃ c' ∈ calls transformDigest Sha1.initialDigest (parse metainfo'.infodict),
          IsCollision transformDigest c c' := by
  have hhash : sha1 metainfo.infodict = sha1 metainfo'.infodict := by
    have hdecode := hexDecode_infoHashHex checksum memory metainfo
    rw [h, hexDecode_infoHashHex, Option.some_inj] at hdecode
    rw [← checksum_eq_sha1, ← checksum_eq_sha1]
    exact (digestBytes_injective hdecode).symm
  by_cases hne : metainfo.infodict = metainfo'.infodict
  · exact .inl hne
  · rw [transformDigest_eq, Sha1.initialDigest_eq]
    exact .inr (Lib.SecureHash.exists_isCollision_of_sha1_eq hlength hlength' hhash hne)

end

/-- Two torrents with the same info dictionary. -/
theorem infodict_eq_or_collision_one :
    let metainfo : Metainfo := { infodict := [0] }
    let metainfo' : Metainfo := { infodict := [0], totalLength := 5 }
    metainfo.infodict = metainfo'.infodict ∨
      ∃ c ∈ calls transformDigest Sha1.initialDigest (parse metainfo.infodict),
        ∃ c' ∈ calls transformDigest Sha1.initialDigest (parse metainfo'.infodict),
          IsCollision transformDigest c c' :=
  infodict_eq_or_collision (fun _ => 0) (fun _ => 0) { infodict := [0] }
    { infodict := [0], totalLength := 5 } (by decide) (by decide) rfl

end Btor
