import Btor.Format

/-!
# Parsing an encoding

Parsing an encoding of a tree, with any bytes after it, returns an object that is the root of the
tree, and leaves the cursor at the end of the encoding (`parse_encoding`).
-/

namespace Btor

/-- The parse of an encoding of a tree returns the tree, whatever comes after the encoding. -/
theorem parse_encoding {v : Value} {e : Bytes} (hv : v.Encodable) (he : Encodes v e) (w : Bytes)
    (hlen : e.length + w.length < 2^32) (n : ℕ) (hn : 3 * e.length ≤ n) (s : State) :
    ∃ p s', (parseBencodedString (e ++ w) n).run s = .returned p s' ∧ Denotes s'.heap p v ∧
      s'.cursor.toNat = e.length := by
  obtain ⟨t, -, hbytes, hrep⟩ := he.canonical
  obtain ⟨hacc, hvalue⟩ := hrep hv
  subst hbytes
  have ht : StartsWith (t.bytes ++ w) t := hacc.startsWith (by simpa using hlen)
  refine ⟨_, _, parse_of_startsWith ht hn s, ?_, t.replay_rewind_cursor s (by omega)⟩
  rw [← hvalue]
  exact t.replay_denotes s.rewind

/-- The dictionary of the documentation's first example, with its entries in the other order, and
bytes after it: `d4:spam4:eggs3:cow3:mooe` and `ee`. -/
theorem parse_encoding_cow : ∃ p s',
    (parseBencodedString ([100, 52, 58, 115, 112, 97, 109, 52, 58, 101, 103, 103, 115, 51, 58, 99,
      111, 119, 51, 58, 109, 111, 111, 101] ++ [101, 101]) 72).run (fresh {}) = .returned p s' ∧
    Denotes s'.heap p (.dict [([99, 111, 119], .string [109, 111, 111]),
      ([115, 112, 97, 109], .string [101, 103, 103, 115])]) ∧ s'.cursor.toNat = 24 := by
  have htext {s : Bytes} {d : UInt8} (hd : isDigit d = true) (h : decimal [d] = s.length) :
      EncodesString s (d :: Ascii.colon :: s) :=
    @EncodesString.mk s [d] ⟨by simp, by simpa using hd, by simp⟩ h
  have he : Encodes (.dict [([99, 111, 119], .string [109, 111, 111]),
      ([115, 112, 97, 109], .string [101, 103, 103, 115])]) ([100, 52, 58, 115, 112, 97, 109, 52,
      58, 101, 103, 103, 115, 51, 58, 99, 111, 119, 51, 58, 109, 111, 111, 101]) :=
    .dict (List.Perm.swap _ _ _) (.cons (htext (d := 52) (by decide) (by decide))
      (.string (htext (d := 52) (by decide) (by decide)))
      (.cons (htext (d := 51) (by decide) (by decide))
        (.string (htext (d := 51) (by decide) (by decide))) .nil))
  exact parse_encoding (by simp [Value.Encodable, EntriesEncodable, lengthKey]; decide) he
    [101, 101] (by decide) 72 (by decide) (fresh {})

end Btor
