import Btor.Lib.Hex

/-!
# Queries

The query of a URL as a reader of it sees it: parts with a `&` between them, each split at its first
`=` into a name and a percent-encoded value. A query put together from fields whose names and texts
have no separator decodes to the names and values of the fields, in their order
(`decodeQuery_intercalate`).
-/

namespace Lib

/-- The name and the decoded value of a part of a query. -/
def decodePart (part : List UInt8) : Option (List UInt8 × List UInt8) :=
  match part.dropWhile (· != 61) with
  | [] => none
  | _ :: text => (percentDecode text).map (part.takeWhile (· != 61), ·)

/-- The names and values of a query. -/
def decodeQuery (query : List UInt8) : Option (List (List UInt8 × List UInt8)) :=
  (query.splitOn 38).mapM decodePart

/-- A field of a query, with its value and the text that stands for it. -/
structure Field where
  name : List UInt8
  text : List UInt8
  value : List UInt8
  equals_notMem : 61 ∉ name
  ampersand_notMem : 38 ∉ name ++ text
  decodes : percentDecode text = some value

/-- The part of a query for a field. -/
def Field.part (f : Field) : List UInt8 := f.name ++ 61 :: f.text

/-- A field is read back from its part. -/
theorem Field.decodePart_part (f : Field) : decodePart f.part = some (f.name, f.value) := by
  have hname : ∀ c ∈ f.name, (c != 61) = true := by
    intro c hc
    simpa using fun h : c = 61 => f.equals_notMem (h ▸ hc)
  have htext : f.part.dropWhile (· != 61) = 61 :: f.text := by
    unfold Field.part
    rw [List.dropWhile_append_of_pos hname]
    rfl
  have hhead : f.part.takeWhile (· != 61) = f.name := by
    unfold Field.part
    rw [List.takeWhile_append_of_pos hname, List.takeWhile_cons_of_neg (by simp), List.append_nil]
  unfold decodePart
  rw [htext]
  simp only [hhead, f.decodes, Option.map_some]

/-- A query of fields decodes to their names and values. -/
theorem decodeQuery_intercalate {fields : List Field} (hfields : fields ≠ []) :
    decodeQuery ([38].intercalate (fields.map Field.part)) =
      some (fields.map fun f => (f.name, f.value)) := by
  have hsplit : ∀ part ∈ fields.map Field.part, 38 ∉ part := by
    intro part hpart
    obtain ⟨f, -, rfl⟩ := List.mem_map.mp hpart
    have hf := f.ampersand_notMem
    simp only [Field.part, List.mem_append, List.mem_cons, not_or] at hf ⊢
    exact ⟨hf.1, by decide, hf.2⟩
  unfold decodeQuery
  rw [List.splitOn_intercalate 38 hsplit (by simpa using hfields)]
  clear hsplit hfields
  induction fields with
  | nil => rfl
  | cons f fields ih =>
    rw [List.map_cons, List.mapM_cons, f.decodePart_part, ih]
    rfl

end Lib
