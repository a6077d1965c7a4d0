import Mathlib

/-!
# The head of an HTTP request

A request begins with the request line, the method, the target and the version with a space between
each two, and a line for each header field. Lines end in a line feed with a carriage return before
it, and an empty line ends the head. A reader who also takes a line feed alone for the end of a line
reads what was written, if no part has a character that ends it (`WellFormed.decode_encode`).
-/

namespace Lib

/-- A request line and header fields. -/
structure RequestHead where
  method : List UInt8
  target : List UInt8
  version : List UInt8
  fields : List (List UInt8 × List UInt8)
  deriving DecidableEq

namespace RequestHead

/-- A line with its end. -/
def writeLine (line : List UInt8) : List UInt8 := line ++ [13, 10]

/-- The line of a header field. -/
def fieldLine (f : List UInt8 × List UInt8) : List UInt8 := f.1 ++ 58 :: 32 :: f.2

/-- The head as it is sent. -/
def encode (h : RequestHead) : List UInt8 :=
  writeLine (h.method ++ 32 :: h.target ++ 32 :: h.version) ++
    h.fields.flatMap (fun f => writeLine (fieldLine f)) ++ writeLine []

/-- The first line, without its end, and what comes after it. -/
def readLine (bytes : List UInt8) : Option (List UInt8 × List UInt8) :=
  match bytes.dropWhile (· != 10) with
  | [] => none
  | _ :: rest =>
    let line := bytes.takeWhile (· != 10)
    some (if line.getLast? = some 13 then line.dropLast else line, rest)

/-- The name and the value on the line of a header field. -/
def readField (line : List UInt8) : Option (List UInt8 × List UInt8) :=
  match line.dropWhile (· != 58) with
  | [] => none
  | _ :: text => some (line.takeWhile (· != 58), text.dropWhile (· == 32))

/-- The header fields up to an empty line, of which there are no more than `n`, and what comes after
it. -/
def readFields : ℕ → List UInt8 → Option (List (List UInt8 × List UInt8) × List UInt8)
  | 0, _ => none
  | n + 1, bytes => do
    let (line, rest) ← readLine bytes
    if line = [] then return ([], rest)
    else do
      let f ← readField line
      let (fields, rest) ← readFields n rest
      return (f :: fields, rest)

/-- The head of a request, and what comes after it. -/
def decode (bytes : List UInt8) : Option (RequestHead × List UInt8) := do
  let (line, rest) ← readLine bytes
  let (fields, rest') ← readFields (rest.length + 1) rest
  match line.splitOn 32 with
  | [method, target, version] => return (⟨method, target, version, fields⟩, rest')
  | _ => none

/-- No part of the head has a character that ends it. -/
structure WellFormed (h : RequestHead) : Prop where
  method : ∀ c ∈ h.method, c ≠ 32 ∧ c ≠ 13 ∧ c ≠ 10
  target : ∀ c ∈ h.target, c ≠ 32 ∧ c ≠ 13 ∧ c ≠ 10
  version : ∀ c ∈ h.version, c ≠ 32 ∧ c ≠ 13 ∧ c ≠ 10
  name : ∀ f ∈ h.fields, ∀ c ∈ f.1, c ≠ 58 ∧ c ≠ 13 ∧ c ≠ 10
  value : ∀ f ∈ h.fields, f.2.head? ≠ some 32 ∧ ∀ c ∈ f.2, c ≠ 13 ∧ c ≠ 10

/-! ## Lines -/

section

variable {line rest : List UInt8}

/-- A line without a line feed is read back. -/
theorem readLine_writeLine (h : 10 ∉ line) (rest : List UInt8) :
    readLine (writeLine line ++ rest) = some (line, rest) := by
  have hbytes : writeLine line ++ rest = (line ++ [13]) ++ 10 :: rest := by
    simp [writeLine]
  have hline : ∀ c ∈ line ++ [13], (c != 10) = true := by
    intro c hc
    rw [bne_iff_ne]
    rintro rfl
    rcases List.mem_append.mp hc with hc | hc
    · exact h hc
    · exact absurd hc (by decide)
  unfold readLine
  rw [hbytes, List.dropWhile_append_of_pos hline, List.takeWhile_append_of_pos hline]
  simp

/-- A field with a name and a value that do not run together is read back. -/
theorem readField_fieldLine {f : List UInt8 × List UInt8} (hname : 58 ∉ f.1)
    (hvalue : f.2.head? ≠ some 32) : readField (fieldLine f) = some f := by
  obtain ⟨name, value⟩ := f
  have hpos : ∀ c ∈ name, (c != 58) = true := by
    intro c hc
    rw [bne_iff_ne]
    rintro rfl
    exact hname hc
  have hdrop : value.dropWhile (· == 32) = value := by
    cases value with
    | nil => rfl
    | cons c value => exact List.dropWhile_cons_of_neg (by simpa using hvalue)
  unfold readField fieldLine
  rw [List.dropWhile_append_of_pos hpos, List.takeWhile_append_of_pos hpos]
  simp [hdrop]

end

/-! ## The head -/

section

variable {h : RequestHead}

/-- The fields are read back up to the empty line. -/
theorem readFields_encode {fields : List (List UInt8 × List UInt8)}
    (hname : ∀ f ∈ fields, ∀ c ∈ f.1, c ≠ 58 ∧ c ≠ 13 ∧ c ≠ 10)
    (hvalue : ∀ f ∈ fields, f.2.head? ≠ some 32 ∧ ∀ c ∈ f.2, c ≠ 13 ∧ c ≠ 10) {n : ℕ}
    (hn : fields.length < n) (rest : List UInt8) :
    readFields n (fields.flatMap (fun f => writeLine (fieldLine f)) ++ writeLine [] ++ rest) =
      some (fields, rest) := by
  induction fields generalizing n with
  | nil =>
    obtain ⟨n, rfl⟩ := Nat.exists_eq_succ_of_ne_zero hn.ne_bot
    rw [List.flatMap_nil, List.nil_append, readFields, readLine_writeLine List.not_mem_nil]
    rfl
  | cons f fields ih =>
    obtain ⟨n, rfl⟩ := Nat.exists_eq_succ_of_ne_zero (Nat.ne_zero_of_lt hn)
    obtain ⟨hf, hname⟩ := List.forall_mem_cons.mp hname
    obtain ⟨hf', hvalue⟩ := List.forall_mem_cons.mp hvalue
    have hline : 10 ∉ fieldLine f := by
      unfold fieldLine
      simp only [List.mem_append, List.mem_cons, not_or]
      exact ⟨fun hc => (hf _ hc).2.2 rfl, by decide, by decide, fun hc => (hf'.2 _ hc).2 rfl⟩
    have hfield := readField_fieldLine (fun hc => (hf _ hc).1 rfl) hf'.1
    have hne : fieldLine f ≠ [] := by
      unfold fieldLine
      simp
    rw [List.flatMap_cons, List.append_assoc, List.append_assoc, readFields,
      readLine_writeLine hline]
    simp only [Option.bind_eq_bind, Option.bind_some, if_neg hne, hfield]
    rw [← List.append_assoc, ih hname hvalue (by simpa using hn)]
    rfl

/-- There are no more fields than characters of their lines. -/
theorem length_le_flatMap (fields : List (List UInt8 × List UInt8)) :
    fields.length ≤ (fields.flatMap fun f => writeLine (fieldLine f)).length := by
  induction fields with
  | nil => exact Nat.zero_le _
  | cons f fields ih =>
    rw [List.flatMap_cons, List.length_append, List.length_cons]
    have hpos : 0 < (writeLine (fieldLine f)).length := by
      unfold writeLine
      simp
    omega

/-- What was written is read back, whatever comes after it. -/
theorem WellFormed.decode_encode (hwf : h.WellFormed) (rest : List UInt8) :
    decode (h.encode ++ rest) = some (h, rest) := by
  obtain ⟨method, target, version, fields⟩ := h
  obtain ⟨hmethod, htarget, hversion, hname, hvalue⟩ := hwf
  dsimp only at hmethod htarget hversion hname hvalue
  have hline : 10 ∉ method ++ 32 :: target ++ 32 :: version := by
    simp only [List.mem_append, List.mem_cons, not_or]
    exact ⟨⟨fun hc => (hmethod _ hc).2.2 rfl, by decide, fun hc => (htarget _ hc).2.2 rfl⟩,
      by decide, fun hc => (hversion _ hc).2.2 rfl⟩
  have hsplit : (method ++ 32 :: target ++ 32 :: version).splitOn 32 =
      [method, target, version] := by
    have hjoin : method ++ 32 :: target ++ 32 :: version =
        [32].intercalate [method, target, version] := by
      simp [List.intercalate]
    rw [hjoin]
    refine List.splitOn_intercalate 32 ?_ (List.cons_ne_nil _ _)
    simp only [List.mem_cons, List.not_mem_nil, or_false, forall_eq_or_imp, forall_eq]
    exact ⟨fun hc => (hmethod _ hc).1 rfl, fun hc => (htarget _ hc).1 rfl,
      fun hc => (hversion _ hc).1 rfl⟩
  have hlength : fields.length <
      (fields.flatMap (fun f => writeLine (fieldLine f)) ++ writeLine [] ++ rest).length + 1 := by
    have hle := length_le_flatMap fields
    rw [List.length_append, List.length_append]
    omega
  unfold decode encode
  rw [List.append_assoc, List.append_assoc, readLine_writeLine hline]
  simp only [Option.bind_eq_bind, Option.bind_some]
  rw [← List.append_assoc, readFields_encode hname hvalue hlength]
  simp only [Option.bind_some, hsplit]
  rfl

end

end RequestHead

end Lib
