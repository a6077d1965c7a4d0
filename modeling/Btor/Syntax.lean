import Btor.Bytes

/-!
# What the parser reads

The syntax of what the parser accepts, which is laxer than the format that the comments of
`bencode.cpp` describe. A `Parsed` is a value with the bytes it was written in. `Parsed.Accepted`
states, level by level, what the parser checks of it. A `Broken` is what the parser read of an input
that it gave up on, down to the place where it did.
-/

namespace Btor

/-- A string as it is written: the digits of its length, and its bytes after the colon. -/
structure Text where
  digits : Bytes
  payload : Bytes

/-- A value as it is written. An integer has the bytes between its `i` and its `e`. -/
inductive Parsed where
  | integer (body : Bytes)
  | string (text : Text)
  | list (items : List Parsed)
  | dict (entries : List (Text × Parsed))

/-- The bytes of a string. -/
def Text.bytes (k : Text) : Bytes := k.digits ++ Ascii.colon :: k.payload

mutual

/-- The bytes of a value. -/
def Parsed.bytes : Parsed → Bytes
  | .integer body => Ascii.i :: (body ++ [Ascii.e])
  | .string k => k.bytes
  | .list ts => Ascii.l :: (itemsBytes ts ++ [Ascii.e])
  | .dict es => Ascii.d :: (entriesBytes es ++ [Ascii.e])

/-- The bytes of the items of a list. -/
def itemsBytes : List Parsed → Bytes
  | [] => []
  | t :: ts => t.bytes ++ itemsBytes ts

/-- The bytes of the entries of a dictionary. -/
def entriesBytes : List (Text × Parsed) → Bytes
  | [] => []
  | (k, t) :: es => k.bytes ++ (t.bytes ++ entriesBytes es)

end

/-- The length that `extractString` computes from the digits, in an `int`. -/
def textLength (ds : Bytes) : Int32 :=
  ds.foldl (fun n c => n * 10 + Int32.ofNat (digit c)) 0

/-- What `parseInteger` computes of the digits between the `i` and the `e`, in an `int64_t`. -/
def intDigits (body : Bytes) : Int64 :=
  body.foldl (fun n c => if isDigit c then n * 10 + Int64.ofNat (digit c) else n) 0

/-- The integer that `parseInteger` returns. -/
def intOf (body : Bytes) : Int64 :=
  if Ascii.minus ∈ body then -intDigits body else intDigits body

/-- What `extractString` checks: the length is written in digits, if any, and counts the bytes
modulo `2^32`. -/
def Text.Accepted (k : Text) : Prop :=
  (∀ c ∈ k.digits, isDigit c = true) ∧ k.payload.length = decimal k.digits % 2^32

/-- What `parseInteger` checks: it reads up to the first `e`, with a sign nowhere but in front. -/
def IntAccepted (body : Bytes) : Prop := Ascii.e ∉ body ∧ Ascii.minus ∉ body.tail

/-- The value is an integer. -/
def Parsed.IsInteger : Parsed → Prop
  | .integer _ => True
  | _ => False

/-- Whether a value is an integer is decided by its form. -/
instance : DecidablePred Parsed.IsInteger := fun t =>
  match t with
  | .integer _ => .isTrue trivial
  | .string _ | .list _ | .dict _ => .isFalse id

mutual

/-- What the parser checks of a value. A list or a dictionary is not empty, and an entry of key
`length` is an integer. -/
def Parsed.Accepted : Parsed → Prop
  | .integer body => IntAccepted body
  | .string k => k.Accepted ∧ k.digits ≠ []
  | .list ts => ts ≠ [] ∧ ItemsAccepted ts
  | .dict es => es ≠ [] ∧ EntriesAccepted es

/-- What the parser checks of the items of a list. -/
def ItemsAccepted : List Parsed → Prop
  | [] => True
  | t :: ts => t.Accepted ∧ ItemsAccepted ts

/-- What the parser checks of the entries of a dictionary. -/
def EntriesAccepted : List (Text × Parsed) → Prop
  | [] => True
  | (k, t) :: es =>
    k.Accepted ∧ t.Accepted ∧ (k.payload = lengthKey → t.IsInteger) ∧ EntriesAccepted es

end

/-- Whether a text is accepted can be computed. -/
instance Text.decidableAccepted (k : Text) : Decidable k.Accepted :=
  inferInstanceAs (Decidable
    ((∀ c ∈ k.digits, isDigit c = true) ∧ k.payload.length = decimal k.digits % 2^32))

/-- So it can be of an integer. -/
instance decidableIntAccepted (body : Bytes) : Decidable (IntAccepted body) :=
  inferInstanceAs (Decidable (Ascii.e ∉ body ∧ Ascii.minus ∉ body.tail))

mutual

/-- Whether a value is accepted is decided over the value. -/
instance Parsed.decidableAccepted : (t : Parsed) → Decidable t.Accepted
  | .integer body => inferInstanceAs (Decidable (IntAccepted body))
  | .string k => inferInstanceAs (Decidable (k.Accepted ∧ k.digits ≠ []))
  | .list ts =>
    have := decidableItemsAccepted ts
    inferInstanceAs (Decidable (ts ≠ [] ∧ ItemsAccepted ts))
  | .dict es =>
    have := decidableEntriesAccepted es
    inferInstanceAs (Decidable (es ≠ [] ∧ EntriesAccepted es))

/-- It is decided over the items. -/
instance decidableItemsAccepted : (ts : List Parsed) → Decidable (ItemsAccepted ts)
  | [] => .isTrue trivial
  | t :: ts =>
    have := t.decidableAccepted
    have := decidableItemsAccepted ts
    inferInstanceAs (Decidable (t.Accepted ∧ ItemsAccepted ts))

/-- It is decided over the entries. -/
instance decidableEntriesAccepted : (es : List (Text × Parsed)) → Decidable (EntriesAccepted es)
  | [] => .isTrue trivial
  | (k, t) :: es =>
    have := t.decidableAccepted
    have := decidableEntriesAccepted es
    inferInstanceAs (Decidable
      (k.Accepted ∧ t.Accepted ∧ (k.payload = lengthKey → t.IsInteger) ∧ EntriesAccepted es))

end

/-- A string that the parser gave up on: the buffer ends before the colon, a byte of the length is
no digit, or the buffer ends in the string. -/
inductive BrokenText where
  | atEnd (digits : Bytes)
  | badByte (digits : Bytes) (c : UInt8)
  | short (digits payload : Bytes)

/-- An integer that the parser gave up on: the buffer ends in it, or a sign is not in front. -/
inductive BrokenInteger where
  | atEnd (body : Bytes)
  | badSign (body : Bytes)

mutual

/-- A value that the parser gave up on. The buffer ends where the value is due (`noByte`), its first
byte starts no value (`badByte`), or it is broken further in. -/
inductive Broken where
  | noByte
  | badByte (c : UInt8)
  | integer (b : BrokenInteger)
  | string (b : BrokenText)
  | list (b : BrokenItems)
  | dict (b : BrokenEntries)

/-- The items of a list that the parser gave up on: the first item is broken, the buffer ends after
it, or the rest is broken. -/
inductive BrokenItems where
  | item (b : Broken)
  | atEnd (t : Parsed)
  | next (t : Parsed) (b : BrokenItems)

/-- The entries of a dictionary that the parser gave up on: the first entry's key is broken, its
value is, the value of the key `length` is no integer, the buffer ends after the entry, or the rest
is broken. -/
inductive BrokenEntries where
  | key (b : BrokenText)
  | value (k : Text) (b : Broken)
  | notInteger (k : Text) (t : Parsed)
  | atEnd (k : Text) (t : Parsed)
  | next (k : Text) (t : Parsed) (b : BrokenEntries)

end

end Btor
