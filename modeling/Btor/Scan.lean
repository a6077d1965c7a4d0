import Btor.Buffer
import Btor.Syntax

/-!
# The parser without its state

What the parser reads of a buffer depends on the cursor alone: not on what it has collected, nor on
the objects it has built. `scanArbitrary` and the functions below it are the control flow of
`bencode.cpp` without those, on the same bound on the number of steps, and return the syntax that
was read. `Btor/Simulation.lean` shows that the parser does what its scan says.

A scan is a recognizer for a grammar: `Btor/Grammar.lean` shows that it ends with exactly the values
of the grammar, and `Btor/Failure.lean` that it gives up on exactly the broken ones.
-/

namespace Btor

/-- How a scan ends: with what it read, with what it read before it gave up, or out of fuel. -/
inductive Scan (α β : Type) where
  | done (a : α)
  | stuck (b : β)
  | outOfFuel

/-- The scan of a part, as a scan of the whole. -/
def Scan.map {α β α' β' : Type} (f : α → α') (g : β → β') : Scan α β → Scan α' β'
  | done a => done (f a)
  | stuck b => stuck (g b)
  | outOfFuel => outOfFuel

section

variable {α β α' β' : Type} {f : α → α'} {g : β → β'}

/-- What is done is mapped. -/
@[simp] theorem Scan.map_done (a : α) : (done a : Scan α β).map f g = done (f a) := rfl

/-- What is stuck is mapped. -/
@[simp] theorem Scan.map_stuck (b : β) : (stuck b : Scan α β).map f g = stuck (g b) := rfl

/-- Without fuel there is nothing to map. -/
@[simp] theorem Scan.map_outOfFuel : (outOfFuel : Scan α β).map f g = outOfFuel := rfl

/-- A mapped scan is done if the scan was. -/
theorem Scan.map_eq_done {r : Scan α β} {a' : α'} :
    r.map f g = done a' ↔ ∃ a, r = done a ∧ f a = a' := by
  cases r <;> simp

/-- It is stuck if the scan was. -/
theorem Scan.map_eq_stuck {r : Scan α β} {b' : β'} :
    r.map f g = stuck b' ↔ ∃ b, r = stuck b ∧ g b = b' := by
  cases r <;> simp

/-- It is out of fuel if the scan was. -/
theorem Scan.map_eq_outOfFuel {r : Scan α β} : r.map f g = outOfFuel ↔ r = outOfFuel := by
  cases r <;> simp

end

/-- A digit in front of a broken string. -/
def BrokenText.cons (x : UInt8) : BrokenText → BrokenText
  | atEnd ds => atEnd (x :: ds)
  | badByte ds c => badByte (x :: ds) c
  | short ds p => short (x :: ds) p

/-- A byte in front of a broken integer. -/
def BrokenInteger.cons (x : UInt8) : BrokenInteger → BrokenInteger
  | atEnd l => atEnd (x :: l)
  | badSign l => badSign (x :: l)

section

variable (buf : Bytes)

/-- The digits up to the colon, for the first loop of `extractString`. -/
def scanDigits : ℕ → UInt32 → Scan Bytes BrokenText
  -- The parser consumes the first byte before it enters this loop, so without fuel it finds the
  -- end of the buffer all the same.
  | 0, c => if buf[c.toNat]? = none then .stuck (.atEnd []) else .outOfFuel
  | n + 1, c =>
    match buf[c.toNat]? with
    | none => .stuck (.atEnd [])
    | some x =>
      if x = Ascii.colon then .done []
      else if isDigit x then (scanDigits n (c + 1)).map (x :: ·) (.cons x)
      else .stuck (.badByte [] x)

/-- `len` bytes, for the second loop of `extractString`. -/
def scanPayload : ℕ → UInt32 → Int32 → Scan Bytes Bytes
  | 0, _, _ => .outOfFuel
  | n + 1, c, len =>
    if len = 0 then .done []
    else
      match buf[c.toNat]? with
      | none => .stuck []
      | some x => (scanPayload n (c + 1) (len - 1)).map (x :: ·) (x :: ·)

/-- A string, for `extractString`. -/
def scanText (n : ℕ) (c : UInt32) : Scan Text BrokenText :=
  match scanDigits buf n c with
  | .outOfFuel => .outOfFuel
  | .stuck b => .stuck b
  | .done ds =>
    -- The bytes start after the colon.
    (scanPayload buf n (advance c (ds ++ [Ascii.colon])) (textLength ds)).map (.mk ds) (.short ds)

/-- The bytes up to the `e`, for the loop of `parseInteger`. -/
def scanBody : ℕ → UInt32 → Bool → Scan Bytes BrokenInteger
  | 0, _, _ => .outOfFuel
  | n + 1, c, first =>
    match buf[c.toNat]? with
    | none => .stuck (.atEnd [])
    | some x =>
      if x = Ascii.e then .done []
      else if x = Ascii.minus ∧ first = false then .stuck (.badSign [])
      else (scanBody n (c + 1) false).map (x :: ·) (.cons x)

mutual

/-- A value, for `parseArbitrary`. -/
def scanArbitrary : ℕ → UInt32 → Scan Parsed Broken
  | 0, _ => .outOfFuel
  | n + 1, c =>
    match buf[c.toNat]? with
    | none => .stuck .noByte
    | some ch =>
      if ch = Ascii.i then (scanBody buf n (c + 1) true).map .integer .integer
      else if ch = Ascii.l then (scanList n c).map .list .list
      else if ch = Ascii.d then (scanDictionary n c).map .dict .dict
      else if isDigit ch then (scanText buf n c).map .string .string
      else .stuck (.badByte ch)

/-- The items of a list, for `parseList` at the `l`. -/
def scanList : ℕ → UInt32 → Scan (List Parsed) BrokenItems
  | 0, _ => .outOfFuel
  | n + 1, c => scanItems n (c + 1)

/-- The items of a list, for the loop of `parseList`. -/
def scanItems : ℕ → UInt32 → Scan (List Parsed) BrokenItems
  | 0, _ => .outOfFuel
  | n + 1, c =>
    match scanArbitrary n c with
    | .outOfFuel => .outOfFuel
    | .stuck b => .stuck (.item b)
    | .done t =>
      -- The byte after the item decides whether the list goes on.
      match buf[(advance c t.bytes).toNat]? with
      | none => .stuck (.atEnd t)
      | some ch =>
        if ch ≠ Ascii.e then (scanItems n (advance c t.bytes)).map (t :: ·) (.next t)
        else .done [t]

/-- The entries of a dictionary, for `parseDictionary` at the `d`. -/
def scanDictionary : ℕ → UInt32 → Scan (List (Text × Parsed)) BrokenEntries
  | 0, _ => .outOfFuel
  | n + 1, c => scanEntries n (c + 1)

/-- The entries of a dictionary, for the loop of `parseDictionary`. -/
def scanEntries : ℕ → UInt32 → Scan (List (Text × Parsed)) BrokenEntries
  | 0, _ => .outOfFuel
  | n + 1, c =>
    match scanText buf n c with
    | .outOfFuel => .outOfFuel
    | .stuck b => .stuck (.key b)
    | .done k =>
      match scanArbitrary n (advance c k.bytes) with
      | .outOfFuel => .outOfFuel
      | .stuck b => .stuck (.value k b)
      | .done t =>
        -- `getInt` throws before the entry is inserted.
        if k.payload = lengthKey ∧ ¬ t.IsInteger then .stuck (.notInteger k t)
        else
          match buf[(advance c (k.bytes ++ t.bytes)).toNat]? with
          | none => .stuck (.atEnd k t)
          | some ch =>
            if ch ≠ Ascii.e then
              (scanEntries n (advance c (k.bytes ++ t.bytes))).map ((k, t) :: ·) (.next k t)
            else .done [(k, t)]

end

end

end Btor
