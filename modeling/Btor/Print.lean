import Btor.Announce
import Btor.Lib.PrefixCode
import Btor.Lookup

/-!
# Objects as text

`operator<<` of `bobject.cpp` follows the pointers of an object and writes what it finds. For the
root of a tree it writes the text of the tree (`print_of_denotes`). Strings are written between
quotes, without regard to those in them. Where no string and no key has a quote, two roots are
written alike only if their trees are the same (`print_eq_iff`).
-/

namespace Btor

/-! ## The operator -/

/-- The loop of `operator<<` over a list. -/
def printItems (print : Ptr → Option Bytes) : Bool → List Ptr → Option Bytes
  | _, [] => some []
  | first, obj :: objs => do
    let text ← print obj
    let texts ← printItems print false objs
    return (if first then [] else literal ", ") ++ text ++ texts

/-- The loop of `operator<<` over the entries of a dictionary. -/
def printEntries (print : Ptr → Option Bytes) : Bool → List (Bytes × Ptr) → Option Bytes
  | _, [] => some []
  | first, (key, val) :: entries => do
    let text ← print val
    let texts ← printEntries print false entries
    return (if first then [] else literal ", ") ++
      (literal "\"" ++ key ++ literal "\"" ++ literal ": " ++ text) ++ texts

/-- `operator<<` for the object at `p`, to a depth below `n`. -/
def print (heap : List BObject) : ℕ → Ptr → Option Bytes
  | 0, _ => none
  | n + 1, p => do
    let bo ← heap[p]?
    match bo.type with
    | .bInteger => return stdToString bo.intVal
    | .bString => return literal "\"" ++ bo.stringVal ++ literal "\""
    | .bList => do
      let items ← printItems (print heap n) true bo.listVal
      return literal "[" ++ items ++ literal "]"
    | .bDict => do
      let entries ← printEntries (print heap n) true bo.dictVal.entries
      return literal "\x7b" ++ entries ++ literal "\x7d"
    | .bNull => return literal "BNull"

/-! ## The text of a tree -/

/-- An integer in decimal. -/
def integerText (n : ℤ) : Bytes :=
  let magnitude := Lib.numeral 10 (fun d => UInt8.ofNat (48 + d)) n.natAbs
  if n < 0 then Ascii.minus :: magnitude else magnitude

/-- The quote. -/
def quote : UInt8 := 34

mutual

/-- The text of a tree. -/
def Value.text : Value → Bytes
  | .integer n => integerText n
  | .string s => quote :: s ++ [quote]
  | .list vs => 91 :: itemsText true vs ++ [93]
  | .dict es => 123 :: entriesText true es ++ [125]

/-- The texts of the items, with commas between them. -/
def itemsText : Bool → List Value → Bytes
  | _, [] => []
  | first, v :: vs => (if first then [] else [44, 32]) ++ v.text ++ itemsText false vs

/-- The texts of the entries, with commas between them. -/
def entriesText : Bool → List (Bytes × Value) → Bytes
  | _, [] => []
  | first, (k, v) :: es =>
    (if first then [] else [44, 32]) ++ (quote :: k ++ [quote, 58, 32] ++ v.text) ++
      entriesText false es

end

mutual

/-- The depth of a tree. -/
def Value.depth : Value → ℕ
  | .integer _ => 0
  | .string _ => 0
  | .list vs => itemsDepth vs
  | .dict es => entriesDepth es

/-- The depth of the deepest item. -/
def itemsDepth : List Value → ℕ
  | [] => 0
  | v :: vs => max (v.depth + 1) (itemsDepth vs)

/-- The depth of the deepest value. -/
def entriesDepth : List (Bytes × Value) → ℕ
  | [] => 0
  | (_, v) :: es => max (v.depth + 1) (entriesDepth es)

end

mutual

/-- No string of the tree and no key has a quote. -/
def Value.QuoteFree : Value → Prop
  | .integer _ => True
  | .string s => quote ∉ s
  | .list vs => ItemsQuoteFree vs
  | .dict es => EntriesQuoteFree es

/-- No item has a quote in it. -/
def ItemsQuoteFree : List Value → Prop
  | [] => True
  | v :: vs => v.QuoteFree ∧ ItemsQuoteFree vs

/-- No key and no value has a quote in it. -/
def EntriesQuoteFree : List (Bytes × Value) → Prop
  | [] => True
  | (k, v) :: es => quote ∉ k ∧ v.QuoteFree ∧ EntriesQuoteFree es

end

/-- `std::to_string` writes the integer. -/
theorem stdToString_eq (x : Int64) : stdToString x = integerText x.toInt := by
  unfold stdToString integerText
  simp only [Int64.lt_iff_toInt_lt]
  rfl

mutual

/-- The root of a tree is written as the text of the tree. -/
theorem print_of_denotes {heap : List BObject} : ∀ {v : Value} {p : Ptr} {n : ℕ},
    Denotes heap p v → v.depth < n → print heap n p = some v.text
  | .integer m, p, n + 1, ⟨obj, hobj, htype, hm⟩, _ => by
    simp [print, hobj, htype, stdToString_eq, hm, Value.text]
  | .string s, p, n + 1, ⟨obj, hobj, htype, hs⟩, _ => by
    have hquote : literal "\"" = [quote] := rfl
    simp [print, hobj, htype, hs, hquote, Value.text]
  | .list vs, p, n + 1, ⟨obj, hobj, htype, hvs⟩, hn => by
    have hitems := printItems_of_denotes true hvs (Nat.lt_succ_iff.mp hn)
    have hopen : literal "[" = [91] := rfl
    have hclose : literal "]" = [93] := rfl
    simp [print, hobj, htype, hitems, hopen, hclose, Value.text]
  | .dict es, p, n + 1, ⟨obj, hobj, htype, hes⟩, hn => by
    have hentries := printEntries_of_denotes true hes (Nat.lt_succ_iff.mp hn)
    have hopen : literal "\x7b" = [123] := rfl
    have hclose : literal "\x7d" = [125] := rfl
    simp [print, hobj, htype, hentries, hopen, hclose, Value.text]

/-- The items of a list are printed with the texts of their trees. -/
theorem printItems_of_denotes {heap : List BObject} : ∀ {vs : List Value} {ps : List Ptr} {n : ℕ}
    (first : Bool), DenotesItems heap ps vs → itemsDepth vs ≤ n →
    printItems (print heap n) first ps = some (itemsText first vs)
  | [], ps, n, first, h, _ => by
    obtain rfl : ps = [] := h
    rfl
  | v :: vs, ps, n, first, ⟨p, ps', hps, hv, hvs⟩, hn => by
    have hle := max_le_iff.mp hn
    have htext := print_of_denotes hv hle.1
    have hrest := printItems_of_denotes false hvs hle.2
    have hcomma : literal ", " = [44, 32] := rfl
    subst hps
    simp [printItems, htext, hrest, hcomma, itemsText]

/-- The entries of a dictionary are printed with the texts of theirs. -/
theorem printEntries_of_denotes {heap : List BObject} : ∀ {es : List (Bytes × Value)}
    {ps : List (Bytes × Ptr)} {n : ℕ} (first : Bool), DenotesEntries heap ps es →
    entriesDepth es ≤ n → printEntries (print heap n) first ps = some (entriesText first es)
  | [], ps, n, first, h, _ => by
    obtain rfl : ps = [] := h
    rfl
  | (k, v) :: es, ps, n, first, ⟨p, ps', hps, hv, hes⟩, hn => by
    have hle := max_le_iff.mp hn
    have htext := print_of_denotes hv hle.1
    have hrest := printEntries_of_denotes false hes hle.2
    have hcomma : literal ", " = [44, 32] := rfl
    have hquote : literal "\"" = [quote] := rfl
    have hcolon : literal ": " = [58, 32] := rfl
    subst hps
    simp [printEntries, htext, hrest, hcomma, hquote, hcolon, entriesText]

end

/-! ## Reading the text -/

/-- The characters of integers. -/
def isNumeric (c : UInt8) : Bool := isDigit c || c == Ascii.minus

/-- An integer does not go on. -/
def EndsInteger (rest : Bytes) : Prop := ∀ c ∈ rest.head?, isNumeric c = false

/-- The text of an integer has digits and a minus sign only. -/
theorem isNumeric_of_mem_integerText {n : ℤ} {c : UInt8} (h : c ∈ integerText n) :
    isNumeric c = true := by
  unfold isNumeric
  unfold integerText at h
  dsimp only at h
  split_ifs at h
  · rcases List.mem_cons.mp h with rfl | h
    · rfl
    · rw [isDigit_of_mem_numeral h, Bool.true_or]
  · rw [isDigit_of_mem_numeral h, Bool.true_or]

/-- The text of an integer reads back as it. -/
theorem readInteger_integerText (n : ℤ) : readInteger (integerText n) = some n := by
  unfold integerText
  dsimp only
  split_ifs with hn
  · rw [readInteger, if_pos rfl, readNat_numeral, Option.map_some,
      Int.ofNat_natAbs_of_nonpos hn.le, neg_neg]
  · rw [readInteger_of_digits fun c => isDigit_of_mem_numeral, readNat_numeral, Option.map_some,
      Int.natAbs_of_nonneg (not_lt.mp hn)]

/-- The type of a tree by the first character of its text. -/
def opens (c : UInt8) : Option BObjectT :=
  if isNumeric c then some .bInteger
  else if c = quote then some .bString
  else if c = 91 then some .bList
  else if c = 123 then some .bDict
  else none

/-- The first character of a text tells the type. -/
theorem opens_text (v : Value) : ∃ c l, v.text = c :: l ∧ opens c = some v.type := by
  cases v with
  | integer n =>
    have hne : integerText n ≠ [] := by
      unfold integerText
      dsimp only
      split_ifs
      · exact List.cons_ne_nil _ _
      · exact Lib.numeral_ne_nil
    obtain ⟨c, l, hcl⟩ := List.exists_cons_of_ne_nil hne
    refine ⟨c, l, hcl, ?_⟩
    unfold opens
    rw [if_pos (isNumeric_of_mem_integerText (hcl ▸ List.mem_cons_self))]
    rfl
  | string s => exact ⟨_, _, rfl, rfl⟩
  | list vs => exact ⟨_, _, rfl, rfl⟩
  | dict es => exact ⟨_, _, rfl, rfl⟩

/-- Texts that begin a string alike are of trees of one type. -/
theorem type_eq_of_text {v v' : Value} {rest rest' : Bytes}
    (h : v.text ++ rest = v'.text ++ rest') : v.type = v'.type := by
  obtain ⟨c, l, hcl, hopens⟩ := opens_text v
  obtain ⟨c', l', hcl', hopens'⟩ := opens_text v'
  rw [hcl, hcl'] at h
  obtain ⟨rfl, -⟩ := List.cons.inj h
  exact Option.some.inj (hopens.symm.trans hopens')

/-- No text of a tree begins with a character that opens none. -/
theorem Value.ne_text {c : UInt8} (hc : opens c = none) (v : Value) (rest rest' : Bytes) :
    c :: rest ≠ v.text ++ rest' := by
  obtain ⟨c', l, hcl, hopens⟩ := opens_text v
  rw [hcl]
  intro h
  obtain ⟨rfl, -⟩ := List.cons.inj h
  rw [hc] at hopens
  cases hopens

/-- After an item comes a comma or what comes after the list. -/
theorem endsInteger_itemsText (vs : List Value) {c : UInt8} (hc : isNumeric c = false)
    (rest : Bytes) : EndsInteger (itemsText false vs ++ c :: rest) := by
  cases vs with
  | nil =>
    rintro _ ⟨⟩
    exact hc
  | cons v vs =>
    rintro _ ⟨⟩
    decide

/-- An integer ends before the next entry, or the end of the dictionary. -/
theorem endsInteger_entriesText (es : List (Bytes × Value)) {c : UInt8} (hc : isNumeric c = false)
    (rest : Bytes) : EndsInteger (entriesText false es ++ c :: rest) := by
  cases es with
  | nil =>
    rintro _ ⟨⟩
    exact hc
  | cons e es =>
    rintro _ ⟨⟩
    decide

/-- A list does not end where an item comes. -/
theorem ne_itemsText {first : Bool} {v : Value} {vs : List Value} (rest rest' : Bytes) :
    93 :: rest ≠ itemsText first (v :: vs) ++ rest' := by
  cases first with
  | false =>
    intro h
    exact absurd (List.cons.inj h).1 (by decide)
  | true =>
    unfold itemsText
    rw [if_pos rfl, List.nil_append, List.append_assoc]
    exact v.ne_text (by decide) _ _

/-- The end of the dictionary is no entry. -/
theorem ne_entriesText {first : Bool} {e : Bytes × Value} {es : List (Bytes × Value)}
    (rest rest' : Bytes) : 125 :: rest ≠ entriesText first (e :: es) ++ rest' := by
  intro h
  cases first <;> exact absurd (List.cons.inj h).1 (by decide)

/-- A string ends at the first quote. -/
theorem append_quote_inj {s s' rest rest' : Bytes} (hs : quote ∉ s) (hs' : quote ∉ s')
    (h : s ++ quote :: rest = s' ++ quote :: rest') : s = s' ∧ rest = rest' := by
  have hne {s : Bytes} (hs : quote ∉ s) : ∀ c ∈ s, (c != quote) = true := by
    intro c hc
    rw [bne_iff_ne]
    rintro rfl
    exact hs hc
  have hquote (rest : Bytes) : ∀ c ∈ (quote :: rest).head?, (c != quote) = false := by
    rintro _ ⟨⟩
    rfl
  obtain ⟨hstring, hrest⟩ := Lib.append_inj_of_span (hne hs) (hne hs') (hquote _) (hquote _) h
  exact ⟨hstring, (List.cons.inj hrest).2⟩

mutual

/-- The text of a tree without quotes determines it, and ends where it ends. -/
theorem text_inj : ∀ {v v' : Value} {rest rest' : Bytes}, v.QuoteFree → v'.QuoteFree →
    EndsInteger rest → EndsInteger rest' → v.text ++ rest = v'.text ++ rest' → v = v' ∧ rest = rest'
  | .integer n, v', rest, rest', _, _, hrest, hrest', h => by
    have htype := type_eq_of_text h
    cases v' with
    | integer n' =>
      obtain ⟨htext, hrest⟩ := Lib.append_inj_of_span
        (fun c => isNumeric_of_mem_integerText) (fun c => isNumeric_of_mem_integerText)
        hrest hrest' h
      -- An integer ends at the first character that is none of its own, and its text is read back.
      have hread := congrArg readInteger htext
      rw [readInteger_integerText, readInteger_integerText] at hread
      rw [Option.some.inj hread]
      exact ⟨rfl, hrest⟩
    | _ => cases htype
  | .string s, v', rest, rest', hs, hs', _, _, h => by
    have htype := type_eq_of_text h
    cases v' with
    | string s' =>
      simp only [Value.text, List.cons_append, List.append_assoc, List.nil_append,
        List.cons.injEq, true_and] at h
      -- A string ends at the first quote, as it has none of its own.
      obtain ⟨rfl, hrest⟩ := append_quote_inj hs hs' h
      exact ⟨rfl, hrest⟩
    | _ => cases htype
  | .list vs, v', rest, rest', hvs, hvs', _, _, h => by
    have htype := type_eq_of_text h
    cases v' with
    | list vs' =>
      simp only [Value.text, List.cons_append, List.append_assoc, List.nil_append,
        List.cons.injEq, true_and] at h
      -- The items end at the bracket, and the entries at the brace.
      obtain ⟨rfl, hrest⟩ := itemsText_inj true hvs hvs' h
      exact ⟨rfl, hrest⟩
    | _ => cases htype
  | .dict es, v', rest, rest', hes, hes', _, _, h => by
    have htype := type_eq_of_text h
    cases v' with
    | dict es' =>
      simp only [Value.text, List.cons_append, List.append_assoc, List.nil_append,
        List.cons.injEq, true_and] at h
      obtain ⟨rfl, hrest⟩ := entriesText_inj true hes hes' h
      exact ⟨rfl, hrest⟩
    | _ => cases htype

/-- Items with the same text up to the end of their list are the same. -/
theorem itemsText_inj : ∀ {vs vs' : List Value} {rest rest' : Bytes} (first : Bool),
    ItemsQuoteFree vs → ItemsQuoteFree vs' →
    itemsText first vs ++ 93 :: rest = itemsText first vs' ++ 93 :: rest' → vs = vs' ∧ rest = rest'
  | [], [], rest, rest', first, _, _, h => ⟨rfl, (List.cons.inj h).2⟩
  | [], v' :: vs', rest, rest', first, _, _, h => absurd h (ne_itemsText _ _)
  | v :: vs, [], rest, rest', first, _, _, h => absurd h.symm (ne_itemsText _ _)
  | v :: vs, v' :: vs', rest, rest', first, ⟨hv, hvs⟩, ⟨hv', hvs'⟩, h => by
    rw [itemsText, itemsText] at h
    simp only [List.append_assoc] at h
    obtain ⟨rfl, hitems⟩ := text_inj hv hv' (endsInteger_itemsText vs (by decide) rest)
      (endsInteger_itemsText vs' (by decide) rest') (List.append_cancel_left h)
    obtain ⟨rfl, hrest⟩ := itemsText_inj false hvs hvs' hitems
    exact ⟨rfl, hrest⟩

/-- So are entries, up to the end of their dictionary. -/
theorem entriesText_inj : ∀ {es es' : List (Bytes × Value)} {rest rest' : Bytes} (first : Bool),
    EntriesQuoteFree es → EntriesQuoteFree es' →
    entriesText first es ++ 125 :: rest = entriesText first es' ++ 125 :: rest' →
    es = es' ∧ rest = rest'
  | [], [], rest, rest', first, _, _, h => ⟨rfl, (List.cons.inj h).2⟩
  | [], e' :: es', rest, rest', first, _, _, h => absurd h (ne_entriesText _ _)
  | e :: es, [], rest, rest', first, _, _, h => absurd h.symm (ne_entriesText _ _)
  | (k, v) :: es, (k', v') :: es', rest, rest', first, ⟨hk, hv, hes⟩, ⟨hk', hv', hes'⟩, h => by
    rw [entriesText, entriesText] at h
    simp only [List.append_assoc, List.cons_append, List.nil_append] at h
    have hentry := (List.cons.inj (List.append_cancel_left h)).2
    obtain ⟨rfl, hvalue⟩ := append_quote_inj hk hk' hentry
    obtain ⟨rfl, hentries⟩ := text_inj hv hv' (endsInteger_entriesText es (by decide) rest)
      (endsInteger_entriesText es' (by decide) rest') (List.cons.inj (List.cons.inj hvalue).2).2
    obtain ⟨rfl, hrest⟩ := entriesText_inj false hes hes' hentries
    exact ⟨rfl, hrest⟩

end

/-- Two roots are written alike exactly if their trees are the same, where no string has a quote. -/
theorem print_eq_iff {heap heap' : List BObject} {p p' : Ptr} {v v' : Value} {n n' : ℕ}
    (h : Denotes heap p v) (h' : Denotes heap' p' v') (hv : v.QuoteFree) (hv' : v'.QuoteFree)
    (hn : v.depth < n) (hn' : v'.depth < n') : print heap n p = print heap' n' p' ↔ v = v' := by
  have hnil : EndsInteger [] := by
    rintro _ ⟨⟩
  rw [print_of_denotes h hn, print_of_denotes h' hn', Option.some_inj]
  constructor
  · intro htext
    have happend : v.text ++ [] = v'.text ++ [] := by rw [htext]
    exact (text_inj hv hv' hnil hnil happend).1
  · rintro rfl
    rfl

/-- A list of the integer and the string `1`, and one of them in the other order. -/
theorem print_eq_iff_ones :
    print [.ofInt 1, .ofString [49], { type := .bList, listVal := [0, 1] }] 2 2 ≠
      print [.ofString [49], .ofInt 1, { type := .bList, listVal := [0, 1] }] 2 2 := by
  have hint {heap : List BObject} {p : Ptr} (h : heap[p]? = some (.ofInt 1)) :
      Denotes heap p (.integer 1) := ⟨_, h, rfl, rfl⟩
  have hstring {heap : List BObject} {p : Ptr} (h : heap[p]? = some (.ofString [49])) :
      Denotes heap p (.string [49]) := ⟨_, h, rfl, rfl⟩
  have hlist {heap : List BObject} {v v' : Value} (h₀ : Denotes heap 0 v) (h₁ : Denotes heap 1 v')
      (h₂ : heap[2]? = some { type := .bList, listVal := [0, 1] }) :
      Denotes heap 2 (.list [v, v']) := ⟨_, h₂, rfl, 0, [1], rfl, h₀, 1, [], rfl, h₁, rfl⟩
  have hones : Denotes [.ofInt 1, .ofString [49], { type := .bList, listVal := [0, 1] }] 2
      (.list [.integer 1, .string [49]]) := hlist (hint rfl) (hstring rfl) rfl
  have hones' : Denotes [.ofString [49], .ofInt 1, { type := .bList, listVal := [0, 1] }] 2
      (.list [.string [49], .integer 1]) := hlist (hstring rfl) (hint rfl) rfl
  have hquote : quote ∉ [(49 : UInt8)] := by decide
  rw [Ne, print_eq_iff hones hones' ⟨trivial, hquote, trivial⟩ ⟨hquote, trivial, trivial⟩
    Nat.one_lt_two Nat.one_lt_two]
  intro h
  injection h with h
  injection h with h
  cases h

/-- With a quote in it, one string is written like two. -/
example : (Value.list [.string [97], .string [98]]).text =
    (Value.list [.string [97, 34, 44, 32, 34, 98]]).text := rfl

end Btor
