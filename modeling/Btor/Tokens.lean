import Btor.Grammar
import Btor.Lib.PrefixCode

/-!
# Tokens

A value is written as a list of tokens: integers, strings, the opening bytes of containers, and the
byte that closes one. The words of the tokens form a prefix code (`tokenCode`), and the tokens of a
value determine it wherever they start a list of tokens (`Parsed.tokens_unique`). So the start of a
buffer is written by at most one value, also for values that the parser does not accept because a
container is empty or the value of a key `length` is no integer (`lexical_unique`).

`depth` counts the containers that tokens leave open.
-/

namespace Btor

open Lib (PrefixCode)

/-! ## The tokens of a value -/

/-- A token of the format. -/
inductive Token where
  | integer (body : Bytes)
  | text (k : Text)
  | openList
  | openDict
  | close

/-- The bytes of a token. -/
def Token.bytes : Token → Bytes
  | integer body => Ascii.i :: (body ++ [Ascii.e])
  | text k => k.bytes
  | openList => [Ascii.l]
  | openDict => [Ascii.d]
  | close => [Ascii.e]

/-- What the parser checks of a token by itself. -/
def Token.Lexical : Token → Prop
  | integer body => IntAccepted body
  | text k => k.Accepted
  | _ => True

mutual

/-- The tokens of a value. -/
def Parsed.tokens : Parsed → List Token
  | .integer body => [.integer body]
  | .string k => [.text k]
  | .list ts => .openList :: (itemsTokens ts ++ [.close])
  | .dict es => .openDict :: (entriesTokens es ++ [.close])

/-- The tokens of the items of a list. -/
def itemsTokens : List Parsed → List Token
  | [] => []
  | t :: ts => t.tokens ++ itemsTokens ts

/-- The tokens of the entries of a dictionary. -/
def entriesTokens : List (Text × Parsed) → List Token
  | [] => []
  | (k, t) :: es => .text k :: (t.tokens ++ entriesTokens es)

end

/-- What the parser checks of the tokens of a value. -/
def Parsed.Lexical (t : Parsed) : Prop := ∀ a ∈ t.tokens, a.Lexical

mutual

/-- The bytes of a value are those of its tokens. -/
theorem Parsed.flatMap_tokens : ∀ t : Parsed, t.tokens.flatMap Token.bytes = t.bytes
  | .integer body => by simp [Parsed.tokens, Token.bytes, Parsed.bytes]
  | .string k => by simp [Parsed.tokens, Token.bytes, Parsed.bytes]
  | .list ts => by
    rw [Parsed.tokens, List.flatMap_cons, List.flatMap_append, itemsTokens_flatMap ts]
    rfl
  | .dict es => by
    rw [Parsed.tokens, List.flatMap_cons, List.flatMap_append, entriesTokens_flatMap es]
    rfl

/-- The tokens of the items spell their bytes. -/
theorem itemsTokens_flatMap : ∀ ts : List Parsed,
    (itemsTokens ts).flatMap Token.bytes = itemsBytes ts
  | [] => rfl
  | t :: ts => by
    rw [itemsTokens, List.flatMap_append, t.flatMap_tokens, itemsTokens_flatMap ts, itemsBytes]

/-- Those of the entries spell theirs. -/
theorem entriesTokens_flatMap : ∀ es : List (Text × Parsed),
    (entriesTokens es).flatMap Token.bytes = entriesBytes es
  | [] => rfl
  | (k, t) :: es => by
    rw [entriesTokens, List.flatMap_cons, List.flatMap_append, t.flatMap_tokens,
      entriesTokens_flatMap es, entriesBytes]
    rfl

end

mutual

/-- The tokens of an accepted value pass the parser's checks. -/
theorem Parsed.Accepted.lexical : ∀ {t : Parsed}, t.Accepted → t.Lexical
  | .integer _, h => List.forall_mem_singleton.mpr h
  | .string _, h => List.forall_mem_singleton.mpr h.1
  | .list _, h => List.forall_mem_cons.mpr ⟨trivial, List.forall_mem_append.mpr
      ⟨ItemsAccepted.lexical h.2, List.forall_mem_singleton.mpr trivial⟩⟩
  | .dict _, h => List.forall_mem_cons.mpr ⟨trivial, List.forall_mem_append.mpr
      ⟨EntriesAccepted.lexical h.2, List.forall_mem_singleton.mpr trivial⟩⟩

/-- The tokens of accepted items are as the parser reads them. -/
theorem ItemsAccepted.lexical : ∀ {ts : List Parsed}, ItemsAccepted ts →
    ∀ a ∈ itemsTokens ts, a.Lexical
  | [], _ => by simp [itemsTokens]
  | _ :: _, h => List.forall_mem_append.mpr ⟨h.1.lexical, h.2.lexical⟩

/-- So are those of accepted entries. -/
theorem EntriesAccepted.lexical : ∀ {es : List (Text × Parsed)}, EntriesAccepted es →
    ∀ a ∈ entriesTokens es, a.Lexical
  | [], _ => by simp [entriesTokens]
  | (_, _) :: _, h => List.forall_mem_cons.mpr
      ⟨h.1, List.forall_mem_append.mpr ⟨h.2.1.lexical, h.2.2.2.lexical⟩⟩

end

/-! ## Tokens and bytes determine the value -/

/-- Two lists that are the same up to and after the first `a`. -/
theorem append_cons_inj_of_notMem_both {α : Type} {a : α} {x y u v : List α} (hx : a ∉ x)
    (hy : a ∉ y) (h : x ++ a :: u = y ++ a :: v) : x = y ∧ u = v := by
  induction x generalizing y with
  | nil =>
    cases y with
    | nil => exact ⟨rfl, List.tail_eq_of_cons_eq h⟩
    | cons c y => exact absurd (List.head_eq_of_cons_eq h) (List.ne_of_not_mem_cons hy)
  | cons b x ih =>
    cases y with
    | nil => exact absurd (List.head_eq_of_cons_eq h).symm (List.ne_of_not_mem_cons hx)
    | cons c y =>
      obtain ⟨rfl, htail⟩ := List.cons.inj h
      obtain ⟨rfl, rfl⟩ := ih (List.not_mem_of_not_mem_cons hx) (List.not_mem_of_not_mem_cons hy)
        htail
      exact ⟨rfl, rfl⟩

/-- No accepted string is the start of another one. -/
theorem Text.eq_of_isPrefix {k k' : Text} (hk : k.Accepted) (hk' : k'.Accepted)
    (h : k.bytes <+: k'.bytes) : k = k' := by
  have hcolon {k : Text} (hk : k.Accepted) : Ascii.colon ∉ k.digits := fun hc =>
    (isDigit_ne (hk.1 _ hc)).2.2.2.2.1 rfl
  obtain ⟨w, hw⟩ := h
  rw [Text.bytes, Text.bytes, List.append_assoc, List.cons_append] at hw
  obtain ⟨hdigits, hpayload⟩ := append_cons_inj_of_notMem_both (hcolon hk) (hcolon hk') hw
  -- The digits are the same, so the payloads are of one length.
  have hlen : k.payload.length = k'.payload.length := by rw [hk.2, hk'.2, hdigits]
  have hpre : k.payload <+: k'.payload := ⟨w, hpayload⟩
  have hsame : k.payload = k'.payload := hpre.eq_of_length hlen
  obtain ⟨ds, p⟩ := k
  obtain ⟨ds', p'⟩ := k'
  obtain rfl : ds = ds' := hdigits
  obtain rfl : p = p' := hsame
  rfl

/-- A string starts with none of the bytes that other tokens start with. -/
theorem Text.bytes_head_token {k : Text} (hk : k.Accepted) : ∃ x l, k.bytes = x :: l ∧
    x ≠ Ascii.i ∧ x ≠ Ascii.l ∧ x ≠ Ascii.d ∧ x ≠ Ascii.e := by
  obtain ⟨x, l, hx, hd | rfl⟩ := Text.bytes_head hk
  · obtain ⟨hi, hl, hd, he, -⟩ := isDigit_ne hd
    exact ⟨x, l, hx, hi, hl, hd, he⟩
  · exact ⟨_, l, hx, by decide, by decide, by decide, by decide⟩

/-- The words of the tokens form a prefix code. -/
theorem tokenCode : PrefixCode Token.Lexical Token.bytes where
  ne_nil a _ := by cases a <;> simp [Token.bytes, Text.bytes]
  prefix_free a b ha hb h := by
    cases a with
    | integer body =>
      cases b with
      | integer body' =>
        -- The bodies end at the first `e`, which neither of them has inside.
        obtain ⟨w, hw⟩ := (List.cons_prefix_cons.mp h).2
        rw [List.append_assoc] at hw
        rw [(append_cons_inj_of_notMem_both ha.1 hb.1 hw).1]
      | text k =>
        obtain ⟨x, l, hx, hi, -⟩ := Text.bytes_head_token (k := k) hb
        rw [Token.bytes, Token.bytes, hx] at h
        exact absurd (List.cons_prefix_cons.mp h).1.symm hi
      | _ => exact absurd (List.cons_prefix_cons.mp h).1 (by decide)
    | text k =>
      obtain ⟨x, l, hx, hi, hl, hd, he⟩ := Text.bytes_head_token (k := k) ha
      cases b with
      | text k' => exact congrArg Token.text (Text.eq_of_isPrefix ha hb h)
      | integer body' =>
        rw [Token.bytes, Token.bytes, hx] at h
        exact absurd (List.cons_prefix_cons.mp h).1 hi
      | openList =>
        rw [Token.bytes, Token.bytes, hx] at h
        exact absurd (List.cons_prefix_cons.mp h).1 hl
      | openDict =>
        rw [Token.bytes, Token.bytes, hx] at h
        exact absurd (List.cons_prefix_cons.mp h).1 hd
      | close =>
        rw [Token.bytes, Token.bytes, hx] at h
        exact absurd (List.cons_prefix_cons.mp h).1 he
    | openList =>
      cases b with
      | openList => rfl
      | text k =>
        obtain ⟨x, l, hx, -, hl, -⟩ := Text.bytes_head_token (k := k) hb
        rw [Token.bytes, Token.bytes, hx] at h
        exact absurd (List.cons_prefix_cons.mp h).1.symm hl
      | _ => exact absurd (List.cons_prefix_cons.mp h).1 (by decide)
    | openDict =>
      cases b with
      | openDict => rfl
      | text k =>
        obtain ⟨x, l, hx, -, -, hd, -⟩ := Text.bytes_head_token (k := k) hb
        rw [Token.bytes, Token.bytes, hx] at h
        exact absurd (List.cons_prefix_cons.mp h).1.symm hd
      | _ => exact absurd (List.cons_prefix_cons.mp h).1 (by decide)
    | close =>
      cases b with
      | close => rfl
      | text k =>
        obtain ⟨x, l, hx, -, -, -, he⟩ := Text.bytes_head_token (k := k) hb
        rw [Token.bytes, Token.bytes, hx] at h
        exact absurd (List.cons_prefix_cons.mp h).1.symm he
      | _ => exact absurd (List.cons_prefix_cons.mp h).1 (by decide)

/-- The first token of a value does not close a container. -/
theorem Parsed.tokens_head (t : Parsed) : ∃ a l, t.tokens = a :: l ∧ a ≠ .close := by
  cases t <;> exact ⟨_, _, rfl, by simp⟩

mutual

/-- The tokens of a value determine it, and the tokens after it. -/
theorem Parsed.tokens_unique : ∀ {t t' : Parsed} {u u' : List Token},
    t.tokens ++ u = t'.tokens ++ u' → t = t' ∧ u = u'
  | .integer body, t', u, u', h => by
    cases t' <;> simp [Parsed.tokens] at h ⊢
    exact h
  | .string k, t', u, u', h => by
    cases t' <;> simp [Parsed.tokens] at h ⊢
    exact h
  | .list ts, t', u, u', h => by
    cases t' with
    | list ts' =>
      simp only [Parsed.tokens, List.cons_append, List.append_assoc, List.cons.injEq, true_and,
        List.nil_append] at h
      obtain ⟨rfl, hrest⟩ := itemsTokens_unique h
      exact ⟨rfl, hrest⟩
    | _ => simp [Parsed.tokens] at h
  | .dict es, t', u, u', h => by
    cases t' with
    | dict es' =>
      simp only [Parsed.tokens, List.cons_append, List.append_assoc, List.cons.injEq, true_and,
        List.nil_append] at h
      obtain ⟨rfl, hrest⟩ := entriesTokens_unique h
      exact ⟨rfl, hrest⟩
    | _ => simp [Parsed.tokens] at h

/-- The tokens of the items and the end of their list determine the items. -/
theorem itemsTokens_unique : ∀ {ts ts' : List Parsed} {u u' : List Token},
    itemsTokens ts ++ .close :: u = itemsTokens ts' ++ .close :: u' → ts = ts' ∧ u = u'
  | [], [], u, u', h => ⟨rfl, List.tail_eq_of_cons_eq h⟩
  | [], t' :: ts', u, u', h => by
    -- A value starts with no closing token, so the list does not go on on one side only.
    obtain ⟨a, l, ha, hne⟩ := t'.tokens_head
    rw [itemsTokens, itemsTokens, ha] at h
    exact absurd (List.head_eq_of_cons_eq h).symm hne
  | t :: ts, [], u, u', h => by
    obtain ⟨a, l, ha, hne⟩ := t.tokens_head
    rw [itemsTokens, itemsTokens, ha] at h
    exact absurd (List.head_eq_of_cons_eq h) hne
  | t :: ts, t' :: ts', u, u', h => by
    -- Both go on with a value, which is the same, and then with the rest.
    rw [itemsTokens, itemsTokens, List.append_assoc, List.append_assoc] at h
    obtain ⟨rfl, hrest⟩ := Parsed.tokens_unique h
    obtain ⟨rfl, rfl⟩ := itemsTokens_unique hrest
    exact ⟨rfl, rfl⟩

/-- So do those of the entries, with the end of their dictionary. -/
theorem entriesTokens_unique : ∀ {es es' : List (Text × Parsed)} {u u' : List Token},
    entriesTokens es ++ .close :: u = entriesTokens es' ++ .close :: u' → es = es' ∧ u = u'
  | [], [], u, u', h => ⟨rfl, List.tail_eq_of_cons_eq h⟩
  | [], (k', t') :: es', u, u', h => by
    rw [entriesTokens, entriesTokens] at h
    exact absurd (List.head_eq_of_cons_eq h) (by simp)
  | (k, t) :: es, [], u, u', h => by
    rw [entriesTokens, entriesTokens] at h
    exact absurd (List.head_eq_of_cons_eq h) (by simp)
  | (k, t) :: es, (k', t') :: es', u, u', h => by
    rw [entriesTokens, entriesTokens, List.cons_append, List.cons_append, List.append_assoc,
      List.append_assoc] at h
    obtain ⟨hk, hrest⟩ := List.cons.inj h
    obtain rfl := Token.text.inj hk
    obtain ⟨rfl, htail⟩ := Parsed.tokens_unique hrest
    obtain ⟨rfl, rfl⟩ := entriesTokens_unique htail
    exact ⟨rfl, rfl⟩

end

/-- The start of a buffer is written by at most one value whose tokens pass the parser's checks. -/
theorem lexical_unique {buf : Bytes} {t t' : Parsed} (ht : t.Lexical) (ht' : t'.Lexical)
    (h : t.bytes <+: buf) (h' : t'.bytes <+: buf) : t = t' := by
  rw [← t.flatMap_tokens] at h
  rw [← t'.flatMap_tokens] at h'
  -- One list of tokens starts with the other, and a value's tokens are no part of another's.
  rcases tokenCode.isPrefix_or_isPrefix ht ht' h h' with ⟨w, hw⟩ | ⟨w, hw⟩
  · exact (Parsed.tokens_unique (hw.trans (List.append_nil _).symm)).1
  · exact (Parsed.tokens_unique (hw.trans (List.append_nil _).symm)).1.symm

/-! ## Open containers -/

/-- What a token adds to the number of open containers. -/
def Token.delta : Token → ℤ
  | openList => 1
  | openDict => 1
  | close => -1
  | _ => 0

/-- The number of containers that the tokens leave open. -/
def depth (l : List Token) : ℤ := (l.map Token.delta).sum

/-- No token opens a container. -/
@[simp] theorem depth_nil : depth [] = 0 := rfl

/-- The first token counts with the others. -/
@[simp] theorem depth_cons (a : Token) (l : List Token) :
    depth (a :: l) = a.delta + depth l := by
  simp [depth]

/-- The tokens of two lists are counted together. -/
@[simp] theorem depth_append (l l' : List Token) : depth (l ++ l') = depth l + depth l' := by
  simp [depth]

mutual

/-- A value closes the containers that it opens. -/
theorem Parsed.depth_tokens : ∀ t : Parsed, depth t.tokens = 0
  | .integer _ => rfl
  | .string _ => rfl
  | .list ts => by simp [Parsed.tokens, itemsTokens_depth ts, Token.delta]
  | .dict es => by simp [Parsed.tokens, entriesTokens_depth es, Token.delta]

/-- The items close what they open. -/
theorem itemsTokens_depth : ∀ ts : List Parsed, depth (itemsTokens ts) = 0
  | [] => rfl
  | t :: ts => by rw [itemsTokens, depth_append, t.depth_tokens, itemsTokens_depth ts, add_zero]

/-- So do the entries. -/
theorem entriesTokens_depth : ∀ es : List (Text × Parsed), depth (entriesTokens es) = 0
  | [] => rfl
  | (k, t) :: es => by
    rw [entriesTokens, depth_cons, depth_append, t.depth_tokens, entriesTokens_depth es]
    rfl

end

end Btor
