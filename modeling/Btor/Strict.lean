import Btor.Format

/-!
# What the parser lets through

The comments of `bencode.cpp` rule out leading zeros, `-0` and bytes that are no digits in a number,
and the parser does not check any of it. `Token.Defective` names the tokens that it lets through by
this, and strings of `2^32` bytes or more in writing, whose length wraps around. The parser also
returns with bytes left over after the root value. A buffer that the parser accepts is a value of
the documented format exactly if it has no defective token and no bytes left over
(`parse_documented_iff`): the nesting of lists and dictionaries, the place of the keys and the signs
are always right.

The equivalence is for buffers shorter than `2^32` bytes. In a longer one the cursor wraps around,
so what the parser has read says nothing about the rest.
-/

namespace Btor

/-- The digits of a number start with a zero, and it is not the number zero. -/
def LeadingZero (ds : Bytes) : Prop := ds.head? = some Ascii.zero ∧ ds ≠ [Ascii.zero]

/-- A token that the parser lets through against the documentation: an integer with a byte that is
neither a digit nor its sign, without a digit, with leading zeros, or that is `-0`; a string whose
length has no digit, has leading zeros, or is `2^32` or more. -/
def Token.Defective : Token → Prop
  | integer body => (∃ c ∈ body, isDigit c = false ∧ c ≠ Ascii.minus) ∨
      body.filter isDigit = [] ∨ LeadingZero (body.filter isDigit) ∨
      body = [Ascii.minus, Ascii.zero]
  | text k => k.digits = [] ∨ LeadingZero k.digits ∨ 2^32 ≤ decimal k.digits
  | _ => False

/-- Digits are those of a number if there are some, and no zero in front. -/
theorem isDecimal_iff {ds : Bytes} (h : ∀ c ∈ ds, isDigit c = true) :
    IsDecimal ds ↔ ds ≠ [] ∧ ¬ LeadingZero ds := by
  constructor
  · exact fun hds => ⟨hds.ne_nil, fun hz => hz.2 (hds.zero hz.1)⟩
  · exact fun ⟨hne, hz⟩ => ⟨hne, h, fun hhead => by_contra fun h' => hz ⟨hhead, h'⟩⟩

/-- A string that the parser accepts is written as documented unless it is defective. -/
theorem Text.canonical_iff {k : Text} (hk : k.Accepted) :
    k.Canonical ↔ ¬ (Token.text k).Defective := by
  -- The parser has counted the bytes modulo `2^32`.
  have hlt : decimal k.digits % 2^32 < 2^32 := Nat.mod_lt _ (by norm_num)
  rw [Text.Canonical, isDecimal_iff hk.1, hk.2, Token.Defective]
  constructor
  · rintro ⟨⟨hne, hz⟩, hlen⟩ (hnil | hlead | hbig)
    · exact hne hnil
    · exact hz hlead
    · omega
  · intro h
    obtain ⟨hne, h⟩ := not_or.mp h
    obtain ⟨hz, hbig⟩ := not_or.mp h
    exact ⟨⟨hne, hz⟩, (Nat.mod_eq_of_lt (by omega)).symm⟩

/-- The bytes of an integer that the parser accepts, without stray bytes, are digits after a sign,
if any. -/
theorem integer_cases {body : Bytes} (hbody : IntAccepted body)
    (h : ∀ c ∈ body, isDigit c = true ∨ c = Ascii.minus) :
    (∀ c ∈ body, isDigit c = true) ∨
      ∃ ds, body = Ascii.minus :: ds ∧ ∀ c ∈ ds, isDigit c = true := by
  cases body with
  | nil => exact .inl (by simp)
  | cons x ds =>
    obtain ⟨hx, hds⟩ := List.forall_mem_cons.mp h
    have hdigits : ∀ c ∈ ds, isDigit c = true := fun c hc =>
      (hds c hc).resolve_right fun hm => hbody.2 (hm ▸ hc)
    rcases hx with hx | rfl
    · exact .inl (List.forall_mem_cons.mpr ⟨hx, hdigits⟩)
    · exact .inr ⟨ds, rfl, hdigits⟩

/-- An integer that the parser accepts is written as documented unless it is defective. -/
theorem intCanonical_iff {body : Bytes} (hbody : IntAccepted body) :
    IntCanonical body ↔ ¬ (Token.integer body).Defective := by
  rw [Token.Defective]
  constructor
  · rintro ⟨n, h⟩ hdef
    cases h with
    | nonneg hds =>
      rw [List.filter_eq_self.mpr hds.digits] at hdef
      -- None of the defects is in digits without leading zeros.
      rcases hdef with ⟨c, hc, hno, -⟩ | hnil | hlead | rfl
      · simp [hds.digits c hc] at hno
      · exact hds.ne_nil hnil
      · exact hlead.2 (hds.zero hlead.1)
      · exact absurd (hds.digits Ascii.minus List.mem_cons_self) (by decide)
    | @neg ds hds hne =>
      have hminus : isDigit Ascii.minus = false := by decide
      rw [List.filter_cons_of_neg (by simp [hminus]), List.filter_eq_self.mpr hds.digits] at hdef
      rcases hdef with ⟨c, hc, hno, hcm⟩ | hnil | hlead | heq
      · rcases List.mem_cons.mp hc with rfl | hc
        · exact hcm rfl
        · simp [hds.digits c hc] at hno
      · exact hds.ne_nil hnil
      · exact hlead.2 (hds.zero hlead.1)
      · exact hne (List.cons.inj heq).2
  · intro hdef
    obtain ⟨hstray, hdef⟩ := not_or.mp hdef
    obtain ⟨hnil, hdef⟩ := not_or.mp hdef
    obtain ⟨hlead, hzero⟩ := not_or.mp hdef
    -- Without stray bytes the body is digits, after a sign or not.
    have hbytes : ∀ c ∈ body, isDigit c = true ∨ c = Ascii.minus := fun c hc => by
      by_contra h
      obtain ⟨hd, hm⟩ := not_or.mp h
      exact hstray ⟨c, hc, by simpa using hd, hm⟩
    rcases integer_cases hbody hbytes with hdigits | ⟨ds, rfl, hdigits⟩
    · rw [List.filter_eq_self.mpr hdigits] at hnil hlead
      exact ⟨_, .nonneg ((isDecimal_iff hdigits).mpr ⟨hnil, hlead⟩)⟩
    · have hminus : isDigit Ascii.minus = false := by decide
      rw [List.filter_cons_of_neg (by simp [hminus]), List.filter_eq_self.mpr hdigits] at hnil hlead
      refine ⟨_, .neg ((isDecimal_iff hdigits).mpr ⟨hnil, hlead⟩) ?_⟩
      rintro rfl
      exact hzero rfl

mutual

/-- An accepted value is written as documented unless one of its tokens is defective. -/
theorem Parsed.canonical_iff : ∀ {t : Parsed}, t.Accepted →
    (t.Canonical ↔ ∀ a ∈ t.tokens, ¬ a.Defective)
  | .integer body, h => by
    rw [Parsed.tokens, List.forall_mem_singleton]
    exact intCanonical_iff h
  | .string k, h => by
    rw [Parsed.tokens, List.forall_mem_singleton]
    exact Text.canonical_iff h.1
  | .list ts, h => by
    rw [Parsed.tokens, List.forall_mem_cons, List.forall_mem_append, List.forall_mem_singleton,
      ← itemsCanonical_iff h.2]
    simp [Token.Defective, Parsed.Canonical]
  | .dict es, h => by
    rw [Parsed.tokens, List.forall_mem_cons, List.forall_mem_append, List.forall_mem_singleton,
      ← entriesCanonical_iff h.2]
    simp [Token.Defective, Parsed.Canonical]

/-- Accepted items are canonical if none of their tokens is defective. -/
theorem itemsCanonical_iff : ∀ {ts : List Parsed}, ItemsAccepted ts →
    (ItemsCanonical ts ↔ ∀ a ∈ itemsTokens ts, ¬ a.Defective)
  | [], _ => by simp [ItemsCanonical, itemsTokens]
  | t :: ts, h => by
    rw [itemsTokens, List.forall_mem_append, ItemsCanonical, Parsed.canonical_iff h.1,
      itemsCanonical_iff h.2]

/-- So are accepted entries. -/
theorem entriesCanonical_iff : ∀ {es : List (Text × Parsed)}, EntriesAccepted es →
    (EntriesCanonical es ↔ ∀ a ∈ entriesTokens es, ¬ a.Defective)
  | [], _ => by simp [EntriesCanonical, entriesTokens]
  | (k, t) :: es, h => by
    rw [entriesTokens, List.forall_mem_cons, List.forall_mem_append, EntriesCanonical,
      Text.canonical_iff h.1, Parsed.canonical_iff h.2.1, entriesCanonical_iff h.2.2.2]

end

/-- The buffer starts with an accepted value without defective tokens, and nothing is left over. -/
def Clean (buf : Bytes) : Prop :=
  ∃ t, StartsWith buf t ∧ (∀ a ∈ t.tokens, ¬ a.Defective) ∧ buf = t.bytes

/-- A buffer that the parser accepts is a value of the documented format if it has no defective
token and no bytes left over, and, if it is shorter than `2^32` bytes, only then. -/
theorem parse_documented_iff {buf : Bytes} {n : ℕ} {s s' : State} {p : Ptr}
    (h : (parseBencodedString buf n).run s = .returned p s') :
    (Clean buf → Documented buf) ∧ (buf.length < 2^32 → (Documented buf ↔ Clean buf)) := by
  have hclean : Clean buf → Documented buf := by
    rintro ⟨t, ht, hdef, rfl⟩
    exact ((Parsed.canonical_iff ht.accepted).mpr hdef).encodes
  refine ⟨hclean, fun hbuf => ⟨?_, hclean⟩⟩
  rintro ⟨v, hv⟩
  obtain ⟨t, ht, -⟩ := parse_returned h
  -- The value that writes the encoding is the one that the parser has read.
  obtain ⟨t', hcanonical, rfl, -⟩ := hv.canonical
  have hsame : t = t' := lexical_unique ht.accepted.lexical (hcanonical.lexical hbuf)
    (ht.isPrefix hbuf) (List.prefix_refl _)
  subst hsame
  exact ⟨t, ht, (Parsed.canonical_iff ht.accepted).mp hcanonical, rfl⟩

/-- The parser accepts `i1e`. -/
theorem startsWith_i1e : StartsWith [105, 49, 101] (.integer [49]) := by decide +kernel

/-- The bytes `i1e` are of the documented format, since no token of them is defective. -/
theorem parse_documented_iff_i1e : Documented [105, 49, 101] := by
  have hclean : Clean [105, 49, 101] := by
    refine ⟨.integer [49], startsWith_i1e, ?_, rfl⟩
    rw [Parsed.tokens, List.forall_mem_singleton]
    simp [Token.Defective, LeadingZero, isDigit]
  exact (parse_documented_iff (parse_of_startsWith startsWith_i1e le_rfl (fresh {}))).1 hclean

/-- The parser accepts `i03e`. -/
theorem startsWith_i03e : StartsWith [105, 48, 51, 101] (.integer [48, 51]) := by decide +kernel

/-- The parser accepts `i03e`, which the documentation calls invalid. -/
theorem not_parse_documented : ¬ ∀ (buf : Bytes) (n : ℕ) (m : BMemoryManager) (p : Ptr)
    (s' : State), (parseBencodedString buf n).run (fresh m) = .returned p s' → Documented buf := by
  intro hclaim
  have h := parse_of_startsWith startsWith_i03e le_rfl (fresh {})
  obtain ⟨v, hv⟩ := hclaim _ _ _ _ _ h
  -- An encoding in these bytes would be written by the value read, whose token is defective.
  obtain ⟨t, hcanonical, hbytes, -⟩ := hv.canonical
  have hsame : t = .integer [48, 51] := lexical_unique
    (hcanonical.lexical (by rw [hbytes]; decide)) startsWith_i03e.accepted.lexical
    (hbytes ▸ List.prefix_refl _) (List.prefix_refl _)
  subst hsame
  have hdef := (Parsed.canonical_iff startsWith_i03e.accepted).mp hcanonical
  rw [Parsed.tokens, List.forall_mem_singleton] at hdef
  exact hdef (by simp [Token.Defective, LeadingZero, isDigit])

end Btor
