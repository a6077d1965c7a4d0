import Btor.Capture

/-!
# One parser for several buffers

What a parse reads, and how it ends, depends neither on what the parser has collected before nor on
the objects that exist: from every state it ends as a fresh parser does (`parse_sameOutcome`). With
the flag clear on entry, a parse that returns leaves it clear and adds what a fresh parser collects
to what was collected (`parse_collects`), so a sequence of parses adds up (`session_collects`). Nor
does a result depend on the bytes after the final cursor, and no proper part of the bytes read is a
complete input (`parse_append`).
-/

namespace Btor

open Lib (Outcome)

/-- Two parses end alike: with equal trees or for the same reason, and with the same cursor. -/
def SameOutcome : Outcome State Stop Ptr → Outcome State Stop Ptr → Prop
  | .returned p s, .returned p' s' =>
    s.cursor = s'.cursor ∧ ∃ v, Denotes s.heap p v ∧ Denotes s'.heap p' v
  | .stopped e s, .stopped e' s' => e = e' ∧ s.cursor = s'.cursor
  | _, _ => False

/-- Parses by one parser, one after the other, that all return. Each may be given another memory
manager. -/
inductive Session : State → List Bytes → State → Prop where
  | nil (s : State) : Session s [] s
  | cons {s s₁ s₂ : State} {m : BMemoryManager} {buf : Bytes} {bufs : List Bytes} {n : ℕ} {p : Ptr}
      (h : (parseBencodedString buf n).run { s with toBMemoryManager := m } = .returned p s₁)
      (hrest : Session s₁ bufs s₂) : Session s (buf :: bufs) s₂

section

variable {buf : Bytes} {n : ℕ} {s s' : State} {p : Ptr}

/-- A parse ends alike from every state. -/
theorem parse_sameOutcome (hbuf : buf.length < 2^32) (hn : 3 * buf.length + 3 ≤ n) (s s' : State) :
    SameOutcome ((parseBencodedString buf n).run s) ((parseBencodedString buf n).run s') := by
  rcases parse_cases hbuf hn with ⟨t, -, hrun⟩ | ⟨b, -, hrun⟩
  · rw [hrun s, hrun s']
    exact ⟨by simp, t.value, t.replay_denotes s.rewind, t.replay_denotes s'.rewind⟩
  · rw [hrun s, hrun s']
    exact ⟨rfl, by simp⟩

/-- With the flag clear on entry, a value leaves it clear and adds what it adds to those of a fresh
parser. -/
theorem Parsed.replay_collects (t : Parsed) (m : BMemoryManager) {s : State}
    (hflag : s.collectInfoDict = false) :
    (t.replay s).collectInfoDict = false ∧
    (t.replay s).getCollectedInfoDict =
      s.getCollectedInfoDict ++ (t.replay (fresh m).rewind).getCollectedInfoDict ∧
    (t.replay s).getCollectedLength =
      s.getCollectedLength + (t.replay (fresh m).rewind).getCollectedLength := by
  have hfresh : (fresh m).rewind.collectInfoDict = false := rfl
  simp only [BParser.getCollectedInfoDict, BParser.getCollectedLength]
  refine ⟨?_, ?_, ?_⟩
  · rw [t.replay_collectInfoDict, hflag, Bool.false_and]
  · rw [t.replay_collectedInfoDict, t.replay_collectedInfoDict, hflag, hfresh]
    rfl
  · rw [t.replay_collectedLength, t.replay_collectedLength]
    simp [fresh]

/-- A parse that returns, with the flag clear on entry, leaves it clear and adds what a fresh parser
collects. -/
theorem parse_collects (h : (parseBencodedString buf n).run s = .returned p s')
    (hflag : s.collectInfoDict = false) (m : BMemoryManager) :
    ∃ n₀ p₀ s₀, (parseBencodedString buf n₀).run (fresh m) = .returned p₀ s₀ ∧
      s'.collectInfoDict = false ∧
      s'.getCollectedInfoDict = s.getCollectedInfoDict ++ s₀.getCollectedInfoDict ∧
      s'.getCollectedLength = s.getCollectedLength + s₀.getCollectedLength := by
  obtain ⟨t, ht, -, rfl⟩ := parse_returned h
  exact ⟨_, _, _, parse_of_startsWith ht le_rfl (fresh m), t.replay_collects m hflag⟩

/-- The sum of the lengths that several parsers collected. -/
def totalLength (rs : List State) : Int64 := rs.foldr (fun s n => s.getCollectedLength + n) 0

/-- In a sequence of parses that return, with the flag clear at the start, the parser collects the
concatenation and the sum of what fresh parsers collect. -/
theorem session_collects {bufs : List Bytes} (h : Session s bufs s')
    (hflag : s.collectInfoDict = false) :
    ∃ rs : List State,
      List.Forall₂ (fun buf s₀ => ∃ n₀ p₀, (parseBencodedString buf n₀).run (fresh {}) =
        .returned p₀ s₀) bufs rs ∧
      s'.collectInfoDict = false ∧
      s'.getCollectedInfoDict =
        s.getCollectedInfoDict ++ (rs.map fun s₀ => s₀.getCollectedInfoDict).flatten ∧
      s'.getCollectedLength = s.getCollectedLength + totalLength rs := by
  induction h with
  | nil s => exact ⟨[], .nil, hflag, by simp, by simp [totalLength]⟩
  | @cons s s₁ s₂ m buf bufs n p h _ ih =>
    obtain ⟨n₀, p₀, s₀, hrun, hflag₁, hinfo, hlength⟩ := parse_collects h hflag {}
    obtain ⟨rs, hrs, hflag₂, hinfos, hlengths⟩ := ih hflag₁
    refine ⟨s₀ :: rs, .cons ⟨n₀, p₀, hrun⟩ hrs, hflag₂, ?_, ?_⟩
    · rw [hinfos, hinfo, List.map_cons, List.flatten_cons, List.append_assoc]
    · rw [hlengths, hlength, totalLength, totalLength, List.foldr_cons, Int64.add_assoc]

/-- From every state a parse ends as that of a fresh parser does. If it returns and the flag was
clear, the flag is clear after it and it has added what a fresh parser collects. In a sequence of
parses that return these add up. -/
theorem parse_reuse (buf : Bytes) (hbuf : buf.length < 2^32) (n : ℕ) (hn : 3 * buf.length + 3 ≤ n)
    (s : State) (m : BMemoryManager) :
    SameOutcome ((parseBencodedString buf n).run s) ((parseBencodedString buf n).run (fresh m)) ∧
    (∀ p s' p₀ s₀, s.collectInfoDict = false →
      (parseBencodedString buf n).run s = .returned p s' →
      (parseBencodedString buf n).run (fresh m) = .returned p₀ s₀ →
      s'.collectInfoDict = false ∧
      s'.getCollectedInfoDict = s.getCollectedInfoDict ++ s₀.getCollectedInfoDict ∧
      s'.getCollectedLength = s.getCollectedLength + s₀.getCollectedLength) ∧
    ∀ bufs s', s.collectInfoDict = false → Session s bufs s' → ∃ rs : List State,
      List.Forall₂ (fun buf s₀ => ∃ n₀ p₀, (parseBencodedString buf n₀).run (fresh {}) =
        .returned p₀ s₀) bufs rs ∧
      s'.collectInfoDict = false ∧
      s'.getCollectedInfoDict =
        s.getCollectedInfoDict ++ (rs.map fun s₀ => s₀.getCollectedInfoDict).flatten ∧
      s'.getCollectedLength = s.getCollectedLength + totalLength rs := by
  refine ⟨parse_sameOutcome hbuf hn s (fresh m), fun p s' p₀ s₀ hflag h h₀ => ?_,
    fun bufs s' hflag h => session_collects h hflag⟩
  -- Both have read the same value, since it stands at the start of the buffer.
  obtain ⟨t, ht, -, rfl⟩ := parse_returned h
  obtain ⟨-, rfl⟩ := ht.of_returned h₀
  exact t.replay_collects m hflag

/-- The parser reads `i1e` as a fresh one does, with its flag set. -/
theorem parse_reuse_i1e : SameOutcome
    ((parseBencodedString [105, 49, 101] 12).run { fresh {} with collectInfoDict := true })
    ((parseBencodedString [105, 49, 101] 12).run (fresh {})) :=
  (parse_reuse [105, 49, 101] (by decide) 12 (by decide) _ {}).1

/-- A parse that returns reads the same and has the same effect with other bytes after the final
cursor, or none. A buffer that is a proper part of the bytes read makes no parser return. -/
theorem parse_append (hbuf : buf.length < 2^32)
    (h : (parseBencodedString buf n).run s = .returned p s') :
    (∀ (w : Bytes) (n' : ℕ), s'.cursor.toNat + w.length < 2^32 → 3 * s'.cursor.toNat ≤ n' →
      (parseBencodedString (buf.take s'.cursor.toNat ++ w) n').run s = .returned p s') ∧
    ∀ (l : Bytes), l <+: buf.take s'.cursor.toNat → l ≠ buf.take s'.cursor.toNat →
      ∀ (n' : ℕ) (s₁ s₂ : State) (q : Ptr),
        (parseBencodedString l n').run s₁ ≠ .returned q s₂ := by
  obtain ⟨t, ht, rfl, rfl⟩ := parse_returned h
  have hpre := ht.isPrefix hbuf
  have hle := hpre.length_le
  -- The final cursor counts the bytes of the value read.
  have hcursor := t.replay_rewind_cursor s (by omega)
  rw [hcursor, ← List.prefix_iff_eq_take.mp hpre]
  refine ⟨fun w n' hw hn' => ?_, fun l hl hne n' s₁ s₂ q hrun => ?_⟩
  · have hstart : StartsWith (t.bytes ++ w) t := ht.accepted.startsWith (by simpa using hw)
    exact parse_of_startsWith hstart hn' s
  · -- What the parser reads of `l` it reads of `buf`, so it is `t`.
    obtain ⟨t', ht', -⟩ := parse_returned hrun
    have hl' := hl.length_le
    have hpre' := ht'.isPrefix (by omega)
    have hstart : StartsWith buf t' :=
      ⟨ht'.accepted, (reads_zero hbuf).mpr (hpre'.trans (hl.trans hpre))⟩
    rw [hstart.unique ht] at hpre'
    exact hne (hl.eq_of_length_le hpre'.length_le)

end

/-- The parser reads no more than `i1e` of `i1e4`, and nothing in `i1`. -/
theorem parse_append_i1e : ∃ p s',
    (parseBencodedString [105, 49, 101, 52] 9).run (fresh {}) = .returned p s' ∧
    (parseBencodedString [105, 49, 101, 108] 9).run (fresh {}) = .returned p s' ∧
    ∀ q s'', (parseBencodedString [105, 49] 9).run (fresh {}) ≠ .returned q s'' := by
  have ht : StartsWith [105, 49, 101, 52] (.integer [49]) := by decide +kernel
  have h := parse_of_startsWith ht (n := 9) (by decide) (fresh {})
  have happend := parse_append (by decide) h
  exact ⟨_, _, h, happend.1 [108] 9 (by decide) (by decide),
    fun q s'' => happend.2 [105, 49] (by decide) (by decide) 9 _ s'' q⟩

end Btor
