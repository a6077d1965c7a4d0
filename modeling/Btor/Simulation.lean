import Btor.Scan
import Btor.Effect

/-!
# The parser does what its scan says

Each function of the parser, from any state, ends as the scan from its cursor does. Where the scan
ends with a value, the function returns with the effect of the value; where it gives up, the
function stops with the effect and the reason of the broken input. So what the parser has collected
before, and what is in the heap, do not bear on what it accepts (`parseArbitrary_agrees`).

The proof is an induction on the fuel. The loops need of the heap only that the object they fill is
a list or a dictionary, which parsing the values in between leaves as it is.
-/

namespace Btor

open Lib (Run Outcome)

/-! ## Agreement of a run with a scan -/

/-- The run ends as the scan does: with the outcome `done` of a value, with the outcome `stuck` of
a broken input, or out of fuel. -/
def Scan.Agrees {α β γ : Type} (r : Scan α β) (o : Outcome State Stop γ)
    (done : α → Outcome State Stop γ) (stuck : β → Outcome State Stop γ) : Prop :=
  match r with
  | .done a => o = done a
  | .stuck b => o = stuck b
  | .outOfFuel => ∃ s, o = .stopped .outOfFuel s

/-- The scan of a part agrees with a run as the scan of the whole. -/
theorem Scan.Agrees.map {α β α' β' γ : Type} {r : Scan α β} {o : Outcome State Stop γ}
    {done : α' → Outcome State Stop γ} {stuck : β' → Outcome State Stop γ} {f : α → α'}
    {g : β → β'} (h : r.Agrees o (fun a => done (f a)) (fun b => stuck (g b))) :
    (r.map f g).Agrees o done stuck := by
  cases r <;> exact h

/-- A run that goes on after a part ends as the scan that does: `r` is the scan of the part and `r'`
that of the whole. -/
theorem Scan.Agrees.andThen {α β α' β' γ γ' : Type} {r : Scan α β} {r' : Scan α' β'}
    {o : Outcome State Stop γ} {done : α → Outcome State Stop γ} {stuck : β → Outcome State Stop γ}
    {done' : α' → Outcome State Stop γ'} {stuck' : β' → Outcome State Stop γ'}
    {f : γ → Parse γ'} (h : r.Agrees o done stuck)
    (hdone : ∀ a, r = .done a → r'.Agrees ((done a).andThen f) done' stuck')
    (hstuck : ∀ b, r = .stuck b → r'.Agrees ((stuck b).andThen f) done' stuck')
    (hfuel : r = .outOfFuel → r' = .outOfFuel) :
    r'.Agrees (o.andThen f) done' stuck' := by
  -- The run of the part is what its scan says, so what follows starts from there.
  cases r with
  | done a => rw [show o = done a from h]; exact hdone a rfl
  | stuck b => rw [show o = stuck b from h]; exact hstuck b rfl
  | outOfFuel =>
    obtain ⟨s, hs⟩ := h
    rw [hfuel rfl, hs]
    exact ⟨s, rfl⟩

section

variable {buf : Bytes}

/-- `consumeChar` with a byte at the cursor. -/
theorem consumeChar_some {s : State} {x : UInt8} (h : buf[s.cursor.toNat]? = some x) :
    (consumeChar buf).run s = .returned x (s.feed [x]) := by
  unfold consumeChar State.feed
  simp only [h, advance_singleton, List.length_singleton]
  split_ifs <;> rfl

/-- `consumeChar` at the end of the buffer. -/
theorem consumeChar_none {s : State} (h : buf[s.cursor.toNat]? = none) :
    (consumeChar buf).run s = .stopped (.threw .outOfRange) s.failRead := by
  unfold consumeChar State.failRead
  simp only [h]

/-- `peekChar` with a byte at the cursor. -/
theorem peekChar_some {s : State} {x : UInt8} (h : buf[s.cursor.toNat]? = some x) :
    (peekChar buf).run s = .returned x s := by
  unfold peekChar
  simp only [h]

/-- `peekChar` at the end of the buffer. -/
theorem peekChar_none {s : State} (h : buf[s.cursor.toNat]? = none) :
    (peekChar buf).run s = .stopped (.threw .outOfRange) s := by
  unfold peekChar
  simp only [h]

/-! ## The functions without recursion -/

/-- A digit in front of a broken string, read before it. -/
theorem BrokenText.cons_replay (x : UInt8) (b : BrokenText) (s : State) :
    (b.cons x).replay s = b.replay (s.feed [x]) := by
  cases b <;> simp [BrokenText.cons, BrokenText.replay]

/-- A byte before a text does not change how it ends. -/
theorem BrokenText.cons_stop (x : UInt8) (b : BrokenText) : (b.cons x).stop = b.stop := by
  cases b <;> rfl

/-- A byte in front of a broken integer, read before it. -/
theorem BrokenInteger.cons_replay (x : UInt8) (b : BrokenInteger) (s : State) :
    (b.cons x).replay s = b.replay (s.feed [x]) := by
  cases b <;> simp [BrokenInteger.cons, BrokenInteger.replay]

/-- Neither does one before an integer. -/
theorem BrokenInteger.cons_stop (x : UInt8) (b : BrokenInteger) : (b.cons x).stop = b.stop := by
  cases b <;> rfl

/-- The first loop of `extractString`, with the byte that it is entered with, from the length `len`
on. -/
theorem extractLength_agrees (n : ℕ) (len : Int32) (s : State) :
    (scanDigits buf n s.cursor).Agrees
      (((consumeChar buf).run s).andThen fun c => extractLength buf n c len)
      (fun ds => .returned (ds.foldl (fun n c => n * 10 + Int32.ofNat (digit c)) len)
        (s.feed (ds ++ [Ascii.colon])))
      (fun b => .stopped b.stop (b.replay s)) := by
  induction n generalizing len s with
  | zero =>
    rw [scanDigits]
    cases h : buf[s.cursor.toNat]? with
    | none =>
      rw [consumeChar_none h, if_pos rfl]
      simp [Scan.Agrees, BrokenText.stop, BrokenText.replay]
    | some x =>
      rw [consumeChar_some h, if_neg (by simp)]
      exact ⟨_, rfl⟩
  | succ n ih =>
    rw [scanDigits]
    cases h : buf[s.cursor.toNat]? with
    | none =>
      rw [consumeChar_none h]
      simp [Scan.Agrees, BrokenText.stop, BrokenText.replay]
    | some x =>
      rw [consumeChar_some h, Outcome.andThen_returned, extractLength]
      by_cases hcolon : x = Ascii.colon
      · simp [hcolon, Scan.Agrees]
      by_cases hdigit : isDigit x = true
      · simp only [hcolon, hdigit, if_true, if_false, Run.run_bind]
        apply Scan.Agrees.map
        have hrest := ih (len * 10 + Int32.ofNat (digit x)) (s.feed [x])
        simpa only [State.feed_cursor, advance_singleton, BrokenText.cons_stop,
          BrokenText.cons_replay, List.foldl_cons, List.cons_append, State.feed_feed,
          List.nil_append] using hrest
      · simp [hcolon, hdigit, Scan.Agrees, throw, BrokenText.stop, BrokenText.replay]

/-- The second loop of `extractString`, with the bytes `r` already read. -/
theorem extractBytes_agrees (n : ℕ) (len : Int32) (r : Bytes) (s : State) :
    (scanPayload buf n s.cursor len).Agrees ((extractBytes buf n len r).run s)
      (fun p => .returned (r ++ p) (s.feed p))
      (fun p => .stopped (.threw .outOfRange) (s.feed p).failRead) := by
  induction n generalizing len r s with
  | zero => exact ⟨_, rfl⟩
  | succ n ih =>
    rw [scanPayload, extractBytes]
    by_cases hlen : len = 0
    · simp [hlen, Scan.Agrees]
    simp only [hlen, if_false, Run.run_bind]
    cases h : buf[s.cursor.toNat]? with
    | none => simp [consumeChar_none h, Scan.Agrees]
    | some x =>
      rw [consumeChar_some h, Outcome.andThen_returned]
      apply Scan.Agrees.map
      have hrest := ih (len - 1) (r ++ [x]) (s.feed [x])
      simpa only [State.feed_cursor, advance_singleton, List.append_assoc, State.feed_feed,
        List.cons_append, List.nil_append] using hrest

/-- `extractString` returns the string that the scan reads. -/
theorem extractString_agrees (n : ℕ) (s : State) :
    (scanText buf n s.cursor).Agrees ((extractString buf n).run s)
      (fun k => .returned k.payload (s.feed k.bytes))
      (fun b => .stopped b.stop (b.replay s)) := by
  unfold extractString
  rw [Run.run_bind, Run.andThen_bind]
  refine (extractLength_agrees n 0 s).andThen (fun ds h => ?_) (fun b h => ?_) (fun h => ?_)
  · rw [scanText, h]
    apply Scan.Agrees.map
    have hbytes := @extractBytes_agrees buf n (textLength ds) []
      (s.feed (ds ++ [Ascii.colon]))
    simp only [State.feed_cursor, State.feed_feed, List.append_assoc, List.cons_append,
      List.nil_append] at hbytes
    exact hbytes
  · rw [scanText, h]
    exact Outcome.andThen_stopped _ _ _
  · rw [scanText, h]

/-- The loop of `parseInteger`, from the number `v`, with the sign `neg` if it is past the first
byte. -/
theorem parseIntegerLoop_agrees (n : ℕ) (v : Int64) (first neg : Bool) (s : State) :
    (scanBody buf n s.cursor first).Agrees ((parseIntegerLoop buf n v first neg).run s)
      (fun body => .returned
        (body.foldl (fun n c => if isDigit c then n * 10 + Int64.ofNat (digit c) else n) v,
          neg || decide (Ascii.minus ∈ body)) (s.feed (body ++ [Ascii.e])))
      (fun b => .stopped b.stop (b.replay s)) := by
  induction n generalizing v first neg s with
  | zero => exact ⟨_, rfl⟩
  | succ n ih =>
    rw [scanBody, parseIntegerLoop, Run.run_bind]
    cases h : buf[s.cursor.toNat]? with
    | none => simp [consumeChar_none h, Scan.Agrees, BrokenInteger.stop, BrokenInteger.replay]
    | some x =>
      rw [consumeChar_some h, Outcome.andThen_returned]
      by_cases he : x = Ascii.e
      · simp [he, Scan.Agrees]
      by_cases hsign : x = Ascii.minus ∧ first = false
      · simp [hsign, Scan.Agrees, throw, BrokenInteger.stop, BrokenInteger.replay]
      simp only [he, hsign, if_false]
      apply Scan.Agrees.map
      -- The rest of the loop starts from what this byte makes of the number and the sign.
      have hrest := ih (if isDigit x then v * 10 + Int64.ofNat (digit x) else v) false
        (if x = Ascii.minus then true else neg) (s.feed [x])
      -- The sign is in the body if it is this byte or is among the rest.
      have hneg (body : Bytes) : (neg || decide (Ascii.minus ∈ x :: body)) =
          ((if x = Ascii.minus then true else neg) || decide (Ascii.minus ∈ body)) := by
        by_cases hx : x = Ascii.minus
        · simp [hx]
        · simp [hx, Ne.symm hx]
      simpa only [State.feed_cursor, advance_singleton, BrokenInteger.cons_stop,
        BrokenInteger.cons_replay, List.foldl_cons, List.cons_append, State.feed_feed,
        List.nil_append, hneg] using hrest

/-- `parseInteger`, at the `i`, returns the integer that the scan reads. -/
theorem parseInteger_agrees (n : ℕ) (s : State) (h : buf[s.cursor.toNat]? = some Ascii.i) :
    ((scanBody buf n (s.cursor + 1) true).map Parsed.integer Broken.integer).Agrees
      ((parseInteger buf n).run s)
      (fun t => .returned s.heap.length (t.replay s))
      (fun b => .stopped b.stop (b.replay s)) := by
  unfold parseInteger
  rw [Run.run_bind, consumeChar_some h, Outcome.andThen_returned, assert,
    decide_eq_true rfl, if_pos rfl, Run.run_bind, Run.run_pure, Outcome.andThen_returned,
    Run.run_bind]
  refine (parseIntegerLoop_agrees n 0 true false (s.feed [Ascii.i])).andThen (fun body hr => ?_)
    (fun b hr => ?_) (fun hr => ?_)
  · rw [show scanBody buf n (s.cursor + 1) true = .done body from hr, State.feed_feed]
    simp only [Scan.map_done, Scan.Agrees, Outcome.andThen_returned, Bool.false_or,
      decide_eq_true_eq]
    rfl
  · rw [show scanBody buf n (s.cursor + 1) true = .stuck b from hr]
    exact Outcome.andThen_stopped _ _ _
  · rw [show scanBody buf n (s.cursor + 1) true = .outOfFuel from hr]
    rfl

/-- `parseString` returns the string that the scan reads. -/
theorem parseString_agrees (n : ℕ) (s : State) :
    ((scanText buf n s.cursor).map Parsed.string Broken.string).Agrees
      ((parseString buf n).run s)
      (fun t => .returned s.heap.length (t.replay s))
      (fun b => .stopped b.stop (b.replay s)) := by
  unfold parseString
  rw [Run.run_bind]
  refine (extractString_agrees n s).andThen (fun k hr => ?_) (fun b hr => ?_) (fun hr => ?_)
  · rw [hr]
    exact Outcome.andThen_returned _ _ _
  · rw [hr]
    exact Outcome.andThen_stopped _ _ _
  · rw [hr]
    rfl

/-! ## The object that a loop fills -/

/-- The object at `p` is of the type `T`. -/
def HasType (s : State) (p : Ptr) (T : BObjectT) : Prop :=
  ∃ obj, s.heap[p]? = some obj ∧ obj.type = T

/-- An object that is of a type stays of it while a value is parsed. -/
theorem HasType.replay {s : State} {p : Ptr} {T : BObjectT} (h : HasType s p T) (t : Parsed) :
    HasType (t.replay s) p T := by
  obtain ⟨obj, hobj, hT⟩ := h
  obtain ⟨hp, -⟩ := List.getElem?_eq_some_iff.mp hobj
  exact ⟨obj, by rw [t.replay_heap_old hp, hobj], hT⟩

/-- An object that is of a type stays of it under a change that keeps the type. -/
theorem HasType.update {s : State} {p : Ptr} {T : BObjectT} (h : HasType s p T)
    {f : BObject → BObject} (hf : ∀ obj, (f obj).type = obj.type) : HasType (s.update p f) p T := by
  obtain ⟨obj, hobj, hT⟩ := h
  refine ⟨f obj, ?_, (hf obj).trans hT⟩
  rw [State.update_heap, List.getElem?_modify_eq, hobj]
  rfl

/-- The object that has just been created is of the type that it was created with. -/
theorem hasType_alloc (s : State) (obj : BObject) : HasType (s.alloc obj) s.heap.length obj.type :=
  ⟨obj, by simp, rfl⟩

/-- A call of a method that changes its object, where it does not throw. -/
theorem derefSet_run {s : State} {p : Ptr} {obj : BObject} (hobj : s.heap[p]? = some obj)
    {method : BObject → Except Exn BObject} {f : BObject → BObject}
    (hm : method obj = .ok (f obj)) : (derefSet p method).run s = .returned () (s.update p f) := by
  have hmod : s.heap.modify p f = s.heap.set p (f obj) := by
    rw [List.modify_eq_set_getElem?, hobj]
    rfl
  simp only [derefSet, hobj, hm, State.update, hmod]

/-- `pushBack` on a list. -/
theorem derefSet_pushBack {s : State} {p : Ptr} (h : HasType s p .bList) (q : Ptr) :
    (derefSet p (·.pushBack q)).run s = .returned () (s.update p (.push q)) := by
  obtain ⟨obj, hobj, hT⟩ := h
  exact derefSet_run hobj (if_neg (not_not.mpr hT))

/-- `addKeyValue` on a dictionary. -/
theorem derefSet_addKeyValue {s : State} {p : Ptr} (h : HasType s p .bDict) (k : Bytes) (q : Ptr) :
    (derefSet p (·.addKeyValue k q)).run s = .returned () (s.update p (.bind k q)) := by
  obtain ⟨obj, hobj, hT⟩ := h
  exact derefSet_run hobj (if_neg (not_not.mpr hT))

/-- The flag set by the key `info`. -/
theorem enter_run (k : Text) (s : State) :
    (if k.payload = infoKey then setCollectInfoDict true else pure ()).run (s.feed k.bytes) =
      .returned () (k.enter s) := by
  unfold Text.enter
  split_ifs <;> rfl

/-- The flag cleared after the value of the key `info`, and the addition after the value of the key
`length`, where that value is an integer. -/
theorem leave_run (k : Text) (t : Parsed) (s : State) (h : k.payload = lengthKey → t.IsInteger) :
    (if k.payload = infoKey then setCollectInfoDict false
      else if k.payload = lengthKey then do
        let n ← deref s.heap.length BObject.getInt
        addCollectedLength n
      else pure ()).run (t.replay s) = .returned () (k.leave t (t.replay s)) := by
  unfold Text.leave
  split_ifs with hi hl
  · rfl
  · obtain ⟨obj, hobj, hint⟩ := Parsed.getInt_head (h hl) s.heap.length
    rw [Run.run_bind, deref]
    simp only [t.replay_heap_head, hobj, hint]
    rfl
  · rfl

/-- The exception at a value of the key `length` that is no integer. -/
theorem leave_run_error (k : Text) (t : Parsed) (s : State)
    (h : k.payload = lengthKey ∧ ¬ t.IsInteger) :
    (if k.payload = infoKey then setCollectInfoDict false
      else if k.payload = lengthKey then do
        let n ← deref s.heap.length BObject.getInt
        addCollectedLength n
      else pure ()).run (t.replay s) = .stopped (.threw .bTypeException) (t.replay s) := by
  obtain ⟨obj, hobj, hint⟩ := Parsed.getInt_head_error h.2 s.heap.length
  -- The key is `length`, so it is not `info`.
  have hi : k.payload ≠ infoKey := by rw [h.1]; decide
  rw [if_neg hi, if_pos h.1, Run.run_bind, deref]
  simp only [t.replay_heap_head, hobj, hint]
  rfl

/-! ## The mutually recursive functions -/

/-- The mutually recursive functions do what their scans say, with the fuel `n`. -/
structure AgreesAt (buf : Bytes) (n : ℕ) : Prop where
  arbitrary : ∀ s : State, (scanArbitrary buf n s.cursor).Agrees ((parseArbitrary buf n).run s)
    (fun t => .returned s.heap.length (t.replay s)) (fun b => .stopped b.stop (b.replay s))
  list : ∀ s : State, buf[s.cursor.toNat]? = some Ascii.l →
    ((scanList buf n s.cursor).map Parsed.list Broken.list).Agrees ((parseList buf n).run s)
      (fun t => .returned s.heap.length (t.replay s)) (fun b => .stopped b.stop (b.replay s))
  listLoop : ∀ (s : State) (p : Ptr), HasType s p .bList →
    (scanItems buf n s.cursor).Agrees ((parseListLoop buf n p).run s)
      (fun ts => .returned p ((itemsReplay ts p s).feed [Ascii.e]))
      (fun b => .stopped b.stop (b.replay p s))
  dictionary : ∀ s : State, buf[s.cursor.toNat]? = some Ascii.d →
    ((scanDictionary buf n s.cursor).map Parsed.dict Broken.dict).Agrees
      ((parseDictionary buf n).run s)
      (fun t => .returned s.heap.length (t.replay s)) (fun b => .stopped b.stop (b.replay s))
  dictionaryLoop : ∀ (s : State) (p : Ptr), HasType s p .bDict →
    (scanEntries buf n s.cursor).Agrees ((parseDictionaryLoop buf n p).run s)
      (fun es => .returned p ((entriesReplay es p s).feed [Ascii.e]))
      (fun b => .stopped b.stop (b.replay p s))

/-- Without fuel every function stops at once. -/
theorem agreesAt_zero : AgreesAt buf 0 where
  arbitrary s := ⟨s, rfl⟩
  list s _ := ⟨s, rfl⟩
  listLoop s _ _ := ⟨s, rfl⟩
  dictionary s _ := ⟨s, rfl⟩
  dictionaryLoop s _ _ := ⟨s, rfl⟩

variable {n : ℕ}

/-- `parseArbitrary` dispatches as its scan does. -/
theorem AgreesAt.arbitrary_succ (ih : AgreesAt buf n) (s : State) :
    (scanArbitrary buf (n + 1) s.cursor).Agrees ((parseArbitrary buf (n + 1)).run s)
      (fun t => .returned s.heap.length (t.replay s)) (fun b => .stopped b.stop (b.replay s)) := by
  rw [scanArbitrary, parseArbitrary, Run.run_bind, inBuffer]
  cases h : buf[s.cursor.toNat]? with
  | none =>
    -- Past the end of the buffer the loop is not entered.
    have hlen : ¬ s.cursor.toNat < buf.length := by simpa using h
    simp [Scan.Agrees, hlen, Broken.stop, Broken.replay]
  | some ch =>
    obtain ⟨hlen, -⟩ := List.getElem?_eq_some_iff.mp h
    simp only [hlen, decide_true, Outcome.andThen_returned, if_true, Run.run_bind,
      peekChar_some h]
    split_ifs with hi hl hd hdigit
    · exact parseInteger_agrees n s (hi ▸ h)
    · exact ih.list s (hl ▸ h)
    · exact ih.dictionary s (hd ▸ h)
    · exact parseString_agrees n s
    · rfl

/-- `parseList` creates the list and goes on with its loop. -/
theorem AgreesAt.list_succ (ih : AgreesAt buf n) (s : State)
    (h : buf[s.cursor.toNat]? = some Ascii.l) :
    ((scanList buf (n + 1) s.cursor).map Parsed.list Broken.list).Agrees
      ((parseList buf (n + 1)).run s)
      (fun t => .returned s.heap.length (t.replay s)) (fun b => .stopped b.stop (b.replay s)) := by
  -- The assertion holds, because the dispatch has seen the byte.
  rw [parseList, Run.run_bind, consumeChar_some h, Outcome.andThen_returned, assert,
    decide_eq_true rfl, if_pos rfl, Run.run_bind, Run.run_pure, Outcome.andThen_returned,
    Run.run_bind]
  apply Scan.Agrees.map
  exact ih.listLoop ((s.feed [Ascii.l]).alloc (.ofType .bList)) s.heap.length (hasType_alloc _ _)

/-- `parseDictionary` creates the dictionary and goes on with its loop. -/
theorem AgreesAt.dictionary_succ (ih : AgreesAt buf n) (s : State)
    (h : buf[s.cursor.toNat]? = some Ascii.d) :
    ((scanDictionary buf (n + 1) s.cursor).map Parsed.dict Broken.dict).Agrees
      ((parseDictionary buf (n + 1)).run s)
      (fun t => .returned s.heap.length (t.replay s)) (fun b => .stopped b.stop (b.replay s)) := by
  -- The assertion holds, because the dispatch has seen the byte.
  rw [parseDictionary, Run.run_bind, consumeChar_some h, Outcome.andThen_returned, assert,
    decide_eq_true rfl, if_pos rfl, Run.run_bind, Run.run_pure, Outcome.andThen_returned,
    Run.run_bind]
  apply Scan.Agrees.map
  exact ih.dictionaryLoop ((s.feed [Ascii.d]).alloc (.ofType .bDict)) s.heap.length
    (hasType_alloc _ _)

/-- One turn of the loop of `parseList`. -/
theorem AgreesAt.listLoop_succ (ih : AgreesAt buf n) (s : State) (p : Ptr)
    (hp : HasType s p .bList) :
    (scanItems buf (n + 1) s.cursor).Agrees ((parseListLoop buf (n + 1) p).run s)
      (fun ts => .returned p ((itemsReplay ts p s).feed [Ascii.e]))
      (fun b => .stopped b.stop (b.replay p s)) := by
  rw [parseListLoop, Run.run_bind]
  refine (ih.arbitrary s).andThen (fun t ht => ?_) (fun b hb => ?_) (fun h => ?_)
  · -- The value is linked, and the next byte decides whether the loop goes on.
    set s' := (t.replay s).update p (.push s.heap.length) with hs'
    have hc : s'.cursor = advance s.cursor t.bytes := by simp [hs']
    have hp' : HasType s' p .bList := (hp.replay t).update fun _ => rfl
    rw [Outcome.andThen_returned, Run.run_bind, derefSet_pushBack (hp.replay t),
      Outcome.andThen_returned, Run.run_bind, scanItems, ht]
    simp only [← hc]
    cases hch : buf[s'.cursor.toNat]? with
    | none =>
      rw [peekChar_none hch]
      rfl
    | some ch =>
      rw [peekChar_some hch, Outcome.andThen_returned]
      by_cases he : ch = Ascii.e
      · rw [if_neg (not_not.mpr he), Run.run_bind, consumeChar_some hch, Outcome.andThen_returned]
        simp only [ne_eq, he, not_true_eq_false, if_false]
        rfl
      · simp only [ne_eq, he, not_false_eq_true, if_true]
        apply Scan.Agrees.map
        exact ih.listLoop s' p hp'
  · rw [scanItems, hb]
    rfl
  · rw [scanItems, h]

/-- One turn of the loop of `parseDictionary`. -/
theorem AgreesAt.dictionaryLoop_succ (ih : AgreesAt buf n) (s : State) (p : Ptr)
    (hp : HasType s p .bDict) :
    (scanEntries buf (n + 1) s.cursor).Agrees ((parseDictionaryLoop buf (n + 1) p).run s)
      (fun es => .returned p ((entriesReplay es p s).feed [Ascii.e]))
      (fun b => .stopped b.stop (b.replay p s)) := by
  rw [parseDictionaryLoop, Run.run_bind]
  refine (extractString_agrees n s).andThen (fun k hk => ?_) (fun b hb => ?_) (fun h => ?_)
  · -- The key has set the flag, or not, before its value is parsed.
    have harb := ih.arbitrary (k.enter s)
    rw [k.enter_cursor, k.enter_heap] at harb
    rw [Outcome.andThen_returned, Run.run_bind, enter_run, Outcome.andThen_returned, Run.run_bind]
    refine harb.andThen (fun t ht => ?_) (fun b hb => ?_) (fun h => ?_)
    · rw [Outcome.andThen_returned, Run.run_bind, scanEntries, hk]
      simp only [ht]
      by_cases hint : k.payload = lengthKey ∧ ¬ t.IsInteger
      · -- `getInt` throws, before the entry is inserted.
        have herr := leave_run_error k t (k.enter s) hint
        rw [k.enter_heap] at herr
        rw [herr, if_pos hint]
        rfl
      -- The entry is linked, and the next byte decides whether the loop goes on.
      have hleave := leave_run k t (k.enter s) fun hl => by_contra fun h => hint ⟨hl, h⟩
      -- Neither the value nor the end of its entry changes the type of the dictionary.
      have hpt : HasType (k.leave t (t.replay (k.enter s))) p .bDict := by
        have hpe : HasType (k.enter s) p .bDict := by simpa [HasType] using hp
        simpa [HasType] using hpe.replay t
      set s' := (k.leave t (t.replay (k.enter s))).update p (.bind k.payload s.heap.length) with hs'
      have hc : s'.cursor = advance s.cursor (k.bytes ++ t.bytes) := by
        simp [hs', advance_append]
      have hp' : HasType s' p .bDict := hpt.update fun _ => rfl
      rw [k.enter_heap] at hleave
      rw [hleave, Outcome.andThen_returned, Run.run_bind, derefSet_addKeyValue hpt,
        Outcome.andThen_returned, Run.run_bind, if_neg hint]
      simp only [← hc]
      cases hch : buf[s'.cursor.toNat]? with
      | none =>
        rw [peekChar_none hch]
        rfl
      | some ch =>
        rw [peekChar_some hch, Outcome.andThen_returned]
        by_cases he : ch = Ascii.e
        · rw [if_neg (not_not.mpr he), Run.run_bind, consumeChar_some hch, Outcome.andThen_returned]
          simp only [ne_eq, he, not_true_eq_false, if_false]
          rfl
        · simp only [ne_eq, he, not_false_eq_true, if_true]
          apply Scan.Agrees.map
          exact ih.dictionaryLoop s' p hp'
    · rw [scanEntries, hk]
      simp only [hb]
      rfl
    · rw [scanEntries, hk]
      simp only [h]
  · rw [scanEntries, hb]
    rfl
  · rw [scanEntries, h]

/-- The parser does what its scan says. -/
theorem agreesAt (buf : Bytes) (n : ℕ) : AgreesAt buf n := by
  induction n with
  | zero => exact agreesAt_zero
  | succ n ih =>
    exact ⟨ih.arbitrary_succ, ih.list_succ, ih.listLoop_succ, ih.dictionary_succ,
      ih.dictionaryLoop_succ⟩

end

end Btor
