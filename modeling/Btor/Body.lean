import Btor.Readers

/-!
# How a body is read

A body with a length is taken as the lines of the head are, in however many reads
(`takes_readContentWithLength`). One without a length is all that comes before the connection is
closed. Of a body in chunks, a chunk is read, and what is left is read as such a body again
(`becomes_readContentChunked`). Behind a chunk the code reads a line, and leaves the loop with
success if it is not empty. So the read fails wherever the stream ends too early, but for the one
place within that line (`chunksArrive_or_fails`).
-/

namespace Btor

open Lib (Run Stream)
open Lib.Stream (loop loop_eq Gives Fails Takes Becomes gives_pure fails_stop gives_read_nil
  run_read takes_pure isPrefix_append_cases)

namespace Httplib

/-! ## The body -/

section

variable {len r : ℕ} {body : Bytes}

/-- A round reads something, and no more than what is missing. -/
theorem run_withLengthRound (body : Bytes) {bytes : Bytes} (hr : r < len) (hne : bytes ≠ [])
    (arrivals : ℕ → ℕ) (closed : Bool) : ∃ l rest arrivals', l ≠ [] ∧ l.length ≤ len - r ∧
      bytes = l ++ rest ∧ (withLengthRound len (r, body)).run ⟨bytes, arrivals, closed⟩ =
        .returned (.inl (r + l.length, body ++ l)) ⟨rest, arrivals', closed⟩ := by
  have hsize : 0 < min (len - r) recvBufsiz := by
    unfold recvBufsiz
    omega
  obtain ⟨l, rest, arrivals', hl, hle, heq, hread⟩ := @run_read Error _ _ hsize hne arrivals closed
  refine ⟨l, rest, arrivals', hl, hle.trans (min_le_left _ _), heq, ?_⟩
  obtain ⟨b, l, rfl⟩ := List.exists_cons_of_ne_nil hl
  unfold withLengthRound
  rw [if_pos hr, Run.run_bind_of_returned hread]
  rfl

/-- The loop reads what is missing. -/
theorem gives_withLengthLoop {data : Bytes} (h : r + data.length = len) (rest : Bytes)
    (closed : Bool) : Gives (loop (withLengthRound len) (progresses_withLengthRound len) (r, body))
      (data ++ rest) closed (body ++ data) rest := by
  -- By induction over what is left of the body, since a read may give any part of it.
  induction hn : data.length using Nat.strongRecOn generalizing data r body with
  | _ n ih =>
    subst hn
    by_cases hdata : data = []
    · subst hdata
      refine Gives.loop_last ?_
      rw [withLengthRound, if_neg (by simp at h; omega), List.append_nil]
      exact gives_pure _ _ _
    · intro arrivals
      have hpos := List.length_pos_iff.mpr hdata
      have hne : data ++ rest ≠ [] := List.append_ne_nil_of_left_ne_nil hdata rest
      obtain ⟨l, rest', arrivals', hl, hle, heq, hround⟩ :=
        run_withLengthRound body (by omega : r < len) hne arrivals closed
      -- No more is asked for than belongs to the body, so what is read is a part of it.
      have hinit : l <+: data := List.prefix_of_prefix_length_le ⟨rest', heq.symm⟩
        (List.prefix_append data rest) (by omega)
      obtain ⟨data, rfl⟩ := hinit
      rw [List.append_assoc, List.append_cancel_left_eq] at heq
      have hlength := List.length_pos_iff.mpr hl
      rw [List.length_append] at h
      obtain ⟨arrivals'', hloop⟩ := ih data.length (by simp; omega)
        (by rw [Nat.add_assoc]; exact h : r + l.length + data.length = len) rfl arrivals'
      refine ⟨arrivals'', ?_⟩
      rw [loop_eq, Run.run_bind_of_returned hround, ← heq, ← List.append_assoc]
      exact hloop

/-- The loop fails where less is left than what is missing. -/
theorem fails_withLengthLoop {part : Bytes} (h : r + part.length < len) (closed : Bool) :
    Fails (loop (withLengthRound len) (progresses_withLengthRound len) (r, body)) part closed := by
  -- By induction over what is left of the part.
  induction hn : part.length using Nat.strongRecOn generalizing part r body with
  | _ n ih =>
    subst hn
    by_cases hpart : part = []
    · subst hpart
      refine Fails.loop ?_
      rw [withLengthRound, if_pos (by simp at h; omega)]
      refine (gives_read_nil _ closed).bind_fails ?_
      -- Bytes are missing, and none arrive any more.
      cases closed <;> exact fails_stop _ _ _
    · intro arrivals
      obtain ⟨l, rest, arrivals', hl, -, rfl, hround⟩ :=
        run_withLengthRound body (by omega : r < len) hpart arrivals closed
      have hlength := List.length_pos_iff.mpr hl
      rw [List.length_append] at h
      obtain ⟨e, s', hloop⟩ := ih rest.length (by simp; omega)
        (by omega : r + l.length + rest.length < len) rfl arrivals'
      refine ⟨e, s', ?_⟩
      rw [loop_eq, Run.run_bind_of_returned hround]
      exact hloop

end

/-- A body with its length takes as many bytes as the length says. -/
theorem takes_readContentWithLength (data body : Bytes) :
    Takes (readContentWithLength data.length body) data (body ++ data) where
  gives := gives_withLengthLoop (Nat.zero_add _)
  fails part hpart hne closed := by
    refine fails_withLengthLoop ?_ closed
    rw [Nat.zero_add]
    exact lt_of_le_of_ne hpart.length_le fun heq => hne (hpart.eq_of_length heq)

/-- A round of the loop without a length reads a part of what is left. -/
theorem run_withoutLengthRound (body : Bytes) {bytes : Bytes} (hne : bytes ≠ [])
    (arrivals : ℕ → ℕ) (closed : Bool) : ∃ l rest arrivals', l ≠ [] ∧ bytes = l ++ rest ∧
      (withoutLengthRound body).run ⟨bytes, arrivals, closed⟩ =
        .returned (.inl (body ++ l)) ⟨rest, arrivals', closed⟩ := by
  have hsize : 0 < recvBufsiz := by decide
  obtain ⟨l, rest, arrivals', hl, -, heq, hread⟩ := @run_read Error _ _ hsize hne arrivals closed
  refine ⟨l, rest, arrivals', hl, heq, ?_⟩
  obtain ⟨b, l, rfl⟩ := List.exists_cons_of_ne_nil hl
  unfold withoutLengthRound
  rw [Run.run_bind_of_returned hread]
  rfl

/-- A body without a length is what comes before the end of the connection. -/
theorem gives_readContentWithoutLength (part body : Bytes) :
    Gives (readContentWithoutLength body) part true (body ++ part) [] := by
  induction hn : part.length using Nat.strongRecOn generalizing part body with
  | _ n ih =>
    subst hn
    by_cases hpart : part = []
    · subst hpart
      rw [List.append_nil]
      exact Gives.loop_last ((gives_read_nil recvBufsiz true).bind (gives_pure _ _ _))
    · intro arrivals
      obtain ⟨l, rest, arrivals', hl, rfl, hround⟩ :=
        run_withoutLengthRound body hpart arrivals true
      have hlength := List.length_pos_iff.mpr hl
      obtain ⟨arrivals'', hloop⟩ := ih rest.length (by simp; omega) rest (body ++ l) rfl arrivals'
      refine ⟨arrivals'', ?_⟩
      unfold readContentWithoutLength at hloop ⊢
      rw [loop_eq, Run.run_bind_of_returned hround, ← List.append_assoc]
      exact hloop

/-- A body to the end of the connection fails if the connection does. -/
theorem fails_readContentWithoutLength (part body : Bytes) :
    Fails (readContentWithoutLength body) part false := by
  induction hn : part.length using Nat.strongRecOn generalizing part body with
  | _ n ih =>
    subst hn
    by_cases hpart : part = []
    · subst hpart
      exact Fails.loop ((gives_read_nil recvBufsiz false).bind_fails (fails_stop _ _ _))
    · intro arrivals
      obtain ⟨l, rest, arrivals', hl, rfl, hround⟩ :=
        run_withoutLengthRound body hpart arrivals false
      have hlength := List.length_pos_iff.mpr hl
      obtain ⟨e, s', hloop⟩ := ih rest.length (by simp; omega) rest (body ++ l) rfl arrivals'
      refine ⟨e, s', ?_⟩
      unfold readContentWithoutLength at hloop ⊢
      rw [loop_eq, Run.run_bind_of_returned hround]
      exact hloop

/-! ## Chunks -/

/-- After a size line that is the last that can be read, nothing more is. -/
theorem fails_chunkLoop (line body : Bytes) (closed : Bool) :
    Fails (loop chunkRound progresses_chunkRound (line, body)) [] closed := by
  refine Fails.loop ?_
  unfold chunkRound
  cases strtoul (ulongMax + 1) 16 (line, body).1 with
  | none => exact fails_stop _ _ _
  | some chunkLen =>
    dsimp only
    split_ifs with hmax hzero
    · exact fails_stop _ _ _
    · exact (fails_getline List.not_mem_nil (.inl rfl)).bind
    · have hcontent : Fails (readContentWithLength chunkLen body) [] closed := by
        refine fails_withLengthLoop ?_ closed
        rw [List.length_nil]
        omega
      exact hcontent.bind

/-- The size of a chunk is a line. -/
theorem isLine_size (size : ChunkSize) : IsLine size.text := by
  refine isLine_append_lineEnd ?_
  rw [List.mem_append, not_or]
  exact ⟨fun hc => absurd (size.isHex _ hc) (by decide), size.notMem_extension⟩

/-- A size line is read as its size. -/
theorem strtoul_size {size : ChunkSize} (h : size.value < ulongMax + 1) :
    strtoul (ulongMax + 1) 16 size.text = some size.value := by
  have hdigits : ∀ c ∈ size.digits, isDigitOf 16 c = true := by
    intro c hc
    obtain ⟨d, hd⟩ := Option.isSome_iff_exists.mp (size.isHex c hc)
    unfold isDigitOf
    rw [hd, Option.any_some, decide_eq_true_eq]
    exact Lib.hexValue_lt hd
  have htail : ∀ c ∈ (size.extension ++ lineEnd).head?, c = 59 ∨ c = 13 := by
    cases hextension : size.extension with
    | nil =>
      rintro _ ⟨⟩
      exact .inr rfl
    | cons c extension =>
      rintro _ ⟨⟩
      exact .inl (size.head_extension c (hextension ▸ rfl))
  rw [ChunkSize.text, List.append_assoc, strtoul_digits hdigits htail size.digits_ne_nil h]
  rfl

/-- What comes of a chunk, by the line behind it. -/
theorem loop_chunkRound {c : Chunk} (h : c.data.length < ulongMax) (body : Bytes) :
    loop chunkRound progresses_chunkRound (c.size.text, body) =
      readContentWithLength c.data.length body >>= fun body => getline >>= fun line =>
        if cString line ≠ literal "\r\n" then pure body else readContentChunked body := by
  have hvalue := c.value_eq
  have hpos := List.length_pos_iff.mpr c.data_ne_nil
  -- The size is positive, so the round reads as many bytes, and then the end of the line.
  have hround : chunkRound (c.size.text, body) =
      readContentWithLength c.data.length body >>= fun body => getline >>= fun line =>
        if cString line ≠ literal "\r\n" then pure (.inr body)
        else getline >>= fun line => pure (.inl (line, body)) := by
    unfold chunkRound
    rw [strtoul_size (by omega)]
    dsimp only
    rw [hvalue, if_neg (by omega), if_neg (by omega)]
  rw [loop_eq, hround, Run.bind_assoc]
  refine congrArg (readContentWithLength c.data.length body >>= ·) (funext fun body => ?_)
  rw [Run.bind_assoc]
  refine congrArg (getline >>= ·) (funext fun line => ?_)
  split_ifs
  · rfl
  · rw [Run.bind_assoc]
    rfl

/-- After a whole chunk, the next one is read. -/
theorem becomes_readContentChunked {c : Chunk} (h : c.data.length < ulongMax)
    (body part : Bytes) (closed : Bool) : Becomes (readContentChunked body) (c.text ++ part)
      (readContentChunked (body ++ c.data)) part closed := by
  rw [Chunk.text, List.append_assoc, List.append_assoc]
  refine ((isLine_size c.size).gives _ closed).becomes.trans ?_
  rw [loop_chunkRound h]
  refine ((takes_readContentWithLength c.data body).gives _ closed).becomes.trans ?_
  have hend : ¬ cString lineEnd ≠ literal "\r\n" := by decide
  have hline := (isLine_lineEnd.gives part closed).becomes
    (f := fun line => if cString line ≠ literal "\r\n" then pure (body ++ c.data)
      else readContentChunked (body ++ c.data))
  rwa [if_neg hend] at hline

/-- No part of the end of a line is taken for it. -/
theorem cString_ne_of_notMem {part : Bytes} (h : 10 ∉ part) : cString part ≠ literal "\r\n" := by
  intro heq
  have hmem : 10 ∈ cString part := by
    rw [heq]
    decide
  exact h ((List.takeWhile_prefix _).subset hmem)

/-- The last chunk and what comes after it are read as the end of the body. -/
theorem takes_readContentChunked_last {last : ChunkSize} (h : last.value = 0) (body : Bytes) :
    Takes (readContentChunked body) (last.text ++ lineEnd) body := by
  refine (isLine_size last).takes (fun part _ => fails_chunkLoop part body true) ?_
  refine Takes.loop_last ?_
  have hround : chunkRound (last.text, body) = getline >>= fun line =>
      if cString line = literal "\r\n" then pure (.inr body) else .stop .read := by
    unfold chunkRound
    rw [strtoul_size (by rw [h]; exact Nat.succ_pos _), h]
    rfl
  rw [hround, ← List.append_nil lineEnd]
  refine isLine_lineEnd.takes (fun part hmem => ?_) ?_
  · rw [if_neg (cString_ne_of_notMem hmem)]
    exact fails_stop _ _ _
  · rw [if_pos (by decide)]
    exact takes_pure _

section

variable {last : ChunkSize} {chunks : List Chunk}

/-- What is taken for a whole body is read. -/
theorem gives_of_chunksArrive {part data : Bytes} {closed : Bool}
    (h : ChunksArrive last chunks part closed data) (hlast : last.value = 0)
    (hchunks : ∀ c ∈ chunks, c.data.length < ulongMax) (body : Bytes) :
    ∃ rest, Gives (readContentChunked body) part closed (body ++ data) rest := by
  induction h generalizing body with
  | whole closed =>
    refine ⟨[], ?_⟩
    have hgives := (takes_readContentChunked_last hlast body).gives [] closed
    rwa [List.append_nil] at hgives ⊢
  -- The line behind the data is the one character, which is not the end of a line. The loop is left
  -- with what there is.
  | cut c chunks =>
    refine ⟨[], ?_⟩
    have hc := hchunks c List.mem_cons_self
    rw [List.append_assoc]
    refine ((isLine_size c.size).gives _ true).becomes.gives ?_
    rw [loop_chunkRound hc]
    refine ((takes_readContentWithLength c.data body).gives _ true).becomes.gives ?_
    refine (gives_getline_part (by decide) (List.cons_ne_nil _ _)).becomes.gives ?_
    rw [if_pos (by decide)]
    exact gives_pure _ _ _
  -- The loop goes on with the chunks behind this one.
  | chunk c h ih =>
    obtain ⟨hc, hchunks⟩ := List.forall_mem_cons.mp hchunks
    obtain ⟨rest, hrest⟩ := ih hchunks (body ++ c.data)
    rw [List.append_assoc] at hrest
    exact ⟨rest, (becomes_readContentChunked hc body _ _).gives hrest⟩

/-- A part of a chunk is taken for a whole body if it ends between the two characters behind the
chunk, and otherwise no body is read. -/
theorem cut_or_fails {c : Chunk} (hc : c.data.length < ulongMax) (chunks : List Chunk)
    {part : Bytes} (hpart : part <+: c.text) (hne : part ≠ c.text) (closed : Bool) (body : Bytes) :
    (∃ data, ChunksArrive last (c :: chunks) part closed data) ∨
      Fails (readContentChunked body) part closed := by
  unfold Chunk.text at hpart hne
  rw [List.append_assoc] at hpart hne
  -- The part ends in the line of the size, in the data, or in the end of the line behind them.
  rcases isPrefix_append_cases hpart with ⟨hsize, hne'⟩ | ⟨part, rfl, hcontent⟩
  · have hfails : Fails (loop chunkRound progresses_chunkRound (part, body)) [] true :=
      fails_chunkLoop part body true
    exact .inr ((isLine_size c.size).fails hsize hne' (fun _ => hfails) closed)
  have hbecomes := ((isLine_size c.size).gives part closed).becomes
    (f := fun line => loop chunkRound progresses_chunkRound (line, body))
  rw [loop_chunkRound hc] at hbecomes
  rcases isPrefix_append_cases hcontent with ⟨hdata, hne'⟩ | ⟨part, rfl, hend⟩
  · refine .inr (hbecomes.fails ?_)
    exact ((takes_readContentWithLength c.data body).fails part hdata hne' closed).bind
  have hbecomes' := hbecomes.trans
    ((takes_readContentWithLength c.data body).gives part closed).becomes
  have hmem := isLine_lineEnd.notMem hend fun heq => hne (by rw [heq])
  by_cases hstop : part = [] ∨ closed = false
  · exact .inr (hbecomes'.fails (fails_getline hmem hstop).bind)
  · obtain ⟨hnil, hclosed⟩ := not_or.mp hstop
    rw [Bool.not_eq_false] at hclosed
    -- There is something of the end of the line, and not all.
    have hcut : part = [13] := by
      rcases List.prefix_cons_iff.mp hend with h | ⟨part', rfl, hend'⟩
      · exact absurd h hnil
      · rcases List.prefix_cons_iff.mp hend' with rfl | ⟨part'', rfl, -⟩
        · rfl
        · exact absurd (by simp) hmem
    rw [hcut, hclosed, ← List.append_assoc]
    exact .inl ⟨c.data, .cut c chunks⟩

/-- Of every part of a body in chunks, either a body is made, or the read fails. -/
theorem chunksArrive_or_fails {part : Bytes} (hlast : last.value = 0)
    (hchunks : ∀ c ∈ chunks, c.data.length < ulongMax)
    (hpart : part <+: chunks.flatMap Chunk.text ++ (last.text ++ lineEnd)) (closed : Bool)
    (body : Bytes) : (∃ data, ChunksArrive last chunks part closed data) ∨
      Fails (readContentChunked body) part closed := by
  -- By induction over the chunks, up to the one in which the part ends.
  induction chunks generalizing part body with
  | nil =>
    rw [List.flatMap_nil, List.nil_append] at hpart
    by_cases heq : part = last.text ++ lineEnd
    · rw [heq]
      exact .inl ⟨[], .whole closed⟩
    · exact .inr ((takes_readContentChunked_last hlast body).fails part hpart heq closed)
  | cons c chunks ih =>
    obtain ⟨hc, hchunks⟩ := List.forall_mem_cons.mp hchunks
    rw [List.flatMap_cons, List.append_assoc] at hpart
    rcases isPrefix_append_cases hpart with ⟨hchunk, hne⟩ | ⟨part, rfl, hrest⟩
    · exact cut_or_fails hc chunks hchunk hne closed body
    · rcases ih hchunks hrest (body ++ c.data) with ⟨data, hdata⟩ | hfails
      · exact .inl ⟨c.data ++ data, hdata.chunk c⟩
      · exact .inr ((becomes_readContentChunked hc body part closed).fails hfails)

end

end Httplib

end Btor
