import Btor.Message
import Btor.Response

/-!
# How the head of a reply is read

`getline` reads a line to its line feed. Where the connection is closed within a line, it takes what
is there for the line (`gives_getline_part`), so a reader fails there only by what it does next
(`IsLine.fails`). The functions that read the head take the head of a message: they return behind
its last byte, and fail wherever the stream ends before it. What they find for a field is its value
(`parseHeader_value`), and for a number that is written in digits that number (`strtoul_digits`).
-/

namespace Btor

open Lib (Run Stream)
open Lib.Stream (loop loop_eq Gives Fails Takes Becomes gives_pure fails_stop gives_read_nil
  gives_read_one takes_pure isPrefix_append_cases)

namespace Httplib

/-! ## Lines -/

section

variable {line l : Bytes} {c : UInt8}

/-- A round of `getline` appends a character. -/
theorem gives_getlineRound (hc : c ≠ 10) (closed : Bool) :
    Gives (getlineRound line) (c :: l) closed (.inl (line ++ [c])) l := by
  unfold getlineRound
  refine (gives_read_one c l closed).bind ?_
  dsimp only
  rw [if_neg hc]
  exact gives_pure _ _ _

/-- The last round appends the end of the line. -/
theorem gives_getlineRound_last (closed : Bool) :
    Gives (getlineRound line) (10 :: l) closed (.inr (line ++ [10])) l := by
  unfold getlineRound
  exact (gives_read_one 10 l closed).bind (gives_pure _ _ _)

/-- A line without a line feed ends where the connection is closed. -/
theorem gives_getlineRound_nil (h : line ≠ []) :
    Gives (getlineRound line) [] true (.inr line) [] := by
  unfold getlineRound
  refine (gives_read_nil 1 true).bind ?_
  rw [if_pos rfl]
  dsimp only
  rw [if_neg h]
  exact gives_pure _ _ _

/-- Where nothing is left, the round fails, if the line is empty or the connection not closed. -/
theorem fails_getlineRound_nil {closed : Bool} (h : line = [] ∨ closed = false) :
    Fails (getlineRound line) [] closed := by
  unfold getlineRound
  refine (gives_read_nil 1 closed).bind_fails ?_
  cases closed with
  | false => exact fails_stop _ _ _
  | true =>
    rw [if_pos rfl]
    dsimp only
    rw [if_pos (h.resolve_right Bool.noConfusion)]
    exact fails_stop _ _ _

/-- The loop reads on to where no line feed has come yet. -/
theorem becomes_getlineLoop (line : Bytes) (h : 10 ∉ l) (rest : Bytes) (closed : Bool) :
    Becomes (loop getlineRound progresses_getlineRound line) (l ++ rest)
      (loop getlineRound progresses_getlineRound (line ++ l)) rest closed := by
  induction l generalizing line with
  | nil =>
    rw [List.append_nil, List.nil_append]
    exact .refl _ _ _
  | cons c l ih =>
    obtain ⟨hc, hl⟩ := not_or.mp (mt List.mem_cons.mpr h)
    have hloop := ih (line ++ [c]) hl
    rw [List.append_assoc line, List.singleton_append] at hloop
    exact (gives_getlineRound (Ne.symm hc) closed).loop.trans hloop

/-- A line is read up to the line feed. -/
theorem gives_getline (h : 10 ∉ l) (rest : Bytes) (closed : Bool) :
    Gives getline (l ++ 10 :: rest) closed (l ++ [10]) rest :=
  (becomes_getlineLoop [] h _ closed).gives (gives_getlineRound_last closed).loop_last

/-- What is there of a line is taken for the line if the connection is closed after it. -/
theorem gives_getline_part (h : 10 ∉ l) (hne : l ≠ []) : Gives getline l true l [] := by
  have hbecomes := becomes_getlineLoop [] h [] true
  rw [List.append_nil] at hbecomes
  exact hbecomes.gives (gives_getlineRound_nil hne).loop_last

/-- `getline` fails where no line ends, if nothing is left or the connection is not closed. -/
theorem fails_getline {closed : Bool} (h : 10 ∉ l) (hl : l = [] ∨ closed = false) :
    Fails getline l closed := by
  have hbecomes := becomes_getlineLoop [] h [] closed
  rw [List.append_nil] at hbecomes
  exact hbecomes.fails (fails_getlineRound_nil hl).loop

end

/-- A line with its end, and no line feed before that. -/
def IsLine (l : Bytes) : Prop := ∃ l', l = l' ++ [10] ∧ 10 ∉ l'

/-- A text with the end of a line behind it is a line. -/
theorem isLine_append_lineEnd {l : Bytes} (h : 10 ∉ l) : IsLine (l ++ lineEnd) := by
  refine ⟨l ++ [13], by simp [lineEnd], ?_⟩
  rw [List.mem_append, not_or]
  exact ⟨h, by decide⟩

/-- An empty line is a line. -/
theorem isLine_lineEnd : IsLine lineEnd := ⟨[13], rfl, by decide⟩

section

variable {α : Type} {f : Bytes → Reading α} {l l' part : Bytes} {a : α}

/-- `getline` gives a line that is there. -/
theorem IsLine.gives (h : IsLine l) (rest : Bytes) (closed : Bool) :
    Gives getline (l ++ rest) closed l rest := by
  obtain ⟨l', rfl, hl'⟩ := h
  rw [List.append_assoc]
  exact gives_getline hl' rest closed

/-- A part of a line has no line feed. -/
theorem IsLine.notMem (h : IsLine l) (hpart : part <+: l) (hne : part ≠ l) : 10 ∉ part := by
  obtain ⟨l', rfl, hl'⟩ := h
  rcases List.prefix_concat_iff.mp hpart with heq | hpart
  · exact absurd heq hne
  · exact fun hmem => hl' (hpart.subset hmem)

/-- A reader that goes on after a line fails within the line, if it fails after any part of it. -/
theorem IsLine.fails (h : IsLine l) (hpart : part <+: l) (hne : part ≠ l)
    (hfails : 10 ∉ part → Fails (f part) [] true) (closed : Bool) :
    Fails (getline >>= f) part closed := by
  have hmem := h.notMem hpart hne
  by_cases hend : part = [] ∨ closed = false
  · exact (fails_getline hmem hend).bind
  · obtain ⟨hnil, hclosed⟩ := not_or.mp hend
    rw [Bool.not_eq_false] at hclosed
    subst hclosed
    exact (gives_getline_part hmem hnil).bind_fails (hfails hmem)

/-- A reader that goes on after a line takes the line, if it fails after any part of it. -/
theorem IsLine.takes (h : IsLine l) (hfails : ∀ part, 10 ∉ part → Fails (f part) [] true)
    (hf : Takes (f l) l' a) : Takes (getline >>= f) (l ++ l') a where
  gives rest closed := by
    rw [List.append_assoc]
    exact (h.gives _ closed).bind (hf.gives rest closed)
  fails part hpart hne closed := by
    rcases isPrefix_append_cases hpart with ⟨hl, hne'⟩ | ⟨part', rfl, hl'⟩
    · exact h.fails hl hne' (hfails part) closed
    · refine (h.gives part' closed).bind_fails (hf.fails part' hl' (fun heq => ?_) closed)
      exact hne (congrArg (l ++ ·) heq)

end

/-! ## The response line -/

/-- The response of a status line. -/
def responseOf (l : StatusLine) : Response where
  version := literal "HTTP/1." ++ [l.minor]
  status := l.status
  reason := l.reason

/-- A status line is a line. -/
theorem isLine_text (l : StatusLine) : IsLine l.text := by
  refine isLine_append_lineEnd ?_
  have hprotocol : 10 ∉ literal "HTTP/1." := by decide
  obtain ⟨hs, ha, hb⟩ := l.isDigit_code
  have hdigit {c : UInt8} (h : isDigit c = true) : 10 ≠ c := by
    rintro rfl
    exact absurd h (by decide)
  have hminor : 10 ≠ l.minor := by
    rcases l.minor_eq with h | h <;> rw [h] <;> decide
  simp only [List.mem_append, List.mem_cons, not_or]
  exact ⟨hprotocol, hminor, by decide, hdigit hs, hdigit ha, hdigit hb, by decide,
    fun hc => (l.isReason _ hc).2.1 rfl⟩

/-- A status line is matched. -/
theorem matchResponseLine_text (l : StatusLine) :
    matchResponseLine (cString l.text) = some (responseOf l) := by
  have hzero : 0 ∉ l.text := by
    obtain ⟨hs, ha, hb⟩ := l.isDigit_code
    have hdigit {c : UInt8} (h : isDigit c = true) : 0 ≠ c := by
      rintro rfl
      exact absurd h (by decide)
    have hminor : 0 ≠ l.minor := by
      rcases l.minor_eq with h | h <;> rw [h] <;> decide
    have hprotocol : 0 ∉ literal "HTTP/1." := by decide
    simp only [StatusLine.text, List.mem_append, List.mem_cons, not_or]
    exact ⟨⟨hprotocol, hminor, by decide, hdigit hs, hdigit ha, hdigit hb, by decide,
      fun hc => (l.isReason _ hc).1 rfl⟩, by decide⟩
  -- The reason ends at the end of the line.
  have hreason : (l.reason ++ lineEnd).takeWhile (fun c => c != 10 && c != 13) = l.reason := by
    rw [List.takeWhile_append_of_pos]
    · rw [lineEnd, List.takeWhile_cons_of_neg (by decide), List.append_nil]
    · intro c hc
      simpa using (l.isReason c hc).2
  have htext : l.text = literal "HTTP/1." ++ (l.minor :: 32 :: l.code.1 :: l.code.2.1 ::
      l.code.2.2 :: 32 :: (l.reason ++ lineEnd)) := by
    simp [StatusLine.text]
  rw [cString_of_notMem hzero, matchResponseLine, htext, List.drop_left]
  dsimp only
  rw [hreason, if_pos ⟨List.prefix_append _ _, l.minor_eq, rfl, l.isDigit_code.1,
    l.isDigit_code.2.1, l.isDigit_code.2.2, rfl, rfl⟩]
  rfl

/-- A line that is matched has its end. -/
theorem mem_of_matchResponseLine {text : Bytes} {res : Response}
    (h : matchResponseLine text = some res) : 10 ∈ text := by
  unfold matchResponseLine at h
  split at h
  · rename_i v s a b c s' rest hdrop
    dsimp only at h
    split_ifs at h with hmatch
    obtain ⟨-, -, -, -, -, -, -, hrest⟩ := hmatch
    have hmem : 10 ∈ rest := by
      rw [hrest]
      exact List.mem_append_right _ (by decide)
    refine (List.drop_suffix (literal "HTTP/1.").length text).subset ?_
    rw [hdrop]
    simp [hmem]
  · cases h

/-- A line without its end is no status line. -/
theorem matchResponseLine_part {part : Bytes} (h : 10 ∉ part) :
    matchResponseLine (cString part) = none := by
  cases hmatch : matchResponseLine (cString part) with
  | none => rfl
  | some res =>
    exact absurd ((List.takeWhile_prefix _).subset (mem_of_matchResponseLine hmatch)) h

/-- Behind `100 Continue` there is a line end, and another response. -/
theorem loop_skipContinueRound {res : Response} (h : res.status = 100) :
    loop skipContinueRound progresses_skipContinueRound res =
      getline >>= fun _ => readResponseLine := by
  rw [loop_eq, skipContinueRound, if_pos h, Run.bind_assoc]
  refine congrArg (getline >>= ·) (funext fun _ => ?_)
  rw [readResponseLine, Run.bind_assoc]
  refine congrArg (getline >>= ·) (funext fun line => ?_)
  cases matchResponseLine (cString line) <;> rfl

/-- The responses are read up to the line of the one that is not `100 Continue`. -/
theorem takes_readResponseLine {continues : List StatusLine} {l : StatusLine}
    (hcontinues : ∀ l ∈ continues, l.status = 100) (hl : l.status ≠ 100) :
    Takes readResponseLine (continues.flatMap (fun l => l.text ++ lineEnd) ++ l.text)
      (responseOf l) := by
  -- By induction over the responses with the status 100.
  induction continues with
  | nil =>
    rw [List.flatMap_nil, List.nil_append, ← List.append_nil l.text]
    refine (isLine_text l).takes (fun part hmem => ?_) ?_
    · rw [matchResponseLine_part hmem]
      exact fails_stop _ _ _
    · rw [matchResponseLine_text]
      refine Takes.loop_last ?_
      have hne : (responseOf l).status ≠ 100 := hl
      rw [skipContinueRound, if_neg hne]
      exact takes_pure _
  | cons c continues ih =>
    obtain ⟨hc, hcontinues⟩ := List.forall_mem_cons.mp hcontinues
    rw [List.flatMap_cons, List.append_assoc, List.append_assoc]
    refine (isLine_text c).takes (fun part hmem => ?_) ?_
    · rw [matchResponseLine_part hmem]
      exact fails_stop _ _ _
    · rw [matchResponseLine_text]
      dsimp only
      -- A response with the status 100 is followed by an empty line, and then by the next one.
      rw [loop_skipContinueRound hc]
      exact isLine_lineEnd.takes (fun _ _ => (fails_getline List.not_mem_nil (.inl rfl)).bind)
        (ih hcontinues)

/-! ## The headers -/

/-- A header field is a line. -/
theorem isLine_field (f : Field) : IsLine f.text := by
  refine isLine_append_lineEnd ?_
  have hcolon : 10 ∉ literal ": " := by decide
  simp only [Field.line, List.mem_append, not_or]
  exact ⟨⟨fun hc => (f.isName _ hc).2 rfl, hcolon⟩, f.isValue⟩

/-- The loop over the headers does not end within a line. -/
theorem fails_readHeaders_part {part : Bytes} (h : 10 ∉ part) (headers : Headers) :
    Fails ((pure (nextHeaders headers part) : Reading (Headers ⊕ Headers)) >>=
      Sum.elim (loop readHeadersRound progresses_readHeadersRound) pure) [] true := by
  have hsuffix : ¬ literal "\r\n" <:+ part := fun hs => h (hs.subset (by decide))
  rw [nextHeaders, if_neg hsuffix]
  exact Fails.loop (fails_getline List.not_mem_nil (.inl rfl)).bind

/-- The fields are read up to the empty line. -/
theorem takes_readHeadersLoop (fields : List Field) (headers : Headers) :
    Takes (loop readHeadersRound progresses_readHeadersRound headers)
      (fields.flatMap Field.text ++ lineEnd)
      (fields.foldl (fun headers f => addHeader headers f.line) headers) := by
  -- By induction over the fields, with the headers that have been read before.
  induction fields generalizing headers with
  | nil =>
    rw [List.flatMap_nil, List.nil_append, ← List.append_nil lineEnd, loop_eq, readHeadersRound,
      Run.bind_assoc]
    exact isLine_lineEnd.takes (fun _ hmem => fails_readHeaders_part hmem headers)
      (takes_pure headers)
  | cons f fields ih =>
    rw [List.flatMap_cons, List.append_assoc, loop_eq, readHeadersRound, Run.bind_assoc]
    refine (isLine_field f).takes (fun _ hmem => fails_readHeaders_part hmem headers) ?_
    have hsuffix : literal "\r\n" <:+ f.text := List.suffix_append _ _
    have hlength : f.text.length = f.line.length + 2 := by
      rw [Field.text, List.length_append]
      rfl
    -- The line of a field is not empty, so it is not taken for the end of the headers.
    have hline : f.line.length ≠ 0 := by
      have hcolon : (literal ": ").length = 2 := rfl
      rw [Field.line, List.length_append, List.length_append, hcolon]
      omega
    have htake : f.text.take (f.text.length - 2) = f.line := by
      rw [hlength, Nat.add_sub_cancel, Field.text, List.take_left]
    rw [nextHeaders, if_pos hsuffix, if_neg (by omega), htake, List.foldl_cons]
    exact ih (addHeader headers f.line)

/-- A name in letters of either case. -/
theorem not_ci_iff {name key : Bytes} :
    (!ci name key && !ci key name) = true ↔ name.map toLower = key.map toLower := by
  unfold ci
  rw [Bool.and_eq_true, Bool.not_eq_true', Bool.not_eq_true', decide_eq_false_iff_not,
    decide_eq_false_iff_not, not_lt, not_lt]
  exact ⟨fun h => le_antisymm h.2 h.1, fun h => ⟨h.ge, h.le⟩⟩

/-- A header of the list is the new one or one from before. -/
theorem mem_emplace {headers : Headers} {name value : Bytes} {h : Bytes × Bytes} :
    h ∈ headers.emplace name value ↔ h = (name, value) ∨ h ∈ headers := by
  induction headers with
  | nil => simp [Headers.emplace]
  | cons first headers ih =>
    rw [Headers.emplace]
    split_ifs
    · rw [List.mem_cons]
    · rw [List.mem_cons, ih, List.mem_cons]
      exact or_left_comm

/-- The headers that are read are those of the lines. -/
theorem mem_foldl_addHeader {fields : List Field} {headers : Headers} {h : Bytes × Bytes} :
    h ∈ fields.foldl (fun headers f => addHeader headers f.line) headers ↔
      h ∈ headers ∨ ∃ f ∈ fields, parseHeader f.line = some h := by
  induction fields generalizing headers with
  | nil => simp
  | cons f fields ih =>
    have hadd : h ∈ addHeader headers f.line ↔ h ∈ headers ∨ parseHeader f.line = some h := by
      unfold addHeader
      cases hparse : parseHeader f.line with
      | none => simp
      | some header =>
        rw [mem_emplace, or_comm, Option.some_inj]
        exact or_congr_right eq_comm
    rw [List.foldl_cons, ih, hadd, or_assoc]
    simp only [List.mem_cons, exists_eq_or_imp]

/-- Where the headers with a name have one value, that is found. -/
theorem find_eq_some {headers : Headers} {key : Bytes} {h : Bytes × Bytes} (hmem : h ∈ headers)
    (hname : h.1.map toLower = key.map toLower)
    (hunique : ∀ h' ∈ headers, h'.1.map toLower = key.map toLower → h'.2 = h.2) :
    headers.find key = some h.2 := by
  unfold Headers.find
  cases hfind : headers.find? fun h : Bytes × Bytes => !ci h.1 key && !ci key h.1 with
  | none => exact absurd (not_ci_iff.mpr hname) (List.find?_eq_none.mp hfind h hmem)
  | some h' =>
    have hci : (!ci h'.1 key && !ci key h'.1) = true :=
      @List.find?_some _ (fun h : Bytes × Bytes => !ci h.1 key && !ci key h.1) _ _ hfind
    have hname' := not_ci_iff.mp hci
    rw [Option.map_some, hunique h' (List.mem_of_find?_eq_some hfind) hname']

/-- A name that no header has is not found. -/
theorem find_eq_none {headers : Headers} {key : Bytes}
    (h : ∀ h ∈ headers, h.1.map toLower ≠ key.map toLower) : headers.find key = none := by
  unfold Headers.find
  rw [Option.map_eq_none_iff, List.find?_eq_none]
  exact fun header hmem hci => h header hmem (not_ci_iff.mp hci)

/-! ## The line of a field -/

/-- What is dropped ends at a character that stays. -/
theorem dropWhile_append_cons {p : UInt8 → Bool} {c : UInt8} (hc : p c = false) (l l' : Bytes) :
    (l ++ c :: l').dropWhile p = l.dropWhile p ++ c :: l' := by
  have hcons : (c :: l').dropWhile p = c :: l' :=
    List.dropWhile_cons_of_neg (by rw [hc]; exact Bool.false_ne_true)
  rw [List.dropWhile_append, hcons]
  split_ifs with hempty
  · rw [List.isEmpty_iff.mp hempty, List.nil_append]
  · rfl

/-- What `parse_header` makes of a field: nothing is left but the name and the text behind the
colon, from its first to its last character that is no space. -/
theorem parseHeader_line (f : Field) : parseHeader f.line =
    let text := ((literal " " ++ f.value).rdropWhile isSpaceOrTab).dropWhile isSpaceOrTab
    if text = [] then none else some (f.name, decodeUrl text) := by
  -- Spaces are dropped from the end of the line. They do not reach the name, as there is a colon
  -- behind it.
  have hline : f.line.rdropWhile isSpaceOrTab =
      f.name ++ Ascii.colon :: (literal " " ++ f.value).rdropWhile isSpaceOrTab := by
    have hsplit : f.line = f.name ++ Ascii.colon :: (literal " " ++ f.value) := by
      rw [Field.line, List.append_assoc]
      rfl
    rw [hsplit, List.rdropWhile, List.reverse_append, List.reverse_cons, List.append_assoc,
      List.singleton_append, dropWhile_append_cons (by decide), List.reverse_append,
      List.reverse_cons, List.reverse_reverse, List.append_assoc, List.singleton_append]
    rfl
  have hname : ∀ c ∈ f.name, (c != Ascii.colon) = true := fun c hc =>
    bne_iff_ne.mpr (f.isName c hc).1
  have hcolon : ∀ l : Bytes, (f.name ++ Ascii.colon :: l).dropWhile (· != Ascii.colon) =
      Ascii.colon :: l := fun l => by
    rw [List.dropWhile_append_of_pos hname, List.dropWhile_cons_of_neg (by decide)]
  have htake : ∀ l : Bytes, (f.name ++ Ascii.colon :: l).takeWhile (· != Ascii.colon) =
      f.name := fun l => by
    rw [List.takeWhile_append_of_pos hname, List.takeWhile_cons_of_neg (by decide),
      List.append_nil]
  rw [parseHeader, hline]
  dsimp only
  rw [hcolon, htake]
  dsimp only
  cases ((literal " " ++ f.value).rdropWhile isSpaceOrTab).dropWhile isSpaceOrTab with
  | nil => rfl
  | cons c text => rfl

/-- A text without a percent sign is decoded to itself. -/
theorem decodeUrl_of_notMem {s : Bytes} (h : Ascii.percent ∉ s) : decodeUrl s = s := by
  induction s with
  | nil => rw [decodeUrl]
  | cons c s ih =>
    obtain ⟨hc, hs⟩ := not_or.mp (mt List.mem_cons.mpr h)
    rw [decodeUrl, if_neg (fun hpercent => hc hpercent.1.symm), ih hs]

/-- A value of other characters than spaces, tabs and percent signs is found as it is. -/
theorem parseHeader_value (f : Field) (hne : f.value ≠ [])
    (h : ∀ c ∈ f.value, c ≠ 32 ∧ c ≠ 9 ∧ c ≠ Ascii.percent) :
    parseHeader f.line = some (f.name, f.value) := by
  obtain ⟨c, value, hvalue⟩ := List.exists_cons_of_ne_nil hne
  have hplain : ∀ c ∈ f.value, ¬ isSpaceOrTab c = true := by
    intro c hc
    unfold isSpaceOrTab
    rw [Bool.or_eq_true, beq_iff_eq, beq_iff_eq, not_or]
    exact ⟨(h c hc).1, (h c hc).2.1⟩
  -- The value neither begins nor ends with a space, so the one before it is all that is dropped.
  have hlast : (literal " " ++ f.value).rdropWhile isSpaceOrTab = literal " " ++ f.value := by
    rw [List.rdropWhile_eq_self_iff]
    intro hnil
    rw [List.getLast_append_of_ne_nil _ hne]
    exact hplain _ (List.getLast_mem hne)
  have hfirst : (literal " " ++ f.value).dropWhile isSpaceOrTab = f.value := by
    have hspace : ∀ c ∈ literal " ", isSpaceOrTab c = true := by decide +kernel
    have hc := hplain c (hvalue ▸ List.mem_cons_self)
    rw [List.dropWhile_append_of_pos hspace, hvalue, List.dropWhile_cons_of_neg hc]
  rw [parseHeader_line, hlast, hfirst]
  dsimp only
  rw [if_neg hne, decodeUrl_of_notMem fun hmem => (h _ hmem).2.2 rfl]

/-! ## Numbers -/

/-- What is no hexadecimal digit. -/
theorem isDigitOf_ne {base : ℕ} {c : UInt8} (h : isDigitOf base c = true) : isSpace c = false ∧
    c ≠ 0 ∧ c ≠ Ascii.minus ∧ c ≠ 43 ∧ c ≠ 120 ∧ c ≠ 88 := by
  have hsome : (Lib.hexValue c).isSome = true := by
    unfold isDigitOf at h
    cases hvalue : Lib.hexValue c with
    | none =>
      rw [hvalue] at h
      cases h
    | some d => rfl
  revert hsome
  clear h
  revert c
  decide +kernel

section

variable {base : ℕ} {digits tail : Bytes} (hdigits : ∀ c ∈ digits, isDigitOf base c = true)
  (htail : ∀ c ∈ tail.head?, c = 59 ∨ c = 13)

include hdigits htail

/-- The string that begins with the digits has all of them, and behind them nothing new. -/
theorem exists_cString_digits : ∃ tail', cString (digits ++ tail) = digits ++ tail' ∧
    ∀ c ∈ tail'.head?, c = 59 ∨ c = 13 := by
  refine ⟨cString tail, ?_, ?_⟩
  · unfold cString
    exact List.takeWhile_append_of_pos fun c hc =>
      bne_iff_ne.mpr (isDigitOf_ne (hdigits c hc)).2.1
  · cases tail with
    | nil => nofun
    | cons c tail =>
      have hc := htail c rfl
      have hzero : c ≠ 0 := by
        rcases hc with rfl | rfl <;> decide
      have hcString : cString (c :: tail) = c :: cString tail :=
        List.takeWhile_cons_of_pos (bne_iff_ne.mpr hzero)
      rw [hcString]
      rintro _ ⟨⟩
      exact hc

/-- The second character is not the one that marks a hexadecimal number. -/
theorem skipHexMark_digits (hne : digits ≠ []) : skipHexMark (digits ++ tail) = digits ++ tail := by
  obtain ⟨d, ds, rfl⟩ := List.exists_cons_of_ne_nil hne
  have hsecond : ∀ x ∈ ((d :: ds) ++ tail).tail.head?, x ≠ 120 ∧ x ≠ 88 := by
    cases ds with
    | nil =>
      intro x hx
      rcases htail x hx with rfl | rfl <;> decide
    | cons x ds =>
      rintro _ ⟨⟩
      exact (isDigitOf_ne (hdigits x (by simp))).2.2.2.2
  unfold skipHexMark
  split
  · rename_i z x c rest heq
    rw [heq] at hsecond
    rw [if_neg fun h => ?_, heq]
    have hx := hsecond x rfl
    exact h.2.1.elim hx.1 hx.2
  · rfl

/-- The digits end where the tail begins. -/
theorem takeWhile_digits : (digits ++ tail).takeWhile (isDigitOf base) = digits := by
  rw [List.takeWhile_append_of_pos hdigits]
  cases tail with
  | nil => rw [List.takeWhile_nil, List.append_nil]
  | cons c tail =>
    have hc : ¬ isDigitOf base c = true := by
      rcases htail c rfl with rfl | rfl <;> exact Bool.false_ne_true
    rw [List.takeWhile_cons_of_neg hc, List.append_nil]

/-- A number is read up to where a character comes that ends it. -/
theorem strtoul_digits {range : ℕ} (hne : digits ≠ [])
    (hvalue : Lib.horner base Lib.hexDigitValue digits < range) :
    strtoul range base (digits ++ tail) = some (Lib.horner base Lib.hexDigitValue digits) := by
  obtain ⟨d, ds, hcons⟩ := List.exists_cons_of_ne_nil hne
  have hd := isDigitOf_ne (hdigits d (hcons ▸ List.mem_cons_self))
  obtain ⟨tail', htext, htail'⟩ := exists_cString_digits hdigits htail
  -- There is no space and no sign before the digits.
  have hspace : (digits ++ tail').dropWhile isSpace = digits ++ tail' := by
    have hfirst : ¬ isSpace d = true := by
      rw [hd.1]
      exact Bool.false_ne_true
    rw [hcons, List.cons_append, List.dropWhile_cons_of_neg hfirst]
  have hhead : (digits ++ tail').head? = some d := by
    rw [hcons]
    rfl
  have hsign : ¬ (some d = some Ascii.minus ∨ some d = some 43) := by
    rw [Option.some_inj, Option.some_inj, not_or]
    exact ⟨hd.2.2.1, hd.2.2.2.1⟩
  unfold strtoul
  dsimp only
  rw [htext, hspace, hhead, if_neg hsign, skipHexMark_digits hdigits htail' hne, ite_self,
    takeWhile_digits hdigits htail', if_neg hne, if_neg (not_le.mpr hvalue),
    if_neg (by simpa using hd.2.2.1)]

end

end Httplib

end Btor
