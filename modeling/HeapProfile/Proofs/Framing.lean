import HeapProfile.Event.Stream

/-!
# Framing — which chunks of a stream are answered, and by what

The chunks of a stream are its lines, each with the break that ends it, and what is left behind the
last break.  A chunk is passed over if it is text and, without its outer blanks, is empty or a
comment; every other chunk is answered, by an event or by a fault, and a fault of an event names the
line by the number of chunks up to it that are text.  All of this is said chunk by chunk, from the
position of a chunk in the stream alone: no loop and no counter stands on this side.

* **`fallsInto_iff`** — a stream falls into its `chunks` and into nothing else;
* **`nextFrom_cases`** — one call answers the first chunk that is not passed over, or finds the end;
* **`LineSource.calls_answer_chunks`** — what every one of any number of calls yields, on any bytes.
-/

namespace HeapProfile

/-! ## How bytes fall into chunks -/

/-- Bytes fall into lines, each with the break that ends it, and into what is left, if anything. -/
def FallsInto (bytes : List UInt8) (pieces : List (List UInt8)) : Prop :=
  ∃ (lines : List (List UInt8)) (rest : List UInt8),
    (∀ line ∈ lines, lineBreak ∉ line) ∧ lineBreak ∉ rest ∧
    bytes = (lines.map (· ++ [lineBreak])).flatten ++ rest ∧
    pieces = lines.map (· ++ [lineBreak]) ++ if rest = [] then [] else [rest]

/-- Bytes without a line break only make the current chunk longer. -/
theorem chunksFrom_append {line : List UInt8} (hline : lineBreak ∉ line)
    (current rest : List UInt8) :
    chunksFrom current (line ++ rest) = chunksFrom (line.reverse ++ current) rest := by
  induction line generalizing current with
  | nil => rfl
  | cons byte line ih =>
      rw [List.mem_cons, not_or] at hline
      rw [List.cons_append, chunksFrom, if_neg (Ne.symm hline.1), ih hline.2, List.reverse_cons,
        List.append_assoc, List.singleton_append]

/-- A line and its break are the first chunk. -/
theorem chunks_line {line : List UInt8} (hline : lineBreak ∉ line) (rest : List UInt8) :
    chunks (line ++ lineBreak :: rest) = (line ++ [lineBreak]) :: chunks rest := by
  rw [chunks, chunksFrom_append hline, List.append_nil, chunksFrom, if_pos rfl, List.reverse_cons,
    List.reverse_reverse, chunks]

/-- Bytes without a line break are one chunk, or none. -/
theorem chunks_of_not_mem {rest : List UInt8} (hrest : lineBreak ∉ rest) :
    chunks rest = if rest = [] then [] else [rest] := by
  have h := chunksFrom_append hrest [] []
  rw [List.append_nil, List.append_nil] at h
  rw [chunks, h, chunksFrom, List.isEmpty_reverse, List.reverse_reverse]
  simp only [List.isEmpty_iff]

/-- All lines are chunks, whatever follows them. -/
theorem chunks_lines {lines : List (List UInt8)} (hlines : ∀ line ∈ lines, lineBreak ∉ line)
    (rest : List UInt8) :
    chunks ((lines.map (· ++ [lineBreak])).flatten ++ rest)
      = lines.map (· ++ [lineBreak]) ++ chunks rest := by
  induction lines with
  | nil => rfl
  | cons line lines ih =>
      rw [List.forall_mem_cons] at hlines
      rw [List.map_cons, List.flatten_cons, List.append_assoc, List.append_assoc,
        List.singleton_append, chunks_line hlines.1, ih hlines.2, List.cons_append]

/-- Every stream falls into some pieces. -/
theorem exists_fallsInto (bytes : List UInt8) : ∃ pieces, FallsInto bytes pieces := by
  induction bytes with
  | nil => exact ⟨_, [], [], List.forall_mem_nil _, List.not_mem_nil, rfl, rfl⟩
  | cons byte bytes ih =>
      obtain ⟨_, lines, rest, hlines, hrest, rfl, -⟩ := ih
      by_cases hbyte : byte = lineBreak
      · refine ⟨_, [] :: lines, rest, ?_, hrest, ?_, rfl⟩
        · exact List.forall_mem_cons.2 ⟨List.not_mem_nil, hlines⟩
        · rw [hbyte]; rfl
      -- any other byte stands in front of the first line, or of the rest where there is no line
      · cases lines with
        | nil =>
            refine ⟨_, [], byte :: rest, hlines, ?_, rfl, rfl⟩
            exact List.not_mem_cons_of_ne_of_not_mem (Ne.symm hbyte) hrest
        | cons line lines =>
            rw [List.forall_mem_cons] at hlines
            refine ⟨_, (byte :: line) :: lines, rest, ?_, hrest, rfl, rfl⟩
            refine List.forall_mem_cons.2 ⟨?_, hlines.2⟩
            exact List.not_mem_cons_of_ne_of_not_mem (Ne.symm hbyte) hlines.1

/-- **A stream falls into its chunks and into nothing else.**  Where the pieces are cut is determined by
    the line breaks, so two ways of falling apart cannot differ. -/
theorem fallsInto_iff {bytes : List UInt8} {pieces : List (List UInt8)} :
    FallsInto bytes pieces ↔ pieces = chunks bytes := by
  have hunique : ∀ {pieces}, FallsInto bytes pieces → pieces = chunks bytes := by
    rintro _ ⟨lines, rest, hlines, hrest, rfl, rfl⟩
    rw [chunks_lines hlines, chunks_of_not_mem hrest]
  refine ⟨hunique, fun h => ?_⟩
  obtain ⟨found, hfound⟩ := exists_fallsInto bytes
  rw [h, ← hunique hfound]
  exact hfound

/-! ## What a chunk is answered by -/

/-- Whether a chunk is passed over: it is text, and without its outer blanks it is empty or begins
with `#`. -/
def isPassedOver (chunk : List UInt8) : Bool :=
  (chunkText? chunk).any fun text => isSkipped (Text.trimmed text)

/-- How many of some chunks are text. -/
def textCount (chunks : List (List UInt8)) : Nat := chunks.countP fun chunk => (chunkText? chunk).isSome

/-- What a chunk yields that is the given line. -/
def chunkAnswer (line : Nat) (chunk : List UInt8) : Except StreamFault Event :=
  match chunkText? chunk with
  | none => .error .notUtf8
  | some text => (Event.ofText (Text.trimmed text)).mapError (.badEvent line)

/-- The chunks that are answered, each with its position. -/
def answered (chunks : List (List UInt8)) : List (List UInt8 × Nat) :=
  chunks.zipIdx.filter fun e => !isPassedOver e.1

/-- The answers of some chunks behind lines that were read before, each with the number of lines up
to it. -/
def answersBehind (lines : Nat) (chunks : List (List UInt8)) : List (Except StreamFault Event × Nat) :=
  (answered chunks).map fun e =>
    let line := lines + textCount (chunks.take (e.2 + 1))
    (chunkAnswer line e.1, line)

theorem textCount_cons (chunk : List UInt8) (chunks : List (List UInt8)) :
    textCount (chunk :: chunks) = textCount [chunk] + textCount chunks := by
  rw [← List.singleton_append, textCount, List.countP_append]
  rfl

theorem answered_cons (chunk : List UInt8) (chunks : List (List UInt8)) :
    answered (chunk :: chunks)
      = (if isPassedOver chunk then [] else [(chunk, 0)])
        ++ (answered chunks).map fun e => (e.1, e.2 + 1) := by
  rw [answered, List.zipIdx_cons', List.filter_cons, List.filter_map, answered]
  cases isPassedOver chunk <;> rfl

/-- The answers of some chunks are the answer of the first one, if it has one, and the answers of
the others behind it. -/
theorem answersBehind_cons (lines : Nat) (chunk : List UInt8) (chunks : List (List UInt8)) :
    answersBehind lines (chunk :: chunks)
      = (if isPassedOver chunk then []
          else [(chunkAnswer (lines + textCount [chunk]) chunk, lines + textCount [chunk])])
        ++ answersBehind (lines + textCount [chunk]) chunks := by
  have hbehind : (answered chunks).map (fun e =>
        (chunkAnswer (lines + textCount ((chunk :: chunks).take (e.2 + 1 + 1))) e.1,
          lines + textCount ((chunk :: chunks).take (e.2 + 1 + 1))))
      = answersBehind (lines + textCount [chunk]) chunks := by
    refine List.map_congr_left fun e _ => ?_
    rw [List.take_succ_cons, textCount_cons, Nat.add_assoc]
  rw [answersBehind, answered_cons, List.map_append, List.map_map, ← hbehind]
  cases isPassedOver chunk with
  | true => rfl
  | false => rfl

/-! ## The calls -/

namespace LineSource

/-- The source behind a number of calls. -/
def after (s : LineSource) : Nat → LineSource
  | 0 => s
  | n + 1 => s.next.2.after n

/-- **One call either passes over all that is left and finds the end, or it gives the first answer
and leaves the source in front of the others.** -/
theorem nextFrom_cases (pending : List (List UInt8)) (lines : Nat) :
    (answersBehind lines pending = [] ∧
      nextFrom pending lines = (.ok none, ⟨[], lines + textCount pending⟩)) ∨
    ∃ answer line rest,
      answersBehind lines pending = (answer, line) :: answersBehind line rest ∧
      nextFrom pending lines = (answer.map some, ⟨rest, line⟩) ∧
      lines + textCount pending = line + textCount rest := by
  induction pending generalizing lines with
  | nil => exact Or.inl ⟨rfl, rfl⟩
  | cons chunk pending ih =>
      rw [answersBehind_cons, textCount_cons chunk pending, ← Nat.add_assoc]
      cases htext : chunkText? chunk with
      | none =>
          have hcount : textCount [chunk] = 0 := by
            rw [textCount, List.countP_singleton, htext]; rfl
          have hpassed : isPassedOver chunk = false := by rw [isPassedOver, htext]; rfl
          rw [hcount, Nat.add_zero, hpassed]
          refine Or.inr ⟨.error .notUtf8, lines, pending, ?_, ?_, rfl⟩
          · rw [chunkAnswer, htext]; rfl
          · rw [nextFrom, htext]; rfl
      | some text =>
          have hcount : textCount [chunk] = 1 := by
            rw [textCount, List.countP_singleton, htext]; rfl
          have hpassed : isPassedOver chunk = isSkipped (Text.trimmed text) := by
            rw [isPassedOver, htext]; rfl
          rw [hcount, hpassed, nextFrom, htext]
          dsimp only
          cases hskipped : isSkipped (Text.trimmed text) with
          -- a chunk that is passed over counts as a line and leaves the call to those behind it
          | true => exact ih (lines + 1)
          | false =>
              have hanswer : chunkAnswer (lines + 1) chunk
                  = (Event.ofText (Text.trimmed text)).mapError (.badEvent (lines + 1)) := by
                rw [chunkAnswer, htext]
              refine Or.inr ⟨chunkAnswer (lines + 1) chunk, lines + 1, pending, rfl, ?_, rfl⟩
              rw [hanswer, if_neg Bool.false_ne_true]
              cases Event.ofText (Text.trimmed text) <;> rfl

/-- Every call gives the answer that is next, and calls behind the last answer find the end.  The
    induction is on the calls that were made before. -/
theorem next_after (s : LineSource) (n : Nat) :
    (s.after n).next.1
        = ((answersBehind s.lines s.pending)[n]?).elim (.ok none) (fun e => e.1.map some) ∧
    (s.after (n + 1)).lines
        = ((answersBehind s.lines s.pending)[n]?).elim (s.lines + textCount s.pending) (·.2) := by
  induction n generalizing s with
  | zero =>
      rcases nextFrom_cases s.pending s.lines with
        ⟨hnone, hend⟩ | ⟨answer, line, rest, hfirst, hnext, -⟩
      · rw [hnone, after, after, after, next, hend]
        exact ⟨rfl, rfl⟩
      · rw [hfirst, after, after, after, next, hnext]
        exact ⟨rfl, rfl⟩
  | succ n ih =>
      have hrest := ih s.next.2
      rw [show s.after (n + 1 + 1) = s.next.2.after (n + 1) from rfl,
        show s.after (n + 1) = s.next.2.after n from rfl]
      rcases nextFrom_cases s.pending s.lines with
        ⟨hnone, hend⟩ | ⟨answer, line, rest, hfirst, hnext, hlines⟩
      · have hbehind : s.next.2 = ⟨[], s.lines + textCount s.pending⟩ := by rw [next, hend]
        rw [hbehind] at hrest ⊢
        rw [hnone]
        exact hrest
      · have hbehind : s.next.2 = ⟨rest, line⟩ := by rw [next, hnext]
        rw [hbehind] at hrest ⊢
        rw [hfirst, List.getElem?_cons_succ, hlines]
        exact hrest

theorem steps_of_end {s after : LineSource} (h : s.next = (.ok none, after)) :
    s.steps = ([], after.lines) := by
  rw [steps]
  split <;> simp_all

theorem steps_of_answer {s after : LineSource} {answer : Except StreamFault Event}
    (h : s.next = (answer.map some, after)) :
    s.steps = ((answer, after.lines) :: after.steps.1, after.steps.2) := by
  rw [steps]
  cases answer <;> split <;> simp_all [Except.map]

/-- Reading to the end gives all answers, and the number of lines.  Chunks that are skipped are counted
    as lines and give no answer. -/
theorem steps_eq (s : LineSource) :
    s.steps = (answersBehind s.lines s.pending, s.lines + textCount s.pending) := by
  -- the answers that are left are what becomes less from call to call
  induction hanswers : answersBehind s.lines s.pending generalizing s with
  | nil =>
      rcases nextFrom_cases s.pending s.lines with ⟨-, hnext⟩ | ⟨_, _, _, hfirst, -, -⟩
      · exact steps_of_end hnext
      · rw [hanswers] at hfirst
        exact nomatch hfirst
  | cons first answers ih =>
      rcases nextFrom_cases s.pending s.lines with
        ⟨hnone, -⟩ | ⟨answer, line, rest, hfirst, hnext, hlines⟩
      · rw [hanswers] at hnone
        exact nomatch hnone
      · rw [hanswers, List.cons.injEq] at hfirst
        rw [steps_of_answer (s := s) hnext, ih ⟨rest, line⟩ hfirst.2.symm, hfirst.1, hlines]

/-- **The framing of a stream.**  Bytes fall into their chunks and into nothing else; call after
call, the chunks that are not passed over are answered in their order, each by an event or by the
fault of the line that it is, with the number of lines up to it, and every later call finds the end
and all lines.  Reading to the end in one go gives the same. -/
theorem calls_answer_chunks (bytes : List UInt8) :
    (∀ pieces, FallsInto bytes pieces ↔ pieces = chunks bytes) ∧
    (∀ n, ((ofBytes bytes).after n).next.1
      = match (answered (chunks bytes))[n]? with
        | some (chunk, i) => (chunkAnswer (textCount ((chunks bytes).take (i + 1))) chunk).map some
        | none => .ok none) ∧
    (∀ n, ((ofBytes bytes).after (n + 1)).lines
      = match (answered (chunks bytes))[n]? with
        | some (_, i) => textCount ((chunks bytes).take (i + 1))
        | none => textCount (chunks bytes)) ∧
    outcomes bytes = (answered (chunks bytes)).map fun (chunk, i) =>
      chunkAnswer (textCount ((chunks bytes).take (i + 1))) chunk := by
  have hanswers (n : Nat) : (answersBehind 0 (chunks bytes))[n]?
      = (answered (chunks bytes))[n]?.map fun e =>
        (chunkAnswer (textCount ((chunks bytes).take (e.2 + 1))) e.1,
          textCount ((chunks bytes).take (e.2 + 1))) := by
    rw [answersBehind, List.getElem?_map]
    simp only [Nat.zero_add]
  refine ⟨fun _ => fallsInto_iff, fun n => ?_, fun n => ?_, ?_⟩
  · rw [(next_after (ofBytes bytes) n).1, ofBytes, hanswers]
    cases (answered (chunks bytes))[n]? <;> rfl
  · rw [(next_after (ofBytes bytes) n).2, ofBytes, hanswers]
    cases (answered (chunks bytes))[n]? with
    | none => exact Nat.zero_add _
    | some e => rfl
  · rw [outcomes, steps_eq, ofBytes, answersBehind, List.map_map]
    refine List.map_congr_left fun e _ => ?_
    rw [Function.comp_apply, Nat.zero_add]

end LineSource

end HeapProfile
