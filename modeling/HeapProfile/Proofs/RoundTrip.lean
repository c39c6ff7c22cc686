import HeapProfile.Proofs.Framing
import HeapProfile.Proofs.Telling
import HeapProfile.Run

/-!
# Round trip — events are read back from their text

The document of an event tells the event, so its compact form is decoded as the event.  It stands
between braces and holds no control character: on a line of its own it is a chunk of the stream, and
without the line break it is the text of the event again, whatever strings the event carries.  With the
framing of streams this gives back every list of events from its text.

* **`Event.ofText_toText`** — an event is read back from its text;
* **`Event.chunks_bytesOf_lines`** — the lines of a written stream are its chunks;
* **`LineSource.calls_read_lines`** — a written list of events is read back call by call.
-/

namespace HeapProfile

open Json

/-! ## The document of an event -/

namespace Event

/-- **What holds the document of an event is decoded as that event.**  Its members tell the event, and
    this is what decoding needs. -/
theorem ask_of_holds {e : Event} {r : Reading} (h : Holds Reading.maxDepth e.toValue r) :
    ask r = .ok e := by
  obtain ⟨start, named, place, rfl, hnamed⟩ := h
  exact ask_of_told (HoldsMembers.accepted hnamed) e.toldBy_members start place

/-- The document of an event is an object of words and strings. -/
theorem isPlain_toValue (e : Event) : IsPlain Reading.maxDepth e.toValue := by
  refine List.forall_mem_cons.2 ⟨trivial, ?_⟩
  cases e <;> simp [members, Value.word, Value.word32, IsPlain]

/-- **An event is read back from its text.**  The text is the compact form of its document, and the
    document is plain. -/
theorem ofText_toText (e : Event) : ofText e.toText = .ok e := by
  obtain ⟨r, hread, -, hholds⟩ := reads_compact (isPlain_toValue e) [] endsNumber_nil
  rw [List.append_nil] at hread
  show decode _ (Symbol.ofChars e.toValue.compact.toList) = _
  rw [decode, hread]
  dsimp only
  rw [ask_of_holds hholds]
  rfl

end Event

/-! ## Bytes of a text -/

/-- The bytes of a text. -/
def bytesOf (text : String) : List UInt8 := text.toUTF8.data.toList

theorem bytesOf_eq (text : String) : bytesOf text = text.toList.flatMap String.utf8EncodeChar := by
  rw [bytesOf, String.toUTF8_eq_toByteArray]
  conv_lhs => rw [← String.ofList_toList (s := text), String.toByteArray_ofList]
  exact List.toList_data_toByteArray

theorem bytesOf_append (a b : String) : bytesOf (a ++ b) = bytesOf a ++ bytesOf b := by
  rw [bytesOf_eq, bytesOf_eq, bytesOf_eq, String.toList_append, List.flatMap_append]

/-- The bytes of a text are read as that text. -/
theorem chunkText?_bytesOf (text : String) : chunkText? (bytesOf text) = some text := by
  have hbytes : (⟨(bytesOf text).toArray⟩ : ByteArray) = text.toByteArray := rfl
  rw [chunkText?, hbytes, Symbol.fromUTF8?_toByteArray]

theorem bytesOf_ne_nil {text : String} (h : text ≠ "") : bytesOf text ≠ [] := by
  intro hnil
  have htext := chunkText?_bytesOf text
  rw [hnil, show [] = bytesOf "" from rfl, chunkText?_bytesOf, Option.some.injEq] at htext
  exact h htext.symm

/-- Only a line break has the byte of one in its code: the other bytes of longer codes are all beyond
    those of single characters. -/
theorem lineBreak_not_mem_utf8EncodeChar {c : Char} (hc : c ≠ '\n') :
    lineBreak ∉ String.utf8EncodeChar c := by
  have hbyte (n : Nat) (h : lineBreak = UInt8.ofNat n) : n % 256 = 10 := by
    rw [← UInt8.toNat_ofNat', ← h]
    rfl
  have hvalue : c.val.toNat ≠ 10 := fun h => hc (Char.ext (UInt32.toNat.inj h))
  intro hmem
  rw [String.utf8EncodeChar] at hmem
  -- a code of one byte is that character, all bytes of a longer one are from 128 on
  split at hmem
  · simp only [List.mem_singleton] at hmem
    have h := hbyte _ hmem
    omega
  · split at hmem
    · simp only [List.mem_cons, List.not_mem_nil, or_false] at hmem
      rcases hmem with h | h
      all_goals have h := hbyte _ h; omega
    · split at hmem
      · simp only [List.mem_cons, List.not_mem_nil, or_false] at hmem
        rcases hmem with h | h | h
        all_goals have h := hbyte _ h; omega
      · simp only [List.mem_cons, List.not_mem_nil, or_false] at hmem
        rcases hmem with h | h | h | h
        all_goals have h := hbyte _ h; omega

theorem lineBreak_not_mem_bytesOf {text : String} (h : '\n' ∉ text.toList) : lineBreak ∉ bytesOf text := by
  rw [bytesOf_eq, List.mem_flatMap]
  rintro ⟨c, hc, hbreak⟩
  exact lineBreak_not_mem_utf8EncodeChar (fun heq => h (heq ▸ hc)) hbreak

/-! ## Bracketed lines -/

/-- A text that begins and ends with the brackets of an object or of a sequence. -/
def IsBracketed (text : List Char) : Prop :=
  ∃ middle, text = '\x7b' :: (middle ++ ['\x7d']) ∨ text = '[' :: (middle ++ [']'])

/-- Without its outer blanks a line is what stands between its outer brackets. -/
theorem trimmed_of_isBracketed {body : List Char} (h : IsBracketed body) {before after : List Char}
    (hbefore : ∀ c ∈ before, Text.isBlank c = true) (hafter : ∀ c ∈ after, Text.isBlank c = true) :
    Text.trimmed (String.ofList (before ++ (body ++ after))) = String.ofList body := by
  have hreverse : ∀ c ∈ after.reverse, Text.isBlank c = true := fun c hc => hafter c (List.mem_reverse.1 hc)
  rw [Text.trimmed, String.toList_ofList, List.dropWhile_append_of_pos hbefore]
  obtain ⟨middle, rfl | rfl⟩ := h
  all_goals
    rw [List.cons_append, List.dropWhile_cons_of_neg (by decide), ← List.cons_append, List.reverse_append,
      List.dropWhile_append_of_pos hreverse, ← List.cons_append, List.reverse_append, List.reverse_singleton,
      List.singleton_append, List.dropWhile_cons_of_neg (by decide), List.reverse_cons, List.reverse_reverse]

/-- No bracketed text looks like a blank line or a comment. -/
theorem isSkipped_of_isBracketed {text : List Char} (h : IsBracketed text) :
    isSkipped (String.ofList text) = false := by
  obtain ⟨middle, rfl | rfl⟩ := h
  all_goals
    rw [isSkipped, Bool.or_eq_false_iff, String.toList_ofList, ← Bool.not_eq_true, String.isEmpty_iff]
    exact ⟨by simp, rfl⟩

/-! ## Events as lines -/

namespace Event

/-- The text of some events, one on each line. -/
def lines (events : List Event) : String := String.join (events.map fun e => e.toText ++ "\n")

/-- The line of an event. -/
def chunk (e : Event) : List UInt8 := bytesOf e.toText ++ [lineBreak]

theorem chunk_eq (e : Event) : e.chunk = bytesOf (e.toText ++ "\n") := by
  rw [bytesOf_append]
  rfl

theorem lineBreak_not_mem_toText (e : Event) : lineBreak ∉ bytesOf e.toText :=
  lineBreak_not_mem_bytesOf fun hbreak => absurd (hasNoControl_compact (isPlain_toValue e) _ hbreak) (by decide)

/-- The lines of the text of some events are the chunks of its bytes.  No event has a line break in its
    text, since control characters are escaped. -/
theorem chunks_bytesOf_lines (events : List Event) :
    chunks (bytesOf (lines events)) = events.map chunk := by
  have hbytes : bytesOf (lines events)
      = ((events.map fun e => bytesOf e.toText).map (· ++ [lineBreak])).flatten ++ [] := by
    rw [List.append_nil, List.map_map, lines]
    induction events with
    | nil => rfl
    | cons e events ih =>
        rw [List.map_cons, String.join_cons, bytesOf_append, ih, ← chunk_eq]
        rfl
  rw [hbytes, HeapProfile.chunks_lines, List.map_map]
  · exact List.append_nil _
  · exact List.forall_mem_map.2 fun e _ => lineBreak_not_mem_toText e

theorem isBracketed_toText (e : Event) : IsBracketed e.toText.toList :=
  ⟨_, Or.inl (toList_compact_object _)⟩

/-- Without its line break a line is the text of its event. -/
theorem trimmed_line (e : Event) : Text.trimmed (e.toText ++ "\n") = e.toText := by
  have hline := @trimmed_of_isBracketed _ e.isBracketed_toText [] ['\n'] (fun _ hc => nomatch hc)
    (List.forall_mem_singleton.2 (by decide))
  rwa [List.nil_append, String.ofList_append, String.ofList_toList] at hline

theorem isSkipped_toText (e : Event) : isSkipped e.toText = false := by
  rw [← String.ofList_toList (s := e.toText)]
  exact isSkipped_of_isBracketed e.isBracketed_toText

theorem chunkText?_chunk (e : Event) : chunkText? e.chunk = some (e.toText ++ "\n") := by
  rw [chunk_eq, chunkText?_bytesOf]

theorem isPassedOver_chunk (e : Event) : isPassedOver e.chunk = false := by
  rw [isPassedOver, chunkText?_chunk, Option.any_some, trimmed_line, isSkipped_toText]

theorem chunkAnswer_chunk (line : Nat) (e : Event) : chunkAnswer line e.chunk = .ok e := by
  rw [chunkAnswer, chunkText?_chunk]
  dsimp only
  rw [trimmed_line, ofText_toText]
  rfl

theorem textCount_chunks (events : List Event) : textCount (events.map chunk) = events.length := by
  induction events with
  | nil => rfl
  | cons e events ih =>
      have hline : textCount [e.chunk] = 1 := by
        rw [textCount, List.countP_singleton, chunkText?_chunk]
        rfl
      rw [List.map_cons, textCount_cons, hline, ih, List.length_cons, Nat.add_comm]

/-- Every line is answered by its event. -/
theorem getElem?_answersBehind (events : List Event) (lines n : Nat) :
    (answersBehind lines (events.map chunk))[n]? = events[n]?.map fun e => (.ok e, lines + n + 1) := by
  induction events generalizing lines n with
  | nil => rfl
  | cons e events ih =>
      have hline : textCount [e.chunk] = 1 := textCount_chunks [e]
      rw [List.map_cons, answersBehind_cons, isPassedOver_chunk, hline, chunkAnswer_chunk]
      cases n with
      | zero => rfl
      | succ n =>
          refine (ih (lines + 1) n).trans ?_
          rw [List.getElem?_cons_succ, Nat.add_right_comm lines 1 n, Nat.add_assoc lines n 1]

end Event

/-- **Written events are read back.**  The text of any events, one on each line, gives call after
call those events and then the end, with as many lines read as events; so a run takes the same steps
on the text as on the events themselves, and yields the same. -/
theorem LineSource.calls_read_lines (events : List Event) :
    let bytes := bytesOf (Event.lines events)
    (∀ n, ((ofBytes bytes).after n).next.1 = .ok events[n]?) ∧
    (∀ n, ((ofBytes bytes).after n).lines = min n events.length) ∧
    outcomes bytes = events.map .ok ∧
    ∀ stopNames boundary cancel, Run.run stopNames boundary cancel (outcomes bytes)
      = Run.run stopNames boundary cancel (events.map .ok) := by
  intro bytes
  have hsource : ofBytes bytes = ⟨events.map Event.chunk, 0⟩ :=
    congrArg (LineSource.mk · 0) (Event.chunks_bytesOf_lines events)
  have houtcomes : outcomes bytes = events.map .ok := by
    rw [outcomes, steps_eq, hsource]
    refine List.ext_getElem? fun n => ?_
    rw [List.getElem?_map, Event.getElem?_answersBehind, List.getElem?_map, Option.map_map]
    rfl
  refine ⟨fun n => ?_, fun n => ?_, houtcomes, fun _ _ _ => by rw [houtcomes]⟩
  · rw [(next_after _ n).1, hsource, Event.getElem?_answersBehind]
    cases events[n]? <;> rfl
  · cases n with
    | zero => rw [hsource, Nat.zero_min]; rfl
    | succ n =>
        rw [(next_after _ n).2, hsource, Event.getElem?_answersBehind, Event.textCount_chunks]
        by_cases hn : n < events.length
        · rw [List.getElem?_eq_getElem hn, Nat.min_eq_left hn]
          exact congrArg (· + 1) (Nat.zero_add n)
        · rw [List.getElem?_eq_none (Nat.le_of_not_lt hn), Nat.min_eq_right (by omega)]
          exact Nat.zero_add _

end HeapProfile
