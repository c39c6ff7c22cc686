import HeapProfile.Proofs.Acceptance
import HeapProfile.Proofs.RoundTrip

/-!
# Representations — an event is read from whatever text tells it

A text of an object is any layout of texts of its members: with blanks between all parts, with names spelled
in any way, and with every value that is accepted alone.  So whatever the order of its members, the members of
other names and the blanks, it is read as the event that its members tell; and likewise a text of a sequence.
Such a text stands between brackets, so as a line it is neither blank nor a comment, and it is read from its
line as it is read alone.

* **`Event.readFrom_of_encloses`** — what is read alone is read on a line;
* **`Event.told_in_any_form`** — an event is read from every text of an object or a sequence that tells it.
-/

namespace HeapProfile

open Json

/-! ## Lines -/

/-- The blanks between the parts of a document are blanks of a line. -/
theorem isBlank_of_areBlanks {gap : List Char} (h : AreBlanks gap) : ∀ c ∈ gap, Text.isBlank c = true := by
  intro c hc
  have hblank := h c hc
  simp only [isBlank, Bool.or_eq_true, beq_iff_eq] at hblank
  rcases hblank with ((rfl | rfl) | rfl) | rfl <;> rfl

namespace Event

/-- A text is read back as an event: alone, on a line of a stream in front of anything, and on the last line
of a stream. -/
structure ReadFrom (e : Event) (text : List Char) : Prop where
  alone : ofText (String.ofList text) = .ok e
  line : '\n' ∉ text → ∀ more lines,
    LineSource.next ⟨chunks (bytesOf (String.ofList text) ++ lineBreak :: more), lines⟩
      = (.ok (some e), ⟨chunks more, lines + 1⟩)
  lastLine : '\n' ∉ text → ∀ lines,
    LineSource.next ⟨chunks (bytesOf (String.ofList text)), lines⟩ = (.ok (some e), ⟨[], lines + 1⟩)

variable {e : Event}

/-- A line is read as what stands on it between its outer blanks. -/
theorem nextFrom_line {line : String} (hskip : isSkipped (Text.trimmed line) = false)
    (hread : ofText (Text.trimmed line) = .ok e) (pending : List (List UInt8)) (lines : Nat) :
    LineSource.nextFrom (bytesOf line :: pending) lines = (.ok (some e), ⟨pending, lines + 1⟩) := by
  rw [LineSource.nextFrom, chunkText?_bytesOf]
  dsimp only
  rw [hskip, hread]
  rfl

/-- What stands between brackets is read on a line, with blanks around it. -/
theorem nextFrom_of_isBracketed {before body after : List Char} (hbody : IsBracketed body)
    (hread : ofText (String.ofList body) = .ok e) (hbefore : AreBlanks before) (hafter : AreBlanks after)
    (pending : List (List UInt8)) (lines : Nat) :
    LineSource.nextFrom (bytesOf (String.ofList (before ++ (body ++ after))) :: pending) lines
      = (.ok (some e), ⟨pending, lines + 1⟩) := by
  have htrimmed := trimmed_of_isBracketed hbody (isBlank_of_areBlanks hbefore) (isBlank_of_areBlanks hafter)
  refine nextFrom_line ?_ ?_ pending lines
  · rw [htrimmed]
    exact isSkipped_of_isBracketed hbody
  · rw [htrimmed, hread]

/-- **What is read from brackets, whatever blanks stand around them, is read on a line.**  Blanks
    at both ends of a line are trimmed before anything is read, and a bracket is never the
    beginning of a comment. -/
theorem readFrom_of_encloses {opening closing : Char} {parts : List (List Char)} {text : List Char}
    (hbracketed : ∀ middle, IsBracketed (opening :: (middle ++ [closing])))
    (h : Encloses opening closing parts text)
    (hread : ∀ text, Encloses opening closing parts text → ofText (String.ofList text) = .ok e) :
    e.ReadFrom text := by
  refine ⟨hread text h, fun hbreak more lines => ?_, fun hbreak lines => ?_⟩
  all_goals
    rw [← String.toList_ofList (l := text)] at hbreak
    obtain ⟨before, after, rfl, hbefore, hafter⟩ := h
    have hbody := hbracketed ([','].intercalate parts)
    have hbare := hread _ ⟨[], [], rfl, areBlanks_nil, areBlanks_nil⟩
  · -- the line break belongs to the chunk, where it is one more blank
    have hchunk : bytesOf (String.ofList (before ++ opening :: ([','].intercalate parts ++ closing :: after)))
          ++ [lineBreak]
        = bytesOf (String.ofList (before ++ (opening :: ([','].intercalate parts ++ [closing])
          ++ (after ++ ['\n'])))) := by
      rw [show [lineBreak] = bytesOf (String.ofList ['\n']) from rfl, ← bytesOf_append,
        ← String.ofList_append]
      simp
    rw [LineSource.next, chunks_line (lineBreak_not_mem_bytesOf hbreak), hchunk]
    exact nextFrom_of_isBracketed hbody hbare hbefore (hafter.append (List.forall_mem_singleton.2 rfl)) _ _
  · have hne : String.ofList (before ++ opening :: ([','].intercalate parts ++ closing :: after)) ≠ "" := by
      simp
    rw [LineSource.next, chunks_of_not_mem (lineBreak_not_mem_bytesOf hbreak), if_neg (bytesOf_ne_nil hne)]
    have hline := nextFrom_of_isBracketed hbody hbare hbefore hafter [] lines
    rwa [List.cons_append, List.append_assoc] at hline

/-! ## Told events -/

theorem readFrom_of_denotesObject {text : List Char} {members : List (String × Value)}
    (h : DenotesObject EventKind.fieldDepth text members) (htold : e.ToldBy members) : e.ReadFrom text := by
  obtain ⟨parts, hencloses, hparts⟩ := h
  refine readFrom_of_encloses (fun _ => ⟨_, Or.inl rfl⟩) hencloses fun text htext => ?_
  rw [ofText, Symbol.ofString, String.toList_ofList]
  exact decode_object htext hparts fun start _ place hnamed => ask_of_told hnamed htold start place

theorem readFrom_of_denotesArray {text : List Char} {items : List Value}
    (h : DenotesArray EventKind.fieldDepth text items) (hlisted : e.ListedBy items) : e.ReadFrom text := by
  obtain ⟨parts, hencloses, hparts⟩ := h
  refine readFrom_of_encloses (fun _ => ⟨_, Or.inr rfl⟩) hencloses fun text htext => ?_
  rw [ofText, Symbol.ofString, String.toList_ofList]
  exact decode_array htext hparts fun start _ place hitems => ask_of_listed hitems hlisted start place

/-- **An event is read from whatever text tells it.**  The text is one that is accepted as an object whose
members tell the event, or as a sequence whose elements do; it is accepted in any layout, with any blanks. -/
theorem told_in_any_form (e : Event) (text : List Char) :
    (∀ members, Denotes Reading.maxDepth text (.object members) → e.ToldBy members → e.ReadFrom text) ∧
    (∀ items, Denotes Reading.maxDepth text (.array items) → e.ListedBy items → e.ReadFrom text) ∧
    (∀ members, DenotesObject EventKind.fieldDepth text members →
      Denotes Reading.maxDepth text (.object members)) ∧
    (∀ items, DenotesArray EventKind.fieldDepth text items →
      Denotes Reading.maxDepth text (.array items)) ∧
    ∀ depth v before after, AreBlanks before → AreBlanks after → Denotes depth text v →
      Denotes depth (before ++ (text ++ after)) v := by
  refine ⟨fun members h htold => ?_, fun items h hlisted => ?_, fun _ => denotes_of_denotesObject,
    fun _ => denotes_of_denotesArray, fun _ _ _ _ hbefore hafter h => h.around hbefore hafter⟩
  · have hne : members ≠ [] := by
      rintro rfl
      obtain ⟨_, _, htag⟩ := htold.kind
      exact nomatch htag
    exact readFrom_of_denotesObject ((denotes_object_iff hne).1 h) htold
  · have hne : items ≠ [] := by
      rintro rfl
      obtain ⟨_, _, _, _, _, _, hitems⟩ := hlisted
      exact nomatch hitems
    exact readFrom_of_denotesArray ((denotes_array_iff hne).1 h) hlisted

/-- An allocation under its other name, and a code address whose last three fields are left out. -/
theorem told_in_any_form_sample :
    (alloc ⟨3⟩ 128).ReadFrom
      "\x7b\"size\" :128, \"\\u0074ype\":\"allocation\",\"note\":[\x7b\"type\":null\x7d] , \"trace\":3\x7d".toList ∧
    (ip { address := 4096, function := ⟨2⟩ }).ReadFrom " [\"ip\", 4096,2]".toList := by
  have hname (s : String) : Denotes 0 (Value.string s).compact.toList (.string s) := denotes_compact trivial
  have hstring (s : String) : Denotes EventKind.fieldDepth (Value.string s).compact.toList (.string s) :=
    denotes_compact trivial
  have hword (n : UInt64) : Denotes EventKind.fieldDepth (Value.word n).compact.toList (.word n) :=
    denotes_compact ⟨n, rfl⟩
  have hblank : AreBlanks [' '] := List.forall_mem_singleton.2 rfl
  have hsize : DenotesMember EventKind.fieldDepth "\"size\" :128".toList ("size", .word 128) := by
    refine ⟨_, _, ?_, (hname "size").around areBlanks_nil hblank, hword 128⟩
    rfl
  have htype : DenotesMember EventKind.fieldDepth " \"\\u0074ype\":\"allocation\"".toList
      ("type", .string "allocation") := by
    have hspelled : Denotes 0 "\"\\u0074ype\"".toList (.string "type") := by
      refine @denotes_text "\\u0074ype".toList _ fun rest => ?_
      have hunit : hexQuad? (Symbol.ofChars "0074ype".toList ++ .char '"' :: rest)
          = .ok (116, Symbol.ofChars "ype".toList ++ .char '"' :: rest) := rfl
      show readText {} (.char '\\' :: .char 'u' :: (Symbol.ofChars "0074ype".toList ++ .char '"' :: rest)) = _
      rw [readText_hex _ hunit]
      show readText _ (.char 'y' :: .char 'p' :: .char 'e' :: .char '"' :: rest) = _
      rw [readText_char _ (by decide) (by decide) (by decide),
        readText_char _ (by decide) (by decide) (by decide),
        readText_char _ (by decide) (by decide) (by decide), readText_quote]
      rfl
    refine ⟨_, _, ?_, hspelled.around hblank areBlanks_nil, hstring "allocation"⟩
    rfl
  have hnote : DenotesMember EventKind.fieldDepth "\"note\":[\x7b\"type\":null\x7d] ".toList
      ("note", .array [.object [("type", .null)]]) := by
    have hitem : Denotes EventKind.fieldDepth (Value.array [.object [("type", .null)]]).compact.toList
        (.array [.object [("type", .null)]]) :=
      denotes_compact (List.forall_mem_singleton.2 (List.forall_mem_singleton.2 trivial))
    refine ⟨_, _, ?_, hname "note", hitem.around areBlanks_nil hblank⟩
    rfl
  have htrace : DenotesMember EventKind.fieldDepth " \"trace\":3".toList ("trace", .word 3) := by
    refine ⟨_, _, ?_, (hname "trace").around hblank areBlanks_nil, hword 3⟩
    rfl
  constructor
  · have hparts := List.Forall₂.cons hsize (.cons htype (.cons hnote (.cons htrace .nil)))
    refine (told_in_any_form _ _).1 _
      (denotes_of_denotesObject ⟨_, ⟨[], [], ?_, areBlanks_nil, areBlanks_nil⟩, hparts⟩)
      ⟨⟨"allocation", ?_, rfl⟩, ?_⟩
    · rfl
    · decide
    · exact List.forall_mem_cons.2 ⟨Or.inl rfl, List.forall_mem_singleton.2 (Or.inl rfl)⟩
  · have hparts := List.Forall₂.cons (hstring "ip")
      (.cons ((hword 4096).around hblank areBlanks_nil) (.cons (hword 2) .nil))
    refine (told_in_any_form _ _).2.1 _
      (denotes_of_denotesArray ⟨_, ⟨[' '], [], ?_, hblank, areBlanks_nil⟩, hparts⟩)
      ⟨"ip", ?_, [("address", .word 4096), ("function", .word32 2)], _, rfl, ?_, ?_⟩
    · rfl
    · decide
    · have hzero : ∀ field ∈ [("file", Value.word32 0), ("module", .word32 0), ("line", .word32 0)],
          field.1 ∈ EventKind.ip.optional ∧ field.2 = .word32 0 := by
        simp [EventKind.optional]
      exact hzero
    · rfl

end Event

end HeapProfile
