import HeapProfile.Proofs.Spelling

/-!
# Documents — what is found in the compact form of a document

`Holds` says what is found in the text of a document, part by part.  By induction on how deep the
brackets nest, the compact form of a document of whole numbers holds that document, wherever it
stands; so reading undoes printing.

* **`value_of_holds`** — what holds a document has it as its value;
* **`reads_compact`** — the compact form of a document is read as that document, wherever it stands;
* **`parse_compact`** — a document is read back from its compact form;
* **`hasNoControl_compact`** — no control character stands in a compact form.
-/

namespace HeapProfile.Json

open HeapProfile.Symbol

/-- A name is found: as a string, and as a number where it is made of the digits of one. -/
structure Key.Spells (key : Key) (name : String) : Prop where
  text : key.text = .found name
  number : ∀ n : UInt64, name.toList = digits n → key.number = .found (.whole n)

/-- What is found in the text of a document whose brackets nest no deeper than the given number: all
of its parts, each with its value. -/
def Holds : Nat → Value → Reading → Prop
  | _, .null, r => ∃ span, r = .null span
  | _, .bool b, r => ∃ span, r = .bool span b
  | _, .number n, r => ∃ span, r = .number span (.found n)
  | _, .string s, r => ∃ span, r = .text span (.found s)
  | 0, .array _, _ => False
  | 0, .object _, _ => False
  | room + 1, .array values, r => ∃ start items place, r = .array start items (.found place) ∧
      List.Forall₂ (Holds room) values items
  | room + 1, .object members, r => ∃ start named place, r = .object start named (.found place) ∧
      List.Forall₂ (fun member m => m.1.Spells member.1 ∧ Holds room member.2 m.2) members named

/-- Documents that have whole numbers only, with brackets no deeper than the given number. -/
def IsPlain : Nat → Value → Prop
  | _, .null => True
  | _, .bool _ => True
  | _, .number n => ∃ word, n = .whole word
  | _, .string _ => True
  | 0, .array _ => False
  | 0, .object _ => False
  | room + 1, .array values => ∀ v ∈ values, IsPlain room v
  | room + 1, .object members => ∀ member ∈ members, IsPlain room member.2

/-- A plain document has no numbers but whole ones. -/
theorem exists_word_of_isPlain {room : Nat} {n : Number} (h : IsPlain room (.number n)) :
    ∃ word, n = .whole word := by
  cases room <;> exact h

/-- The value of what holds a document is that document, as long as its brackets nest no deeper than
    allowed.  The induction is on the depth, with the brackets inside one less. -/
theorem value_of_holds {room : Nat} {v : Value} {r : Reading} (h : Holds room v r) :
    r.value room = .ok v := by
  -- on the room that is left for brackets; between two brackets along the parts
  induction room generalizing v r with
  | zero =>
      cases v with
      | null | bool | number | string => obtain ⟨span, rfl⟩ := h; rfl
      | array | object => exact h.elim
  | succ room ih =>
      cases v with
      | null | bool | number | string => obtain ⟨span, rfl⟩ := h; rfl
      | array values =>
          obtain ⟨start, items, place, rfl, hitems⟩ := h
          have hvalues : Reading.itemValues room items = .ok values := by
            induction hitems with
            | nil => rfl
            | cons hitem _ ihitems => rw [Reading.itemValues, ih hitem, ihitems]; rfl
          rw [Reading.value, hvalues]
          rfl
      | object members =>
          obtain ⟨start, named, place, rfl, hnamed⟩ := h
          have hvalues : Reading.memberValues room named = .ok members := by
            induction hnamed with
            | nil => rfl
            | @cons member m _ _ hmember _ ihnamed =>
                rw [Reading.memberValues, hmember.1.text, ih hmember.2, ihnamed]
                rfl
          rw [Reading.value, hvalues]
          rfl

/-- Nothing is complained about what holds a document: whatever a reader complained about holds none. -/
theorem complaint?_of_holds {room : Nat} {v : Value} {r : Reading} (h : Holds room v r) :
    r.complaint? = none := by
  cases room with
  | zero =>
      cases v with
      | null | bool | number | string => obtain ⟨_, rfl⟩ := h; rfl
      | array | object => exact h.elim
  | succ room =>
      cases v with
      | null | bool | number | string => obtain ⟨_, rfl⟩ := h; rfl
      | array | object => obtain ⟨_, _, _, rfl, _⟩ := h; rfl

/-- A word is read where its letters stand, up to whatever stands behind them. -/
theorem readWord_self (start : Place) (found : Span → Reading) (letters : List Char)
    (rest : List Symbol) :
    readWord start found letters (ofChars letters ++ rest)
      = (found ⟨start, .before rest⟩, rest) := by
  induction letters with
  | nil => rfl
  | cons letter letters ih => rw [ofChars_cons, List.cons_append, readWord, if_pos rfl, ih]

/-- The letters of null are read as null. -/
theorem reads_null : Reads ['n', 'u', 'l', 'l'] fun r => ∃ span, r = .null span :=
  fun rest _ => ⟨.null _, readWord_self _ _ ['u', 'l', 'l'] rest, rfl, _, rfl⟩

/-- The letters of true are read as that truth value. -/
theorem reads_true : Reads ['t', 'r', 'u', 'e'] fun r => ∃ span, r = .bool span true :=
  fun rest _ =>
    ⟨.bool _ true, readWord_self _ (.bool · true) ['r', 'u', 'e'] rest, rfl, _, rfl⟩

/-- The letters of false are read as that truth value. -/
theorem reads_false : Reads ['f', 'a', 'l', 's', 'e'] fun r => ∃ span, r = .bool span false :=
  fun rest _ =>
    ⟨.bool _ false, readWord_self _ (.bool · false) ['a', 'l', 's', 'e'] rest, rfl, _, rfl⟩

/-- What is read as a number is read as a document.  Its first character tells the reader of documents
    that a number stands there. -/
theorem reads_number {c : Char} {cs : List Char} {n : Number} (hc : c = '-' ∨ c.isDigit = true)
    (h : ∀ rest, EndsNumber rest → readNumber (ofChars (c :: cs) ++ rest) = (.found n, rest)) :
    Reads (c :: cs) fun r => ∃ span, r = .number span (.found n) := by
  intro rest hrest
  have hread := h rest hrest
  rw [ofChars_cons, List.cons_append] at hread ⊢
  -- a blank would end the number that the digit begins
  have hblank : isBlank c = false := by
    rw [← Bool.not_eq_true]
    intro hblank
    rcases hc with rfl | hc
    · exact Bool.noConfusion hblank
    · have hdigit := (endsNumber_of_isBlank hblank [] c rfl).1
      rw [hc] at hdigit
      exact Bool.noConfusion hdigit
  have hquote : c ≠ '"' := by
    rintro rfl
    exact absurd hc (by decide)
  refine ⟨.number ⟨.seeing (.char c :: (ofChars cs ++ rest)), .seeing rest⟩ (.found n), ?_, rfl, _, rfl⟩
  rw [read, stepsFor, readValue, skipBlanks_of_not_isBlank hblank]
  dsimp only
  rw [if_neg hquote, if_pos hc, hread]

/-- A word is read from its digits. -/
theorem reads_digits (n : UInt64) :
    Reads (digits n) fun r => ∃ span, r = .number span (.found (.whole n)) := by
  have hread (rest : List Symbol) := @readNumber_digits n rest
  obtain ⟨c, cs, hcs, hc⟩ := exists_digits n
  rw [hcs] at hread ⊢
  exact reads_number (Or.inr hc) hread

/-- What is read as a string is read as a document between its quotes. -/
theorem reads_text {body : List Char} {s : String}
    (h : ∀ rest, readText {} (ofChars body ++ .char '"' :: rest) = (.found s, rest)) :
    Reads ('"' :: (body ++ ['"'])) fun r => ∃ span, r = .text span (.found s) := by
  intro rest _
  rw [ofChars_cons, List.cons_append, ofChars_append, List.append_assoc]
  refine ⟨.text ⟨.seeing (.char '"' :: (ofChars body ++ .char '"' :: rest)), .before rest⟩ (.found s), ?_,
    rfl, _, rfl⟩
  show read (.char '"' :: (ofChars body ++ .char '"' :: rest)) = _
  rw [read, stepsFor, readValue, skipBlanks_of_not_isBlank rfl]
  dsimp only
  rw [if_pos rfl, h]

/-- A string is read from its written form. -/
theorem reads_quote (s : String) :
    Reads (quote s).toList fun r => ∃ span, r = .text span (.found s) := by
  rw [quote, String.toList_ofList]
  exact reads_text (readText_escaped s)

/-- A decimal digit is no control character. -/
theorem le_toNat_of_isDigit {c : Char} (hc : c.isDigit = true) : 32 ≤ c.toNat := by
  rw [Char.isDigit, Bool.and_eq_true, decide_eq_true_iff] at hc
  exact Nat.le_trans (by decide) (UInt32.le_iff_toNat_le.1 hc.1)

/-- A decimal digit is written as it is. -/
theorem escapeChar_of_isDigit {c : Char} (hc : c.isDigit = true) : escapeChar c = [c] := by
  have hne (d : Char) (hd : d.isDigit = false) : c ≠ d := by
    rintro rfl
    exact absurd hc (by rw [hd]; exact Bool.false_ne_true)
  have hcontrol : ¬ c.toNat < 32 := Nat.not_lt.2 (le_toNat_of_isDigit hc)
  rw [escapeChar, if_neg (hne _ rfl), if_neg (hne _ rfl), if_neg (hne _ rfl), if_neg (hne _ rfl),
    if_neg (hne _ rfl), if_neg (hne _ rfl), if_neg (hne _ rfl), if_neg hcontrol]

/-- Digits are written as they are, so a number between quotes is its own digits. -/
theorem flatMap_escapeChar_digits (n : UInt64) : (digits n).flatMap escapeChar = digits n := by
  have hmap : (digits n).map escapeChar = (digits n).map fun c => [c] :=
    List.map_congr_left fun c hc => escapeChar_of_isDigit (isDigit_of_mem_digits hc)
  rw [List.flatMap_def, hmap, ← List.flatMap_def]
  exact List.flatMap_singleton' _

/-- Digits between quotes are read as their number. -/
theorem readQuotedNumber_digits (n : UInt64) (rest : List Symbol) :
    (readQuotedNumber (ofChars (digits n) ++ .char '"' :: rest)).1 = .found (.whole n) := by
  have hquote : EndsNumber (.char '"' :: rest) :=
    endsNumber_cons rfl (by decide) (by decide) (by decide) rest
  have hread := readNumber_digits n hquote
  obtain ⟨c, cs, hcs, hc⟩ := exists_digits n
  have hstarts : (c == '-' || c.isDigit) = true := by rw [hc, Bool.or_true]
  rw [hcs, ofChars_cons, List.cons_append] at hread ⊢
  rw [readQuotedNumber]
  dsimp only
  rw [if_pos hstarts, hread]
  rfl

/-- A name is read from its written form. -/
theorem readsName_escaped (name : String) :
    ReadsName (name.toList.flatMap escapeChar) fun key => key.Spells name := by
  intro rest
  have hread := readText_escaped name rest
  refine ⟨_, Prod.ext rfl ?_, ?_, ?_, fun n hn => ?_⟩
  case refine_4 =>
    rw [hn, flatMap_escapeChar_digits]
    exact readQuotedNumber_digits n rest
  all_goals rw [readKey, hread]
  rfl

/-- Items are printed each on its own.  The printer recurses on the list to be structural, and this is
    what it comes to. -/
theorem compactItems_eq (values : List Value) :
    Value.compactItems values = values.map Value.compact := by
  induction values with
  | nil => rfl
  | cons v values ih => rw [Value.compactItems, ih, List.map_cons]

/-- Members are printed each on its own, with the quoted name in front. -/
theorem compactMembers_eq (members : List (String × Value)) :
    Value.compactMembers members = members.map fun m => quote m.1 ++ ":" ++ m.2.compact := by
  induction members with
  | nil => rfl
  | cons m members ih => rw [Value.compactMembers, ih, List.map_cons]

/-- The written form of a name, a colon and the text of a document are read as a member. -/
theorem readsMember_compact {name : String} {text : List Char} {found : Reading → Prop}
    (h : Reads text found) :
    ReadsMember ((quote name).toList ++ ':' :: text) (fun key => key.Spells name) found := by
  refine ⟨[], name.toList.flatMap escapeChar, [], text, ?_, areBlanks_nil, areBlanks_nil,
    readsName_escaped name, h.readsItem⟩
  rw [quote, String.toList_ofList, List.append_assoc]
  rfl

/-- Whether a document has no brackets. -/
def isScalar : Value → Bool
  | .array _ => false
  | .object _ => false
  | _ => true

/-- The text of a whole number is its digits, without a point or an exponent. -/
theorem toList_text_whole (n : UInt64) : (Number.whole n).text.toList = digits n := by
  rw [Number.text, toList_toString]

/-- A document without brackets is read from its compact form. -/
theorem reads_scalar {room : Nat} {v : Value} (hscalar : isScalar v = true) (h : IsPlain room v) :
    Reads v.compact.toList (Holds room v) := by
  cases v with
  | array | object => exact nomatch hscalar
  | null => cases room <;> exact reads_null
  | bool b => cases b <;> cases room <;> first | exact reads_true | exact reads_false
  | string s => cases room <;> exact reads_quote s
  | number n =>
      obtain ⟨word, rfl⟩ := exists_word_of_isPlain h
      rw [Value.compact, toList_text_whole]
      cases room <;> exact reads_digits word

/-- The compact form of a sequence: the items with commas between them, in brackets and
    with no blanks. -/
theorem toList_compact_array (values : List Value) :
    (Value.array values).compact.toList
      = '[' :: ([','].intercalate (values.map fun v => v.compact.toList) ++ [']']) := by
  rw [Value.compact, compactItems_eq, String.toList_append, String.toList_append, separated,
    String.toList_intercalate, List.map_map]
  rfl

/-- The compact form of an object: names and values with colons between them, commas between the
    members, and no blanks. -/
theorem toList_compact_object (members : List (String × Value)) :
    (Value.object members).compact.toList
      = '\x7b' :: ([','].intercalate
          (members.map fun m => (quote m.1).toList ++ ':' :: m.2.compact.toList) ++ ['\x7d']) := by
  have hpart (m : String × Value) : (quote m.1 ++ ":" ++ m.2.compact).toList
      = (quote m.1).toList ++ ':' :: m.2.compact.toList := by
    rw [String.toList_append, String.toList_append, List.append_assoc]
    rfl
  rw [Value.compact, compactMembers_eq, String.toList_append, String.toList_append, separated,
    String.toList_intercalate, List.map_map]
  simp only [Function.comp_def, hpart]
  rfl

/-- **The compact form of a document is read as that document,** wherever it stands.  The induction is
    on how deep the brackets nest: parts are read by the induction hypothesis, and the comma or bracket
    behind a part ends it. -/
theorem reads_compact {room : Nat} {v : Value} (h : IsPlain room v) :
    Reads v.compact.toList (Holds room v) := by
  induction room generalizing v with
  | zero =>
      cases v with
      | null | bool | number | string => exact reads_scalar rfl h
      | array | object => exact h.elim
  | succ room ih =>
      cases v with
      | null | bool | number | string => exact reads_scalar rfl h
      | array values =>
          have hparts : List.Forall₂ (fun part v => ReadsItem part (Holds room v))
              (values.map fun v => v.compact.toList) values := by
            rw [List.forall₂_map_left_iff, List.forall₂_same]
            exact fun v hv => (ih (h v hv)).readsItem
          rw [toList_compact_array]
          exact reads_array hparts
      | object members =>
          have hparts : List.Forall₂
              (fun part member => ReadsMember part (fun key => key.Spells member.1)
                (Holds room member.2))
              (members.map fun m => (quote m.1).toList ++ ':' :: m.2.compact.toList) members := by
            rw [List.forall₂_map_left_iff, List.forall₂_same]
            exact fun m hm => readsMember_compact (ih (h m hm))
          rw [toList_compact_object]
          exact reads_object hparts

/-- **A document is read back from its compact form.**  There is nothing behind it, which ends a
    document as well as any sign does. -/
theorem parse_compact {v : Value} (h : IsPlain Reading.maxDepth v) : parse v.compact = .ok v := by
  obtain ⟨r, hread, -, hholds⟩ := reads_compact h [] endsNumber_nil
  rw [List.append_nil] at hread
  show decode _ (ofChars v.compact.toList) = _
  rw [decode, hread]
  dsimp only
  rw [value_of_holds hholds]
  rfl

/-! ## What stands in a compact form -/

/-- What stands in a text of parts stands in a part or between two of them.  So a character that no part
    has can only be the separator. -/
theorem mem_intercalate {separator c : Char} {parts : List (List Char)}
    (h : c ∈ [separator].intercalate parts) : c = separator ∨ ∃ part ∈ parts, c ∈ part := by
  induction parts with
  | nil => exact nomatch h
  | cons part parts ih =>
      cases parts with
      | nil =>
          rw [List.intercalate_singleton] at h
          exact Or.inr ⟨part, List.mem_cons_self, h⟩
      | cons next parts =>
          rw [List.intercalate_cons_cons, List.append_assoc, List.mem_append, List.mem_append,
            List.mem_singleton] at h
          rcases h with h | h | h
          · exact Or.inr ⟨part, List.mem_cons_self, h⟩
          · exact Or.inl h
          · rcases ih h with h | ⟨part', hpart', h⟩
            · exact Or.inl h
            · exact Or.inr ⟨part', List.mem_cons_of_mem _ hpart', h⟩

/-- Whether no control character stands in a text. -/
def HasNoControl (text : List Char) : Prop := ∀ c ∈ text, 32 ≤ c.toNat

instance (text : List Char) : Decidable (HasNoControl text) :=
  decidable_of_iff (text.all fun c => 32 ≤ c.toNat) (by simp [HasNoControl])

/-- Two texts without control characters have none together. -/
theorem HasNoControl.append {a b : List Char} (ha : HasNoControl a) (hb : HasNoControl b) :
    HasNoControl (a ++ b) :=
  List.forall_mem_append.2 ⟨ha, hb⟩

/-- One more character that is none keeps a text without control characters. -/
theorem HasNoControl.cons {c : Char} {text : List Char} (hc : 32 ≤ c.toNat) (h : HasNoControl text) :
    HasNoControl (c :: text) :=
  List.forall_mem_cons.2 ⟨hc, h⟩

/-- The empty text has no control character. -/
theorem hasNoControl_nil : HasNoControl [] := List.forall_mem_nil _

/-- Commas between texts without control characters bring none. -/
theorem hasNoControl_intercalate {parts : List (List Char)} (h : ∀ part ∈ parts, HasNoControl part) :
    HasNoControl ([','].intercalate parts) := by
  intro c hc
  rcases mem_intercalate hc with rfl | ⟨part, hpart, hc⟩
  · decide
  · exact h part hpart c hc

/-- Hexadecimal digits are no control characters. -/
theorem toNat_digitChar : ∀ d < 16, 32 ≤ (Nat.digitChar d).toNat := by decide

/-- **However a character is written**, no control character is among what is written: those that are
    control characters are escaped. -/
theorem hasNoControl_escapeChar (c : Char) : HasNoControl (escapeChar c) := by
  fun_cases escapeChar c with
  | case8 _ _ _ _ _ _ _ hcontrol =>
      have hhigh := toNat_digitChar (c.toNat / 16) (by omega)
      have hlow := toNat_digitChar (c.toNat % 16) (by omega)
      have hzeros : HasNoControl ['\\', 'u', '0', '0'] := by decide
      exact hzeros.append (.cons hhigh (.cons hlow hasNoControl_nil))
  | case9 _ _ _ _ _ _ _ hcontrol =>
      exact HasNoControl.cons (Nat.le_of_not_lt hcontrol) hasNoControl_nil
  | _ => decide

/-- So no quoted text has one. -/
theorem hasNoControl_quote (s : String) : HasNoControl (quote s).toList := by
  rw [quote, String.toList_ofList, List.cons_append]
  refine .cons (by decide) (.append (fun c hc => ?_) (.cons (by decide) hasNoControl_nil))
  obtain ⟨d, _, hc⟩ := List.mem_flatMap.1 hc
  exact hasNoControl_escapeChar d c hc

/-- Digits are no control characters. -/
theorem hasNoControl_digits (n : UInt64) : HasNoControl (digits n) :=
  fun _ hc => le_toNat_of_isDigit (isDigit_of_mem_digits hc)

/-- What has no brackets is printed without control characters; the induction over brackets
    begins here. -/
theorem hasNoControl_scalar {room : Nat} {v : Value} (hscalar : isScalar v = true)
    (h : IsPlain room v) : HasNoControl v.compact.toList := by
  cases v with
  | array | object => exact nomatch hscalar
  | null => exact (by decide : HasNoControl ['n', 'u', 'l', 'l'])
  | bool b =>
      cases b with
      | true => exact (by decide : HasNoControl ['t', 'r', 'u', 'e'])
      | false => exact (by decide : HasNoControl ['f', 'a', 'l', 's', 'e'])
  | string s => exact hasNoControl_quote s
  | number n =>
      obtain ⟨word, rfl⟩ := exists_word_of_isPlain h
      rw [Value.compact, toList_text_whole]
      exact hasNoControl_digits word

/-- **No control character stands in the compact form of a document.** -/
theorem hasNoControl_compact {room : Nat} {v : Value} (h : IsPlain room v) :
    HasNoControl v.compact.toList := by
  induction room generalizing v with
  | zero =>
      cases v with
      | null | bool | number | string => exact hasNoControl_scalar rfl h
      | array | object => exact h.elim
  | succ room ih =>
      cases v with
      | null | bool | number | string => exact hasNoControl_scalar rfl h
      | array values =>
          rw [toList_compact_array]
          refine .cons (by decide) (.append (hasNoControl_intercalate ?_)
            (.cons (by decide) hasNoControl_nil))
          exact List.forall_mem_map.2 fun v hv => ih (h v hv)
      | object members =>
          rw [toList_compact_object]
          refine .cons (by decide) (.append (hasNoControl_intercalate ?_)
            (.cons (by decide) hasNoControl_nil))
          exact List.forall_mem_map.2 fun m hm =>
            (hasNoControl_quote m.1).append (.cons (by decide) (ih (h m hm)))

end HeapProfile.Json
