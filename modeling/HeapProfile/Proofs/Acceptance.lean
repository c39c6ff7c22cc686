import HeapProfile.Proofs.Decoding
import HeapProfile.Proofs.Indentation
import HeapProfile.Proofs.Lexemes

/-!
# Acceptance — what is accepted alone is read wherever it stands

A text that is accepted as a value, alone and with any blanks around it, is read as the same value wherever it
stands as a part of a document.  The reader takes a value from the beginning of a text and leaves the rest, so
this comes down to one induction on the steps of the reader: what is taken is a part of its own, and if it is
a string, a sequence or an object, its parts are again accepted.  So the accepted texts of sequences and
objects are known by their layout: accepted parts with commas between them, in brackets.

* **`readItems_cases`** and **`readMembers_cases`** — one step inside brackets;
* **`begins`** — whatever has a value is read from a part that is read wherever it stands;
* **`denotes_iff`** — being accepted alone and being read wherever it stands are the same;
* **`denotes_array_iff`** and **`denotes_object_iff`** — the layout of accepted sequences and objects.
-/

namespace HeapProfile.Json

open HeapProfile.Symbol

/-! ## Accepted readings -/

theorem Reads.imp {text : List Char} {found found' : Reading → Prop} (h : Reads text found)
    (himp : ∀ r, r.complaint? = none → found r → found' r) : Reads text found' := by
  intro rest hrest
  obtain ⟨r, hread, hcomplaint, hfound⟩ := h rest hrest
  exact ⟨r, hread, hcomplaint, himp r hcomplaint hfound⟩

/-- Parts of a text are read as elements of a sequence, wherever they stand. -/
abbrev AreItems (depth : Nat) (parts : List (List Char)) (values : List Value) : Prop :=
  List.Forall₂ (fun part v => ReadsItem part (Accepted depth v)) parts values

/-- Parts of a text are read as members of an object, wherever they stand. -/
abbrev AreMembers (depth : Nat) (parts : List (List Char)) (members : List (String × Value)) : Prop :=
  List.Forall₂ (fun part member => ReadsMember part (fun key => key.text.value = .ok member.1)
    (Accepted depth member.2)) parts members

section

variable {depth : Nat} {parts : List (List Char)}

/-- Parts that are read as accepted elements make an accepted sequence. -/
theorem reads_accepted_array {values : List Value} (h : AreItems depth parts values) :
    Reads ('[' :: ([','].intercalate parts ++ [']'])) (Accepted (depth + 1) (.array values)) := by
  refine (reads_array h).imp fun r hcomplaint => ?_
  rintro ⟨start, items, place, rfl, hitems⟩
  refine ⟨hcomplaint, ?_⟩
  rw [Reading.value, itemValues_of_accepted hitems]
  rfl

/-- Parts that are read as accepted members make an accepted object. -/
theorem reads_accepted_object {members : List (String × Value)} (h : AreMembers depth parts members) :
    Reads ('\x7b' :: ([','].intercalate parts ++ ['\x7d'])) (Accepted (depth + 1) (.object members)) := by
  refine (reads_object h).imp fun r hcomplaint => ?_
  rintro ⟨start, named, place, rfl, hnamed⟩
  refine ⟨hcomplaint, ?_⟩
  rw [Reading.value, memberValues_of_accepted hnamed]
  rfl

end

/-! ## Sequences -/

section

variable {depth steps : Nat} {start : Place} {text behind : List Symbol} {r : Reading} {v : Value}

/-- A sequence whose closing bracket is missing has no value. -/
theorem value_array_missing {items : List Reading} {closing : Lexeme Place} {complaint : Complaint}
    (hclosing : closing.value = .error complaint) :
    (Reading.array start items closing).value depth ≠ .ok v := by
  intro h
  obtain ⟨_, _, _, -, -, hfound, -⟩ := value_array_ok h
  rw [hfound] at hclosing
  cases hclosing

/-- An object whose closing brace is missing has no value. -/
theorem value_object_missing {members : List (Key × Reading)} {closing : Lexeme Place}
    {complaint : Complaint} (hclosing : closing.value = .error complaint) :
    (Reading.object start members closing).value depth ≠ .ok v := by
  intro h
  obtain ⟨_, _, _, -, -, hfound, -⟩ := value_object_ok h
  rw [hfound] at hclosing
  cases hclosing

/-- Where an element is due in a sequence that has a value, one is read, and behind it the sequence goes on or
is closed. -/
theorem readItems_cases {found : List Reading} (h : readItems steps start found text = (r, behind))
    (hv : r.value depth = .ok v) :
    ∃ fewer item next, steps = fewer + 1 ∧ readValue fewer text = (item, next) ∧
      item.complaint? = none ∧
      ((∃ rest, skipBlanks next = .char ',' :: rest ∧
          readItems fewer start (item :: found) rest = (r, behind)) ∨
        (skipBlanks next = .char ']' :: behind ∧
          ∃ place, r = .array start (item :: found).reverse (.found place))) := by
  cases steps with
  | zero =>
      rw [readItems] at h
      cases h
      exact absurd hv (value_array_missing rfl)
  | succ fewer =>
      have hstep := readItems_step fewer start found text
      rw [h] at hstep
      cases hstep with
      | unfinished hclosing _ => exact absurd hv (value_array_missing hclosing)
      | onward hread hcomplaint hskip hrest =>
          exact ⟨fewer, _, _, rfl, hread, hcomplaint, Or.inl ⟨_, hskip, hrest⟩⟩
      | closed hread hcomplaint hskip =>
          exact ⟨fewer, _, _, rfl, hread, hcomplaint, Or.inr ⟨hskip, _, rfl⟩⟩

/-- Behind the name of a member of which nothing is complained about stands a colon. -/
theorem readBehindName_cases {readNext : List Symbol → Reading × List Symbol}
    (h : readBehindName readNext text = (r, behind)) (hcomplaint : r.complaint? = none) :
    ∃ more, skipBlanks text = .char ':' :: more ∧ readNext more = (r, behind) := by
  rw [readBehindName] at h
  split at h
  · cases h
    cases hcomplaint
  · next more hcolon => exact ⟨more, hcolon, h⟩
  · cases h
    cases hcomplaint

/-- Where a member is due in an object that has a value, a name, a colon and an element are read, and behind
them the object goes on or is closed. -/
theorem readMembers_cases {found : List (Key × Reading)}
    (h : readMembers steps start found text = (r, behind)) (hv : r.value depth = .ok v) :
    ∃ fewer name key next more item last, steps = fewer + 1 ∧ skipBlanks text = .char '"' :: name ∧
      readKey name = (key, next) ∧ key.text.complaint? = none ∧ skipBlanks next = .char ':' :: more ∧
      readValue fewer more = (item, last) ∧ item.complaint? = none ∧
      ((∃ rest, skipBlanks last = .char ',' :: rest ∧
          readMembers fewer start ((key, item) :: found) rest = (r, behind)) ∨
        (skipBlanks last = .char '\x7d' :: behind ∧
          ∃ place, r = .object start ((key, item) :: found).reverse (.found place))) := by
  cases steps with
  | zero =>
      rw [readMembers] at h
      cases h
      exact absurd hv (value_object_missing rfl)
  | succ fewer =>
      have hstep := readMembers_step fewer start found text
      rw [h] at hstep
      cases hstep with
      | unnamed hclosing _ => exact absurd hv (value_object_missing hclosing)
      | unfinished _ hclosing _ => exact absurd hv (value_object_missing hclosing)
      | onward hquote hkey hnamed hbehind hcomplaint hskip hrest =>
          obtain ⟨_, hcolon, hread⟩ := readBehindName_cases hbehind hcomplaint
          exact ⟨fewer, _, _, _, _, _, _, rfl, hquote, hkey, hnamed, hcolon, hread, hcomplaint,
            Or.inl ⟨_, hskip, hrest⟩⟩
      | closed hquote hkey hnamed hbehind hcomplaint hskip =>
          obtain ⟨_, hcolon, hread⟩ := readBehindName_cases hbehind hcomplaint
          exact ⟨fewer, _, _, _, _, _, _, rfl, hquote, hkey, hnamed, hcolon, hread, hcomplaint,
            Or.inr ⟨hskip, _, rfl⟩⟩

/-- What was found before stays in front of a sequence.  The induction is on the steps, and it is needed
    because the reader hands the elements on in reverse. -/
theorem readItems_extends {found : List Reading} (h : readItems steps start found text = (r, behind))
    (hv : r.value depth = .ok v) :
    ∃ items closing, r = .array start (found.reverse ++ items) closing := by
  induction steps generalizing found text with
  | zero =>
      obtain ⟨_, _, _, hsteps, -⟩ := readItems_cases h hv
      exact nomatch hsteps
  | succ steps ih =>
      obtain ⟨_, item, _, hsteps, -, -, ⟨rest, -, hrest⟩ | ⟨-, place, rfl⟩⟩ := readItems_cases h hv
      · cases hsteps
        obtain ⟨items, closing, rfl⟩ := ih hrest
        exact ⟨item :: items, closing, by rw [List.reverse_cons, List.append_assoc]; rfl⟩
      · exact ⟨[item], _, by rw [List.reverse_cons]⟩

/-- What was found before stays in front of an object.  By induction on the steps, a
    member at a time. -/
theorem readMembers_extends {found : List (Key × Reading)}
    (h : readMembers steps start found text = (r, behind)) (hv : r.value depth = .ok v) :
    ∃ members closing, r = .object start (found.reverse ++ members) closing := by
  induction steps generalizing found text with
  | zero =>
      obtain ⟨_, _, _, _, _, _, _, hsteps, -⟩ := readMembers_cases h hv
      exact nomatch hsteps
  | succ steps ih =>
      obtain ⟨_, _, key, _, _, item, _, hsteps, -, -, -, -, -, -, hcases⟩ := readMembers_cases h hv
      rcases hcases with ⟨rest, -, hrest⟩ | ⟨-, place, rfl⟩
      · cases hsteps
        obtain ⟨members, closing, rfl⟩ := ih hrest
        exact ⟨(key, item) :: members, closing, by rw [List.reverse_cons, List.append_assoc]; rfl⟩
      · exact ⟨[(key, item)], _, by rw [List.reverse_cons]⟩

end

/-! ## Parts of an accepted text -/

/-- Blanks at the beginning of a text are passed over, and nothing else.  Unlike symbols, the characters
    can be put in front of another text afterwards. -/
theorem exists_blanks (text : List Char) :
    ∃ gap rest, text = gap ++ rest ∧ AreBlanks gap ∧ skipBlanks (ofChars text) = ofChars rest := by
  induction text with
  | nil => exact ⟨[], [], rfl, areBlanks_nil, rfl⟩
  | cons c text ih =>
      by_cases hc : isBlank c = true
      · obtain ⟨gap, rest, rfl, hgap, hskip⟩ := ih
        refine ⟨c :: gap, rest, rfl, List.forall_mem_cons.2 ⟨hc, hgap⟩, ?_⟩
        rw [ofChars_cons, skipBlanks, if_pos hc, hskip]
      · refine ⟨[], c :: text, rfl, areBlanks_nil, ?_⟩
        rw [ofChars_cons, skipBlanks, if_neg hc]

theorem exists_of_skipBlanks {text : List Char} {c : Char} {more : List Symbol}
    (h : skipBlanks (ofChars text) = .char c :: more) :
    ∃ gap after, text = gap ++ c :: after ∧ AreBlanks gap ∧ more = ofChars after := by
  obtain ⟨gap, rest, rfl, hgap, hskip⟩ := exists_blanks text
  rw [h] at hskip
  cases rest with
  | nil => exact nomatch hskip
  | cons d after =>
      cases hskip
      exact ⟨gap, after, rfl, hgap, rfl⟩

/-- A text is a string between its quotes, behind blanks. -/
def IsQuoted (text : List Char) (s : String) : Prop :=
  ∃ gap name, text = gap ++ '"' :: (name ++ ['"']) ∧ AreBlanks gap ∧
    ReadsName name fun key => key.text.value = .ok s

/-- How the text of a value is made up: a string of its quotes and what stands between them, a sequence or an
object, unless it is empty, of its brackets and its parts. -/
def HasShape (depth : Nat) (text : List Char) : Value → Prop
  | .string s => IsQuoted text s
  | .array values => values ≠ [] → ∃ inside gap parts, depth = inside + 1 ∧ AreBlanks gap ∧
      text = gap ++ '[' :: ([','].intercalate parts ++ [']']) ∧ AreItems inside parts values
  | .object members => members ≠ [] → ∃ inside gap parts, depth = inside + 1 ∧ AreBlanks gap ∧
      text = gap ++ '\x7b' :: ([','].intercalate parts ++ ['\x7d']) ∧ AreMembers inside parts members
  | _ => True

/-- A text begins with a part that is read as a value wherever it stands, and the rest is behind it. -/
def BeginsWith (depth : Nat) (text : List Char) (v : Value) (behind : List Symbol) : Prop :=
  ∃ body after, text = body ++ after ∧ behind = ofChars after ∧ Reads body (Accepted depth v) ∧
    HasShape depth body v

section

variable {depth : Nat} {gap text : List Char} {v : Value} {behind : List Symbol}

/-- A part that is read behind blanks is a beginning with them. -/
theorem beginsWith_of_reads (hgap : AreBlanks gap) {body after : List Char}
    (h : Reads body (Accepted depth v)) (hshape : HasShape depth (gap ++ body) v) :
    BeginsWith depth (gap ++ (body ++ after)) v (ofChars after) :=
  ⟨gap ++ body, after, (List.append_assoc _ _ _).symm, rfl, h.before hgap, hshape⟩

theorem readsName_of_readText {name : List Char} {s : String}
    (h : ∀ rest, readText {} (ofChars name ++ .char '"' :: rest) = (.found s, rest)) :
    ReadsName name fun key => key.text.value = .ok s := by
  intro rest
  refine ⟨_, Prod.ext rfl ?_, ?_, ?_⟩
  all_goals rw [readKey, h]
  all_goals rfl

theorem beginsWith_text (hgap : AreBlanks gap) {lexeme : Lexeme String} {span : Span}
    (h : readText {} (ofChars text) = (lexeme, behind))
    (hv : (Reading.text span lexeme).value depth = .ok v) :
    BeginsWith depth (gap ++ '"' :: text) v behind := by
  obtain ⟨s, hs, rfl⟩ := value_text_ok hv
  obtain ⟨-, name, after, rfl, rfl, hread⟩ := readText_ok h hs
  refine ⟨gap ++ '"' :: (name ++ ['"']), after, by simp, rfl, ?_,
    gap, name, rfl, hgap, readsName_of_readText hread⟩
  refine Reads.before ((reads_text hread).imp fun r _ h => accepted_of_holds (v := .string s) ?_) hgap
  cases depth <;> exact h

/-- A number that has a value is a part that is read wherever it stands.  It begins with a sign or a
    digit, so no other reading competes for it. -/
theorem beginsWith_number (hgap : AreBlanks gap) {c : Char} (hc : c = '-' ∨ c.isDigit = true)
    {lexeme : Lexeme Number} {span : Span} (h : readNumber (.char c :: ofChars text) = (lexeme, behind))
    (hv : (Reading.number span lexeme).value depth = .ok v) :
    BeginsWith depth (gap ++ c :: text) v behind := by
  obtain ⟨n, hn, rfl⟩ := value_number_ok hv
  have hok : (readNumber (ofChars (c :: text))).1.value = .ok n := by
    rw [ofChars_cons, h]
    exact hn
  obtain ⟨body, after, rfl, hbehind, htakes⟩ := readNumber_ok hok
  rw [ofChars_cons, h] at hbehind
  obtain rfl : behind = ofChars after := hbehind
  refine beginsWith_of_reads hgap
    ((reads_number hc htakes).imp fun r _ h => accepted_of_holds (v := .number n) ?_) trivial
  cases depth <;> exact h

/-- A word that has a value is there in full.  By induction on its letters; at the first one that
    differs, or at the end of the text, the reading has no value. -/
theorem readWord_ok {start : Place} {found : Span → Reading} {letters : List Char} {r : Reading}
    (h : readWord start found letters (ofChars text) = (r, behind)) (hv : r.value depth = .ok v) :
    ∃ after span, text = letters ++ after ∧ behind = ofChars after ∧ r = found span := by
  induction letters generalizing text with
  | nil =>
      cases h
      exact ⟨text, _, rfl, rfl, rfl⟩
  | cons letter letters ih =>
      cases text with
      | nil =>
          cases h
          cases depth <;> cases hv
      | cons c text =>
          rw [ofChars_cons, readWord] at h
          split at h
          · next hletter =>
            obtain ⟨after, span, rfl, hbehind, hfound⟩ := ih h
            cases hletter
            exact ⟨after, span, rfl, hbehind, hfound⟩
          · cases h
            cases depth <;> cases hv

/-- What ends a part ends it wherever the part stands.  This is how the commas of the text that was
    accepted become the ends of parts that are read on their own. -/
theorem BeginsWith.part {next more : List Symbol} {c : Char} (h : BeginsWith depth text v next)
    (hskip : skipBlanks next = .char c :: more) :
    ∃ part after, text = part ++ c :: after ∧ more = ofChars after ∧
      ReadsItem part (Accepted depth v) := by
  obtain ⟨body, _, rfl, rfl, hreads, -⟩ := h
  obtain ⟨gap, after, rfl, hgap, rfl⟩ := exists_of_skipBlanks hskip
  exact ⟨body ++ gap, after, (List.append_assoc _ _ _).symm, rfl, body, gap, rfl, hgap, hreads⟩

end

/-! ## Brackets -/

/-- Whatever has a value is read, in so many steps, from a part that is read wherever it stands. -/
def ValuesBegin (steps : Nat) : Prop := ∀ {text r behind depth v},
  readValue steps (ofChars text) = (r, behind) → r.value depth = .ok v → BeginsWith depth text v behind

/-- Elements of a sequence that has a value are read, in so many steps, from parts that are read wherever they
stand. -/
def ItemsBegin (steps : Nat) : Prop :=
  ∀ {start found items closing text behind depth inside v values},
    readItems steps start found (ofChars text) = (.array start (found.reverse ++ items) closing, behind) →
    (Reading.array start (found.reverse ++ items) closing).value depth = .ok v →
    Reading.itemValues inside items = .ok values →
    ∃ parts after, text = [','].intercalate parts ++ ']' :: after ∧ parts ≠ [] ∧
      behind = ofChars after ∧ AreItems inside parts values

/-- A text between its first part and the other ones. -/
theorem append_intercalate {part : List Char} {parts : List (List Char)} (hne : parts ≠ [])
    (after : List Char) :
    part ++ ',' :: ([','].intercalate parts ++ after) = [','].intercalate (part :: parts) ++ after := by
  cases parts with
  | nil => exact absurd rfl hne
  | cons next parts => rw [List.intercalate_cons_cons, List.append_assoc, List.append_assoc]; rfl

/-- One step more, for elements: the first one begins what is left of the text, and a comma behind it
    leads on with a step less. -/
theorem itemsBegin_succ {steps : Nat} (hvalues : ValuesBegin steps) (hitems : ItemsBegin steps) :
    ItemsBegin (steps + 1) := by
  intro start found items closing text behind depth inside v values h hv hvs
  obtain ⟨_, item, next, hsteps, hread, -, hcases⟩ := readItems_cases h hv
  cases hsteps
  rcases hcases with ⟨rest, hskip, hrest⟩ | ⟨hskip, place, hlast⟩
  · obtain ⟨more, _, hextends⟩ := readItems_extends hrest hv
    have hfound : found.reverse ++ item :: more = (item :: found).reverse ++ more := by
      rw [List.reverse_cons, List.append_assoc]
      rfl
    obtain rfl : items = item :: more :=
      List.append_cancel_left ((Reading.array.inj hextends).2.1.trans hfound.symm)
    obtain ⟨first, hfirst, hvs⟩ := bind_eq_ok.1 hvs
    obtain ⟨others, hothers, hvs⟩ := bind_eq_ok.1 hvs
    cases hvs
    obtain ⟨part, after, rfl, rfl, hpart⟩ := (hvalues hread hfirst).part hskip
    rw [hfound] at hrest hv
    obtain ⟨parts, after, rfl, hne, hbehind, hparts⟩ := hitems hrest hv hothers
    refine ⟨part :: parts, after, ?_, List.cons_ne_nil _ _, hbehind, .cons hpart hparts⟩
    exact append_intercalate hne _
  · obtain rfl : items = [item] := by
      rw [List.reverse_cons] at hlast
      exact List.append_cancel_left (Reading.array.inj hlast).2.1
    obtain ⟨first, hfirst, hvs⟩ := bind_eq_ok.1 hvs
    cases hvs
    obtain ⟨part, after, rfl, hbehind, hpart⟩ := (hvalues hread hfirst).part hskip
    exact ⟨[part], after, by rw [List.intercalate_singleton], List.cons_ne_nil _ _, hbehind,
      .cons hpart .nil⟩

/-- Members of an object that has a value are read, in so many steps, from parts that are read wherever they
stand. -/
def MembersBegin (steps : Nat) : Prop :=
  ∀ {start found members closing text behind depth inside v values},
    readMembers steps start found (ofChars text)
      = (.object start (found.reverse ++ members) closing, behind) →
    (Reading.object start (found.reverse ++ members) closing).value depth = .ok v →
    Reading.memberValues inside members = .ok values →
    ∃ parts after, text = [','].intercalate parts ++ '\x7d' :: after ∧ parts ≠ [] ∧
      behind = ofChars after ∧ AreMembers inside parts values

/-- A name between quotes, a colon and an element are a member, which is read wherever it stands: its
    name up to the quote, its element up to the sign behind it. -/
theorem exists_member {inside steps : Nat} (hvalues : ValuesBegin steps) {text : List Char}
    {name next more last rest : List Symbol} {key : Key} {item : Reading} {n : String} {v : Value} {c : Char}
    (hquote : skipBlanks (ofChars text) = .char '"' :: name) (hkey : readKey name = (key, next))
    (hname : key.text.value = .ok n) (hcolon : skipBlanks next = .char ':' :: more)
    (hread : readValue steps more = (item, last)) (hitem : item.value inside = .ok v)
    (hskip : skipBlanks last = .char c :: rest) :
    ∃ part after, text = part ++ c :: after ∧ rest = ofChars after ∧
      ReadsMember part (fun key => key.text.value = .ok n) (Accepted inside v) := by
  obtain ⟨before, name, rfl, hbefore, rfl⟩ := exists_of_skipBlanks hquote
  have htext : readText {} (ofChars name) = (key.text, next) := by
    rw [readKey] at hkey
    cases hkey
    rfl
  obtain ⟨-, name, after, rfl, rfl, hname⟩ := readText_ok htext hname
  obtain ⟨between, after, rfl, hbetween, rfl⟩ := exists_of_skipBlanks hcolon
  obtain ⟨part, after, rfl, rfl, hpart⟩ := (hvalues hread hitem).part hskip
  refine ⟨before ++ '"' :: (name ++ '"' :: (between ++ ':' :: part)), after, by simp, rfl, ?_⟩
  exact ⟨before, name, between, part, rfl, hbefore, hbetween, readsName_of_readText hname, hpart⟩

/-- One step more, for members: a name, a colon and an element begin what is left of the text, and a
    comma behind them leads on with a step less. -/
theorem membersBegin_succ {steps : Nat} (hvalues : ValuesBegin steps) (hmembers : MembersBegin steps) :
    MembersBegin (steps + 1) := by
  intro start found members closing text behind depth inside v values h hv hvs
  obtain ⟨_, name, key, next, more, item, last, hsteps, hquote, hkey, -, hcolon, hread, -, hcases⟩ :=
    readMembers_cases h hv
  cases hsteps
  rcases hcases with ⟨rest, hskip, hrest⟩ | ⟨hskip, place, hlast⟩
  · obtain ⟨others, _, hextends⟩ := readMembers_extends hrest hv
    have hfound : found.reverse ++ (key, item) :: others = ((key, item) :: found).reverse ++ others := by
      rw [List.reverse_cons, List.append_assoc]
      rfl
    obtain rfl : members = (key, item) :: others :=
      List.append_cancel_left ((Reading.object.inj hextends).2.1.trans hfound.symm)
    obtain ⟨first, hfirst, hvs⟩ := bind_eq_ok.1 hvs
    obtain ⟨value, hvalue, hvs⟩ := bind_eq_ok.1 hvs
    obtain ⟨values, hvalues', hvs⟩ := bind_eq_ok.1 hvs
    cases hvs
    obtain ⟨part, after, rfl, rfl, hpart⟩ :=
      exists_member hvalues hquote hkey hfirst hcolon hread hvalue hskip
    rw [hfound] at hrest hv
    obtain ⟨parts, after, rfl, hne, hbehind, hparts⟩ := hmembers hrest hv hvalues'
    refine ⟨part :: parts, after, ?_, List.cons_ne_nil _ _, hbehind, .cons hpart hparts⟩
    exact append_intercalate hne _
  · obtain rfl : members = [(key, item)] := by
      rw [List.reverse_cons] at hlast
      exact List.append_cancel_left (Reading.object.inj hlast).2.1
    obtain ⟨first, hfirst, hvs⟩ := bind_eq_ok.1 hvs
    obtain ⟨value, hvalue, hvs⟩ := bind_eq_ok.1 hvs
    cases hvs
    obtain ⟨part, after, rfl, hbehind, hpart⟩ :=
      exists_member hvalues hquote hkey hfirst hcolon hread hvalue hskip
    exact ⟨[part], after, by rw [List.intercalate_singleton], List.cons_ne_nil _ _, hbehind,
      .cons hpart .nil⟩

section

variable {steps depth : Nat} {gap text : List Char} {r : Reading} {v : Value} {behind : List Symbol}
  {start : Place}

/-- An empty sequence that has a value is a part that is read wherever it stands: its brackets, with
    blanks between them. -/
theorem beginsWith_noItems (hgap : AreBlanks gap) {place : Place}
    (hskip : skipBlanks (ofChars text) = .char ']' :: behind)
    (hv : (Reading.array start [] (.found place)).value depth = .ok v) :
    BeginsWith depth (gap ++ '[' :: text) v behind := by
  obtain ⟨inside, values, _, rfl, hvalues, -, rfl⟩ := value_array_ok hv
  cases hvalues
  obtain ⟨between, after, rfl, hbetween, rfl⟩ := exists_of_skipBlanks hskip
  have hreads : Reads ('[' :: (between ++ [']'])) (Accepted (inside + 1) (.array [])) := by
    intro rest _
    have hclosed : skipBlanks (ofChars (between ++ [']']) ++ rest) = .char ']' :: rest := by
      rw [ofChars_append, List.append_assoc, skipBlanks_append hbetween]
      exact skipBlanks_of_not_isBlank rfl rest
    exact ⟨_, read_noItems hclosed, rfl, rfl, rfl⟩
  have hbegins := @beginsWith_of_reads (inside + 1) gap _ hgap _ after hreads (absurd rfl)
  simpa using hbegins

/-- A sequence that has a value is a part that is read wherever it stands. -/
theorem beginsWith_items (hitems : ItemsBegin steps) (hgap : AreBlanks gap)
    (h : readItems steps start [] (ofChars text) = (r, behind)) (hv : r.value depth = .ok v) :
    BeginsWith depth (gap ++ '[' :: text) v behind := by
  obtain ⟨items, closing, rfl⟩ := readItems_extends h hv
  obtain ⟨inside, values, place, rfl, hvalues, -, rfl⟩ := value_array_ok hv
  obtain ⟨parts, after, rfl, -, rfl, hparts⟩ := hitems h hv hvalues
  have hbegins := @beginsWith_of_reads (inside + 1) gap _ hgap _ after (reads_accepted_array hparts)
    fun _ => ⟨inside, gap, parts, rfl, hgap, rfl, hparts⟩
  simpa using hbegins

/-- An empty object that has a value is a part that is read wherever it stands: its braces, with blanks
    between them. -/
theorem beginsWith_noMembers (hgap : AreBlanks gap) {place : Place}
    (hskip : skipBlanks (ofChars text) = .char '\x7d' :: behind)
    (hv : (Reading.object start [] (.found place)).value depth = .ok v) :
    BeginsWith depth (gap ++ '\x7b' :: text) v behind := by
  obtain ⟨inside, values, _, rfl, hvalues, -, rfl⟩ := value_object_ok hv
  cases hvalues
  obtain ⟨between, after, rfl, hbetween, rfl⟩ := exists_of_skipBlanks hskip
  have hreads : Reads ('\x7b' :: (between ++ ['\x7d'])) (Accepted (inside + 1) (.object [])) := by
    intro rest _
    have hclosed : skipBlanks (ofChars (between ++ ['\x7d']) ++ rest) = .char '\x7d' :: rest := by
      rw [ofChars_append, List.append_assoc, skipBlanks_append hbetween]
      exact skipBlanks_of_not_isBlank rfl rest
    exact ⟨_, read_noMembers hclosed, rfl, rfl, rfl⟩
  have hbegins := @beginsWith_of_reads (inside + 1) gap _ hgap _ after hreads (absurd rfl)
  simpa using hbegins

/-- An object that has a value is a part that is read wherever it stands. -/
theorem beginsWith_members (hmembers : MembersBegin steps) (hgap : AreBlanks gap)
    (h : readMembers steps start [] (ofChars text) = (r, behind)) (hv : r.value depth = .ok v) :
    BeginsWith depth (gap ++ '\x7b' :: text) v behind := by
  obtain ⟨members, closing, rfl⟩ := readMembers_extends h hv
  obtain ⟨inside, values, place, rfl, hvalues, -, rfl⟩ := value_object_ok hv
  obtain ⟨parts, after, rfl, -, rfl, hparts⟩ := hmembers h hv hvalues
  have hbegins := @beginsWith_of_reads (inside + 1) gap _ hgap _ after (reads_accepted_object hparts)
    fun _ => ⟨inside, gap, parts, rfl, hgap, rfl, hparts⟩
  simpa using hbegins

theorem accepted_null (span : Span) : Accepted depth .null (.null span) :=
  accepted_of_holds (by cases depth <;> exact ⟨span, rfl⟩)

theorem accepted_bool (b : Bool) (span : Span) : Accepted depth (.bool b) (.bool span b) :=
  accepted_of_holds (by cases depth <;> exact ⟨span, rfl⟩)

/-- A word that has a value is a part that is read wherever it stands. -/
theorem beginsWith_word (hgap : AreBlanks gap) {found : Span → Reading} {word : Value} {c : Char}
    {letters : List Char} (hreads : Reads (c :: letters) fun r => ∃ span, r = found span)
    (hfound : ∀ span, Accepted depth word (found span)) (hshape : ∀ text, HasShape depth text word)
    (h : readWord start found letters (ofChars text) = (r, behind)) (hv : r.value depth = .ok v) :
    BeginsWith depth (gap ++ c :: text) v behind := by
  obtain ⟨after, span, rfl, rfl, rfl⟩ := readWord_ok h hv
  obtain rfl : v = word := Except.ok.inj (hv.symm.trans (hfound span).2)
  refine beginsWith_of_reads hgap (hreads.imp ?_) (hshape _)
  rintro _ - ⟨span', rfl⟩
  exact hfound span'

end

/-- A value is read from its brackets on by what reads elements and members.  The cases are those of one
    step at a value, and a step that broke off is excluded by the value that was accepted. -/
theorem valuesBegin_succ {steps : Nat} (hitems : ItemsBegin steps) (hmembers : MembersBegin steps) :
    ValuesBegin (steps + 1) := by
  intro text r behind depth v h hv
  have hstep := readValue_step steps (ofChars text)
  rw [h] at hstep
  cases hstep with
  | broken _ => exact absurd hv value_broken
  | text hskip hread =>
      obtain ⟨gap, text, rfl, hgap, rfl⟩ := exists_of_skipBlanks hskip
      exact beginsWith_text hgap hread hv
  | number hskip hc hread =>
      obtain ⟨gap, text, rfl, hgap, rfl⟩ := exists_of_skipBlanks hskip
      exact beginsWith_number hgap hc hread hv
  | unclosed => exact absurd hv (value_array_missing rfl)
  | noItems hskip hclosed =>
      obtain ⟨gap, text, rfl, hgap, rfl⟩ := exists_of_skipBlanks hskip
      exact beginsWith_noItems hgap hclosed hv
  | items hskip hread =>
      obtain ⟨gap, text, rfl, hgap, rfl⟩ := exists_of_skipBlanks hskip
      exact beginsWith_items hitems hgap hread hv
  | noMembers hskip hclosed =>
      obtain ⟨gap, text, rfl, hgap, rfl⟩ := exists_of_skipBlanks hskip
      exact beginsWith_noMembers hgap hclosed hv
  | members hskip hread =>
      obtain ⟨gap, text, rfl, hgap, rfl⟩ := exists_of_skipBlanks hskip
      exact beginsWith_members hmembers hgap hread hv
  | null hskip hread =>
      obtain ⟨gap, text, rfl, hgap, rfl⟩ := exists_of_skipBlanks hskip
      exact beginsWith_word hgap reads_null accepted_null (fun _ => trivial) hread hv
  | @bool _ _ _ b hskip hread =>
      obtain ⟨gap, text, rfl, hgap, rfl⟩ := exists_of_skipBlanks hskip
      cases b with
      | true => exact beginsWith_word hgap reads_true (accepted_bool true) (fun _ => trivial) hread hv
      | false => exact beginsWith_word hgap reads_false (accepted_bool false) (fun _ => trivial) hread hv

/-- **Whatever has a value is read from parts that are read wherever they stand**, in any number of
    steps.  The three statements hold together: each of the three readers calls the other two with
    one step less. -/
theorem begins (steps : Nat) : ValuesBegin steps ∧ ItemsBegin steps ∧ MembersBegin steps := by
  induction steps with
  | zero =>
      refine ⟨?_, ?_, ?_⟩
      · intro text r behind depth v h hv
        rw [readValue] at h
        cases h
        exact absurd hv value_broken
      · intro start found items closing text behind depth inside v values h hv
        obtain ⟨_, _, _, hsteps, -⟩ := readItems_cases h hv
        cases hsteps
      · intro start found members closing text behind depth inside v values h hv
        obtain ⟨_, _, _, _, _, _, _, hsteps, -⟩ := readMembers_cases h hv
        cases hsteps
  | succ steps ih =>
      obtain ⟨hvalues, hitems, hmembers⟩ := ih
      exact ⟨valuesBegin_succ hitems hmembers, itemsBegin_succ hvalues hitems,
        membersBegin_succ hvalues hmembers⟩

/-! ## Texts of values -/

/-- A text that is accepted alone as a value, with brackets no deeper than the given number and any blanks
around it. -/
def Denotes (depth : Nat) (text : List Char) (v : Value) : Prop :=
  decode (Reading.value depth) (ofChars text) = .ok v

/-- The text of a member: the text of its name, a colon and the text of its value. -/
def DenotesMember (depth : Nat) (part : List Char) (member : String × Value) : Prop :=
  ∃ name item, part = name ++ ':' :: item ∧ Denotes 0 name (.string member.1) ∧
    Denotes depth item member.2

/-- A text of some parts with commas between them, in brackets and with any blanks around. -/
def Encloses (opening closing : Char) (parts : List (List Char)) (text : List Char) : Prop :=
  ∃ before after, text = before ++ opening :: ([','].intercalate parts ++ closing :: after) ∧
    AreBlanks before ∧ AreBlanks after

/-- The text of a sequence: the texts of its elements in brackets. -/
def DenotesArray (depth : Nat) (text : List Char) (values : List Value) : Prop :=
  ∃ parts, Encloses '[' ']' parts text ∧ List.Forall₂ (Denotes depth) parts values

/-- The text of an object: the texts of its members in braces. -/
def DenotesObject (depth : Nat) (text : List Char) (members : List (String × Value)) : Prop :=
  ∃ parts, Encloses '\x7b' '\x7d' parts text ∧ List.Forall₂ (DenotesMember depth) parts members

section

variable {depth : Nat} {text part : List Char} {v : Value}

theorem skipBlanks_eq_nil {gap : List Char} : skipBlanks (ofChars gap) = [] ↔ AreBlanks gap := by
  constructor
  · intro h
    obtain ⟨gap, rest, rfl, hgap, hskip⟩ := exists_blanks gap
    rw [h] at hskip
    cases rest with
    | nil => rwa [List.append_nil]
    | cons c rest => exact nomatch hskip
  · intro h
    have hskip := skipBlanks_append h []
    rwa [List.append_nil] at hskip

/-- A document is answered if what it begins with is, and nothing but blanks stands behind it, whatever
    is asked of it. -/
theorem decode_eq_ok {α : Type} {ask : Reading → Except Complaint α} {text : List Symbol} {a : α} :
    decode ask text = .ok a ↔ ask (read text).1 = .ok a ∧ skipBlanks (read text).2 = [] := by
  rw [decode]
  dsimp only
  cases ask (read text).1 with
  | error complaint =>
      constructor
      · intro h
        cases h
      · rintro ⟨h, -⟩
        cases h
  | ok answer =>
      cases skipBlanks (read text).2 with
      | nil =>
          constructor
          · intro h
            cases h
            exact ⟨rfl, rfl⟩
          · rintro ⟨h, -⟩
            cases h
            rfl
      | cons s rest =>
          constructor
          · intro h
            cases h
          · rintro ⟨-, h⟩
            cases h

theorem decode_of_readsItem {α : Type} {ask : Reading → Except Complaint α} {a : α}
    (h : ReadsItem text fun r => ask r = .ok a) : decode ask (ofChars text) = .ok a := by
  obtain ⟨body, gap, rfl, hgap, hreads⟩ := h
  obtain ⟨r, hread, -, hask⟩ := hreads _ (by simpa using endsNumber_append hgap endsNumber_nil)
  rw [ofChars_append, decode_eq_ok, hread]
  exact ⟨hask, skipBlanks_eq_nil.2 hgap⟩

/-- What is accepted alone is a part that is read wherever it stands, and blanks behind it. -/
theorem exists_of_denotes (h : Denotes depth text v) :
    ∃ body gap, text = body ++ gap ∧ AreBlanks gap ∧ Reads body (Accepted depth v) ∧
      HasShape depth body v := by
  obtain ⟨hvalue, hskip⟩ := decode_eq_ok.1 h
  obtain ⟨body, gap, rfl, hbehind, hreads, hshape⟩ := (begins _).1 (Prod.ext rfl rfl) hvalue
  rw [show (read _).2 = _ from hbehind] at hskip
  exact ⟨body, gap, rfl, skipBlanks_eq_nil.1 hskip, hreads, hshape⟩

/-- **What is accepted alone is read wherever it stands**, and the other way round: a text that stands
    alone has the end of the text behind it, which ends a part like any sign. -/
theorem denotes_iff : Denotes depth text v ↔ ReadsItem text (Accepted depth v) := by
  constructor
  · intro h
    obtain ⟨body, gap, rfl, hgap, hreads, -⟩ := exists_of_denotes h
    exact ⟨body, gap, rfl, hgap, hreads⟩
  · rintro ⟨body, gap, rfl, hgap, hreads⟩
    exact decode_of_readsItem ⟨body, gap, rfl, hgap, hreads.imp fun _ _ h => h.2⟩

/-- Blanks around a text change nothing. -/
theorem Denotes.around {before after : List Char} (h : Denotes depth text v) (hbefore : AreBlanks before)
    (hafter : AreBlanks after) : Denotes depth (before ++ (text ++ after)) v := by
  obtain ⟨body, gap, rfl, hgap, hreads⟩ := denotes_iff.1 h
  refine denotes_iff.2 ⟨before ++ body, gap ++ after, by simp, hgap.append hafter, hreads.before hbefore⟩

/-- The compact form of a document is a text of it. -/
theorem denotes_compact (h : IsPlain depth v) : Denotes depth v.compact.toList v :=
  denotes_iff.2 ((reads_compact h).imp fun _ _ => accepted_of_holds).readsItem

/-- Characters and escapes between quotes are a text of the string that they spell. -/
theorem denotes_text {name : List Char} {s : String}
    (h : ∀ rest, readText {} (ofChars name ++ .char '"' :: rest) = (.found s, rest)) :
    Denotes 0 ('"' :: (name ++ ['"'])) (.string s) :=
  denotes_iff.2 ((reads_text h).imp fun _ _ (hr : Holds 0 (.string s) _) => accepted_of_holds hr).readsItem

theorem readText_of_readsName {name : List Char} {s : String}
    (h : ReadsName name fun key => key.text.value = .ok s) (rest : List Symbol) :
    readText {} (ofChars name ++ .char '"' :: rest) = (.found s, rest) := by
  obtain ⟨key, hkey, hcomplaint, hvalue⟩ := h rest
  rcases hread : readText {} (ofChars name ++ .char '"' :: rest) with ⟨⟨value, complaint?⟩, behind⟩
  rw [readKey, hread] at hkey
  cases hkey
  cases hcomplaint
  cases hvalue
  rfl

/-- A name, a colon and a value that are accepted alone are read as a member, and the other way round. -/
theorem denotesMember_iff {member : String × Value} : DenotesMember depth part member ↔
    ReadsMember part (fun key => key.text.value = .ok member.1) (Accepted depth member.2) := by
  constructor
  · rintro ⟨name, item, rfl, hname, hitem⟩
    obtain ⟨_, between, rfl, hbetween, -, before, name, rfl, hbefore, hreads⟩ := exists_of_denotes hname
    exact ⟨before, name, between, item, by simp, hbefore, hbetween, hreads, denotes_iff.1 hitem⟩
  · rintro ⟨before, name, between, item, rfl, hbefore, hbetween, hname, hitem⟩
    refine ⟨before ++ '"' :: (name ++ '"' :: between), item, by simp, ?_, denotes_iff.2 hitem⟩
    have hdenotes := (denotes_text (readText_of_readsName hname)).around hbefore hbetween
    rwa [List.cons_append, List.append_assoc] at hdenotes

theorem areItems_iff {parts : List (List Char)} {values : List Value} :
    AreItems depth parts values ↔ List.Forall₂ (Denotes depth) parts values :=
  ⟨fun h => h.imp fun _ _ => denotes_iff.2, fun h => h.imp fun _ _ => denotes_iff.1⟩

theorem areMembers_iff {parts : List (List Char)} {members : List (String × Value)} :
    AreMembers depth parts members ↔ List.Forall₂ (DenotesMember depth) parts members :=
  ⟨fun h => h.imp fun _ _ => denotesMember_iff.2, fun h => h.imp fun _ _ => denotesMember_iff.1⟩

/-- What is read in brackets is read with the blanks around them. -/
theorem Encloses.readsItem {opening closing : Char} {parts : List (List Char)} {found : Reading → Prop}
    (h : Encloses opening closing parts text)
    (hreads : Reads (opening :: ([','].intercalate parts ++ [closing])) found) : ReadsItem text found := by
  obtain ⟨before, after, rfl, hbefore, hafter⟩ := h
  exact ⟨before ++ opening :: ([','].intercalate parts ++ [closing]), after, by simp, hafter,
    hreads.before hbefore⟩

/-- **The texts of elements make the text of a sequence.** -/
theorem denotes_of_denotesArray {values : List Value} (h : DenotesArray depth text values) :
    Denotes (depth + 1) text (.array values) := by
  obtain ⟨parts, hencloses, hparts⟩ := h
  exact denotes_iff.2 (hencloses.readsItem (reads_accepted_array (areItems_iff.2 hparts)))

/-- A sequence that is accepted is made up in this way: between its brackets stand texts of its
    elements, with commas between them and blanks around them.  Only the empty one has no such parts. -/
theorem denotes_array_iff {values : List Value} (hne : values ≠ []) :
    Denotes (depth + 1) text (.array values) ↔ DenotesArray depth text values := by
  refine ⟨fun h => ?_, denotes_of_denotesArray⟩
  obtain ⟨_, after, rfl, hafter, -, hshape⟩ := exists_of_denotes h
  obtain ⟨_, before, parts, hdepth, hbefore, rfl, hparts⟩ := hshape hne
  cases hdepth
  exact ⟨parts, ⟨before, after, by simp, hbefore, hafter⟩, areItems_iff.1 hparts⟩

/-- **The texts of members make the text of an object.** -/
theorem denotes_of_denotesObject {members : List (String × Value)} (h : DenotesObject depth text members) :
    Denotes (depth + 1) text (.object members) := by
  obtain ⟨parts, hencloses, hparts⟩ := h
  exact denotes_iff.2 (hencloses.readsItem (reads_accepted_object (areMembers_iff.2 hparts)))

/-- An object that is accepted is made up in this way: between its braces stand a name, a colon and a
    text of the value for every member, with commas between them and blanks around them. -/
theorem denotes_object_iff {members : List (String × Value)} (hne : members ≠ []) :
    Denotes (depth + 1) text (.object members) ↔ DenotesObject depth text members := by
  refine ⟨fun h => ?_, denotes_of_denotesObject⟩
  obtain ⟨_, after, rfl, hafter, -, hshape⟩ := exists_of_denotes h
  obtain ⟨_, before, parts, hdepth, hbefore, rfl, hparts⟩ := hshape hne
  cases hdepth
  exact ⟨parts, ⟨before, after, by simp, hbefore, hafter⟩, areMembers_iff.1 hparts⟩

section

variable {α : Type} {ask : Decoder α} {answer : α} {parts : List (List Char)}

/-- What is answered for the elements of a sequence is answered for every text of it. -/
theorem decode_array {values : List Value} (h : Encloses '[' ']' parts text)
    (hparts : List.Forall₂ (Denotes depth) parts values)
    (hask : ∀ start items place, List.Forall₂ (Accepted depth) values items →
      ask (.array start items (.found place)) = .ok answer) : decode ask (ofChars text) = .ok answer := by
  refine decode_of_readsItem (h.readsItem ((reads_array (areItems_iff.2 hparts)).imp ?_))
  rintro _ - ⟨start, items, place, rfl, hitems⟩
  exact hask start items place hitems

/-- What is answered for the members of an object is answered for every text of it. -/
theorem decode_object {members : List (String × Value)} (h : Encloses '\x7b' '\x7d' parts text)
    (hparts : List.Forall₂ (DenotesMember depth) parts members)
    (hask : ∀ start named place, AcceptedMembers depth members named →
      ask (.object start named (.found place)) = .ok answer) : decode ask (ofChars text) = .ok answer := by
  refine decode_of_readsItem (h.readsItem ((reads_object (areMembers_iff.2 hparts)).imp ?_))
  rintro _ - ⟨start, named, place, rfl, hnamed⟩
  exact hask start named place hnamed

end

end

end HeapProfile.Json
