import HeapProfile.Proofs.Scalars
import Mathlib.Data.List.Forall2

/-!
# Spelling — texts that are read wherever they stand

A text is read wherever it stands if what was found depends on the text alone and reading stops
where the text does.  Brackets keep this: a sequence of texts that are read, between brackets and
commas, is read as the sequence of what they are read as, and objects likewise, whatever blanks
stand between the parts.  What is found is said by predicates of readings, since places are
different wherever the text stands.

* **`readItems_intercalate`** and **`readMembers_intercalate`** — the parts are read one by one;
* **`reads_array`** and **`reads_object`** — so sequences and objects are read, wherever they stand.
-/

namespace HeapProfile

namespace Json

open HeapProfile.Symbol

/-! ## Blanks -/

/-- Whether a text consists of blanks. -/
def AreBlanks (text : List Char) : Prop := ∀ c ∈ text, isBlank c = true

theorem areBlanks_nil : AreBlanks [] := fun _ h => nomatch h

theorem skipBlanks_append {gap : List Char} (hgap : AreBlanks gap) (text : List Symbol) :
    skipBlanks (ofChars gap ++ text) = skipBlanks text := by
  induction gap with
  | nil => rfl
  | cons c gap ih =>
      rw [AreBlanks, List.forall_mem_cons] at hgap
      rw [ofChars_cons, List.cons_append, skipBlanks, if_pos hgap.1, ih hgap.2]

theorem skipBlanks_of_not_isBlank {c : Char} (hc : isBlank c = false) (text : List Symbol) :
    skipBlanks (.char c :: text) = .char c :: text := by
  rw [skipBlanks, if_neg (by rw [hc]; exact Bool.false_ne_true)]

/-- No blank makes a number longer. -/
theorem endsNumber_of_isBlank {c : Char} (hc : isBlank c = true) (text : List Symbol) :
    EndsNumber (.char c :: text) := by
  simp only [isBlank, Bool.or_eq_true, beq_iff_eq] at hc
  rcases hc with ((rfl | rfl) | rfl) | rfl
  all_goals exact endsNumber_cons (by decide) (by decide) (by decide) (by decide) text

theorem endsNumber_append {gap : List Char} (hgap : AreBlanks gap) {text : List Symbol}
    (htext : EndsNumber text) : EndsNumber (ofChars gap ++ text) := by
  cases gap with
  | nil => exact htext
  | cons c gap => exact endsNumber_of_isBlank (hgap c List.mem_cons_self) _

/-! ## Texts that are read wherever they stand -/

/-- Whether a text is read in full, as something of a kind of which nothing is complained about, in
front of whatever ends a number. -/
def Reads (text : List Char) (found : Reading → Prop) : Prop :=
  ∀ rest, EndsNumber rest →
    ∃ r, read (ofChars text ++ rest) = (r, rest) ∧ r.complaint? = none ∧ found r

/-- Whether a text between quotes is read in full as a name of a kind. -/
def ReadsName (text : List Char) (found : Key → Prop) : Prop :=
  ∀ rest, ∃ key, readKey (ofChars text ++ .char '"' :: rest) = (key, rest) ∧
    key.text.complaint? = none ∧ found key

/-- An element of a sequence: a text that is read, and blanks behind it. -/
def ReadsItem (part : List Char) (found : Reading → Prop) : Prop :=
  ∃ text gap, part = text ++ gap ∧ AreBlanks gap ∧ Reads text found

/-- A member of an object: a name between quotes with blanks around it, a colon and an element. -/
def ReadsMember (part : List Char) (named : Key → Prop) (found : Reading → Prop) : Prop :=
  ∃ before name between item, part = before ++ '"' :: (name ++ '"' :: (between ++ ':' :: item)) ∧
    AreBlanks before ∧ AreBlanks between ∧ ReadsName name named ∧ ReadsItem item found

theorem Reads.readsItem {text : List Char} {found : Reading → Prop} (h : Reads text found) :
    ReadsItem text found :=
  ⟨text, [], (List.append_nil text).symm, areBlanks_nil, h⟩

/-- Whether a sign ends an element or a member: another one follows, or its brackets are closed. -/
def endsPart (c : Char) : Bool := c == ',' || c == ']' || c == '\x7d'

theorem isBlank_of_endsPart {c : Char} (hc : endsPart c = true) : isBlank c = false := by
  simp only [endsPart, Bool.or_eq_true, beq_iff_eq] at hc
  rcases hc with (rfl | rfl) | rfl
  all_goals rfl

theorem endsNumber_of_endsPart {c : Char} (hc : endsPart c = true) (text : List Symbol) :
    EndsNumber (.char c :: text) := by
  simp only [endsPart, Bool.or_eq_true, beq_iff_eq] at hc
  rcases hc with (rfl | rfl) | rfl
  all_goals exact endsNumber_cons (by decide) (by decide) (by decide) (by decide) text

/-- An element is read up to the sign that ends it, in as many steps as its text may need. -/
theorem ReadsItem.readValue {part : List Char} {found : Reading → Prop} (h : ReadsItem part found)
    {c : Char} (hc : endsPart c = true) {more : List Symbol} {steps : Nat}
    (hsteps : stepsFor (ofChars part ++ .char c :: more) ≤ steps) :
    ∃ r behind, readValue steps (ofChars part ++ .char c :: more) = (r, behind) ∧
      skipBlanks behind = .char c :: more ∧ r.complaint? = none ∧ found r := by
  obtain ⟨text, gap, rfl, hgap, hreads⟩ := h
  obtain ⟨r, hread, hcomplaint, hfound⟩ :=
    hreads _ (endsNumber_append hgap (endsNumber_of_endsPart hc more))
  refine ⟨r, ofChars gap ++ .char c :: more, ?_, ?_, hcomplaint, hfound⟩
  · rw [readValue_eq_read hsteps, ofChars_append, List.append_assoc, hread]
  · rw [skipBlanks_append hgap, skipBlanks_of_not_isBlank (isBlank_of_endsPart hc)]

/-- What is read without complaint begins neither with a closing bracket nor with the end.  A reader
    that met one of these there would complain. -/
theorem ReadsItem.skipBlanks_ne {part : List Char} {found : Reading → Prop}
    (h : ReadsItem part found) {c : Char} (hc : endsPart c = true) (more : List Symbol) :
    skipBlanks (ofChars part ++ .char c :: more) ≠ [] ∧
      ∀ rest, skipBlanks (ofChars part ++ .char c :: more) ≠ .char ']' :: rest := by
  obtain ⟨r, _, hread, -, hcomplaint, -⟩ := h.readValue hc (Nat.le_refl _)
  -- either beginning would have been complained about
  rw [stepsFor, Json.readValue] at hread
  refine ⟨fun hskip => ?_, fun rest hskip => ?_⟩
  · rw [hskip] at hread
    cases hread
    cases hcomplaint
  · rw [hskip] at hread
    cases hread
    cases hcomplaint

/-! ## Sequences -/

variable {α : Type}

/-- In a text of parts the first one stands in front of a comma and the text of the others. -/
theorem ofChars_intercalate_cons_cons (part next : List Char) (parts : List (List Char))
    (rest : List Symbol) :
    ofChars ([','].intercalate (part :: next :: parts)) ++ rest
      = ofChars part ++ .char ',' :: (ofChars ([','].intercalate (next :: parts)) ++ rest) := by
  rw [List.intercalate_cons_cons, List.append_assoc, List.singleton_append, ofChars_append,
    ofChars_cons, List.append_assoc, List.cons_append]

/-- Behind a part and a sign there is a step less to be taken, at least.  The steps are counted from the
    length of the text, and the sign alone makes it shorter. -/
theorem stepsFor_lt {front text : List Symbol} {c : Symbol} {steps : Nat}
    (h : stepsFor (front ++ c :: text) < steps + 1) : stepsFor text < steps := by
  simp only [stepsFor, List.length_append, List.length_cons] at h ⊢
  omega

/-- Where an element is due, no bracket closes, and the text does not end. -/
theorem skipBlanks_items_ne {found : α → Reading → Prop} {parts : List (List Char)} {as : List α}
    (h : List.Forall₂ (fun part a => ReadsItem part (found a)) parts as) (hne : parts ≠ [])
    (rest : List Symbol) :
    skipBlanks (ofChars ([','].intercalate parts) ++ .char ']' :: rest) ≠ [] ∧
      ∀ behind, skipBlanks (ofChars ([','].intercalate parts) ++ .char ']' :: rest)
        ≠ .char ']' :: behind := by
  cases h with
  | nil => exact absurd rfl hne
  | cons hpart htail =>
      cases htail with
      | nil =>
          rw [List.intercalate_singleton]
          exact hpart.skipBlanks_ne rfl rest
      | cons _ _ =>
          rw [ofChars_intercalate_cons_cons]
          exact hpart.skipBlanks_ne rfl _

variable {steps : Nat} {text behind rest : List Symbol} {r : Reading} {start : Place}

/-- Behind an element and a comma another element is due. -/
theorem readItems_comma {before : List Reading} (hread : readValue steps text = (r, behind))
    (hcomplaint : r.complaint? = none) (hskip : skipBlanks behind = .char ',' :: rest)
    (hnext : ∀ more, skipBlanks rest ≠ .char ']' :: more) :
    readItems (steps + 1) start before text = readItems steps start (r :: before) rest := by
  rw [readItems, hread]
  simp only [hcomplaint, hskip]

/-- Behind an element and a bracket the sequence is closed. -/
theorem readItems_bracket {before : List Reading} (hread : readValue steps text = (r, behind))
    (hcomplaint : r.complaint? = none) (hskip : skipBlanks behind = .char ']' :: rest) :
    readItems (steps + 1) start before text
      = (.array start (before.reverse ++ [r]) (.found (.before rest)), rest) := by
  rw [readItems, hread]
  simp only [hcomplaint, hskip, List.reverse_cons]

/-- **Elements that are due** are read one by one, up to the closing bracket.  The induction is on the
    parts: a comma stands behind all of them but the last one. -/
theorem readItems_intercalate {found : α → Reading → Prop} {parts : List (List Char)} {as : List α}
    (h : List.Forall₂ (fun part a => ReadsItem part (found a)) parts as) (hne : parts ≠ [])
    (start : Place) (before : List Reading) (rest : List Symbol) {steps : Nat}
    (hsteps : stepsFor (ofChars ([','].intercalate parts) ++ .char ']' :: rest) < steps) :
    ∃ items, readItems steps start before (ofChars ([','].intercalate parts) ++ .char ']' :: rest)
        = (.array start (before.reverse ++ items) (.found (.before rest)), rest) ∧
      List.Forall₂ found as items := by
  induction h generalizing before steps with
  | nil => exact absurd rfl hne
  | @cons part a parts as hpart htail ih =>
      obtain ⟨steps, rfl⟩ : ∃ n, steps = n + 1 := ⟨steps - 1, by omega⟩
      -- the sign behind an element tells whether another one is due, so the last one is a case apart
      cases htail with
      | nil =>
          rw [List.intercalate_singleton] at hsteps ⊢
          obtain ⟨r, behind, hread, hskip, hcomplaint, hfound⟩ :=
            hpart.readValue rfl (Nat.le_of_lt_succ hsteps)
          exact ⟨[r], readItems_bracket hread hcomplaint hskip, .cons hfound .nil⟩
      | @cons part' a' parts as' hpart' htail =>
          rw [ofChars_intercalate_cons_cons] at hsteps ⊢
          obtain ⟨r, behind, hread, hskip, hcomplaint, hfound⟩ :=
            hpart.readValue rfl (Nat.le_of_lt_succ hsteps)
          obtain ⟨items, hitems, hfounds⟩ :=
            ih (List.cons_ne_nil _ _) (r :: before) (stepsFor_lt hsteps)
          refine ⟨r :: items, ?_, .cons hfound hfounds⟩
          have hnext := (skipBlanks_items_ne (.cons hpart' htail) (List.cons_ne_nil _ _) rest).2
          rw [readItems_comma hread hcomplaint hskip hnext, hitems, List.reverse_cons,
            List.append_assoc, List.singleton_append]

theorem read_noItems (h : skipBlanks text = .char ']' :: rest) :
    read (.char '[' :: text) = (.array (.seeing (.char '[' :: text)) [] (.found (.before rest)), rest) := by
  rw [read, stepsFor, readValue, skipBlanks_of_not_isBlank rfl]
  dsimp only
  rw [if_neg (by decide), if_neg (by decide), if_pos rfl, h]
  rfl

theorem read_items (hends : skipBlanks text ≠ [])
    (hnext : ∀ more, skipBlanks text ≠ .char ']' :: more) :
    read (.char '[' :: text)
      = readItems (2 * (text.length + 1)) (.seeing (.char '[' :: text)) [] text := by
  rw [read, stepsFor, readValue, skipBlanks_of_not_isBlank rfl]
  dsimp only
  rw [if_neg (by decide), if_neg (by decide), if_pos rfl]
  split
  · next h => exact absurd h hends
  · next h => exact absurd h (hnext _)
  · rfl

/-- **A sequence is read element by element.**  It is closed at once if it is empty, and else its
    elements are due. -/
theorem reads_array {found : α → Reading → Prop} {parts : List (List Char)} {as : List α}
    (h : List.Forall₂ (fun part a => ReadsItem part (found a)) parts as) :
    Reads ('[' :: ([','].intercalate parts ++ [']'])) fun r =>
      ∃ start items place, r = .array start items (.found place) ∧ List.Forall₂ found as items := by
  intro rest _
  rw [ofChars_cons, ofChars_append, List.cons_append, List.append_assoc]
  show ∃ r,
    read (.char '[' :: (ofChars ([','].intercalate parts) ++ .char ']' :: rest)) = (r, rest) ∧ _
  by_cases hne : parts = []
  · subst hne
    cases h
    rw [List.intercalate_nil]
    exact ⟨_, read_noItems (skipBlanks_of_not_isBlank rfl rest), rfl, _, _, _, rfl, .nil⟩
  · obtain ⟨hends, hnext⟩ := skipBlanks_items_ne h hne rest
    rw [read_items hends hnext]
    obtain ⟨items, hitems, hfound⟩ := readItems_intercalate h hne
      (.seeing (.char '[' :: (ofChars ([','].intercalate parts) ++ .char ']' :: rest))) [] rest
      (Nat.lt_succ_self _)
    exact ⟨_, hitems, rfl, _, items, _, rfl, hfound⟩

/-! ## Objects -/

/-- A member is read up to the sign that ends it: its name, its colon and its element.  The steps are
    enough for the element if they are for the text, which is longer. -/
theorem ReadsMember.read {part : List Char} {named : Key → Prop} {found : Reading → Prop}
    (h : ReadsMember part named found) {c : Char} (hc : endsPart c = true) (more : List Symbol) :
    ∃ name, skipBlanks (ofChars part ++ .char c :: more) = .char '"' :: name ∧
      ∃ key text, readKey name = (key, text) ∧ key.text.complaint? = none ∧ named key ∧
        ∀ steps, stepsFor (ofChars part ++ .char c :: more) ≤ steps →
          ∃ r behind, readBehindName (readValue steps) text = (r, behind) ∧
            skipBlanks behind = .char c :: more ∧ r.complaint? = none ∧ found r := by
  obtain ⟨gap, name, between, item, rfl, hgap, hbetween, hname, hitem⟩ := h
  rw [ofChars_append, List.append_assoc, skipBlanks_append hgap, ofChars_cons, List.cons_append,
    ofChars_append, List.append_assoc, ofChars_cons, List.cons_append]
  refine ⟨_, skipBlanks_of_not_isBlank rfl _, ?_⟩
  obtain ⟨key, hkey, hcomplaint, hnamed⟩ :=
    hname (ofChars (between ++ ':' :: item) ++ .char c :: more)
  refine ⟨key, _, hkey, hcomplaint, hnamed, fun steps hsteps => ?_⟩
  have hcolon : skipBlanks (ofChars (between ++ ':' :: item) ++ .char c :: more)
      = .char ':' :: (ofChars item ++ .char c :: more) := by
    rw [ofChars_append, List.append_assoc, skipBlanks_append hbetween]
    exact skipBlanks_of_not_isBlank rfl _
  have hshorter : stepsFor (ofChars item ++ .char c :: more) ≤ steps := by
    simp only [stepsFor, ofChars_append, ofChars_cons, List.length_append, List.length_cons]
      at hsteps ⊢
    omega
  obtain ⟨r, behind, hread, hskip, hfound⟩ := hitem.readValue hc hshorter
  refine ⟨r, behind, ?_, hskip, hfound⟩
  simp only [readBehindName, hcolon, hread]

variable {key : Key} {name : List Symbol}

/-- Behind a member and a comma another member is due. -/
theorem readMembers_comma {before : List (Key × Reading)} {next : List Symbol}
    (hquote : skipBlanks text = .char '"' :: name) (hkey : readKey name = (key, next))
    (hnamed : key.text.complaint? = none)
    (hread : readBehindName (readValue steps) next = (r, behind))
    (hcomplaint : r.complaint? = none) (hskip : skipBlanks behind = .char ',' :: rest)
    (hends : skipBlanks rest ≠ []) (hnext : ∀ more, skipBlanks rest ≠ .char '\x7d' :: more) :
    readMembers (steps + 1) start before text
      = readMembers steps start ((key, r) :: before) rest := by
  rw [readMembers]
  simp only [hquote, hkey, hnamed, hread, hcomplaint, hskip]

/-- Behind a member and a brace the object is closed. -/
theorem readMembers_brace {before : List (Key × Reading)} {next : List Symbol}
    (hquote : skipBlanks text = .char '"' :: name) (hkey : readKey name = (key, next))
    (hnamed : key.text.complaint? = none)
    (hread : readBehindName (readValue steps) next = (r, behind))
    (hcomplaint : r.complaint? = none) (hskip : skipBlanks behind = .char '\x7d' :: rest) :
    readMembers (steps + 1) start before text
      = (.object start (before.reverse ++ [(key, r)]) (.found (.before rest)), rest) := by
  rw [readMembers]
  simp only [hquote, hkey, hnamed, hread, hcomplaint, hskip, List.reverse_cons]

/-- Where a member is due, its name begins: a quotation mark stands behind the blanks in front of
    the first part. -/
theorem skipBlanks_members {named : α → Key → Prop} {found : α → Reading → Prop}
    {parts : List (List Char)} {as : List α}
    (h : List.Forall₂ (fun part a => ReadsMember part (named a) (found a)) parts as)
    (hne : parts ≠ []) (rest : List Symbol) : ∃ name,
      skipBlanks (ofChars ([','].intercalate parts) ++ .char '\x7d' :: rest)
        = .char '"' :: name := by
  cases h with
  | nil => exact absurd rfl hne
  | cons hpart htail =>
      cases htail with
      | nil =>
          rw [List.intercalate_singleton]
          obtain ⟨name, hname, -⟩ := hpart.read (c := '\x7d') rfl rest
          exact ⟨name, hname⟩
      | cons _ _ =>
          rw [ofChars_intercalate_cons_cons]
          obtain ⟨name, hname, -⟩ := hpart.read (c := ',') rfl _
          exact ⟨name, hname⟩

/-- **Members that are due** are read one by one, up to the closing brace.  As for elements, a comma
    stands behind all of them but the last one. -/
theorem readMembers_intercalate {named : α → Key → Prop} {found : α → Reading → Prop}
    {parts : List (List Char)} {as : List α}
    (h : List.Forall₂ (fun part a => ReadsMember part (named a) (found a)) parts as)
    (hne : parts ≠ []) (start : Place) (before : List (Key × Reading)) (rest : List Symbol)
    {steps : Nat}
    (hsteps : stepsFor (ofChars ([','].intercalate parts) ++ .char '\x7d' :: rest) < steps) :
    ∃ members, readMembers steps start before
        (ofChars ([','].intercalate parts) ++ .char '\x7d' :: rest)
          = (.object start (before.reverse ++ members) (.found (.before rest)), rest) ∧
      List.Forall₂ (fun a m => named a m.1 ∧ found a m.2) as members := by
  induction h generalizing before steps with
  | nil => exact absurd rfl hne
  | @cons part a parts as hpart htail ih =>
      obtain ⟨steps, rfl⟩ : ∃ n, steps = n + 1 := ⟨steps - 1, by omega⟩
      cases htail with
      | nil =>
          rw [List.intercalate_singleton] at hsteps ⊢
          obtain ⟨name, hquote, key, next, hkey, hnocomplaint, hnamed, hitem⟩ :=
            hpart.read (c := '\x7d') rfl rest
          obtain ⟨r, behind, hread, hskip, hcomplaint, hfound⟩ :=
            hitem steps (Nat.le_of_lt_succ hsteps)
          exact ⟨[(key, r)], readMembers_brace hquote hkey hnocomplaint hread hcomplaint hskip,
            .cons ⟨hnamed, hfound⟩ .nil⟩
      | @cons part' a' parts as' hpart' htail =>
          rw [ofChars_intercalate_cons_cons] at hsteps ⊢
          obtain ⟨name, hquote, key, next, hkey, hnocomplaint, hnamed, hitem⟩ :=
            hpart.read (c := ',') rfl _
          obtain ⟨r, behind, hread, hskip, hcomplaint, hfound⟩ :=
            hitem steps (Nat.le_of_lt_succ hsteps)
          obtain ⟨members, hmembers, hfounds⟩ :=
            ih (List.cons_ne_nil _ _) ((key, r) :: before) (stepsFor_lt hsteps)
          refine ⟨(key, r) :: members, ?_, .cons ⟨hnamed, hfound⟩ hfounds⟩
          obtain ⟨_, hnext⟩ := skipBlanks_members (.cons hpart' htail) (List.cons_ne_nil _ _) rest
          rw [readMembers_comma hquote hkey hnocomplaint hread hcomplaint hskip
              (by rw [hnext]; exact List.cons_ne_nil _ _) (by rw [hnext]; exact fun _ h => nomatch h),
            hmembers, List.reverse_cons, List.append_assoc, List.singleton_append]

theorem read_noMembers (h : skipBlanks text = .char '\x7d' :: rest) :
    read (.char '\x7b' :: text)
      = (.object (.seeing (.char '\x7b' :: text)) [] (.found (.before rest)), rest) := by
  rw [read, stepsFor, readValue, skipBlanks_of_not_isBlank rfl]
  dsimp only
  rw [if_neg (by decide), if_neg (by decide), if_neg (by decide), if_pos rfl, h]
  rfl

theorem read_members (hnext : ∀ more, skipBlanks text ≠ .char '\x7d' :: more) :
    read (.char '\x7b' :: text)
      = readMembers (2 * (text.length + 1)) (.seeing (.char '\x7b' :: text)) [] text := by
  rw [read, stepsFor, readValue, skipBlanks_of_not_isBlank rfl]
  dsimp only
  rw [if_neg (by decide), if_neg (by decide), if_neg (by decide), if_pos rfl]
  split
  · next h => exact absurd h (hnext _)
  · rfl

/-- **An object is read member by member.**  It is closed at once if it is empty, and else its
    members are due. -/
theorem reads_object {named : α → Key → Prop} {found : α → Reading → Prop}
    {parts : List (List Char)} {as : List α}
    (h : List.Forall₂ (fun part a => ReadsMember part (named a) (found a)) parts as) :
    Reads ('\x7b' :: ([','].intercalate parts ++ ['\x7d'])) fun r =>
      ∃ start members place, r = .object start members (.found place) ∧
        List.Forall₂ (fun a m => named a m.1 ∧ found a m.2) as members := by
  intro rest _
  rw [ofChars_cons, ofChars_append, List.cons_append, List.append_assoc]
  show ∃ r, read (.char '\x7b' :: (ofChars ([','].intercalate parts) ++ .char '\x7d' :: rest))
    = (r, rest) ∧ _
  by_cases hne : parts = []
  · subst hne
    cases h
    rw [List.intercalate_nil]
    exact ⟨_, read_noMembers (skipBlanks_of_not_isBlank rfl rest), rfl, _, _, _, rfl, .nil⟩
  · obtain ⟨_, hnext⟩ := skipBlanks_members h hne rest
    rw [read_members (by rw [hnext]; exact fun _ h => nomatch h)]
    obtain ⟨members, hmembers, hfound⟩ := readMembers_intercalate h hne
      (.seeing (.char '\x7b' :: (ofChars ([','].intercalate parts) ++ .char '\x7d' :: rest))) [] rest
      (Nat.lt_succ_self _)
    exact ⟨_, hmembers, rfl, _, members, _, rfl, hfound⟩

end Json

end HeapProfile
