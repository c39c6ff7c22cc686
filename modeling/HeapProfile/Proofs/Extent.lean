import Mathlib.Order.Nat
import HeapProfile.Json.Reader

/-!
# Extent — how much of a text a reading takes

Values, elements and members are read by three functions that call each other, each call with one step
less.  What one step of them can do is said once, as a relation with a constructor for each way to go on;
whatever holds of all readings is then shown way by way, from what holds of the readings inside.

* **`readValue_step`**, **`readItems_step`** and **`readMembers_step`** — a step does one of these things;
* **`length_readValue_le`** — no reader gives back more text than it was given, so every bracket leaves less
  to read;
* **`settled`** — a reading is over before its steps are, so any number of steps from `stepsFor` on gives
  the same reading (`readValue_eq_read`).
-/

namespace HeapProfile.Json

/-! ## Blanks, strings, numbers and words -/

/-- Passing over blanks takes characters away and adds none. -/
theorem length_skipBlanks_le (text : List Symbol) : (skipBlanks text).length ≤ text.length := by
  induction text with
  | nil => exact Nat.le_refl _
  | cons s rest ih =>
      cases s with
      | stray => exact Nat.le_refl _
      | char c =>
          rw [skipBlanks]
          split
          · exact Nat.le_succ_of_le ih
          · exact Nat.le_refl _

/-- What stands behind blanks and one sign is shorter than the text with them. -/
theorem length_of_skipBlanks {text rest : List Symbol} {s : Symbol}
    (h : skipBlanks text = s :: rest) : rest.length < text.length := by
  have hle := length_skipBlanks_le text
  rw [h, List.length_cons] at hle
  exact hle

/-- A string ends within the text, whether it is closed or breaks off. -/
theorem length_readText_le (s : TextState) (text : List Symbol) :
    (readText s text).2.length ≤ text.length := by
  fun_induction readText s text with
  | case7 s behind unit rest hquad _ ih =>
      -- the one escape that takes more than its letter
      have hrest := length_of_hexQuad? hquad
      simp only [List.length_cons]
      omega
  | _ =>
      simp only [List.length_cons, List.length_nil] at *
      omega

theorem length_readDigitsFrom_le (found : List Nat) (text : List Symbol) :
    (readDigitsFrom found text).2.length ≤ text.length := by
  induction text generalizing found with
  | nil => exact Nat.le_refl _
  | cons s rest ih =>
      cases s with
      | stray => exact Nat.le_refl _
      | char c =>
          rw [readDigitsFrom]
          split
          · exact Nat.le_succ_of_le (ih _)
          · exact Nat.le_refl _

theorem length_readDigits_le (text : List Symbol) : (readDigits text).2.length ≤ text.length :=
  length_readDigitsFrom_le [] text

/-- What a numeral stands for does not depend on what is behind it, and takes nothing of it. -/
theorem foundNumber_snd (n : Numeral) (place : Place) (text : List Symbol) :
    (foundNumber n place text).2 = text := by
  rw [foundNumber]
  split <;> rfl

theorem length_readSign_le (text : List Symbol) : (readSign text).2.length ≤ text.length := by
  rw [readSign.eq_def]
  split
  · exact Nat.le_succ _
  · exact Nat.le_succ _
  · exact Nat.le_refl _

/-- An exponent is read from the front of a text, so what is left is no longer than it. -/
theorem length_readExponent_le (n : Numeral) (text : List Symbol) :
    (readExponent n text).2.length ≤ text.length := by
  have hnone (place : Place) : (foundNumber n place text).2.length ≤ text.length :=
    Nat.le_of_eq (congrArg List.length (foundNumber_snd n place text))
  rw [readExponent.eq_def]
  split
  · next c rest =>
    split
    · have hsign := length_readSign_le rest
      have hdigits := length_readDigits_le (readSign rest).2
      dsimp only
      split
      · simp only [brokenNumber, List.length_cons]
        omega
      · rw [foundNumber_snd, List.length_cons]
        omega
    · exact hnone _
  · exact hnone _

theorem length_readFraction_le (n : Numeral) (text : List Symbol) :
    (readFraction n text).2.length ≤ text.length := by
  rw [readFraction.eq_def]
  split
  · next rest =>
    have hdigits := length_readDigits_le rest
    dsimp only
    split
    · simp [brokenNumber]
    · exact ((length_readExponent_le _ _).trans hdigits).trans (Nat.le_succ _)
  · exact length_readExponent_le _ _

theorem length_readWhole_le (negative : Bool) (text : List Symbol) :
    (readWhole negative text).2.length ≤ text.length := by
  have hdigits := length_readDigits_le text
  rw [readWhole.eq_def]
  dsimp only
  split
  · exact Nat.le_refl _
  · exact hdigits
  · exact (length_readFraction_le _ _).trans hdigits

/-- A number ends within the text, sign, fraction and exponent included. -/
theorem length_readNumber_le (text : List Symbol) : (readNumber text).2.length ≤ text.length := by
  rw [readNumber.eq_def]
  split
  · exact Nat.le_succ_of_le (length_readWhole_le _ _)
  · exact length_readWhole_le _ _

theorem length_readKey_le (text : List Symbol) : (readKey text).2.length ≤ text.length :=
  length_readText_le {} text

theorem length_readWord_le (start : Place) (found : Span → Reading) (letters : List Char)
    (text : List Symbol) : (readWord start found letters text).2.length ≤ text.length := by
  induction letters generalizing text with
  | nil => exact Nat.le_refl _
  | cons letter letters ih =>
      cases text with
      | nil => exact Nat.le_refl _
      | cons s rest =>
          rw [readWord]
          split
          · exact Nat.le_succ_of_le (ih rest)
          · exact Nat.le_succ _

/-! ## One step of a reading -/

section

variable (steps : Nat) (start : Place)

/-- What can be read at the beginning of a text with some steps left for what is inside: nothing that is the
    beginning of a value, a scalar, or a bracket and what is due behind it. -/
inductive ValueStep (text : List Symbol) : Reading × List Symbol → Prop
  | broken {place : Place} {complaint : Complaint} {behind : List Symbol} :
      behind.length ≤ text.length → ValueStep text (.broken place complaint, behind)
  | text {rest behind : List Symbol} {span : Span} {lexeme : Lexeme String} :
      skipBlanks text = .char '"' :: rest → readText {} rest = (lexeme, behind) →
      ValueStep text (.text span lexeme, behind)
  | number {c : Char} {rest behind : List Symbol} {span : Span} {lexeme : Lexeme Number} :
      skipBlanks text = .char c :: rest → (c = '-' ∨ c.isDigit = true) →
      readNumber (.char c :: rest) = (lexeme, behind) → ValueStep text (.number span lexeme, behind)
  | unclosed {start : Place} {complaint : Complaint} :
      ValueStep text (.array start [] (.missing complaint), [])
  | noItems {rest behind : List Symbol} {start place : Place} :
      skipBlanks text = .char '[' :: rest → skipBlanks rest = .char ']' :: behind →
      ValueStep text (.array start [] (.found place), behind)
  | items {rest : List Symbol} {start : Place} {result : Reading × List Symbol} :
      skipBlanks text = .char '[' :: rest → readItems steps start [] rest = result →
      ValueStep text result
  | noMembers {rest behind : List Symbol} {start place : Place} :
      skipBlanks text = .char '\x7b' :: rest → skipBlanks rest = .char '\x7d' :: behind →
      ValueStep text (.object start [] (.found place), behind)
  | members {rest : List Symbol} {start : Place} {result : Reading × List Symbol} :
      skipBlanks text = .char '\x7b' :: rest → readMembers steps start [] rest = result →
      ValueStep text result
  | null {rest : List Symbol} {start : Place} {result : Reading × List Symbol} :
      skipBlanks text = .char 'n' :: rest → readWord start .null ['u', 'l', 'l'] rest = result →
      ValueStep text result
  | bool {rest : List Symbol} {start : Place} {result : Reading × List Symbol} {b : Bool} :
      skipBlanks text = .char (if b then 't' else 'f') :: rest →
      readWord start (.bool · b) (if b then ['r', 'u', 'e'] else ['a', 'l', 's', 'e']) rest = result →
      ValueStep text result

/-- What can be read where an element of a sequence is due: the sequence stays without its bracket, goes on
    behind a comma, or is closed. -/
inductive ItemsStep (found : List Reading) (text : List Symbol) : Reading × List Symbol → Prop
  | unfinished {items : List Reading} {closing : Lexeme Place} {complaint : Complaint}
      {behind : List Symbol} :
      closing.value = .error complaint → behind.length ≤ (readValue steps text).2.length →
      ItemsStep found text (.array start items closing, behind)
  | onward {item : Reading} {next rest : List Symbol} {result : Reading × List Symbol} :
      readValue steps text = (item, next) → item.complaint? = none →
      skipBlanks next = .char ',' :: rest → readItems steps start (item :: found) rest = result →
      ItemsStep found text result
  | closed {item : Reading} {next behind : List Symbol} {place : Place} :
      readValue steps text = (item, next) → item.complaint? = none →
      skipBlanks next = .char ']' :: behind →
      ItemsStep found text (.array start (item :: found).reverse (.found place), behind)

/-- What can be read where a member of an object is due: there is no name for it, the object stays without
    its brace, goes on behind a comma, or is closed. -/
inductive MembersStep (found : List (Key × Reading)) (text : List Symbol) :
    Reading × List Symbol → Prop
  | unnamed {members : List (Key × Reading)} {closing : Lexeme Place} {complaint : Complaint}
      {behind : List Symbol} :
      closing.value = .error complaint → behind.length ≤ text.length →
      MembersStep found text (.object start members closing, behind)
  | unfinished {name : List Symbol} {members : List (Key × Reading)} {closing : Lexeme Place}
      {complaint : Complaint} {behind : List Symbol} :
      skipBlanks text = .char '"' :: name → closing.value = .error complaint →
      behind.length ≤ (readBehindName (readValue steps) (readKey name).2).2.length →
      MembersStep found text (.object start members closing, behind)
  | onward {name next last rest : List Symbol} {key : Key} {item : Reading}
      {result : Reading × List Symbol} :
      skipBlanks text = .char '"' :: name → readKey name = (key, next) → key.text.complaint? = none →
      readBehindName (readValue steps) next = (item, last) → item.complaint? = none →
      skipBlanks last = .char ',' :: rest →
      readMembers steps start ((key, item) :: found) rest = result → MembersStep found text result
  | closed {name next last behind : List Symbol} {key : Key} {item : Reading} {place : Place} :
      skipBlanks text = .char '"' :: name → readKey name = (key, next) → key.text.complaint? = none →
      readBehindName (readValue steps) next = (item, last) → item.complaint? = none →
      skipBlanks last = .char '\x7d' :: behind →
      MembersStep found text (.object start ((key, item) :: found).reverse (.found place), behind)

/-- **One step at a value** does one of these things.  The reader decides by the first character behind
    blanks, and so does the proof; nothing below opens the reader again. -/
theorem readValue_step (text : List Symbol) : ValueStep steps text (readValue (steps + 1) text) := by
  rw [readValue]
  split
  · exact .broken (Nat.zero_le _)
  · next hskip => exact .broken (Nat.le_of_lt (length_of_skipBlanks hskip))
  · next c rest hskip =>
    split
    · next hc => exact .text (hc ▸ hskip) rfl
    split
    · next hc => exact .number hskip hc rfl
    split
    · next hc =>
      subst hc
      split
      · exact .unclosed
      · next hclosed => exact .noItems hskip hclosed
      · exact .items hskip rfl
    split
    · next hc =>
      subst hc
      split
      · next hclosed => exact .noMembers hskip hclosed
      · exact .members hskip rfl
    split
    · next hc => exact .null (hc ▸ hskip) rfl
    split
    · next hc => exact .bool (b := true) (hc ▸ hskip) rfl
    split
    · next hc => exact .bool (b := false) (hc ▸ hskip) rfl
    · exact .broken (Nat.le_of_lt (length_of_skipBlanks hskip))

/-- **One step at an element** does one of these things, depending on what stands behind the element: a
    comma with another one, the bracket, or neither. -/
theorem readItems_step (found : List Reading) (text : List Symbol) :
    ItemsStep steps start found text (readItems (steps + 1) start found text) := by
  rw [readItems]
  rcases hread : readValue steps text with ⟨item, next⟩
  have hle : next.length ≤ (readValue steps text).2.length := by rw [hread]
  dsimp only
  split
  · exact .unfinished rfl hle
  next hcomplaint =>
  split
  · exact .unfinished rfl (Nat.zero_le _)
  · next rest hskip =>
    split
    · exact .unfinished rfl ((Nat.le_of_lt (length_of_skipBlanks hskip)).trans hle)
    · exact .onward hread hcomplaint hskip rfl
  · next hskip => exact .closed hread hcomplaint hskip
  · next hskip => exact .unfinished rfl ((Nat.le_of_lt (length_of_skipBlanks hskip)).trans hle)

/-- **One step at a member** does one of these things: it breaks off where a name, a colon or an element
    is missing, and else what stands behind the element decides. -/
theorem readMembers_step (found : List (Key × Reading)) (text : List Symbol) :
    MembersStep steps start found text (readMembers (steps + 1) start found text) := by
  rw [readMembers]
  split
  · exact .unnamed rfl (Nat.zero_le _)
  · next name hquote =>
    rcases hkey : readKey name with ⟨key, next⟩
    have hnext : next.length ≤ name.length := by
      have hle := length_readKey_le name
      rwa [hkey] at hle
    dsimp only
    split
    · exact .unnamed rfl (hnext.trans (Nat.le_of_lt (length_of_skipBlanks hquote)))
    next hnamed =>
    rcases hread : readBehindName (readValue steps) next with ⟨item, last⟩
    have hle : last.length ≤ (readBehindName (readValue steps) (readKey name).2).2.length := by
      rw [hkey, hread]
    dsimp only
    split
    · exact .unfinished hquote rfl hle
    next hcomplaint =>
    split
    · exact .unfinished hquote rfl (Nat.zero_le _)
    · next rest hskip =>
      have hrest := (Nat.le_of_lt (length_of_skipBlanks hskip)).trans hle
      split
      · exact .unfinished hquote rfl (Nat.zero_le _)
      · exact .unfinished hquote rfl hrest
      · exact .onward hquote hkey hnamed hread hcomplaint hskip rfl
    · next hskip => exact .closed hquote hkey hnamed hread hcomplaint hskip
    · next hskip =>
      exact .unfinished hquote rfl ((Nat.le_of_lt (length_of_skipBlanks hskip)).trans hle)
  · next hskip => exact .unnamed rfl (Nat.le_of_lt (length_of_skipBlanks hskip))

end

/-! ## No reader gives back more than it was given -/

section

variable {steps : Nat} {start : Place} {text : List Symbol} {result : Reading × List Symbol}

theorem length_readBehindName_le {readNext : List Symbol → Reading × List Symbol}
    (hnext : ∀ text, (readNext text).2.length ≤ text.length) (text : List Symbol) :
    (readBehindName readNext text).2.length ≤ text.length := by
  rw [readBehindName]
  split
  · exact Nat.zero_le _
  · next h => exact (hnext _).trans (Nat.le_of_lt (length_of_skipBlanks h))
  · next h => exact Nat.le_of_lt (length_of_skipBlanks h)

/-- A step at a value takes no less than nothing, if what it reads inside brackets does not. -/
theorem ValueStep.length_le (h : ValueStep steps text result)
    (hitems : ∀ start found text, (readItems steps start found text).2.length ≤ text.length)
    (hmembers : ∀ start found text, (readMembers steps start found text).2.length ≤ text.length) :
    result.2.length ≤ text.length := by
  cases h with
  | broken hle => exact hle
  | @text rest _ _ _ hskip hread =>
      have hle := length_readText_le {} rest
      rw [hread] at hle
      exact hle.trans (Nat.le_of_lt (length_of_skipBlanks hskip))
  | @number c rest _ _ _ hskip _ hread =>
      have hle := length_readNumber_le (.char c :: rest)
      rw [hread] at hle
      exact hle.trans (length_of_skipBlanks hskip)
  | unclosed => exact Nat.zero_le _
  | noItems hskip hclosed =>
      exact Nat.le_of_lt ((length_of_skipBlanks hclosed).trans (length_of_skipBlanks hskip))
  | items hskip hread => exact hread ▸ (hitems _ _ _).trans (Nat.le_of_lt (length_of_skipBlanks hskip))
  | noMembers hskip hclosed =>
      exact Nat.le_of_lt ((length_of_skipBlanks hclosed).trans (length_of_skipBlanks hskip))
  | members hskip hread =>
      exact hread ▸ (hmembers _ _ _).trans (Nat.le_of_lt (length_of_skipBlanks hskip))
  | null hskip hread =>
      exact hread ▸ (length_readWord_le _ _ _ _).trans (Nat.le_of_lt (length_of_skipBlanks hskip))
  | bool hskip hread =>
      exact hread ▸ (length_readWord_le _ _ _ _).trans (Nat.le_of_lt (length_of_skipBlanks hskip))

/-- A step at an element goes on behind it, so it leaves less of the text than the element does. -/
theorem ItemsStep.length_le {found : List Reading} (h : ItemsStep steps start found text result)
    (hvalue : ∀ text, (readValue steps text).2.length ≤ text.length)
    (hitems : ∀ start found text, (readItems steps start found text).2.length ≤ text.length) :
    result.2.length ≤ text.length := by
  have hle := hvalue text
  cases h with
  | unfinished _ hbehind => exact hbehind.trans hle
  | onward hread _ hskip hrest =>
      rw [hread] at hle
      exact hrest ▸ ((hitems _ _ _).trans (Nat.le_of_lt (length_of_skipBlanks hskip))).trans hle
  | closed hread _ hskip =>
      rw [hread] at hle
      exact (Nat.le_of_lt (length_of_skipBlanks hskip)).trans hle

/-- A step at a member goes on behind its name and its element, so it leaves no more than
    was left there. -/
theorem MembersStep.length_le {found : List (Key × Reading)}
    (h : MembersStep steps start found text result)
    (hvalue : ∀ text, (readValue steps text).2.length ≤ text.length)
    (hmembers : ∀ start found text, (readMembers steps start found text).2.length ≤ text.length) :
    result.2.length ≤ text.length := by
  -- what stands behind the element of a member that has a name
  have hbehind {name : List Symbol} (hquote : skipBlanks text = .char '"' :: name) :
      (readBehindName (readValue steps) (readKey name).2).2.length ≤ text.length :=
    ((length_readBehindName_le hvalue _).trans (length_readKey_le name)).trans
      (Nat.le_of_lt (length_of_skipBlanks hquote))
  cases h with
  | unnamed _ hle => exact hle
  | unfinished hquote _ hle => exact hle.trans (hbehind hquote)
  | onward hquote hkey _ hread _ hskip hrest =>
      have hle := hbehind hquote
      rw [hkey, hread] at hle
      exact hrest ▸ ((hmembers _ _ _).trans (Nat.le_of_lt (length_of_skipBlanks hskip))).trans hle
  | closed hquote hkey _ hread _ hskip =>
      have hle := hbehind hquote
      rw [hkey, hread] at hle
      exact (Nat.le_of_lt (length_of_skipBlanks hskip)).trans hle

end

/-- **No reader gives back more text than it was given**, whatever the number of steps.  The induction
    is on the steps, for the three readers at once. -/
theorem length_read_le (steps : Nat) :
    (∀ text, (readValue steps text).2.length ≤ text.length) ∧
    (∀ start found text, (readItems steps start found text).2.length ≤ text.length) ∧
    (∀ start found text, (readMembers steps start found text).2.length ≤ text.length) := by
  induction steps with
  | zero =>
      -- without a step nothing is taken
      exact ⟨fun text => Nat.le_refl _, fun start found text => Nat.le_refl _,
        fun start found text => Nat.le_refl _⟩
  | succ steps ih =>
      obtain ⟨hvalue, hitems, hmembers⟩ := ih
      exact ⟨fun text => (readValue_step steps text).length_le hitems hmembers,
        fun start found text => (readItems_step steps start found text).length_le hvalue hitems,
        fun start found text => (readMembers_step steps start found text).length_le hvalue hmembers⟩

theorem length_readValue_le (steps : Nat) (text : List Symbol) :
    (readValue steps text).2.length ≤ text.length :=
  (length_read_le steps).1 text

/-! ## Enough steps -/

/-- Enough steps give the same reading of a text: a value needs one step more than twice the length of the
    text, and the elements or members that are due need one step more than a value. -/
structure Settled (text : List Symbol) : Prop where
  value : ∀ j k, 2 * text.length + 1 ≤ j → 2 * text.length + 1 ≤ k → readValue j text = readValue k text
  items : ∀ j k, 2 * text.length + 2 ≤ j → 2 * text.length + 2 ≤ k → ∀ start found,
    readItems j start found text = readItems k start found text
  members : ∀ j k, 2 * text.length + 2 ≤ j → 2 * text.length + 2 ≤ k → ∀ start found,
    readMembers j start found text = readMembers k start found text

section

variable {text : List Symbol} (h : ∀ rest : List Symbol, rest.length < text.length → Settled rest)
  {j k : Nat}

include h

/-- The brackets of a value enclose less than the value. -/
theorem readValue_settled (hj : 2 * text.length + 1 ≤ j + 1) (hk : 2 * text.length + 1 ≤ k + 1) :
    readValue (j + 1) text = readValue (k + 1) text := by
  rw [readValue, readValue]
  split
  · rfl
  · rfl
  · next c rest hskip =>
    have hlt := length_of_skipBlanks hskip
    rw [(h rest hlt).items j k (by omega) (by omega), (h rest hlt).members j k (by omega) (by omega)]

/-- Behind an element and a comma there is less to read, so the steps that are left are enough for the
    rest if these were. -/
theorem readItems_settled (hvalue : readValue j text = readValue k text)
    (hj : 2 * text.length + 2 ≤ j + 1) (hk : 2 * text.length + 2 ≤ k + 1) (start : Place)
    (found : List Reading) :
    readItems (j + 1) start found text = readItems (k + 1) start found text := by
  have hle := length_readValue_le k text
  rw [readItems, readItems, hvalue]
  dsimp only
  split
  · rfl
  split
  · rfl
  · next rest hskip =>
    have hlt := length_of_skipBlanks hskip
    rw [(h rest (by omega)).items j k (by omega) (by omega)]
  · rfl
  · rfl

/-- The element of a member stands behind its name and a colon. -/
theorem readBehindName_settled {name : List Symbol} (hname : name.length < text.length)
    (hj : 2 * text.length + 2 ≤ j + 1) (hk : 2 * text.length + 2 ≤ k + 1) :
    readBehindName (readValue j) name = readBehindName (readValue k) name := by
  rw [readBehindName, readBehindName]
  split
  · rfl
  · next rest hcolon =>
    have hlt := length_of_skipBlanks hcolon
    exact (h rest (hlt.trans hname)).value j k (by omega) (by omega)
  · rfl

/-- Behind a member and a comma there is less to read.  The member itself takes a name, a colon and an
    element, and each of them leaves less of the text. -/
theorem readMembers_settled (hj : 2 * text.length + 2 ≤ j + 1) (hk : 2 * text.length + 2 ≤ k + 1)
    (start : Place) (found : List (Key × Reading)) :
    readMembers (j + 1) start found text = readMembers (k + 1) start found text := by
  rw [readMembers, readMembers]
  split
  · rfl
  · next name hquote =>
    have hname : (readKey name).2.length < text.length :=
      Nat.lt_of_le_of_lt (length_readKey_le name) (length_of_skipBlanks hquote)
    have hbehind := length_readBehindName_le (length_readValue_le k) (readKey name).2
    dsimp only
    split
    · rfl
    rw [readBehindName_settled h hname hj hk]
    split
    · rfl
    split
    · rfl
    · next rest hskip =>
      have hlt := length_of_skipBlanks hskip
      rw [(h rest (by omega)).members j k (by omega) (by omega)]
    · rfl
    · rfl
  · rfl

end

/-- **A reading is over before its steps are.**  By strong induction on the length of the text: every
    reading begins with a symbol, and what follows is shorter. -/
theorem settled (text : List Symbol) : Settled text := by
  induction hlength : text.length using Nat.strongRecOn generalizing text with
  | _ n ih =>
      subst hlength
      replace ih : ∀ rest : List Symbol, rest.length < text.length → Settled rest :=
        fun rest hlt => ih _ hlt rest rfl
      -- any number of steps that is enough is the successor of one
      have hvalue (j k : Nat) (hj : 2 * text.length + 1 ≤ j) (hk : 2 * text.length + 1 ≤ k) :
          readValue j text = readValue k text := by
        cases j with
        | zero => omega
        | succ j =>
            cases k with
            | zero => omega
            | succ k => exact readValue_settled ih hj hk
      refine ⟨hvalue, fun j k hj hk start found => ?_, fun j k hj hk start found => ?_⟩
      all_goals
        obtain ⟨j, rfl⟩ : ∃ j', j = j' + 1 := ⟨j - 1, by omega⟩
        obtain ⟨k, rfl⟩ : ∃ k', k = k' + 1 := ⟨k - 1, by omega⟩
      · exact readItems_settled ih (hvalue j k (by omega) (by omega)) hj hk start found
      · exact readMembers_settled ih hj hk start found

/-- The bound on the steps has no influence on what is read. -/
theorem readValue_eq_read {steps : Nat} {text : List Symbol} (h : stepsFor text ≤ steps) :
    readValue steps text = read text :=
  (settled text).value _ _ h (Nat.le_refl _)

end HeapProfile.Json
