import HeapProfile.Proofs.Scalars

/-!
# Lexemes — scalars that have a value

A string or a number that is read somewhere with a value is read with the same value wherever it stands: a
string up to its closing quote, a number in front of whatever ends one.  Only complaints tell where something
stood, and what has a value was read without any.

* **`TextStep`** — one part of a string is taken, and how the string is known from then on;
* **`readText_ok`** — a string that has a value is read alike in front of anything;
* **`readNumber_ok`** — a number that has a value is read alike in front of whatever ends a number.
-/

namespace HeapProfile.Json

open HeapProfile.Symbol

/-! ## Strings -/

namespace TextState

variable {s : TextState}

theorem spoil_ne_none (s : TextState) (complaint : Complaint) : (s.spoil complaint).complaint? ≠ none := by
  rw [spoil]
  cases s.complaint? <;> exact Option.some_ne_none _

/-- A state that is settled without a complaint is settled alike in front of anything. -/
theorem settle_of_none {seen : List Symbol} (h : (s.settle seen).complaint? = none) :
    s.complaint? = none ∧ ∀ seen', s.settle seen' = s.settle seen := by
  simp only [settle] at h ⊢
  by_cases hlead : s.lead.isSome
  · rw [if_pos hlead] at h
    exact absurd h (spoil_ne_none s _)
  · rw [if_neg hlead] at h
    exact ⟨h, fun _ => by rw [if_neg hlead, if_neg hlead]⟩

theorem push_of_none {seen : List Symbol} {c : Char} (h : (s.push seen c).complaint? = none) :
    s.complaint? = none ∧ ∀ seen', s.push seen' c = s.push seen c := by
  obtain ⟨hnone, hsame⟩ := @settle_of_none s seen h
  exact ⟨hnone, fun seen' => by rw [push, push, hsame seen']⟩

/-- A unit that leaves no complaint found none, and what stands behind it did not matter: the symbols
    behind are needed for the place of a complaint only. -/
theorem pushUnit_of_none {unit : Nat} {behind : List Symbol}
    (h : (s.pushUnit unit behind).complaint? = none) :
    s.complaint? = none ∧ ∀ behind', s.pushUnit unit behind' = s.pushUnit unit behind := by
  have hspoil (complaint : Complaint) : (s.spoil complaint).complaint? ≠ none := spoil_ne_none s _
  simp only [pushUnit] at h ⊢
  cases hlead : s.lead with
  | some lead =>
      simp only [hlead] at h ⊢
      split at h
      · next htrail => exact ⟨h, fun _ => by rw [if_pos htrail, if_pos htrail]⟩
      · exact absurd h (hspoil _)
  | none =>
      simp only [hlead] at h ⊢
      split at h
      · next hfirst => exact ⟨h, fun _ => by rw [if_pos hfirst, if_pos hfirst]⟩
      · next hfirst =>
        split at h
        · exact absurd h (hspoil _)
        · next htrail =>
          exact ⟨h, fun _ => by rw [if_neg hfirst, if_neg htrail, if_neg hfirst, if_neg htrail]⟩

/-- A string that has a value was closed without a complaint. -/
theorem close_eq_found {behind : List Symbol} {v : String} (h : (s.close behind).value = .ok v) :
    s.complaint? = none ∧ ∀ behind', s.close behind' = .found v := by
  simp only [close] at h ⊢
  cases hcomplaint : s.complaint? with
  | some complaint =>
      simp only [hcomplaint] at h
      exact nomatch h
  | none =>
      simp only [hcomplaint] at h ⊢
      split at h
      · exact nomatch h
      · next hstray =>
        refine ⟨trivial, fun _ => ?_⟩
        rw [if_neg hstray]
        cases h
        rfl

end TextState

/-- Four hexadecimal digits are read alike in front of anything.  A shorter text has no such digits, so
    the cases are those of its length. -/
theorem hexQuad?_ok {text : List Char} {unit : Nat} {behind : List Symbol}
    (h : hexQuad? (ofChars text) = .ok (unit, behind)) :
    ∃ quad after, text = quad ++ after ∧ behind = ofChars after ∧
      ∀ rest, hexQuad? (ofChars quad ++ rest) = .ok (unit, rest) := by
  match text with
  | a :: b :: c :: d :: after =>
      refine ⟨[a, b, c, d], after, rfl, ?_⟩
      simp only [hexQuad?, ofChars, List.map_cons, List.map_nil, List.cons_append, List.nil_append] at h ⊢
      split at h
      · next ha hb hc hd =>
        cases h
        exact ⟨rfl, fun _ => rfl⟩
      · cases h
  | [] => cases h
  | [_] => cases h
  | [_, _] => cases h
  | [_, _, _] => cases h

/-- One part of a string is taken, in front of anything alike, unless there is something to complain about. -/
structure TextStep (s s' : TextState) (part : List Char) : Prop where
  ne_nil : part ≠ []
  quiet : s'.complaint? = none → s.complaint? = none
  read : s'.complaint? = none → ∀ rest, readText s (ofChars part ++ rest) = readText s' rest

theorem textStep_char (s : TextState) {c : Char} (hquote : c ≠ '"') (hescape : c ≠ '\\')
    (hcontrol : ¬ c.toNat < 32) (seen : List Symbol) : TextStep s (s.push seen c) [c] where
  ne_nil := List.cons_ne_nil _ _
  quiet h := (TextState.push_of_none h).1
  read h rest := by
    rw [← (TextState.push_of_none h).2 (.char c :: rest)]
    exact readText_char s hquote hescape hcontrol rest

theorem textStep_letter (s : TextState) {letter c : Char} (hletter : letter ≠ 'u')
    (hescaped : escaped? letter = some c) (seen : List Symbol) :
    TextStep s (s.push seen c) ['\\', letter] where
  ne_nil := List.cons_ne_nil _ _
  quiet h := (TextState.push_of_none h).1
  read h rest := by
    rw [← (TextState.push_of_none h).2 (.char letter :: rest)]
    exact readText_letter s hletter hescaped rest

theorem textStep_hex (s : TextState) {quad : List Char} {unit : Nat}
    (hquad : ∀ rest, hexQuad? (ofChars quad ++ rest) = .ok (unit, rest)) (behind : List Symbol) :
    TextStep s (s.pushUnit unit behind) ('\\' :: 'u' :: quad) where
  ne_nil := List.cons_ne_nil _ _
  quiet h := (TextState.pushUnit_of_none h).1
  read h rest := by
    rw [← (TextState.pushUnit_of_none h).2 rest]
    exact readText_hex s (hquad rest)

variable {s : TextState} {text : List Char} {lexeme : Lexeme String} {behind : List Symbol} {v : String}

/-- Behind a backslash a string that has a value goes on with a letter or with a number.  Whatever else
    may stand there is complained about, and a complaint is never taken back. -/
theorem readText_escape_cases (h : readText s (.char '\\' :: ofChars text) = (lexeme, behind))
    (hv : lexeme.value = .ok v) :
    ∃ part after s', '\\' :: text = part ++ after ∧ TextStep s s' part ∧
      readText s' (ofChars after) = (lexeme, behind) := by
  cases text with
  | nil =>
      rw [readText.eq_def] at h
      cases h
      cases hv
  | cons letter text =>
      rw [ofChars_cons] at h
      by_cases hletter : letter = 'u'
      · subst hletter
        cases hquad : hexQuad? (ofChars text) with
        | error complaint =>
            rw [readText.eq_def] at h
            dsimp only at h
            rw [if_neg (by decide), if_pos rfl, if_pos rfl] at h
            split at h
            · cases h
              cases hv
            · next hok =>
              rw [hquad] at hok
              cases hok
        | ok found =>
            obtain ⟨unit, next⟩ := found
            rw [readText_hex s hquad] at h
            obtain ⟨quad, after, rfl, rfl, hquads⟩ := hexQuad?_ok hquad
            exact ⟨'\\' :: 'u' :: quad, after, _, rfl, textStep_hex s hquads _, h⟩
      · cases hescaped : escaped? letter with
        | none =>
            rw [readText.eq_def] at h
            dsimp only at h
            rw [if_neg (by decide), if_pos rfl, if_neg hletter, hescaped] at h
            cases h
            cases hv
        | some c =>
            rw [readText_letter s hletter hescaped] at h
            exact ⟨['\\', letter], text, _, rfl, textStep_letter s hletter hescaped _, h⟩

/-- A string that has a value is closed, or goes on behind a part of it: a plain character, an escaped
    one or one by its number.  The state that it goes on in is the one that the part leads to. -/
theorem readText_cases (h : readText s (ofChars text) = (lexeme, behind)) (hv : lexeme.value = .ok v) :
    (∃ after, text = '"' :: after ∧ behind = ofChars after ∧
        lexeme = (s.settle (ofChars text)).close behind) ∨
      ∃ part after s', text = part ++ after ∧ TextStep s s' part ∧
        readText s' (ofChars after) = (lexeme, behind) := by
  cases text with
  | nil =>
      rw [readText.eq_def] at h
      cases h
      exact nomatch hv
  | cons c text =>
      rw [ofChars_cons] at h ⊢
      by_cases hquote : c = '"'
      · subst hquote
        rw [readText_quote] at h
        cases h
        exact Or.inl ⟨text, rfl, rfl, rfl⟩
      · by_cases hescape : c = '\\'
        · subst hescape
          exact Or.inr (readText_escape_cases h hv)
        · by_cases hcontrol : c.toNat < 32
          · rw [readText.eq_def] at h
            dsimp only at h
            rw [if_neg hquote, if_neg hescape, if_pos hcontrol] at h
            cases h
            exact nomatch hv
          · rw [readText_char s hquote hescape hcontrol] at h
            exact Or.inr ⟨[c], text, _, rfl, textStep_char s hquote hescape hcontrol _, h⟩

/-- **A string that has a value** is read alike in front of anything, up to its closing quote.  The
    induction is on the length of the text, since a part may have several characters. -/
theorem readText_ok (h : readText s (ofChars text) = (lexeme, behind)) (hv : lexeme.value = .ok v) :
    s.complaint? = none ∧ ∃ body after, text = body ++ '"' :: after ∧ behind = ofChars after ∧
      ∀ rest, readText s (ofChars body ++ .char '"' :: rest) = (.found v, rest) := by
  induction hlength : text.length using Nat.strongRecOn generalizing s text with
  | _ length ih =>
      subst hlength
      rcases readText_cases h hv with ⟨after, rfl, rfl, rfl⟩ | ⟨part, after, s', rfl, hstep, hrest⟩
      · obtain ⟨hsettled, hfound⟩ := TextState.close_eq_found hv
        obtain ⟨hnone, hsame⟩ := TextState.settle_of_none hsettled
        refine ⟨hnone, [], after, rfl, rfl, fun rest => ?_⟩
        show readText s (.char '"' :: rest) = _
        rw [readText_quote, hsame, hfound]
      · have hshorter : after.length < (part ++ after).length := by
          rw [List.length_append]
          exact Nat.lt_add_of_pos_left (List.length_pos_iff.2 hstep.ne_nil)
        obtain ⟨hnone, body, after, rfl, hbehind, hread⟩ := ih _ hshorter hrest rfl
        refine ⟨hstep.quiet hnone, part ++ body, after, (List.append_assoc _ _ _).symm, hbehind,
          fun rest => ?_⟩
        rw [ofChars_append, List.append_assoc, hstep.read hnone, hread]

/-! ## Numbers -/

/-- What a reader of numbers finds in a text is in a part at its beginning, and is found there in front of
whatever ends a number. -/
def Takes (reader : List Symbol → Lexeme Number × List Symbol) (text : List Char) (number : Number) : Prop :=
  ∃ body after, text = body ++ after ∧ (reader (ofChars text)).2 = ofChars after ∧
    ∀ rest, EndsNumber rest → reader (ofChars body ++ rest) = (.found number, rest)

/-- Digits end at the first symbol that is none, whatever stands there.  So what is read does not depend
    on the text behind, as long as no digit follows. -/
theorem exists_readDigits (text : List Char) : ∃ ds after, text = ds ++ after ∧
    EndsDigits (ofChars after) ∧
    ∀ rest, EndsDigits rest → readDigits (ofChars ds ++ rest) = (ds.map digitOf, rest) := by
  refine ⟨text.takeWhile Char.isDigit, text.dropWhile Char.isDigit,
    List.takeWhile_append_dropWhile.symm, ?_, fun rest hrest => ?_⟩
  · intro c hc
    have hhead := List.head?_dropWhile_not Char.isDigit text
    rw [ofChars, List.head?_map] at hc
    cases hdrop : (text.dropWhile Char.isDigit).head? with
    | none =>
        rw [hdrop] at hc
        cases hc
    | some d =>
        rw [hdrop] at hc hhead
        cases hc
        exact hhead
  · exact readDigitsFrom_append (List.all_eq_true.1 List.all_takeWhile) hrest []

/-- A part that stood where no digit did has none in front of whatever ends a number. -/
theorem endsDigits_append {body after : List Char} (h : EndsDigits (ofChars (body ++ after)))
    {rest : List Symbol} (hrest : EndsNumber rest) : EndsDigits (ofChars body ++ rest) := by
  cases body with
  | nil => exact hrest.endsDigits
  | cons c body => exact fun d hd => h d hd

theorem foundNumber_ok {n : Numeral} {place : Place} {text : List Symbol} {number : Number}
    (h : (foundNumber n place text).1.value = .ok number) :
    ∀ place' text', foundNumber n place' text' = (.found number, text') := by
  intro place' text'
  rw [foundNumber] at h ⊢
  cases hnumber : n.number? with
  | none =>
      rw [hnumber] at h
      cases h
  | some number' =>
      rw [hnumber] at h
      cases h
      rfl

section

variable {n : Numeral} {negative : Bool} {text : List Char} {number : Number}

/-- The sign of an exponent is read alike wherever the text goes on alike.  Only the next symbol
    matters, because a sign may be missing. -/
theorem exists_readSign (text : List Char) : ∃ down sign after, text = sign ++ after ∧
    ∀ rest, rest.head? = (ofChars after).head? → readSign (ofChars sign ++ rest) = (down, rest) := by
  by_cases hplus : text.head? = some '+'
  · obtain ⟨after, rfl⟩ := List.head?_eq_some_iff.1 hplus
    exact ⟨false, ['+'], after, rfl, fun _ _ => rfl⟩
  · by_cases hminus : text.head? = some '-'
    · obtain ⟨after, rfl⟩ := List.head?_eq_some_iff.1 hminus
      exact ⟨true, ['-'], after, rfl, fun _ _ => rfl⟩
    · refine ⟨false, [], text, rfl, fun rest hrest => ?_⟩
      rw [ofChars, List.head?_map] at hrest
      show readSign rest = _
      rw [readSign]
      · rintro more rfl
        cases text with
        | nil => cases hrest
        | cons c text => cases hrest; exact hplus rfl
      · rintro more rfl
        cases text with
        | nil => cases hrest
        | cons c text => cases hrest; exact hminus rfl

/-- A letter, a sign and digits behind it are an exponent. -/
theorem readExponent_digits {c : Char} (hc : c = 'e' ∨ c = 'E') {sign ds : List Char} (hne : ds ≠ [])
    {down : Bool} {rest : List Symbol}
    (hsign : readSign (ofChars sign ++ (ofChars ds ++ rest)) = (down, ofChars ds ++ rest))
    (hdigits : readDigits (ofChars ds ++ rest) = (ds.map digitOf, rest)) :
    ∃ place, readExponent n (ofChars (c :: (sign ++ ds)) ++ rest)
      = foundNumber { n with exponent := some (down, ds.map digitOf) } place rest := by
  rw [ofChars_cons, ofChars_append, List.cons_append, List.append_assoc, readExponent, if_pos hc, hsign]
  dsimp only
  rw [hdigits]
  dsimp only
  rw [if_neg (by rwa [List.isEmpty_iff, List.map_eq_nil_iff])]
  exact ⟨_, rfl⟩

/-- **An exponent that has a value is read alike in front of anything.**  Behind the letter and its sign
    there is a digit, or there would be no value; without a letter nothing is taken. -/
theorem readExponent_ok (h : (readExponent n (ofChars text)).1.value = .ok number) :
    Takes (readExponent n) text number := by
  by_cases hletter : ∃ c rest, text = c :: rest ∧ (c = 'e' ∨ c = 'E')
  · obtain ⟨c, text, rfl, hc⟩ := hletter
    obtain ⟨down, sign, digits, rfl, hsign⟩ := exists_readSign text
    obtain ⟨ds, after, rfl, hafter, hdigits⟩ := exists_readDigits digits
    cases ds with
    | nil =>
        -- no digit behind the letter
        rw [ofChars_cons, readExponent, if_pos hc, ofChars_append, hsign _ rfl] at h
        dsimp only at h
        rw [show readDigits (ofChars ([] ++ after)) = _ from hdigits _ hafter] at h
        cases h
    | cons d ds =>
        have hread (rest : List Symbol) (hrest : EndsDigits rest) :=
          readExponent_digits (n := n) hc (List.cons_ne_nil d ds) (hsign _ rfl) (hdigits rest hrest)
        obtain ⟨place, hplace⟩ := hread _ hafter
        rw [← ofChars_append, List.cons_append, List.append_assoc] at hplace
        rw [hplace] at h
        refine ⟨c :: (sign ++ d :: ds), after, by simp, ?_, fun rest hrest => ?_⟩
        · rw [hplace, foundNumber_snd]
        · obtain ⟨place', hplace'⟩ := hread rest hrest.endsDigits
          rw [hplace', foundNumber_ok h]
  · have hne (c : Char) (hc : (ofChars text).head? = some (.char c)) : c ≠ 'e' ∧ c ≠ 'E' := by
      cases text with
      | nil => cases hc
      | cons d text =>
          cases hc
          exact not_or.1 fun h => hletter ⟨c, text, rfl, h⟩
    have hwhole := readExponent_of_ne n hne
    rw [hwhole] at h
    refine ⟨[], text, rfl, by rw [hwhole, foundNumber_snd], fun rest hrest => ?_⟩
    show readExponent n rest = _
    rw [readExponent_of_ne n fun c hc => (hrest c hc).2.2]
    exact foundNumber_ok h _ _

/-- A point and digits behind it are a fraction. -/
theorem readFraction_digits {ds : List Char} (hne : ds ≠ []) {rest : List Symbol}
    (hdigits : readDigits (ofChars ds ++ rest) = (ds.map digitOf, rest)) :
    readFraction n (ofChars ('.' :: ds) ++ rest)
      = readExponent { n with hasPoint := true, fraction := ds.map digitOf } rest := by
  rw [ofChars_cons, List.cons_append, readFraction]
  dsimp only
  rw [hdigits]
  dsimp only
  rw [if_neg (by rwa [List.isEmpty_iff, List.map_eq_nil_iff])]

/-- **A fraction that has a value is read alike in front of anything.**  Behind a point there is a
    digit, or there would be no value; without a point the exponent begins at once. -/
theorem readFraction_ok (h : (readFraction n (ofChars text)).1.value = .ok number) :
    Takes (readFraction n) text number := by
  by_cases hpoint : text.head? = some '.'
  · obtain ⟨digits, rfl⟩ := List.head?_eq_some_iff.1 hpoint
    obtain ⟨ds, after, rfl, hafter, hdigits⟩ := exists_readDigits digits
    cases ds with
    | nil =>
        -- no digit behind the point
        rw [ofChars_cons, readFraction] at h
        dsimp only at h
        rw [show readDigits (ofChars ([] ++ after)) = _ from hdigits _ hafter] at h
        cases h
    | cons d ds =>
        have hread (rest : List Symbol) (hrest : EndsDigits rest) :=
          readFraction_digits (n := n) (List.cons_ne_nil d ds) (hdigits rest hrest)
        have hplain := hread _ hafter
        rw [← ofChars_append, List.cons_append] at hplain
        rw [hplain] at h
        obtain ⟨body, after, rfl, hbehind, htakes⟩ := readExponent_ok h
        refine ⟨'.' :: (d :: ds ++ body), after, by simp, hplain ▸ hbehind, fun rest hrest => ?_⟩
        rw [← List.cons_append, ofChars_append, List.append_assoc, hread _ (endsDigits_append hafter hrest),
          htakes rest hrest]
  · have hne : (ofChars text).head? ≠ some (.char '.') := by
      cases text with
      | nil =>
          intro hc
          cases hc
      | cons c text =>
          intro hc
          cases hc
          exact hpoint rfl
    have hwhole := readFraction_of_ne n hne
    rw [hwhole] at h
    obtain ⟨body, after, rfl, hbehind, htakes⟩ := readExponent_ok h
    refine ⟨body, after, rfl, hwhole ▸ hbehind, fun rest hrest => ?_⟩
    rw [readFraction_of_ne n, htakes rest hrest]
    cases body with
    | nil => exact fun hc => (hrest _ hc).2.1 rfl
    | cons c body => exact hne

/-- **The digits in front of a number that has a value are read alike in front of anything**, and the
    fraction begins behind all of them. -/
theorem readWhole_ok (h : (readWhole negative (ofChars text)).1.value = .ok number) :
    Takes (readWhole negative) text number := by
  obtain ⟨ds, after, rfl, hafter, hdigits⟩ := exists_readDigits text
  have hplain := hdigits _ hafter
  rw [← ofChars_append] at hplain
  have hread (rest : List Symbol) (hrest : EndsDigits rest) :
      readWhole negative (ofChars ds ++ rest) = readFraction { negative, whole := ds.map digitOf } rest := by
    rw [readWhole, hplain] at h
    rw [readWhole, hdigits rest hrest]
    dsimp only at h ⊢
    split
    · next hnil =>
      rw [hnil] at h
      cases h
    · next hzero =>
      rw [hzero] at h
      cases h
    · rfl
  have hwhole := hread _ hafter
  rw [← ofChars_append] at hwhole
  rw [hwhole] at h
  obtain ⟨body, after, rfl, hbehind, htakes⟩ := readFraction_ok h
  refine ⟨ds ++ body, after, (List.append_assoc _ _ _).symm, hwhole ▸ hbehind, fun rest hrest => ?_⟩
  rw [ofChars_append, List.append_assoc, hread _ (endsDigits_append hafter hrest), htakes rest hrest]

/-- Without a sign a number is a positive one. -/
theorem readNumber_of_ne {text : List Symbol} (h : text.head? ≠ some (.char '-')) :
    readNumber text = readWhole false text := by
  rw [readNumber]
  rintro rest rfl
  exact h rfl

/-- **A number that has a value** is read alike in front of whatever ends a number.  Its parts are taken
    one behind the other: the sign, the whole digits, a fraction and an exponent. -/
theorem readNumber_ok {c : Char} (h : (readNumber (ofChars (c :: text))).1.value = .ok number) :
    ∃ body after, text = body ++ after ∧ (readNumber (ofChars (c :: text))).2 = ofChars after ∧
      ∀ rest, EndsNumber rest → readNumber (ofChars (c :: body) ++ rest) = (.found number, rest) := by
  by_cases hminus : c = '-'
  · subst hminus
    exact @readWhole_ok true text number h
  · have hne (rest : List Symbol) : (Symbol.char c :: rest).head? ≠ some (.char '-') := by
      intro hc
      cases hc
      exact hminus rfl
    have hwhole : readNumber (ofChars (c :: text)) = readWhole false (ofChars (c :: text)) :=
      readNumber_of_ne (hne _)
    rw [hwhole] at h
    obtain ⟨body, after, hsplit, hbehind, htakes⟩ := readWhole_ok h
    cases body with
    | nil =>
        -- there is a digit at least
        have hempty : (readWhole false []).1.value = .ok number := by
          rw [show readWhole false [] = _ from htakes [] endsNumber_nil]
          rfl
        exact nomatch hempty
    | cons d body =>
        cases hsplit
        refine ⟨body, after, rfl, hwhole ▸ hbehind, fun rest hrest => ?_⟩
        rw [← htakes rest hrest]
        exact readNumber_of_ne (hne _)

end

end HeapProfile.Json
