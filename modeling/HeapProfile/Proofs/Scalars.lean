import HeapProfile.Proofs.Extent
import HeapProfile.Json.Printer

/-!
# Scalars — what is written is read back

A string stands between quotes with escapes, a whole number as its decimal digits.  Reading undoes
both, and takes just what was written: a string ends at its quote whatever stands behind it, a
number ends where no digit, point or exponent follows.

* **`readText_escaped`** — a written string is read as itself;
* **`readNumber_digits`** — the digits of a word are read as that word.
-/

namespace HeapProfile

namespace Symbol

/-- Characters as symbols. -/
def ofChars (cs : List Char) : List Symbol := cs.map char

theorem ofChars_cons (c : Char) (cs : List Char) : ofChars (c :: cs) = .char c :: ofChars cs := rfl

theorem ofChars_append (a b : List Char) : ofChars (a ++ b) = ofChars a ++ ofChars b :=
  List.map_append

/-- The bytes of a text are that text. -/
theorem fromUTF8?_toByteArray (text : String) : String.fromUTF8? text.toByteArray = some text := by
  rw [String.fromUTF8?, dif_pos text.isValidUTF8]
  rfl

/-- The bytes of a text are read as its characters. -/
theorem ofBytes_toUTF8 (text : String) : ofBytes text.toUTF8 = ofString text := by
  rw [ofBytes, String.toUTF8_eq_toByteArray, fromUTF8?_toByteArray]

end Symbol

namespace Json

open HeapProfile.Symbol

/-! ## Strings -/

/-- A quote ends a string. -/
theorem readText_quote (s : TextState) (rest : List Symbol) :
    readText s (.char '"' :: rest) = ((s.settle (.char '"' :: rest)).close rest, rest) := by
  rw [readText.eq_def]
  rfl

/-- A character that needs no escape is taken as it is. -/
theorem readText_char (s : TextState) {c : Char} (hquote : c ≠ '"') (hescape : c ≠ '\\')
    (hcontrol : ¬ c.toNat < 32) (rest : List Symbol) :
    readText s (.char c :: rest) = readText (s.push (.char c :: rest) c) rest := by
  rw [readText.eq_def]
  dsimp only
  rw [if_neg hquote, if_neg hescape, if_neg hcontrol]

/-- A letter behind a backslash stands for its character. -/
theorem readText_letter (s : TextState) {letter c : Char} (hletter : letter ≠ 'u')
    (hescaped : escaped? letter = some c) (rest : List Symbol) :
    readText s (.char '\\' :: .char letter :: rest)
      = readText (s.push (.char letter :: rest) c) rest := by
  rw [readText.eq_def]
  dsimp only
  rw [if_neg (by decide), if_pos rfl, if_neg hletter, hescaped]

/-- Hexadecimal digits behind a backslash stand for the unit of their number. -/
theorem readText_hex (s : TextState) {text rest : List Symbol} {unit : Nat}
    (h : hexQuad? text = .ok (unit, rest)) :
    readText s (.char '\\' :: .char 'u' :: text) = readText (s.pushUnit unit rest) rest := by
  rw [readText.eq_def]
  dsimp only
  rw [if_neg (by decide), if_pos rfl, if_pos rfl]
  split
  · next herror =>
    rw [h] at herror
    cases herror
  · next hok =>
    rw [h] at hok
    cases hok
    rfl

theorem hexDigit?_digitChar : ∀ d < 16, hexDigit? (Nat.digitChar d) = some d := by decide

/-- Four hexadecimal digits stand for the number below 256 that they were written for. -/
theorem hexQuad?_hexQuad {n : Nat} (h : n < 256) (rest : List Symbol) :
    hexQuad? (ofChars (hexQuad n) ++ rest) = .ok (n, rest) := by
  have hhigh := hexDigit?_digitChar (n / 16) (by omega)
  have hlow := hexDigit?_digitChar (n % 16) (by omega)
  have hzero : hexDigit? '0' = some 0 := rfl
  have hsum : ((0 * 16 + 0) * 16 + n / 16) * 16 + n % 16 = n := by omega
  simp only [hexQuad, ofChars, List.map_cons, List.map_nil, List.cons_append, List.nil_append,
    hexQuad?, hzero, hhigh, hlow, hsum]

/-- The number of a character below the surrogates stands for the character. -/
theorem readText_unit (found : List Char) {c : Char} (hc : c.toNat < 32) (rest : List Symbol) :
    readText { found } (.char '\\' :: .char 'u' :: (ofChars (hexQuad c.toNat) ++ rest))
      = readText { found := c :: found } rest := by
  have hunit : ({ found } : TextState).pushUnit c.toNat rest = { found := c :: found } := by
    rw [TextState.pushUnit]
    dsimp only
    rw [if_neg (by omega), if_neg (by omega), Char.ofNat_toNat]
  rw [readText_hex _ (hexQuad?_hexQuad (by omega) rest), hunit]

/-- A written character is read as itself.  Quotes, backslashes and control characters are written with
    a backslash and everything else as it is, and each way is one case here. -/
theorem readText_escapeChar (found : List Char) (c : Char) (rest : List Symbol) :
    readText { found } (ofChars (escapeChar c) ++ rest)
      = readText { found := c :: found } rest := by
  fun_cases escapeChar c with
  | case1 h => rw [h]; exact readText_letter { found } (by decide) rfl rest
  | case2 _ h => rw [h]; exact readText_letter { found } (by decide) rfl rest
  | case3 _ _ h => rw [h]; exact readText_letter { found } (by decide) rfl rest
  | case4 _ _ _ h => rw [h]; exact readText_letter { found } (by decide) rfl rest
  | case5 _ _ _ _ h => rw [h]; exact readText_letter { found } (by decide) rfl rest
  | case6 _ _ _ _ _ h => rw [h]; exact readText_letter { found } (by decide) rfl rest
  | case7 _ _ _ _ _ _ h => rw [h]; exact readText_letter { found } (by decide) rfl rest
  -- a control character that has no letter of its own is given by its number
  | case8 _ _ _ _ _ _ _ hcontrol => exact readText_unit found hcontrol rest
  | case9 hquote hescape _ _ _ _ _ hcontrol =>
      exact readText_char { found } hquote hescape hcontrol rest

/-- **A written string is read as itself,** up to its closing quote.  By induction on its characters,
    each of which is read behind those found so far. -/
theorem readText_escaped (s : String) (rest : List Symbol) :
    readText {} (ofChars (s.toList.flatMap escapeChar) ++ .char '"' :: rest)
      = (.found s, rest) := by
  have hchars (cs found : List Char) :
      readText { found } (ofChars (cs.flatMap escapeChar) ++ .char '"' :: rest)
        = (.found (String.ofList (found.reverse ++ cs)), rest) := by
    induction cs generalizing found with
    | nil =>
        rw [List.append_nil, List.flatMap_nil]
        exact readText_quote { found } rest
    | cons c cs ih =>
        rw [List.flatMap_cons, ofChars_append, List.append_assoc, readText_escapeChar, ih,
          List.reverse_cons, List.append_assoc, List.singleton_append]
  rw [hchars, List.reverse_nil, List.nil_append, String.ofList_toList]

/-! ## Whole numbers -/

/-- Whether a text does not make a number longer that stands in front of it. -/
def EndsNumber (text : List Symbol) : Prop :=
  ∀ c, text.head? = some (.char c) → c.isDigit = false ∧ c ≠ '.' ∧ c ≠ 'e' ∧ c ≠ 'E'

/-- Whether no digit stands in front of a text. -/
def EndsDigits (text : List Symbol) : Prop := ∀ c, text.head? = some (.char c) → c.isDigit = false

theorem EndsNumber.endsDigits {text : List Symbol} (h : EndsNumber text) : EndsDigits text :=
  fun c hc => (h c hc).1

theorem endsNumber_nil : EndsNumber [] := fun _ h => nomatch h

theorem endsNumber_cons {c : Char} (hdigit : c.isDigit = false) (hpoint : c ≠ '.') (hsmall : c ≠ 'e')
    (hlarge : c ≠ 'E') (rest : List Symbol) : EndsNumber (.char c :: rest) := by
  intro d hd
  cases hd
  exact ⟨hdigit, hpoint, hsmall, hlarge⟩

/-- The number that a decimal digit stands for. -/
def digitOf (c : Char) : Nat := c.toNat - '0'.toNat

/-- Digits are read up to the first symbol that is none. -/
theorem readDigitsFrom_append {cs : List Char} (hdigits : ∀ c ∈ cs, c.isDigit = true)
    {rest : List Symbol} (hrest : EndsDigits rest) (found : List Nat) :
    readDigitsFrom found (ofChars cs ++ rest) = (found.reverse ++ cs.map digitOf, rest) := by
  induction cs generalizing found with
  | nil =>
      rw [List.map_nil, List.append_nil]
      match rest with
      | [] => rfl
      | .stray :: _ => rfl
      | .char c :: _ =>
          show readDigitsFrom found (.char c :: _) = _
          rw [readDigitsFrom, if_neg (by rw [hrest c rfl]; exact Bool.false_ne_true)]
  | cons c cs ih =>
      rw [List.forall_mem_cons] at hdigits
      show readDigitsFrom found (.char c :: (ofChars cs ++ rest)) = _
      rw [readDigitsFrom, if_pos hdigits.1, ih hdigits.2, List.reverse_cons, List.append_assoc]
      rfl

/-- Digits are gathered to the end as long as their number is a word.  A prefix of the digits is no
    larger than all of them, so the sum never stops early. -/
theorem gather_digits (cs : List Char) (word : Nat) (h : Nat.ofDigitChars 10 cs word < UInt64.size) :
    Numeral.gather word (cs.map digitOf) = (Nat.ofDigitChars 10 cs word, 0) := by
  induction cs generalizing word with
  | nil => rfl
  | cons c cs ih =>
      have hstep : Nat.ofDigitChars 10 (c :: cs) word
          = Nat.ofDigitChars 10 cs (word * 10 + digitOf c) := by
        rw [Nat.ofDigitChars_cons, Nat.mul_comm 10 word]
        rfl
      rw [hstep] at h ⊢
      -- the digits behind a number never make it smaller
      have hle : word * 10 + digitOf c ≤ Nat.ofDigitChars 10 cs (word * 10 + digitOf c) := by
        rw [Nat.ofDigitChars_eq_ofDigitChars_zero]
        have hpow : 0 < 10 ^ cs.length := Nat.pow_pos (by decide)
        exact Nat.le_trans (Nat.le_mul_of_pos_left _ hpow) (Nat.le_add_right _ _)
      rw [List.map_cons, Numeral.gather, if_pos (Nat.lt_of_le_of_lt hle h), ih _ h]

/-- The digits of a number begin with a zero for zero alone.  The reader refuses further digits behind a
    leading zero, so this is needed to read any number back. -/
theorem digits_cases (n : Nat) :
    Nat.toDigits 10 n = ['0'] ∨ ∃ c cs, Nat.toDigits 10 n = c :: cs ∧ digitOf c ≠ 0 := by
  induction n using Nat.strongRecOn with
  | _ n ih =>
    rw [Nat.toDigits_eq_if (by decide)]
    by_cases hn : n < 10
    · rw [if_pos hn]
      by_cases hzero : n = 0
      · exact Or.inl (by rw [hzero]; rfl)
      · refine Or.inr ⟨_, [], rfl, ?_⟩
        rw [digitOf, Nat.toNat_digitChar_of_lt_ten hn]
        show 48 + n - 48 ≠ 0
        omega
    · rw [if_neg hn]
      -- more than one digit: what stands in front of the last one is no zero
      rcases ih (n / 10) (by omega) with hfront | ⟨c, cs, hfront, hc⟩
      · have hvalue := congrArg (Nat.ofDigitChars 10 · 0) hfront
        rw [Nat.ofDigitChars_ten_toDigits] at hvalue
        exact absurd hvalue (show ¬ n / 10 = 0 by omega)
      · exact Or.inr ⟨c, cs ++ [Nat.digitChar (n % 10)], by rw [hfront]; rfl, hc⟩

/-- The decimal digits of a word are the text of it. -/
def digits (n : UInt64) : List Char := Nat.toDigits 10 n.toNat

theorem toList_toString (n : UInt64) : (toString n.toNat).toList = digits n := by
  rw [Nat.toString_eq_ofList_toDigits, String.toList_ofList, digits]

theorem isDigit_of_mem_digits {n : UInt64} {c : Char} (h : c ∈ digits n) : c.isDigit = true :=
  Nat.isDigit_of_mem_toDigits (by decide) (by decide) h

theorem exists_digits (n : UInt64) : ∃ c cs, digits n = c :: cs ∧ c.isDigit = true := by
  obtain ⟨c, cs, h⟩ := List.exists_cons_of_ne_nil (Nat.toDigits_ne_nil (n := n.toNat) (b := 10))
  refine ⟨c, cs, h, isDigit_of_mem_digits (n := n) ?_⟩
  rw [digits, h]
  exact List.mem_cons_self

/-- A numeral of the digits of a word is that word. -/
theorem number?_digits (n : UInt64) :
    Numeral.number? { whole := (digits n).map digitOf } = some (.whole n) := by
  have hvalue : Nat.ofDigitChars 10 (digits n) 0 = n.toNat := Nat.ofDigitChars_ten_toDigits
  have hgather := gather_digits (digits n) 0 (by rw [hvalue]; exact n.toNat_lt)
  rw [hvalue] at hgather
  simp [Numeral.number?, hgather]

/-- Without its letter a number has no exponent. -/
theorem readExponent_of_ne (n : Numeral) {text : List Symbol}
    (h : ∀ c, text.head? = some (.char c) → c ≠ 'e' ∧ c ≠ 'E') :
    readExponent n text = foundNumber n (.seeing text) text := by
  match text with
  | [] => rfl
  | .stray :: _ => rfl
  | .char c :: _ =>
      obtain ⟨hsmall, hlarge⟩ := h c rfl
      rw [readExponent, if_neg (not_or.2 ⟨hsmall, hlarge⟩)]

/-- Without a point a number has no fraction. -/
theorem readFraction_of_ne (n : Numeral) {text : List Symbol} (h : text.head? ≠ some (.char '.')) :
    readFraction n text = readExponent n text := by
  rw [readFraction]
  rintro rest rfl
  exact h rfl

/-- Where a number ends, the digits before its end are all there is to it. -/
theorem readFraction_of_endsNumber (n : Numeral) {rest : List Symbol} (hrest : EndsNumber rest) :
    readFraction n rest = foundNumber n (.seeing rest) rest := by
  rw [readFraction_of_ne n fun hpoint => (hrest _ hpoint).2.1 rfl,
    readExponent_of_ne n fun c hc => (hrest c hc).2.2]

/-- **The digits of a word are read as that word,** up to where a number ends: there is neither a sign
    nor a point nor an exponent. -/
theorem readNumber_digits (n : UInt64) {rest : List Symbol} (hrest : EndsNumber rest) :
    readNumber (ofChars (digits n) ++ rest) = (.found (.whole n), rest) := by
  have hread : readDigits (ofChars (digits n) ++ rest) = ((digits n).map digitOf, rest) :=
    readDigitsFrom_append (fun _ => isDigit_of_mem_digits) hrest.endsDigits []
  have hfraction : readFraction { whole := (digits n).map digitOf } rest
      = (.found (.whole n), rest) := by
    rw [readFraction_of_endsNumber _ hrest, foundNumber, number?_digits]
    rfl
  obtain ⟨c, cs, hcs, hc⟩ := exists_digits n
  have hsign : readNumber (ofChars (digits n) ++ rest)
      = readWhole false (ofChars (digits n) ++ rest) := by
    rw [hcs]
    show readNumber (.char c :: _) = _
    rw [readNumber]
    · rfl
    · intro _ h
      cases h
      exact absurd hc (by decide)
  -- a zero stands alone, so no digit is ever missed behind a leading one
  have hleading : ∀ d ds, (digits n).map digitOf ≠ 0 :: d :: ds := by
    intro d ds h
    rcases digits_cases n.toNat with hzero | ⟨c, cs, hcs, hc⟩
    · rw [digits, hzero] at h
      exact List.cons_ne_nil d ds (List.cons.inj h).2.symm
    · rw [digits, hcs, List.map_cons, List.cons.injEq] at h
      exact hc h.1
  rw [hsign, readWhole, hread]
  dsimp only
  split
  · next h =>
      rw [hcs] at h
      exact absurd h (List.cons_ne_nil _ _)
  · next h => exact absurd h (hleading _ _)
  · exact hfraction

end Json

end HeapProfile
