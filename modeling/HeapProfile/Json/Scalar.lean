import HeapProfile.Json.Reading
import HeapProfile.Text.Symbol

/-!
# Scalars — finding strings, numbers and words in a text

Each function starts behind the first symbol that told the kind of scalar and gives what was found
together with the text behind it.  A string or number that cannot even be skipped says so in its
lexeme; then the text behind it is of no further use.
-/

namespace HeapProfile.Json

/-- Whether a character may stand between the parts of a document. -/
def isBlank (c : Char) : Bool := c == ' ' || c == '\n' || c == '\t' || c == '\r'

/-- The text behind the blanks at its beginning. -/
def skipBlanks : List Symbol → List Symbol
  | .char c :: rest => if isBlank c then skipBlanks rest else .char c :: rest
  | text => text

/-- The value of a hexadecimal digit. -/
def hexDigit? (c : Char) : Option Nat :=
  if '0' ≤ c ∧ c ≤ '9' then some (c.toNat - '0'.toNat)
  else if 'a' ≤ c ∧ c ≤ 'f' then some (c.toNat - 'a'.toNat + 10)
  else if 'A' ≤ c ∧ c ≤ 'F' then some (c.toNat - 'A'.toNat + 10)
  else none

/-- The number that four hexadecimal digits stand for, and the text behind them.  Fewer than four
bytes are too few, whatever they are. -/
def hexQuad? (text : List Symbol) : Except Complaint (Nat × List Symbol) :=
  let few := (text.take 4).foldl (fun count symbol => count + symbol.byteCount) 0 < 4
  let wrong : Complaint := ⟨.badEscape, { behind := text, ahead := 4 }⟩
  match text with
  | .char a :: .char b :: .char c :: .char d :: rest =>
    match hexDigit? a, hexDigit? b, hexDigit? c, hexDigit? d with
    | some a, some b, some c, some d => .ok (((a * 16 + b) * 16 + c) * 16 + d, rest)
    | _, _, _, _ => .error wrong
  | _ => .error (if few then ⟨.endInString, .before []⟩ else wrong)

/-- What is known of a string while it is read. -/
structure TextState where
  /-- The characters so far, the last one first. -/
  found : List Char := []
  /-- The first half of a surrogate pair that waits for its second half. -/
  lead : Option Nat := none
  /-- Why the string has no value. -/
  complaint? : Option Complaint := none
  /-- Whether some bytes of the string are no UTF-8. -/
  stray : Bool := false
deriving DecidableEq

namespace TextState

/-- Notes why the string has no value, unless a reason is known. -/
def spoil (s : TextState) (complaint : Complaint) : TextState :=
  { s with complaint? := s.complaint?.or (some complaint) }

/-- Complains about a first half of a surrogate pair if what is seen does not go on with it. -/
def settle (s : TextState) (seen : List Symbol) : TextState :=
  if s.lead.isSome then { s.spoil ⟨.brokenPair, .seeing seen⟩ with lead := none } else s

/-- Adds a character that is seen, or that an escape stands for. -/
def push (s : TextState) (seen : List Symbol) (c : Char) : TextState :=
  let s := s.settle seen
  { s with found := c :: s.found }

/-- Adds a 16-bit unit in front of the text behind it; two surrogates make one character. -/
def pushUnit (s : TextState) (unit : Nat) (behind : List Symbol) : TextState :=
  let isTrail := 0xDC00 ≤ unit ∧ unit ≤ 0xDFFF
  match s.lead with
  | some lead =>
    if isTrail then
      { s with
        lead := none
        found := Char.ofNat (0x10000 + (lead - 0xD800) * 0x400 + (unit - 0xDC00)) :: s.found }
    -- a pair without its second half is wrong whatever the unit is
    else { s.spoil ⟨.loneSurrogate, .before behind⟩ with lead := none }
  | none =>
    if 0xD800 ≤ unit ∧ unit ≤ 0xDBFF then { s with lead := some unit }
    else if isTrail then s.spoil ⟨.loneSurrogate, .before behind⟩
    else { s with found := Char.ofNat unit :: s.found }

/-- The string at its closing quote, in front of the text behind it. -/
def close (s : TextState) (behind : List Symbol) : Lexeme String :=
  match s.complaint? with
  | some complaint => { value := .error complaint }
  | none =>
    if s.stray then { value := .error ⟨.badEncoding, .before behind⟩ }
    else { value := .ok (String.ofList s.found.reverse) }

/-- The string at a place where it cannot go on. -/
def broken (s : TextState) (complaint : Complaint) : Lexeme String where
  value := .error (s.complaint?.getD complaint)
  complaint? := some complaint

end TextState

/-- The character that a letter behind a backslash stands for. -/
def escaped? (c : Char) : Option Char :=
  if c = '"' then some '"'
  else if c = '\\' then some '\\'
  else if c = '/' then some '/'
  else if c = 'b' then some '\x08'
  else if c = 'f' then some '\x0c'
  else if c = 'n' then some '\n'
  else if c = 'r' then some '\r'
  else if c = 't' then some '\t'
  else none

theorem length_of_hexQuad? {text rest : List Symbol} {n : Nat} (h : hexQuad? text = .ok (n, rest)) :
    rest.length < text.length := by
  unfold hexQuad? at h
  dsimp only at h
  split at h
  · split at h
    · simp only [Except.ok.injEq, Prod.mk.injEq] at h
      rw [← h.2]
      simp only [List.length_cons]
      omega
    · exact nomatch h
  · exact nomatch h

/-- A string from behind its opening quote. -/
def readText (s : TextState) (text : List Symbol) : Lexeme String × List Symbol :=
  match text with
  | [] => (s.broken ⟨.endInString, .before []⟩, [])
  -- a stray byte is complained about at the closing quote, behind all other complaints
  | .stray :: rest => readText { s.settle text with stray := true } rest
  | .char c :: rest =>
    if c = '"' then ((s.settle text).close rest, rest)
    else if c = '\\' then
      match rest with
      | [] => (s.broken ⟨.endInString, .before []⟩, [])
      | .stray :: behind => ((s.settle rest).broken ⟨.badEscape, .seeing rest⟩, behind)
      | .char e :: behind =>
        if e = 'u' then
          match _h : hexQuad? behind with
          | .error complaint => (s.broken complaint, behind)
          | .ok (unit, behind) => readText (s.pushUnit unit behind) behind
        else match escaped? e with
          | some c => readText (s.push rest c) behind
          | none => ((s.settle rest).broken ⟨.badEscape, .seeing rest⟩, behind)
    else if c.toNat < 32 then ((s.settle text).broken ⟨.controlCharacter, .seeing text⟩, rest)
    else readText (s.push text c) rest
termination_by text.length
decreasing_by
  all_goals simp only [List.length_cons]
  · omega
  · have := length_of_hexQuad? _h
    omega
  · omega
  · omega

/-- The digits at the beginning of a text behind the ones found before (in reverse), and the text behind
them. -/
def readDigitsFrom (found : List Nat) : List Symbol → List Nat × List Symbol
  | .char c :: rest =>
    if c.isDigit then readDigitsFrom ((c.toNat - '0'.toNat) :: found) rest
    else (found.reverse, .char c :: rest)
  | text => (found.reverse, text)

/-- The digits at the beginning of a text, and the text behind them. -/
def readDigits (text : List Symbol) : List Nat × List Symbol := readDigitsFrom [] text

/-- A number that breaks off where a digit is due: it ends too early if the text does, and cannot be skipped
either. -/
def brokenNumber (text : List Symbol) : Lexeme Number × List Symbol :=
  let cause : Cause := if text.isEmpty then .endInValue else .badNumber
  ({ value := .error ⟨cause, .seeing text⟩, complaint? := some ⟨.badNumber, .seeing text⟩ }, text)

/-- The number that a numeral stands for, found in front of a text; that it is too large is noticed at the
given place. -/
def foundNumber (n : Numeral) (place : Place) (text : List Symbol) : Lexeme Number × List Symbol :=
  match n.number? with
  | some number => ({ value := .ok number }, text)
  | none => ({ value := .error ⟨.numberTooLarge, place⟩ }, text)

/-- Whether an exponent is negative, and the text behind its sign if it has one. -/
def readSign : List Symbol → Bool × List Symbol
  | .char '+' :: rest => (false, rest)
  | .char '-' :: rest => (true, rest)
  | text => (false, text)

/-- The exponent of a number, if one begins here. -/
def readExponent (n : Numeral) (text : List Symbol) : Lexeme Number × List Symbol :=
  match text with
  | .char c :: rest =>
    if c = 'e' ∨ c = 'E' then
      let (down, rest) := readSign rest
      let (digits, behind) := readDigits rest
      if digits.isEmpty then brokenNumber rest
      else
        -- an exponent beyond 32 bits is noticed at the digit that makes it so
        let place : Place := match Numeral.exponentOf digits with
          | .ok _ => .seeing behind
          | .error count => { behind := rest, ahead := count }
        foundNumber { n with exponent := some (down, digits) } place behind
    else foundNumber n (.seeing text) text
  | _ => foundNumber n (.seeing text) text

/-- The point and the digits behind it, if the number has them. -/
def readFraction (n : Numeral) (text : List Symbol) : Lexeme Number × List Symbol :=
  match text with
  | .char '.' :: rest =>
    let (digits, behind) := readDigits rest
    if digits.isEmpty then brokenNumber rest
    else readExponent { n with hasPoint := true, fraction := digits } behind
  | _ => readExponent n text

/-- The digits of a number behind its sign: no further digit may follow a zero. -/
def readWhole (negative : Bool) (text : List Symbol) : Lexeme Number × List Symbol :=
  let (digits, behind) := readDigits text
  match digits with
  | [] => brokenNumber text
  | 0 :: _ :: _ =>
    -- the digit behind the leading zero is the one that is seen
    let complaint : Complaint := ⟨.badNumber, .seeing text.tail⟩
    ({ value := .error complaint, complaint? := some complaint }, behind)
  | whole => readFraction { negative, whole } behind

/-- A number from its sign or first digit on. -/
def readNumber (text : List Symbol) : Lexeme Number × List Symbol :=
  match text with
  | .char '-' :: rest => readWhole true rest
  | _ => readWhole false text

/-- The number that begins right here and ends at a quote, and the place where it ends; a text that begins
otherwise is refused before anything is read. -/
def readQuotedNumber (text : List Symbol) : Lexeme Number × Place :=
  let starts := match text with
    | .char c :: _ => c == '-' || c.isDigit
    | _ => false
  if starts then
    let (lexeme, behind) := readNumber text
    match behind with
    | .char '"' :: _ => ({ lexeme with complaint? := none }, .seeing behind)
    | _ => ({ lexeme with complaint? := some ⟨.quoteDue, .seeing behind⟩ }, .seeing behind)
  else
    let complaint : Complaint := ⟨.nameNotNumber, .seeing text⟩
    ({ value := .error complaint, complaint? := some complaint }, .seeing text)

/-- The name of a member from behind its opening quote. -/
def readKey (text : List Symbol) : Key × List Symbol :=
  let (lexeme, behind) := readText {} text
  let (number, numberStop) := readQuotedNumber text
  ({ text := lexeme, stop := .seeing (skipBlanks behind), number, numberStop }, behind)

/-- The rest of a word, such as the three letters behind the first one of `null`; what is found then stands
between its start and the place behind the word. -/
def readWord (start : Place) (found : Span → Reading) : List Char → List Symbol → Reading × List Symbol
  | [], text => (found ⟨start, .before text⟩, text)
  | _ :: _, [] => (.broken start ⟨.endInValue, .before []⟩, [])
  | letter :: letters, symbol :: rest =>
    if symbol = .char letter then readWord start found letters rest
    else (.broken start ⟨.wordDue, .seeing (symbol :: rest)⟩, rest)

end HeapProfile.Json
