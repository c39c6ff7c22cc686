import HeapProfile.Json.Number
import HeapProfile.Json.Place
import HeapProfile.Text.Quoted

/-!
# Faults — why a document is not what was asked for

A document may fail to be JSON, it may end too early, or it may be JSON of another shape.  A complaint tells
the cause and the place at which the reader noticed it; a fault is a complaint whose place is counted in lines
and columns.
-/

namespace HeapProfile.Json

/-- What stood where something else was expected. -/
inductive Found
  | null
  | boolean (b : Bool)
  | number (n : Number)
  | text (s : String)
  | sequence
  | map
deriving DecidableEq, Repr

/-- How a document can have another shape than expected. -/
inductive Mismatch
  | wrongType (found : Found) (expected : String)
  /-- A whole number outside the range that was expected. -/
  | wrongValue (found : Number) (expected : String)
  /-- A sequence with the wrong number of elements. -/
  | wrongLength (length : Nat) (expected : String)
  | missingField (name : String)
  | duplicateField (name : String)
  | unknownVariant (name : String) (expected : List String)
deriving DecidableEq, Repr

/-- Why a document could not be read. -/
inductive Cause
  | endInList
  | endInObject
  | endInString
  | endInValue
  | colonDue
  | listCommaDue
  | objectCommaDue
  /-- A word began that is none. -/
  | wordDue
  | valueDue
  | quoteDue
  | badEscape
  | badNumber
  | numberTooLarge
  | badEncoding
  | controlCharacter
  | nameNotText
  | nameNotNumber
  /-- Half a surrogate pair where a character or the other half was due. -/
  | loneSurrogate
  /-- No escape behind the first half of a surrogate pair. -/
  | brokenPair
  | trailingComma
  | trailingText
  | tooDeep
  /-- The text is JSON of another shape. -/
  | mismatch (cause : Mismatch)
deriving DecidableEq, Repr

/-- A cause, and the place where the reader stood when it noticed. -/
structure Complaint where
  cause : Cause
  place : Place
deriving DecidableEq, Repr

/-- A cause, and its place in lines and columns. -/
structure Fault where
  cause : Cause
  position : Position
deriving DecidableEq, Repr

namespace Found

/-- The description of a number: its kind and its text. -/
def describeNumber : Number → String
  | .double bits => "floating point `" ++ (Number.double bits).text ++ "`"
  | n => "integer `" ++ n.text ++ "`"

/-- The description of what was found. -/
def describe : Found → String
  | null => "null"
  | boolean b => "boolean `" ++ (if b then "true" else "false") ++ "`"
  | number n => describeNumber n
  | text s => "string " ++ Text.quoted s
  | sequence => "sequence"
  | map => "map"

end Found

namespace Mismatch

/-- A name between backquotes. -/
def ticked (name : String) : String := "`" ++ name ++ "`"

/-- The wording of a mismatch. -/
def message : Mismatch → String
  | wrongType found expected =>
    "invalid type: " ++ found.describe ++ ", expected " ++ expected
  | wrongValue found expected =>
    "invalid value: " ++ Found.describeNumber found ++ ", expected " ++ expected
  | wrongLength length expected =>
    "invalid length " ++ toString length ++ ", expected " ++ expected
  | missingField name => "missing field " ++ ticked name
  | duplicateField name => "duplicate field " ++ ticked name
  | unknownVariant name expected =>
    "unknown variant " ++ ticked name ++ ", expected one of " ++
      String.intercalate ", " (expected.map ticked)

end Mismatch

/-- A mismatch that is noticed at a place. -/
def noticedAt {α : Type} (place : Place) (answer : Except Mismatch α) : Except Complaint α :=
  answer.mapError fun cause => ⟨.mismatch cause, place⟩

namespace Cause

/-- The name of the category of a cause. -/
def category : Cause → String
  | endInList | endInObject | endInString | endInValue => "eof"
  | mismatch _ => "data"
  | _ => "syntax"

/-- The wording of a cause. -/
def message : Cause → String
  | endInList => "EOF while parsing a list"
  | endInObject => "EOF while parsing an object"
  | endInString => "EOF while parsing a string"
  | endInValue => "EOF while parsing a value"
  | colonDue => "expected `:`"
  | listCommaDue => "expected `,` or `]`"
  | objectCommaDue => "expected `,` or `\x7d`"
  | wordDue => "expected ident"
  | valueDue => "expected value"
  | quoteDue => "expected `\"`"
  | badEscape => "invalid escape"
  | badNumber => "invalid number"
  | numberTooLarge => "number out of range"
  | badEncoding => "invalid unicode code point"
  | controlCharacter => "control character (\\u0000-\\u001F) found while parsing a string"
  | nameNotText => "key must be a string"
  | nameNotNumber => "invalid value: expected key to be a number in quotes"
  | loneSurrogate => "lone leading surrogate in hex escape"
  | brokenPair => "unexpected end of hex escape"
  | trailingComma => "trailing comma"
  | trailingText => "trailing characters"
  | tooDeep => "recursion limit exceeded"
  | mismatch cause => cause.message

end Cause

namespace Complaint

/-- The fault that a complaint about a text is. -/
def fault (c : Complaint) (text : List Symbol) : Fault where
  cause := c.cause
  position := c.place.position text

end Complaint

namespace Fault

/-- The wording of a fault: its cause and its place. -/
def message (f : Fault) : String :=
  f.cause.message ++ " at line " ++ toString f.position.line ++ " column " ++
    toString f.position.column

end Fault

end HeapProfile.Json
