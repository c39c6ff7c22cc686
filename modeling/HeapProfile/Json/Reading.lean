import HeapProfile.Json.Fault
import HeapProfile.Json.Value

/-!
# Readings — what a text turns out to be, from left to right

Reading a text never fails.  It gives a tree of what was found, and where the text stops being JSON
the tree holds a complaint in its place and nothing behind it.  What a document is asked for is decided on
the tree; whoever walks it from left to right meets complaints and mismatches in the order of the text, each
with the place at which it is noticed.

Some texts are good enough to be skipped but have no value: a number too large for a double, or a
string with half a surrogate pair.  Such a scalar carries both answers.  `Reading.value` is the strict
walk: it needs every value, and refuses brackets nested too deeply.
-/

namespace HeapProfile.Json

/-- A part of a text as found: its value, and the complaint that keeps it from being skipped. -/
structure Lexeme (α : Type) where
  value : Except Complaint α
  complaint? : Option Complaint := none

/-- The places around a scalar: where its first byte is seen, and where the reader stands behind it. -/
structure Span where
  start : Place
  stop : Place

/-- The name of a member as found: as a string, and as the number that stands between its quotes. -/
structure Key where
  text : Lexeme String
  /-- Where a colon is looked for behind the name. -/
  stop : Place
  number : Lexeme Number
  /-- Where the reader stands behind the number. -/
  numberStop : Place

/-- What was found in a text. -/
inductive Reading
  | null (span : Span)
  | bool (span : Span) (b : Bool)
  | number (span : Span) (lexeme : Lexeme Number)
  | text (span : Span) (lexeme : Lexeme String)
  /-- A sequence from its bracket on; its closing bracket gives the place behind it. -/
  | array (start : Place) (items : List Reading) (closing : Lexeme Place)
  /-- An object from its bracket on; its closing bracket gives the place behind it. -/
  | object (start : Place) (members : List (Key × Reading)) (closing : Lexeme Place)
  /-- Not even the beginning of a value. -/
  | broken (start : Place) (complaint : Complaint)

namespace Lexeme

/-- A part that is there. -/
def found {α : Type} (value : α) : Lexeme α := { value := .ok value }

/-- A part that is missing: there is no value, and nothing to skip. -/
def missing {α : Type} (complaint : Complaint) : Lexeme α where
  value := .error complaint
  complaint? := some complaint

end Lexeme

namespace Reading

instance : Inhabited Reading := ⟨broken default ⟨.valueDue, default⟩⟩

/-- Where the first byte is seen. -/
def start : Reading → Place
  | null span => span.start
  | bool span _ => span.start
  | number span _ => span.start
  | text span _ => span.start
  | array start _ _ => start
  | object start _ _ => start
  | broken start _ => start

/-- The complaint that keeps what was found from being skipped. -/
def complaint? : Reading → Option Complaint
  | null _ => none
  | bool _ _ => none
  | number _ lexeme => lexeme.complaint?
  | text _ lexeme => lexeme.complaint?
  | array _ _ closing => closing.complaint?
  | object _ _ closing => closing.complaint?
  | broken _ complaint => some complaint

/-- Passes over what was found without looking at its value. -/
def skip (r : Reading) : Except Complaint Unit :=
  match r.complaint? with
  | none => .ok ()
  | some complaint => .error complaint

mutual

/-- The value that was found, if brackets nest no deeper than the given number. -/
def value : Nat → Reading → Except Complaint Value
  | _, null _ => .ok .null
  | _, bool _ b => .ok (.bool b)
  | _, number _ lexeme => lexeme.value.map Value.number
  | _, text _ lexeme => lexeme.value.map Value.string
  | 0, array start _ _ => .error ⟨.tooDeep, start⟩
  | room + 1, array _ items closing => do
    let values ← itemValues room items
    let _ ← closing.value
    return .array values
  | 0, object start _ _ => .error ⟨.tooDeep, start⟩
  | room + 1, object _ members closing => do
    let values ← memberValues room members
    let _ ← closing.value
    return .object values
  | _, broken _ complaint => .error complaint

/-- The values of the elements of a sequence. -/
def itemValues : Nat → List Reading → Except Complaint (List Value)
  | _, [] => .ok []
  | room, item :: rest => do
    let value ← value room item
    let values ← itemValues room rest
    return value :: values

/-- The values of the members of an object. -/
def memberValues : Nat → List (Key × Reading) → Except Complaint (List (String × Value))
  | _, [] => .ok []
  | room, (key, item) :: rest => do
    let name ← key.text.value
    let value ← value room item
    let values ← memberValues room rest
    return (name, value) :: values

end

/-- How deep brackets may nest. -/
def maxDepth : Nat := 127

/-- The complaint that something else was expected where this was found.  A scalar is complained about
behind it, a bracket at once. -/
def unexpected (expected : String) (r : Reading) : Complaint :=
  let wrong (found : Found) (place : Place) : Complaint := ⟨.mismatch (.wrongType found expected), place⟩
  match r with
  | null span => wrong .null span.stop
  | bool span b => wrong (.boolean b) span.stop
  | number span lexeme => match lexeme.value with
    | .ok n => wrong (.number n) span.stop
    | .error complaint => complaint
  | text span lexeme => match lexeme.value with
    | .ok s => wrong (.text s) span.stop
    | .error complaint => complaint
  | array start _ _ => wrong .sequence start
  | object start _ _ => wrong .map start
  | broken _ complaint => complaint

end Reading

end HeapProfile.Json
