import HeapProfile.Json.Reader

/-!
# Decoders — asking a reading for typed data

A decoder walks a reading from left to right and gives what was asked for, or the first complaint on the
way.  Records are described by their fields: `Fields.required` and `Fields.defaulted`
describe one, `Fields.and` puts two descriptions side by side.  A record is an object with its fields in
any order among unknown members, or a sequence of its fields in order.
-/

namespace HeapProfile.Json

/-- What is asked of a reading. -/
abbrev Decoder (α : Type) := Reading → Except Complaint α

namespace Decoder

variable {α β : Type}

/-- A string. -/
def text : Decoder String
  | .text _ lexeme => lexeme.value
  | found => .error (found.unexpected "a string")

/-- A whole number up to a limit. -/
def wholeOf (limit : Nat) (expected : String) (n : Number) : Except Mismatch Nat :=
  match n with
  | .whole word => if word.toNat ≤ limit then .ok word.toNat else .error (.wrongValue n expected)
  | .negative _ => .error (.wrongValue n expected)
  | .double _ => .error (.wrongType (.number n) expected)

/-- A whole number up to a limit, from a number behind which the reader stands at a place. -/
def wholeAt (limit : Nat) (expected : String) (stop : Place) (lexeme : Lexeme Number) :
    Except Complaint Nat := do
  let n ← lexeme.value
  noticedAt stop (wholeOf limit expected n)

/-- A whole number up to a limit. -/
def whole (limit : Nat) (expected : String) : Decoder Nat
  | .number span lexeme => wholeAt limit expected span.stop lexeme
  | found => .error (found.unexpected expected)

/-- A word of 64 bits. -/
def word : Decoder UInt64 := fun found => (whole (UInt64.size - 1) "u64" found).map UInt64.ofNat

/-- A word of 32 bits. -/
def word32 : Decoder UInt32 := fun found => (whole (UInt32.size - 1) "u32" found).map UInt32.ofNat

/-- The number of a row. -/
def rowNumber : Decoder UInt64 := fun found => (whole (UInt64.size - 1) "usize" found).map UInt64.ofNat

/-- Null, or what is asked for. -/
def optional (ask : Decoder α) : Decoder (Option α)
  | .null _ => .ok none
  | found => (ask found).map some

/-- A sequence of what is asked for. -/
def list (ask : Decoder α) : Decoder (List α)
  | .array _ items closing => do
    let answers ← items.mapM ask
    let _ ← closing.value
    return answers
  | found => .error (found.unexpected "a sequence")

/-- The number that the name of a member is. -/
def id (key : Key) : Except Complaint UInt32 := do
  let n ← wholeAt (UInt32.size - 1) "u32" key.numberStop key.number
  match key.number.complaint? with
  | none => return UInt32.ofNat n
  | some complaint => throw complaint

/-- An object whose names are numbers, as its entries in the order in which they stand. -/
def numbered (ask : Decoder α) : Decoder (List (UInt32 × α))
  | .object _ members closing => do
    let entries ← members.mapM fun (key, item) => do
      let id ← id key
      let answer ← ask item
      return (id, answer)
    let _ ← closing.value
    return entries
  | found => .error (found.unexpected "a map")

end Decoder

/-- The description of the fields of a record: how one is noted down when it is met, and what the
record is once all are noted. -/
structure Fields (α : Type) where
  /-- What is noted of the fields met so far. -/
  Noted : Type
  nothing : Noted
  /-- The names of the fields in order. -/
  names : List String
  /-- The names of the fields that may be left out. -/
  defaulted : List String
  isNoted : Noted → String → Bool
  note : Noted → String → Decoder Noted
  /-- The record, or the first field that is missing. -/
  close : Noted → Except Mismatch α

namespace Fields

variable {α β : Type}

/-- One field that must be there. -/
def required (name : String) (ask : Decoder α) : Fields α where
  Noted := Option α
  nothing := none
  names := [name]
  defaulted := []
  isNoted noted _ := noted.isSome
  note _ _ found := (ask found).map some
  close
    | some answer => .ok answer
    | none => .error (.missingField name)

/-- One field that may be left out. -/
def withDefault (name : String) (default : α) (ask : Decoder α) : Fields α where
  Noted := Option α
  nothing := none
  names := [name]
  defaulted := [name]
  isNoted noted _ := noted.isSome
  note _ _ found := (ask found).map some
  close noted := .ok (noted.getD default)

/-- The fields of two descriptions, the first ones before the second ones. -/
def and (a : Fields α) (b : Fields β) : Fields (α × β) where
  Noted := a.Noted × b.Noted
  nothing := (a.nothing, b.nothing)
  names := a.names ++ b.names
  defaulted := a.defaulted ++ b.defaulted
  isNoted noted name :=
    if a.names.contains name then a.isNoted noted.1 name else b.isNoted noted.2 name
  note noted name found :=
    if a.names.contains name then (a.note noted.1 name found).map fun first => (first, noted.2)
    else (b.note noted.2 name found).map fun second => (noted.1, second)
  close noted := do
    let first ← a.close noted.1
    let second ← b.close noted.2
    return (first, second)

/-- The same fields for a record that is made from them. -/
def map (f : α → β) (a : Fields α) : Fields β where
  Noted := a.Noted
  nothing := a.nothing
  names := a.names
  defaulted := a.defaulted
  isNoted := a.isNoted
  note := a.note
  close noted := (a.close noted).map f

variable (fields : Fields α)

/-- Notes a field that was met under a name; it may be met once. -/
def meet (noted : fields.Noted) (key : Key) (name : String) (item : Reading) :
    Except Complaint fields.Noted :=
  if fields.isNoted noted name then .error ⟨.mismatch (.duplicateField name), key.stop⟩
  else fields.note noted name item

/-- Notes the fields among the members of an object, and passes over all others. -/
def ofMembers : fields.Noted → List (Key × Reading) → Except Complaint fields.Noted
  | noted, [] => .ok noted
  | noted, (key, item) :: rest => do
    let name ← key.text.value
    if fields.names.contains name then
      let noted ← fields.meet noted key name item
      ofMembers noted rest
    else
      item.skip
      ofMembers noted rest

/-- A number of elements, in words. -/
def elements (n : Nat) : String := if n = 1 then "1 element" else toString n ++ " elements"

/-- The length of a record as a sequence, in words. -/
def lengthOf (title : String) : String :=
  title ++ " with " ++ elements fields.names.length

/-- Notes the elements of a sequence for the fields of some names in order, and gives the elements
that are left. -/
def ofItems (title : String) (closing : Lexeme Place) :
    fields.Noted → Nat → List String → List Reading → Except Complaint (fields.Noted × List Reading)
  | noted, _, [], items => .ok (noted, items)
  | noted, count, name :: names, item :: items => do
    let noted ← fields.note noted name item
    ofItems title closing noted (count + 1) names items
  | noted, count, name :: names, [] => do
    let stop ← closing.value
    if fields.defaulted.contains name then ofItems title closing noted count names []
    else throw ⟨.mismatch (.wrongLength count (fields.lengthOf title)), stop⟩

/-- A record from the members of an object. -/
def object (members : List (Key × Reading)) (closing : Lexeme Place) : Except Complaint α := do
  let noted ← fields.ofMembers fields.nothing members
  let stop ← closing.value
  noticedAt stop (fields.close noted)

/-- The place behind a closing bracket that is due, with some elements left in front of it: no further
element is asked for, so whatever else stands here is too much. -/
def closed (left : List Reading) (closing : Lexeme Place) : Except Complaint Place :=
  match left with
  | item :: _ => .error ⟨.trailingText, item.start⟩
  | [] => closing.value.mapError fun complaint =>
    if complaint.cause = .listCommaDue then { complaint with cause := .trailingText } else complaint

/-- A record of the given title, as an object or as a sequence of just its fields. -/
def record (title : String) : Decoder α
  | .object _ members closing => fields.object members closing
  | .array _ items closing => do
    let (noted, left) ← fields.ofItems title closing fields.nothing 0 fields.names items
    let stop ← closed left closing
    noticedAt stop (fields.close noted)
  | found => .error (found.unexpected title)

/-- Notes the fields among the members of an object and keeps the others; those must have a value
with brackets no deeper than the given number. -/
def setAside (depth : Nat) : fields.Noted → List (Key × Reading) → List (Key × Reading) →
    Except Complaint (fields.Noted × List (Key × Reading))
  | noted, kept, [] => .ok (noted, kept.reverse)
  | noted, kept, (key, item) :: rest => do
    let name ← key.text.value
    if fields.names.contains name then
      let noted ← fields.meet noted key name item
      setAside depth noted kept rest
    else
      -- a member that is kept is needed in full, whether or not it is used later
      let _ ← item.value depth
      setAside depth noted ((key, item) :: kept) rest

/-- A record of the given title that has the fields of another one among its own.  The others are
looked at when the object is complete, which is also where complaints about them are noticed; brackets in them
may nest to the given depth. -/
def recordWith (inner : Fields β) (title : String) (depth : Nat) : Decoder (α × β)
  | .object _ members closing => do
    let (noted, kept) ← fields.setAside depth fields.nothing [] members
    let stop ← closing.value
    let own ← noticedAt stop (fields.close noted)
    let inner ← (inner.object kept closing).mapError fun complaint => { complaint with place := stop }
    return (own, inner)
  | found => .error (found.unexpected title)

end Fields

end HeapProfile.Json
