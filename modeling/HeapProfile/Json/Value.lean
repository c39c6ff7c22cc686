import HeapProfile.Json.Number

/-!
# Values — documents as data

A document is null, a truth value, a number, a string, a sequence of documents, or an object with its
members in the order in which they stand.
-/

namespace HeapProfile.Json

/-- A document. -/
inductive Value
  | null
  | bool (b : Bool)
  | number (n : Number)
  | string (s : String)
  | array (items : List Value)
  | object (members : List (String × Value))

namespace Value

instance : Inhabited Value := ⟨null⟩

/-- A whole number. -/
def word (n : UInt64) : Value := number (.whole n)

/-- A whole number of 32 bits. -/
def word32 (n : UInt32) : Value := number (.whole n.toUInt64)

/-- The first member of an object with a name. -/
def member? (name : String) : Value → Option Value
  | object members => (members.find? fun entry => entry.1 == name).map (·.2)
  | _ => none

end Value

end HeapProfile.Json
