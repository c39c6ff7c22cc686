import HeapProfile.Json.Value

/-!
# Printing documents

The compact form has no blanks.  The indented form gives every element of a sequence and every member
of an object a line of its own, two blanks deeper than the brackets around it; empty brackets stay
together.  Both write strings alike: quotes and backslashes are escaped, control characters are
escaped by a letter where there is one and by their number otherwise, and all else stands for itself.
-/

namespace HeapProfile.Json

/-- The digits of a character below 256 as four hexadecimal digits. -/
def hexQuad (n : Nat) : List Char :=
  ['0', '0', Nat.digitChar (n / 16), Nat.digitChar (n % 16)]

/-- How a character is written inside a string. -/
def escapeChar (c : Char) : List Char :=
  if c = '"' then ['\\', '"']
  else if c = '\\' then ['\\', '\\']
  else if c = '\n' then ['\\', 'n']
  else if c = '\r' then ['\\', 'r']
  else if c = '\t' then ['\\', 't']
  else if c = '\x08' then ['\\', 'b']
  else if c = '\x0c' then ['\\', 'f']
  else if c.toNat < 32 then '\\' :: 'u' :: hexQuad c.toNat
  else [c]

/-- A string as it is written, between quotes. -/
def quote (s : String) : String :=
  String.ofList ('"' :: s.toList.flatMap escapeChar ++ ['"'])

/-- Texts with a separator between neighbours. -/
def separated (separator : String) (parts : List String) : String :=
  String.intercalate separator parts

namespace Value

mutual

/-- The form without blanks. -/
def compact : Value → String
  | null => "null"
  | bool b => if b then "true" else "false"
  | number n => n.text
  | string s => quote s
  | array items => "[" ++ separated "," (compactItems items) ++ "]"
  | object members => "\x7b" ++ separated "," (compactMembers members) ++ "\x7d"

/-- The elements of a sequence without blanks. -/
def compactItems : List Value → List String
  | [] => []
  | item :: rest => item.compact :: compactItems rest

/-- The members of an object without blanks. -/
def compactMembers : List (String × Value) → List String
  | [] => []
  | (name, value) :: rest => (quote name ++ ":" ++ value.compact) :: compactMembers rest

end

/-- A line break and the blanks of a depth. -/
def newline (depth : Nat) : String := String.ofList ('\n' :: List.replicate (2 * depth) ' ')

/-- Brackets around parts, each on a line of its own at the given depth. -/
def bracketed (opening closing : String) (depth : Nat) (parts : List String) : String :=
  if parts.isEmpty then opening ++ closing
  else
    opening ++ newline (depth + 1) ++ separated ("," ++ newline (depth + 1)) parts ++
      newline depth ++ closing

mutual

/-- The indented form, for a value that stands at a depth. -/
def indented (depth : Nat) : Value → String
  | null => "null"
  | bool b => if b then "true" else "false"
  | number n => n.text
  | string s => quote s
  | array items => bracketed "[" "]" depth (indentedItems (depth + 1) items)
  | object members => bracketed "\x7b" "\x7d" depth (indentedMembers (depth + 1) members)

/-- The elements of a sequence, indented. -/
def indentedItems (depth : Nat) : List Value → List String
  | [] => []
  | item :: rest => item.indented depth :: indentedItems depth rest

/-- The members of an object, indented. -/
def indentedMembers (depth : Nat) : List (String × Value) → List String
  | [] => []
  | (name, value) :: rest =>
    (quote name ++ ": " ++ value.indented depth) :: indentedMembers depth rest

end

/-- The indented form of a whole document. -/
def pretty (v : Value) : String := v.indented 0

end Value

end HeapProfile.Json
