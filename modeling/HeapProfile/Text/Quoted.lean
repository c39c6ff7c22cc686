import HeapProfile.Text.Unprintable

/-!
# Quoted text — a string shown inside a message

A quoted string stands between double quotes.  Quotes and backslashes are escaped, the usual control
characters have short escapes, and everything that is not shown as itself is given by its code point.
-/

namespace HeapProfile.Text

/-- How a character is shown inside a quoted string. -/
def quotedChar (c : Char) : String :=
  if c = '"' then "\\\""
  else if c = '\\' then "\\\\"
  else if c = '\n' then "\\n"
  else if c = '\r' then "\\r"
  else if c = '\t' then "\\t"
  else if c.toNat = 0 then "\\0"
  else if isUnprintable c then
    "\\u\x7b" ++ String.ofList (Nat.toDigits 16 c.toNat) ++ "\x7d"
  else c.toString

/-- A string between quotes, with escapes. -/
def quoted (s : String) : String :=
  "\"" ++ String.join (s.toList.map quotedChar) ++ "\""

end HeapProfile.Text
