/-!
# Symbols — stored text, whether or not it is well encoded

Stored text is a row of bytes.  Reading it as UTF-8 gives characters, and where the bytes are no
UTF-8 it gives stray bytes.  `ofBytes` of well-encoded text is the characters of that text.
-/

namespace HeapProfile

/-- One symbol of stored text: a character, or a byte that belongs to none. -/
inductive Symbol
  | char (c : Char)
  | stray
deriving DecidableEq, Repr

namespace Symbol

/-- The number of bytes that a symbol stands for. -/
def byteCount : Symbol → Nat
  | char c => c.utf8Size
  | stray => 1

/-- The symbols of a string. -/
def ofString (s : String) : List Symbol := s.toList.map char

/-- The symbols of bytes from a position on, behind the ones found before (in reverse). -/
def scan (bytes : ByteArray) (found : List Symbol) (i : Nat) : List Symbol :=
  if i < bytes.size then
    match bytes.utf8DecodeChar? i with
    | some c => scan bytes (char c :: found) (i + c.utf8Size)
    | none => scan bytes (stray :: found) (i + 1)
  else found.reverse
termination_by bytes.size - i
decreasing_by
  · have := c.utf8Size_pos
    omega
  · omega

/-- The symbols of stored bytes. -/
def ofBytes (bytes : ByteArray) : List Symbol :=
  match String.fromUTF8? bytes with
  | some s => ofString s
  | none => scan bytes [] 0

end Symbol

end HeapProfile
