/-!
# Blank text — characters with the property White_Space

Lines are trimmed of every character that Unicode counts as white space, which is more than the
blanks of ASCII.
-/

namespace HeapProfile.Text

/-- Whether a character has the property White_Space. -/
def isBlank (c : Char) : Bool :=
  let code := c.toNat
  (9 ≤ code && code ≤ 13) || code == 0x20 || code == 0x85 || code == 0xA0 || code == 0x1680 ||
    (0x2000 ≤ code && code ≤ 0x200A) || code == 0x2028 || code == 0x2029 || code == 0x202F ||
    code == 0x205F || code == 0x3000

/-- A string without the blanks at its beginning and at its end. -/
def trimmed (s : String) : String :=
  String.ofList ((((s.toList.dropWhile isBlank).reverse).dropWhile isBlank).reverse)

end HeapProfile.Text
