import HeapProfile.Text.Symbol

/-!
# Places — where in a text a reader stands

A reader goes through a text from left to right.  Its place is told by the text that is still behind it and by
the bytes of that text that it has looked at without taking them.  `Place.position` counts a place in lines and
columns, as a message names it: columns are bytes, and a line break begins a new line.
-/

namespace HeapProfile.Json

/-- A place in a text. -/
structure Place where
  /-- The text that is not taken yet. -/
  behind : List Symbol
  /-- How many bytes of it were looked at. -/
  ahead : Nat := 0
deriving DecidableEq, Repr, Inhabited

namespace Place

/-- The place in front of a text of which nothing was looked at. -/
def before (text : List Symbol) : Place := { behind := text }

/-- The place in front of a text whose next byte was looked at, if there is one. -/
def seeing (text : List Symbol) : Place := { behind := text, ahead := 1 }

end Place

/-- A place in lines and columns. -/
structure Position where
  /-- Lines are counted from one. -/
  line : Nat := 1
  /-- The number of bytes in front of the place on its line. -/
  column : Nat := 0
deriving DecidableEq, Repr, Inhabited

namespace Position

/-- The position behind a symbol. -/
def after (p : Position) (s : Symbol) : Position :=
  if s = .char '\n' then { line := p.line + 1 } else { p with column := p.column + s.byteCount }

/-- The position so many bytes further on in a text, or at its end. -/
def onward (p : Position) (bytes : Nat) : List Symbol → Position
  | [] => p
  | s :: rest =>
    if s.byteCount ≤ bytes then (p.after s).onward (bytes - s.byteCount) rest
    -- the bytes end inside the symbol
    else { p with column := p.column + bytes }

end Position

/-- The position of a place in the text that it belongs to. -/
def Place.position (text : List Symbol) (place : Place) : Position :=
  let passed := text.take (text.length - place.behind.length)
  (passed.foldl Position.after {}).onward place.ahead place.behind

end HeapProfile.Json
