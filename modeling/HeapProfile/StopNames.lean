import HeapProfile.Interning

/-!
# Stop names — functions at which call paths end

Call paths are cut at functions that are known by name.  A trace speaks of functions by number, so the
numbers of all strings that are such a name are collected while the strings are interned.
-/

namespace HeapProfile

/-- The names of the functions at which call paths end unless others are asked for: entry code of
programs, above which unrelated paths would meet. -/
def defaultStopNames : List String :=
  ["main", "__libc_start_main", "__static_initialization_and_destruction_0"]

/-- Stop names, and the strings of the trace that are one of them. -/
structure StopNames where
  names : List String
  indices : List StringIndex := []
deriving DecidableEq, Repr, Inhabited

namespace StopNames

/-- Takes notice of a string that was interned. -/
def observe (s : StopNames) (index : StringIndex) (value : String) : StopNames :=
  if s.names.contains value then { s with indices := index :: s.indices } else s

/-- The stop names among all strings of a table. -/
def ofStrings (names strings : List String) : StopNames :=
  (strings.foldl
    (fun (state : StopNames × Table .string String) value =>
      let table := state.2.push value
      (state.1.observe table.newest value, table))
    ({ names }, {})).1

/-- Whether a number refers to a stop name. -/
def isStop (s : StopNames) (function : StringIndex) : Bool :=
  !function.isNone && s.indices.contains function

end StopNames

end HeapProfile
