import Std.Data.HashSet.Basic
import HeapProfile.Interning

/-!
# Locations — what a code address is called

A location is the display form of a code address: function, file, module and line.  Locations are
ordered by these four in turn, strings by code point.  The resolver holds its own copy of the
interned strings, brought up to date by `sync`, and remembers the addresses that had no function
name; such an address is called by its hexadecimal number.
-/

namespace HeapProfile

/-- The display form of a code address. -/
structure Location where
  function : String := ""
  file : String := ""
  module : String := ""
  line : UInt32 := 0
deriving DecidableEq, Repr, Inhabited

namespace Location

/-- The order of locations: by function, then file, then module, then line. -/
protected def compare (a b : Location) : Ordering :=
  (compare a.function b.function).then <|
  (compare a.file b.file).then <|
  (compare a.module b.module).then <|
  compare a.line b.line

instance : Ord Location := ⟨Location.compare⟩

end Location

/-- The name of an address that has no function: its number in hexadecimal. -/
def addressLabel (address : UInt64) : String :=
  "0x" ++ String.ofList (Nat.toDigits 16 address.toNat)

/-- The naming state of one run. -/
structure Resolver where
  /-- The interned strings as they were at the last `sync`. -/
  strings : Array String := #[]
  /-- The addresses that were called by their number so far. -/
  unresolved : Std.HashSet UInt64 := {}

namespace Resolver

/-- Takes over the strings interned since the last time; a shorter table changes nothing. -/
def sync (r : Resolver) (strings : Array String) : Resolver :=
  { r with strings := r.strings ++ strings.extract r.strings.size }

/-- The number of strings taken over so far. -/
def synced (r : Resolver) : Nat := r.strings.size

/-- The number of distinct addresses called by their number so far. -/
def unresolvedCount (r : Resolver) : Nat := r.unresolved.size

/-- The string that a number refers to, or the empty string. -/
def text (r : Resolver) (i : StringIndex) : String :=
  ((Table.mk r.strings : Table .string String).get? i).getD ""

/-- The function name of an address: its own, or its number where it has none. -/
def functionName (r : Resolver) (ip : Ip) : String :=
  if ip.function.isNone then addressLabel ip.address else r.text ip.function

/-- The location of an address. -/
def locate (r : Resolver) (ip : Ip) : Location where
  function := r.functionName ip
  file := r.text ip.file
  module := r.text ip.module
  line := ip.line

/-- Remembers that the function of an address was asked for. -/
def note (r : Resolver) (ip : Ip) : Resolver :=
  if ip.function.isNone then { r with unresolved := r.unresolved.insert ip.address } else r

end Resolver

end HeapProfile
