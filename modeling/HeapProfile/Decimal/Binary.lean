/-!
# Doubles taken apart — sign, mantissa and power of two

A finite double is a whole number of units of a power of two.  The decimal texts of doubles are
computed from these whole numbers, without rounding on the way.
-/

namespace HeapProfile

/-- A double as sign, mantissa and exponent: `mantissa · 2 ^ exponent`. -/
structure Binary where
  negative : Bool
  mantissa : Nat
  exponent : Int
deriving DecidableEq, Repr

namespace Binary

/-- The parts of a finite double with the given 64 bits. -/
def ofBits (bits : UInt64) : Binary :=
  let fraction : Nat := bits.toNat % Nat.pow 2 52
  let power : Nat := bits.toNat / Nat.pow 2 52 % Nat.pow 2 11
  { negative := bits.toNat / Nat.pow 2 63 == 1
    mantissa := if power == 0 then fraction else fraction + Nat.pow 2 52
    exponent := if power == 0 then -1074 else (power : Int) - 1075 }

/-- The numerator of the value without its sign, as a fraction of whole numbers. -/
def num (b : Binary) : Nat := b.mantissa * Nat.pow 2 b.exponent.toNat

/-- The denominator of the value, a power of two. -/
def den (b : Binary) : Nat := Nat.pow 2 (-b.exponent).toNat

/-- Whether the next smaller double is only half as far away as the next larger one. -/
def atPowerOfTwo (b : Binary) : Bool := b.mantissa == Nat.pow 2 52 && b.exponent != -1074

end Binary

end HeapProfile
