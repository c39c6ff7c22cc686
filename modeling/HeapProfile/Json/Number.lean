import HeapProfile.Decimal.Shortest

/-!
# Numbers of a document

A number without point and exponent is a whole number as long as it fits 64 bits.  Every other
number, and minus zero, is a double: its leading digits are gathered while they fit a 64-bit word and
the word is then multiplied or divided by a power of ten.  A number that is too large for a double
has no value.
-/

namespace HeapProfile.Json

/-- A number of a document. -/
inductive Number
  /-- A whole number from zero to the largest 64-bit word. -/
  | whole (n : UInt64)
  /-- The negative of a positive whole number. -/
  | negative (magnitude : Nat)
  /-- A double, given by its bits. -/
  | double (bits : UInt64)
deriving DecidableEq, Repr

/-- The parts of a number as written. -/
structure Numeral where
  negative : Bool := false
  /-- The digits before the point. -/
  whole : List Nat := []
  /-- The digits behind the point. -/
  fraction : List Nat := []
  /-- The sign of the exponent (true for a negative one) and its digits. -/
  exponent : Option (Bool × List Nat) := none
  /-- Whether the number has a point. -/
  hasPoint : Bool := false
deriving DecidableEq, Repr, Inhabited

namespace Numeral

/-- Gathers digits into a word as long as they fit, and counts the digits that are left. -/
def gather : Nat → List Nat → Nat × Nat
  | word, [] => (word, 0)
  | word, digit :: rest =>
    if word * 10 + digit < UInt64.size then gather (word * 10 + digit) rest
    else (word, (digit :: rest).length)

/-- A word scaled by a power of ten, or nothing where the result is too large.  A strongly negative
power is divided out in steps; after so many steps the value is zero. -/
def scale : Nat → Float → Int → Option Float
  | 0, _, _ => some 0.0
  | steps + 1, value, power =>
    if power ≥ 0 then
      if power ≤ 308 then
        let scaled := value * Float.ofScientific 1 false power.toNat
        if scaled.isInf then none else some scaled
      else if value == 0.0 then some value
      else none
    else if power ≥ -308 then some (value / Float.ofScientific 1 false (-power).toNat)
    else if value == 0.0 then some value
    -- one division takes out at most what a double can hold
    else scale steps (value / 1.0e308) (power + 308)

/-- The double with a sign. -/
def signed (negative : Bool) (value : Float) : Number :=
  .double (if negative then -value else value).toBits

/-- The number that the digits of an exponent stand for, behind a value and a count of digits; or the count
of digits with which it is beyond 32 bits. -/
def exponentFrom (value count : Nat) : List Nat → Except Nat Nat
  | [] => .ok value
  | digit :: rest =>
    if value * 10 + digit < UInt32.size / 2 then exponentFrom (value * 10 + digit) (count + 1) rest
    else .error (count + 1)

/-- The number that the digits of an exponent stand for, or how many of them are too many. -/
def exponentOf (digits : List Nat) : Except Nat Nat := exponentFrom 0 0 digits

/-- The double that a numeral stands for, from the word and the power of ten gathered from it. -/
def double? (n : Numeral) (word : Nat) (power : Int) : Option Number :=
  let value := (UInt64.ofNat word).toFloat
  match n.exponent with
  | none => (scale 4 value power).map (signed n.negative)
  | some (down, digits) =>
    match exponentOf digits with
    | .ok exponent =>
      (scale 4 value (if down then power - exponent else power + exponent)).map (signed n.negative)
    -- beyond 32 bits the exponent alone decides
    | .error _ => if word != 0 && !down then none else some (signed n.negative 0.0)

/-- The number that a numeral stands for, if it is not too large. -/
def number? (n : Numeral) : Option Number :=
  let (word, dropped) := gather 0 n.whole
  if dropped = 0 ∧ !n.hasPoint ∧ n.exponent = none then
    if !n.negative then some (.whole (UInt64.ofNat word))
    -- minus zero, and what lies below the signed 64-bit numbers
    else if word = 0 ∨ UInt64.size / 2 < word then some (signed true (UInt64.ofNat word).toFloat)
    else some (.negative word)
  else
    let (word, unused) := gather word n.fraction
    n.double? word (dropped - (n.fraction.length - unused : Nat))

end Numeral

/-- Doubles are positional from a hundred-thousandth up to sixteen digits before the point, and
otherwise have an exponent. -/
def numberLayout : Decimal.Layout where
  leastPositional := -5
  mostPositional := 15

namespace Number

/-- The text of a number. -/
def text : Number → String
  | whole n => toString n.toNat
  | negative n => "-" ++ toString n
  | double bits => numberLayout.text (Binary.ofBits bits)

end Number

end HeapProfile.Json
