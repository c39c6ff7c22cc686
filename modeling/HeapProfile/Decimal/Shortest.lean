import HeapProfile.Decimal.Binary

/-!
# Shortest decimals — the fewest digits that read back

Every double is the nearest double to a whole interval of numbers.  The shortest text has the fewest
digits that fall into this interval, and of two such neighbours the nearer one.
-/

namespace HeapProfile.Decimal

/-- A decimal number without sign: `digits · 10 ^ exponent`. -/
structure Scaled where
  digits : Nat
  exponent : Int
deriving DecidableEq, Repr

/-- Compares `a · 10 ^ e` with the fraction `num / den`. -/
def compareScaled (a : Nat) (e : Int) (num den : Nat) : Ordering :=
  compare (a * Nat.pow 10 e.toNat * den) (num * Nat.pow 10 (-e).toNat)

/-- Whether a decimal reads back as a double: it lies between the midpoints to both neighbours, or
on one of them where the mantissa is even. -/
def readsBack (b : Binary) (d : Scaled) : Bool :=
  -- below a power of two the doubles lie twice as close
  let lowerNum := (4 * b.mantissa - if b.atPowerOfTwo then 1 else 2) * Nat.pow 2 b.exponent.toNat
  let upperNum := (4 * b.mantissa + 2) * Nat.pow 2 b.exponent.toNat
  let above := compareScaled d.digits d.exponent lowerNum (4 * b.den)
  let below := compareScaled d.digits d.exponent upperNum (4 * b.den)
  let even := b.mantissa % 2 == 0
  (above == .gt || (even && above == .eq)) && (below == .lt || (even && below == .eq))

/-- The neighbour of the value on the grid of a power of ten that reads back, if one does; of two
the nearer one, and of two equally near ones the even one. -/
def onGrid? (b : Binary) (e : Int) : Option Scaled :=
  let num := b.num * Nat.pow 10 (-e).toNat
  let den := b.den * Nat.pow 10 e.toNat
  let below : Scaled := ⟨num / den, e⟩
  let above : Scaled := ⟨num / den + 1, e⟩
  match readsBack b below && below.digits != 0, readsBack b above with
  | false, false => none
  | true, false => some below
  | false, true => some above
  | true, true =>
    let twice := 2 * (num % den)
    if twice < den || (twice == den && below.digits % 2 == 0) then some below else some above

/-- The first grid, from coarse to fine, on which a neighbour reads back. -/
def search (b : Binary) : Nat → Int → Option Scaled
  | 0, _ => none
  | fuel + 1, e =>
    match onGrid? b e with
    | some d => some d
    | none => search b fuel (e - 1)

/-- The power of ten of the leading digit of a fraction below one, at least as small as needed. -/
def leadingBelowOne : Nat → Nat → Nat → Int
  | 0, _, _ => 0
  | fuel + 1, num, den => if den ≤ num then 0 else leadingBelowOne fuel (num * 10) den - 1

/-- The power of ten of the leading digit of a positive value. -/
def leading (b : Binary) : Int :=
  if b.den ≤ b.num then ((toString (b.num / b.den)).length : Int) - 1
  else leadingBelowOne 400 b.num b.den

/-- The shortest decimal that reads back as a positive value. -/
def shortest (b : Binary) : Scaled :=
  (search b 20 (leading b + 1)).getD ⟨0, 0⟩

/-- How a decimal is written. -/
structure Layout where
  /-- The smallest exponent of the leading digit that is written with leading zeros. -/
  leastPositional : Int
  /-- The largest exponent of the leading digit that is written without an exponent. -/
  mostPositional : Int

/-- Drops the zeros at the end of a row of digits. -/
def dropTrailingZeros (digits : List Char) : List Char :=
  (digits.reverse.dropWhile (· == '0')).reverse

/-- A decimal without its sign: positional with at least one digit after the point, or with one digit
before the point and a signed exponent. -/
def Layout.write (layout : Layout) (d : Scaled) : String :=
  let digits := dropTrailingZeros (toString d.digits).toList
  let lead : Int := d.exponent + (toString d.digits).length - 1
  if layout.leastPositional ≤ lead ∧ lead ≤ layout.mostPositional then
    if lead < 0 then
      "0." ++ String.ofList (List.replicate (-lead - 1).toNat '0' ++ digits)
    else
      let before := (lead + 1).toNat
      let whole := digits.take before ++ List.replicate (before - digits.length) '0'
      let fraction := if digits.length ≤ before then ['0'] else digits.drop before
      String.ofList (whole ++ '.' :: fraction)
  else
    let fraction := if digits.length ≤ 1 then [] else '.' :: digits.drop 1
    String.ofList (digits.take 1 ++ fraction) ++ "e" ++ (if lead < 0 then "-" else "+") ++
      toString lead.natAbs

/-- The shortest text of a finite double, with its sign. -/
def Layout.text (layout : Layout) (b : Binary) : String :=
  (if b.negative then "-" else "") ++
    if b.mantissa = 0 then "0.0" else layout.write (shortest b)

end HeapProfile.Decimal
