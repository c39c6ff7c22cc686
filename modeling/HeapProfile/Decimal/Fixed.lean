import HeapProfile.Decimal.Binary

/-!
# Fixed places — a value with a set number of digits after the point

The exact value is rounded to the nearest multiple of the last place; a tie goes to the even
neighbour.
-/

namespace HeapProfile.Decimal

/-- The quotient rounded to the nearest whole number, a tie to the even one. -/
def roundDiv (num den : Nat) : Nat :=
  let floor := num / den
  let twice := 2 * (num % den)
  if twice < den then floor
  else if den < twice then floor + 1
  else if floor % 2 = 0 then floor
  else floor + 1

/-- The digits of a number, filled up with zeros on the left to a width. -/
def padded (width n : Nat) : String :=
  let digits := toString n
  "".pushn '0' (width - digits.length) ++ digits

/-- A value with the given number of digits after the point. -/
def fixed (places : Nat) (b : Binary) : String :=
  let scaled := roundDiv (b.num * Nat.pow 10 places) b.den
  let whole := toString (scaled / Nat.pow 10 places)
  let sign := if b.negative then "-" else ""
  if places = 0 then sign ++ whole
  else sign ++ whole ++ "." ++ padded places (scaled % Nat.pow 10 places)

end HeapProfile.Decimal
