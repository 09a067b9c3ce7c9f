/-!
# Reading numbers

Numbers are read in base ten, rounded to the nearest double.
-/

namespace ConstraintHierarchy.Decimal

/-- The double nearest to `significand * 10 ^ exponent`. Exponents far out of range are settled
without computing the power of ten. -/
def nearest (negative : Bool) (significand : Nat) (exponent : Int) : Float :=
  let lead := exponent + (Nat.toDigits 10 significand).length
  let x : Float :=
    if significand = 0 ∨ lead < -400 then 0.0
    else if 400 < lead then 1.0 / 0.0
    else Float.ofScientific significand (exponent < 0) exponent.natAbs
  if negative then -x else x

/-- The number written by a list of digits. -/
def natOfDigits (ds : List Char) : Nat := ds.foldl (fun n c => 10 * n + (c.toNat - '0'.toNat)) 0

/-- A sign at the front, and what follows it. -/
def splitSign : List Char → Bool × List Char
  | '-' :: cs => (true, cs)
  | '+' :: cs => (false, cs)
  | cs => (false, cs)

/-- An exponent part: nothing, or `e`, an optional sign and digits. -/
def readExponent? : List Char → Option Int
  | [] => some 0
  | e :: cs =>
    let (negative, ds) := splitSign cs
    if (e = 'e' ∨ e = 'E') ∧ ds ≠ [] ∧ ds.all Char.isDigit then
      some (if negative then -(natOfDigits ds : Int) else natOfDigits ds)
    else none

/-- Digits with an optional point and an optional exponent. -/
def readUnsigned? (negative : Bool) (cs : List Char) : Option Float :=
  let whole := cs.takeWhile Char.isDigit
  let rest := cs.dropWhile Char.isDigit
  let fraction := if rest.head? = some '.' then rest.tail.takeWhile Char.isDigit else []
  let rest := if rest.head? = some '.' then rest.tail.dropWhile Char.isDigit else rest
  if whole = [] ∧ fraction = [] then none
  else
    (readExponent? rest).map fun e =>
      nearest negative (natOfDigits (whole ++ fraction)) (e - fraction.length)

/-- Reads a number in positional or scientific form, or the name of an infinity or of an undefined
number in any case. -/
def read? (s : String) : Option Float :=
  let (negative, cs) := splitSign s.toList
  let word := String.ofList (cs.map Char.toLower)
  if word = "inf" ∨ word = "infinity" then
    some (if negative then -(1.0 / 0.0) else 1.0 / 0.0)
  else if word = "nan" then some (0.0 / 0.0)
  else readUnsigned? negative cs

end ConstraintHierarchy.Decimal
