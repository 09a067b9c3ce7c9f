import ConstraintHierarchy.Decimal.Shortest

/-!
# Writing numbers

A layout says how the digits of a number are written: which magnitudes are written out in full and
whether a whole number shows its decimal point.
-/

namespace ConstraintHierarchy.Decimal

/-- The decisions of a number format. -/
structure Layout where
  /-- numbers whose leading digit stands at `10 ^ e` are written without an exponent -/
  positional : Int → Bool
  /-- a whole number written out ends in `.0` -/
  showsPoint : Bool

namespace Layout

private def zeros (n : Nat) : String := String.ofList (List.replicate n '0')

/-- Digits, point and zeros for `ds * 10 ^ e`. -/
def writeOut (l : Layout) (ds : List Char) (e : Int) : String :=
  if 0 ≤ e then
    String.ofList ds ++ zeros e.toNat ++ (if l.showsPoint then ".0" else "")
  else
    let places := (-e).toNat
    if places < ds.length then
      String.ofList (ds.take (ds.length - places)) ++ "." ++
        String.ofList (ds.drop (ds.length - places))
    else
      "0." ++ zeros (places - ds.length) ++ String.ofList ds

/-- One digit before the point, and the exponent. -/
def writeScientific (ds : List Char) (lead : Int) : String :=
  String.ofList (ds.take 1) ++ (if ds.length ≤ 1 then "" else "." ++ String.ofList (ds.drop 1)) ++
    "e" ++ toString lead

/-- The text of a nonnegative decimal. -/
def writeDigits (l : Layout) (d : Digits) : String :=
  let ds := Nat.toDigits 10 d.significand
  let lead := d.exponent + ds.length - 1
  if d.significand = 0 ∨ l.positional lead then l.writeOut ds d.exponent
  else writeScientific ds lead

/-- The text of a double: the fewest digits that read back as the same number. -/
def write (l : Layout) (x : Float) : String :=
  match Parts.ofFloat x with
  | .nan => "NaN"
  | .infinite negative => if negative then "-inf" else "inf"
  | .finite negative m q => (if negative then "-" else "") ++ l.writeDigits (shortest m q)

end Layout

/-- Numbers in messages and transcripts are written out in full and show a point only if they need
one. -/
def plain : Layout := ⟨fun _ => true, false⟩

end ConstraintHierarchy.Decimal
