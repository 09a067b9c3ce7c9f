/-!
# Shortest decimals

A finite double is `m * 2 ^ q` up to sign. Every real number between the midpoints to its two
neighbours rounds to it, the midpoints themselves included exactly when `m` is even. Among the
decimals in that interval the ones with the fewest digits are its shortest spellings, and of those
the nearest is chosen.

The search runs over the decimal grids with 1, 2, ... 17 digits. If a grid has a point in the
interval then one of the two grid points around the value lies in it, so only those are tested, in
exact integer arithmetic.
-/

namespace ConstraintHierarchy.Decimal

/-- A double taken apart. -/
inductive Parts where
  | nan
  | infinite (negative : Bool)
  /-- the number `m * 2 ^ q`, negated if asked -/
  | finite (negative : Bool) (m : Nat) (q : Int)
  deriving DecidableEq

/-- The least significand of a normal double, `2 ^ 52`. -/
def leastNormal : Nat := 4503599627370496

/-- Reads sign, exponent and fraction off the bits. -/
def Parts.ofFloat (x : Float) : Parts :=
  let bits := x.toBits.toNat
  let negative := bits >>> 63 == 1
  let exponent : Nat := bits / leastNormal % 2048
  let fraction := bits % leastNormal
  if exponent = 2047 then
    if fraction = 0 then .infinite negative else .nan
  else if exponent = 0 then
    .finite negative fraction (-1074)
  else
    .finite negative (fraction + leastNormal) ((exponent : Int) - 1075)

/-- The number `significand * 10 ^ exponent`. -/
structure Digits where
  significand : Nat
  exponent : Int
  deriving DecidableEq, Inhabited

/-- The pair `(r, s)` with `(a / b) * base ^ e = (a * r) / s` for every `a`. -/
def scaleBy (base : Nat) (e : Int) (b : Nat) : Nat × Nat :=
  if 0 ≤ e then (base.pow e.toNat, b) else (1, b * base.pow (-e).toNat)

/-- The reals that round to a double, over a common denominator: `low / den` to `high / den` around
`mid / den`. -/
structure Interval where
  low : Nat
  mid : Nat
  high : Nat
  den : Nat
  /-- the ends belong to the interval -/
  closed : Bool

/-- The interval of `m * 2 ^ q`, in quarters of the unit in the last place. Below a power of two the
neighbour is only half as far away. -/
def Interval.ofBinary (m : Nat) (q : Int) : Interval :=
  let (unit, den) := scaleBy 2 (q - 2) 1
  let below := if m = leastNormal ∧ -1074 < q then 1 else 2
  { low := (4 * m - below) * unit
    mid := 4 * m * unit
    high := (4 * m + 2) * unit
    den := den
    closed := m % 2 == 0 }

/-- The interval with everything multiplied by `10 ^ e`. -/
def Interval.timesPowerOfTen (i : Interval) (e : Int) : Interval :=
  let (factor, den) := scaleBy 10 e i.den
  { i with low := i.low * factor, mid := i.mid * factor, high := i.high * factor, den := den }

def Interval.Contains (i : Interval) (n : Nat) : Prop :=
  if i.closed then i.low ≤ n * i.den ∧ n * i.den ≤ i.high
  else i.low < n * i.den ∧ n * i.den < i.high

instance (i : Interval) (n : Nat) : Decidable (i.Contains n) := by
  unfold Interval.Contains; infer_instance

/-- The whole number of the interval next to its middle, if there is one; a tie goes up. -/
def Interval.nearestWhole? (i : Interval) : Option Nat :=
  let down := i.mid / i.den
  let up := down + 1
  if i.Contains down then
    if i.Contains up ∧ i.den ≤ 2 * (i.mid % i.den) then some up else some down
  else if i.Contains up then some up
  else none

/-- How many digits the whole part of `mid / den` has, with negative counts below one tenth: the
least `k` with `mid / den < 10 ^ k`. The guess is off by at most one. -/
def Interval.magnitude (i : Interval) (guess : Int) : Int :=
  let below (k : Int) : Bool :=
    let (factor, den) := scaleBy 10 (-k) i.den
    i.mid * factor < den
  if below (guess - 1) then guess - 1 else if below guess then guess else guess + 1

/-- Tries `n` grids, each with one digit more than the last. The whole numbers of `i` are the first
grid, and stand for multiples of `10 ^ exponent`. -/
def searchGrids (i : Interval) (exponent : Int) : Nat → Digits
  | 0 => ⟨i.mid / i.den, exponent⟩
  | n + 1 =>
    match i.nearestWhole? with
    | some t => ⟨t, exponent⟩
    | none => searchGrids (i.timesPowerOfTen 1) (exponent - 1) n

/-- Moves factors of ten from the significand to the exponent, at most `n` of them. -/
def Digits.trim (d : Digits) : Nat → Digits
  | 0 => d
  | n + 1 =>
    if d.significand % 10 = 0 ∧ d.significand ≠ 0 then
      Digits.trim ⟨d.significand / 10, d.exponent + 1⟩ n
    else d

/-- The shortest decimal that rounds to `m * 2 ^ q`, and of several the nearest. -/
def shortest (m : Nat) (q : Int) : Digits :=
  if m = 0 then ⟨0, 0⟩
  else
    let i := Interval.ofBinary m q
    let k := i.magnitude (((m.log2 : Int) + q) * 30103 / 100000 + 1)
    (searchGrids (i.timesPowerOfTen (1 - k)) (k - 1) 17).trim 17

end ConstraintHierarchy.Decimal
