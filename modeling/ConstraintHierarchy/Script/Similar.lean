/-!
# Similar names

For a name that nobody declared, the declared names closest to it by edit distance are worth
suggesting.
-/

namespace ConstraintHierarchy.Script

/-- Continues a row of the distance table. `up` is what remains of the previous row, its head being
the entry diagonally above the next one, and `left` is the entry just computed. -/
def rowFrom (x : Char) (left : Nat) : List Char → List Nat → List Nat
  | y :: ys, diagonal :: above :: up =>
    let entry := min (min (above + 1) (left + 1)) (diagonal + if x = y then 0 else 1)
    entry :: rowFrom x entry ys (above :: up)
  | _, _ => []

/-- The row of the distance table for one more character `x` of the first word: entry `j` is the
distance to the first `j` characters of `ys`. -/
def nextRow (ys : List Char) (row : List Nat) (x : Char) : List Nat :=
  let first := row.headD 0 + 1
  first :: rowFrom x first ys row

/-- The least number of insertions, deletions and substitutions of single characters that turn `a`
into `b`, computed one row of the distance table at a time. -/
def editDistance (a b : String) : Nat :=
  let row := a.toList.foldl (nextRow b.toList) (List.range (b.toList.length + 1))
  row.getLastD 0

/-- Closer names come first, and names at the same distance in alphabetical order. -/
def closerOrEqual (p q : Nat × String) : Bool :=
  decide (p.1 < q.1) || (p.1 == q.1 && decide (p.2 ≤ q.2))

/-- At most three of the given names, different from `target` and within `limit` edits of it,
closest first. -/
def similarNames (names : List String) (target : String) (limit : Nat) : List String :=
  let candidates := (names.map fun n => (editDistance n target, n)).filter fun p =>
    decide (0 < p.1 ∧ p.1 ≤ limit)
  ((candidates.mergeSort closerOrEqual).take 3).map Prod.snd

end ConstraintHierarchy.Script
