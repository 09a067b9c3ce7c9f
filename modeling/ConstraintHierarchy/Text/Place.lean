/-!
# Places in text

A place in a source text is a range of byte offsets. A text falls into lines, each with the line break
that ends it. Besides the usual line feed, carriage return and the two together, the vertical tab, the
form feed and the line and paragraph separators end a line.
-/

namespace ConstraintHierarchy

/-- A range of byte offsets in a source text. -/
structure Span where
  start : Nat
  stop : Nat
  deriving DecidableEq, Inhabited

/-- Something found in a source text, with its place. -/
structure Located (α : Type) where
  item : α
  span : Span
  deriving Inhabited

/-- How many bytes the characters take in a source file. -/
def byteLength (cs : List Char) : Nat := cs.foldr (fun c n => c.utf8Size + n) 0

namespace Text

/-- Part of a text up to and including a line break. -/
structure Line where
  /-- how many characters of the text precede the line -/
  start : Nat
  chars : List Char

namespace Line

/-- How many characters of the text precede the next line. -/
def stop (l : Line) : Nat := l.start + l.chars.length

end Line

/-- The character ends a line by itself; a carriage return may be followed by a line feed. -/
def isLineBreak (c : Char) : Bool :=
  c == '\n' || c == '\r' || c == '\x0b' || c == '\x0c' || c == '\u0085' || c == '\u2028' ||
    c == '\u2029'

/-- Cuts a text into lines; `begun` is the part of the current line already passed, latest character
first. -/
def linesFrom (start : Nat) (begun : List Char) : List Char → List Line
  | [] => if begun.isEmpty then [] else [⟨start, begun.reverse⟩]
  | '\r' :: '\n' :: cs =>
    let line : Line := ⟨start, ('\n' :: '\r' :: begun).reverse⟩
    line :: linesFrom line.stop [] cs
  | c :: cs =>
    if isLineBreak c then
      let line : Line := ⟨start, (c :: begun).reverse⟩
      line :: linesFrom line.stop [] cs
    else
      linesFrom start (c :: begun) cs

/-- The lines of a text. -/
def lines (cs : List Char) : List Line := linesFrom 0 [] cs

/-- Position of the line that holds the character at `offset`: the last one that starts no later.
The place right after the text belongs to its last line. -/
def lineIndex? (ls : List Line) (offset : Nat) : Option Nat :=
  match ls.getLast? with
  | none => none
  | some last =>
    if last.stop < offset then none
    else some ((ls.filter (·.start ≤ offset)).length - 1)

end Text

end ConstraintHierarchy
