import ConstraintHierarchy.Text.Place

/-!
# Scanning text

A scanner takes something off the front of a text, or fails and takes nothing.
-/

namespace ConstraintHierarchy.Text

/-- What is left of a text, and how many bytes precede it. -/
structure Cursor where
  rest : List Char
  offset : Nat := 0

abbrev Scan := StateT Cursor Option

namespace Scan

variable {α : Type}

/-- The next character, which has to satisfy `p`. -/
def satisfy (p : Char → Bool) : Scan Char := fun cursor =>
  match cursor.rest with
  | [] => none
  | c :: cs => if p c then some (c, ⟨cs, cursor.offset + c.utf8Size⟩) else none

def char (c : Char) : Scan Unit := do
  let _ ← satisfy (· == c)

def oneOf (cs : List Char) : Scan Char := satisfy cs.contains

/-- Exactly the given characters. -/
def chars : List Char → Scan Unit
  | [] => pure ()
  | c :: cs => do
    char c
    chars cs

def text (s : String) : Scan Unit := chars s.toList

/-- As many characters as satisfy `p`. -/
def takeWhile (p : Char → Bool) : Scan (List Char) := fun cursor =>
  let taken := cursor.rest.takeWhile p
  some (taken, ⟨cursor.rest.dropWhile p, cursor.offset + byteLength taken⟩)

/-- One or more characters that satisfy `p`. -/
def takeWhile1 (p : Char → Bool) : Scan (List Char) := do
  let c ← satisfy p
  let cs ← takeWhile p
  return c :: cs

/-- The scanner, if it succeeds. -/
def attempt (p : Scan α) : Scan (Option α) := fun cursor =>
  match p cursor with
  | none => some (none, cursor)
  | some (a, cursor) => some (some a, cursor)

/-- Succeeds at the end of the text. -/
def atEnd : Scan Unit := fun cursor =>
  if cursor.rest.isEmpty then some ((), cursor) else none

/-- The scanner again and again until it fails, at most `n` times. -/
def manyUpTo (p : Scan α) : Nat → Scan (List α)
  | 0 => pure []
  | n + 1 => fun cursor =>
    match p cursor with
    | none => some ([], cursor)
    | some (a, cursor) => do
      let (as, cursor) ← manyUpTo p n cursor
      pure (a :: as, cursor)

/-- The scanner again and again until it fails. It should take at least one character each time, so
that the length of the text bounds the repetitions. -/
def many (p : Scan α) : Scan (List α) := do
  manyUpTo p (← get).rest.length

/-- The result with the range of text it was read from. -/
def located (p : Scan α) : Scan (Located α) := do
  let start := (← get).offset
  let a ← p
  return ⟨a, ⟨start, (← get).offset⟩⟩

/-- The whole of a text. -/
def run (p : Scan α) (s : String) : Option α := do
  let (a, cursor) ← p ⟨s.toList, 0⟩
  if cursor.rest.isEmpty then pure a else none

end Scan

end ConstraintHierarchy.Text
