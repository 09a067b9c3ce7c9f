import ConstraintHierarchy.Decimal.Reading
import ConstraintHierarchy.Script.Token

/-!
# Cutting source text into pieces

Source text is a sequence of pieces: runs of blanks, comments up to the end of the line, words,
numbers, equals signs, and single characters that start nothing else. Each piece is the longest of
its sort. Blanks and comments mean nothing; the others are tokens.
-/

namespace ConstraintHierarchy.Script

/-- Blank space between tokens; other white space is not part of the language. -/
def isBlank (c : Char) : Bool := c == ' ' || c == '\t' || c == '\n' || c == '\r'

def isWordStart (c : Char) : Bool := c.isAlpha || c == '_'

def isWordPart (c : Char) : Bool := c.isAlphanum || c == '_'

/-- The longest unsigned number at the front: digits, and a point only if digits follow it. -/
def unsignedNumber (cs : List Char) : List Char :=
  let whole := cs.takeWhile Char.isDigit
  match cs.dropWhile Char.isDigit with
  | '.' :: rest =>
    match rest.takeWhile Char.isDigit with
    | [] => whole
    | fraction => if whole.isEmpty then [] else whole ++ '.' :: fraction
  | _ => whole

/-- The longest number at the front, empty if there is none. -/
def leadingNumber : List Char → List Char
  | '-' :: cs =>
    match unsignedNumber cs with
    | [] => []
    | digits => '-' :: digits
  | cs => unsignedNumber cs

/-- A piece of source text; blanks and comments have no token. -/
structure Piece where
  text : List Char
  token : Option Token

/-- A word is reserved, or a name. -/
def wordToken (text : List Char) : Token :=
  match Keyword.ofText? (String.ofList text) with
  | some k => .keyword k
  | none => .identifier (String.ofList text)

def numberToken (text : List Char) : Token :=
  match Decimal.read? (String.ofList text) with
  | some value => .number value
  | none => .unrecognized

/-- The first piece of the text that starts with `c`. -/
def firstPiece (c : Char) (cs : List Char) : Piece :=
  if isBlank c then
    ⟨c :: cs.takeWhile isBlank, none⟩
  else if c == '#' || (c == '/' && cs.head? == some '/') then
    ⟨c :: cs.takeWhile (· ≠ '\n'), none⟩
  else if isWordStart c then
    ⟨c :: cs.takeWhile isWordPart, some (wordToken (c :: cs.takeWhile isWordPart))⟩
  else if c == '=' then
    ⟨[c], some .equals⟩
  else
    match leadingNumber (c :: cs) with
    | [] => ⟨[c], some .unrecognized⟩
    | d :: ds => ⟨d :: ds, some (numberToken (d :: ds))⟩

theorem firstPiece_text_length_pos (c : Char) (cs : List Char) :
    0 < (firstPiece c cs).text.length := by
  simp only [firstPiece]
  split
  · simp
  · split
    · simp
    · split
      · simp
      · split
        · simp
        · split <;> simp

/-- The pieces of a text, in order. -/
def pieces : List Char → List Piece
  | [] => []
  | c :: cs =>
    firstPiece c cs :: pieces ((c :: cs).drop (firstPiece c cs).text.length)
termination_by cs => cs.length
decreasing_by
  have := firstPiece_text_length_pos c cs
  simp only [List.length_drop, List.length_cons]
  omega

/-- The tokens among the pieces, the first of which starts at `offset`. -/
def locate (offset : Nat) : List Piece → List (Located Token)
  | [] => []
  | p :: ps =>
    let stop := offset + byteLength p.text
    match p.token with
    | none => locate stop ps
    | some t => ⟨t, ⟨offset, stop⟩⟩ :: locate stop ps

/-- The tokens of a source text, in order. -/
def tokens (source : String) : List (Located Token) := locate 0 (pieces source.toList)

end ConstraintHierarchy.Script
