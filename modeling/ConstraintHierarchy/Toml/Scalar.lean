import ConstraintHierarchy.Decimal.Reading
import ConstraintHierarchy.Text.Scan

/-!
# TOML scalars

Strings, numbers, dates and times as they are written in a document.
-/

namespace ConstraintHierarchy.Toml

open Text Text.Scan

/-! ## Blanks and comments -/

def isBlank (c : Char) : Bool := c == ' ' || c == '\t'

def isNonAscii (c : Char) : Bool := 0x80 ≤ c.toNat

/-- Characters that can stand in a comment: no control characters but the tab. -/
def isCommentChar (c : Char) : Bool := c == '\t' || (' ' ≤ c && c ≤ '~') || isNonAscii c

def blanks : Scan Unit := do
  let _ ← takeWhile isBlank

def newline : Scan Unit := char '\n' <|> text "\r\n"

def comment : Scan Unit := do
  char '#'
  let _ ← takeWhile isCommentChar

/-- The rest of a line after something on it. -/
def restOfLine : Scan Unit := do
  blanks
  let _ ← attempt comment
  newline <|> atEnd

/-- Blanks, comments and line breaks between the elements of an array. -/
def filler : Scan Unit := do
  let _ ← many (takeWhile1 isBlank *> pure () <|> newline <|> comment)

/-! ## Strings -/

/-- A character of a basic string that stands for itself. -/
def isBasicChar (c : Char) : Bool := isCommentChar c && c != '"' && c != '\\'

/-- A character of a literal string. -/
def isLiteralChar (c : Char) : Bool := isCommentChar c && c != '\''

def isHexDigit (c : Char) : Bool :=
  c.isDigit || ('a' ≤ c && c ≤ 'f') || ('A' ≤ c && c ≤ 'F')

def hexDigitValue (c : Char) : Nat :=
  if c.isDigit then c.toNat - '0'.toNat
  else if 'a' ≤ c then c.toNat - 'a'.toNat + 10
  else c.toNat - 'A'.toNat + 10

/-- Exactly `n` characters that satisfy `p`. -/
def exactly (p : Char → Bool) : Nat → Scan (List Char)
  | 0 => pure []
  | n + 1 => do
    let c ← satisfy p
    let cs ← exactly p n
    return c :: cs

/-- A character given by `n` hexadecimal digits. -/
def codePoint (n : Nat) : Scan Char := do
  let ds ← exactly isHexDigit n
  let code := ds.foldl (fun a d => 16 * a + hexDigitValue d) 0
  if code.isValidChar then pure (Char.ofNat code) else failure

/-- The character meant by a backslash and what follows it. -/
def escape : Scan Char := do
  char '\\'
  match ← satisfy fun _ => true with
  | 'b' => pure '\x08'
  | 't' => pure '\t'
  | 'n' => pure '\n'
  | 'f' => pure '\x0c'
  | 'r' => pure '\r'
  | '"' => pure '"'
  | '\\' => pure '\\'
  | 'u' => codePoint 4
  | 'U' => codePoint 8
  | _ => failure

def basicString : Scan String := do
  char '"'
  let cs ← many (satisfy isBasicChar <|> escape)
  char '"'
  return String.ofList cs

def literalString : Scan String := do
  char '\''
  let cs ← takeWhile isLiteralChar
  char '\''
  return String.ofList cs

/-- One or two delimiters in a row, which are part of the text. -/
def fewDelimiters (q : Char) : Scan (List Char) := do
  let run := (← get).rest.takeWhile (· == q)
  if run.length = 1 ∨ run.length = 2 then exactly (· == q) run.length else failure

/-- Three delimiters end the text; up to two more before them are part of it. -/
def closingDelimiters (q : Char) : Scan (List Char) := do
  let run := (← get).rest.takeWhile (· == q)
  let extra := min run.length 5 - 3
  let _ ← exactly (· == q) (extra + 3)
  return List.replicate extra q

/-- A backslash at the end of a line hides the break and all blank space after it. -/
def hiddenBreak : Scan Unit := do
  char '\\'
  blanks
  newline
  let _ ← many (takeWhile1 isBlank *> pure () <|> newline)

/-- Text between triple delimiters; a line break right after the opening ones does not count. -/
def multilineString (q : Char) (part : Scan (List Char)) : Scan String := do
  let _ ← exactly (· == q) 3
  let _ ← attempt newline
  let parts ← many (part <|> (newline *> pure ['\n']) <|> fewDelimiters q)
  let extra ← closingDelimiters q
  return String.ofList (parts.flatten ++ extra)

def multilineBasicString : Scan String :=
  multilineString '"'
    (takeWhile1 isBasicChar <|> (hiddenBreak *> pure []) <|> (do return [← escape]))

def multilineLiteralString : Scan String := multilineString '\'' (takeWhile1 isLiteralChar)

def anyString : Scan String :=
  multilineBasicString <|> basicString <|> multilineLiteralString <|> literalString

/-! ## Numbers -/

/-- Digits with single underscores between them, the first of which is given; underscores are left
out. -/
def moreDigits (isDigit : Char → Bool) : Scan (List Char) :=
  many (satisfy isDigit <|> (char '_' *> satisfy isDigit))

def digitRun (isDigit : Char → Bool) : Scan (List Char) := do
  let d ← satisfy isDigit
  let ds ← moreDigits isDigit
  return d :: ds

def sign : Scan Bool := do
  match ← attempt (oneOf ['+', '-']) with
  | some '-' => pure true
  | _ => pure false

/-- Decimal digits without a leading zero. -/
def wholeDigits : Scan (List Char) := do
  let d ← satisfy Char.isDigit
  if d = '0' then pure [d]
  else do
    let ds ← moreDigits Char.isDigit
    return d :: ds

/-- The range of whole numbers. -/
def inRange (n : Int) : Scan Int :=
  if -9223372036854775808 ≤ n ∧ n ≤ 9223372036854775807 then pure n else failure

def natOfBase (base : Nat) (ds : List Char) : Nat :=
  ds.foldl (fun a d => base * a + hexDigitValue d) 0

/-- A whole number in base 16, 8 or 2. -/
def basedInteger (mark : String) (base : Nat) (isDigit : Char → Bool) : Scan Int := do
  text mark
  let ds ← digitRun isDigit
  inRange (natOfBase base ds)

def decimalInteger : Scan Int := do
  let negative ← sign
  let ds ← wholeDigits
  let n := natOfBase 10 ds
  inRange (if negative then -(n : Int) else n)

def integer : Scan Int :=
  basedInteger "0x" 16 isHexDigit <|>
    basedInteger "0o" 8 (fun c => '0' ≤ c && c ≤ '7') <|>
    basedInteger "0b" 2 (fun c => c == '0' || c == '1') <|>
    decimalInteger

def exponent : Scan Int := do
  let _ ← oneOf ['e', 'E']
  let negative ← sign
  let n := natOfBase 10 (← digitRun Char.isDigit)
  return if negative then -(n : Int) else n

def fraction : Scan (List Char) := do
  char '.'
  digitRun Char.isDigit

/-- A number with a fraction, an exponent or both. One too large to be represented is refused. -/
def ordinaryFloat : Scan Float := do
  let negative ← sign
  let whole ← wholeDigits
  let (places, e) ←
    (do return ([], ← exponent)) <|>
    (do
      let places ← fraction
      let e ← attempt exponent
      return (places, e.getD 0))
  let x := Decimal.nearest negative (natOfBase 10 (whole ++ places)) (e - places.length)
  if x == 1.0 / 0.0 then failure else pure x

def specialFloat : Scan Float := do
  let negative ← sign
  let x : Float ← (text "inf" *> pure (1.0 / 0.0)) <|> (text "nan" *> pure (0.0 / 0.0))
  return if negative then -x else x

def float : Scan Float := ordinaryFloat <|> specialFloat

/-! ## Dates and times -/

/-- A number of exactly `n` digits between `low` and `high`. -/
def fixedNumber (n low high : Nat) : Scan Nat := do
  let k := natOfBase 10 (← exactly Char.isDigit n)
  if low ≤ k ∧ k ≤ high then pure k else failure

def daysIn (year month : Nat) : Nat :=
  let isLeap := year % 4 = 0 ∧ (year % 100 ≠ 0 ∨ year % 400 = 0)
  if month = 2 then (if isLeap then 29 else 28)
  else if month = 4 ∨ month = 6 ∨ month = 9 ∨ month = 11 then 30
  else 31

def date : Scan Unit := do
  let year ← fixedNumber 4 0 9999
  char '-'
  let month ← fixedNumber 2 1 12
  char '-'
  let _ ← fixedNumber 2 1 (daysIn year month)

def time : Scan Unit := do
  let _ ← fixedNumber 2 0 23
  char ':'
  let _ ← fixedNumber 2 0 59
  char ':'
  let _ ← fixedNumber 2 0 60
  let _ ← attempt (char '.' *> takeWhile1 Char.isDigit)

def zone : Scan Unit :=
  (oneOf ['Z', 'z'] *> pure ()) <|> do
    let _ ← oneOf ['+', '-']
    let _ ← fixedNumber 2 0 23
    char ':'
    let _ ← fixedNumber 2 0 59

def datetime : Scan Unit :=
  (do
    date
    let _ ← attempt (do
      let _ ← oneOf ['T', 't', ' ']
      time
      attempt zone)) <|>
  time

end ConstraintHierarchy.Toml
