import ConstraintHierarchy.Diagnostic.Basic
import ConstraintHierarchy.Text.Display
import ConstraintHierarchy.Text.Place

/-!
# Reports

A report shows a diagnostic with the lines of source text that its labels lie on, each followed by
arrows from the labelled text to the labels' messages.

Positions in a report count characters. The spans of labels are taken as they are, so they agree
with what is shown wherever the text before them is plain ASCII. A label that ends before it starts
cannot be shown, and there is no report then.
-/

namespace ConstraintHierarchy.Diagnostic

open Text (Line)

/-! ## Where labels lie -/

/-- A label on a line, at the column its arrow starts from. -/
structure Placed where
  label : Label
  column : Nat

/-- Arrows start in the middle of a label. -/
def place (line : Line) (l : Label) : Placed :=
  ⟨l, max ((l.span.start + l.span.stop) / 2) l.span.start - line.start⟩

/-- Both ends of the label lie on some line. -/
def liesOn (lines : List Line) (l : Label) : Bool :=
  (Text.lineIndex? lines l.span.start).isSome &&
    (l.span.stop ≤ l.span.start || (Text.lineIndex? lines (l.span.stop - 1)).isSome)

/-- Left arrows come first; of two at one column, the label that starts later. -/
def placedBefore (p q : Placed) : Bool :=
  p.column < q.column || (p.column == q.column && q.label.span.start ≤ p.label.span.start)

/-- The labels that lie within a line, in the order of their arrows. -/
def labelsOn (line : Line) (labels : List Label) : List Placed :=
  let here := labels.filter fun l => line.start ≤ l.span.start && l.span.stop ≤ line.stop
  (here.map (place line)).mergeSort placedBefore

/-- The label covers the character at `offset`. -/
def covers (offset : Nat) (p : Placed) : Bool :=
  p.label.span.start ≤ offset && offset < p.label.span.stop

/-- The shortest label on the character at `offset`, the first of several. -/
def shortestOn (offset : Nat) (ps : List Placed) : Option Placed :=
  (ps.filter (covers offset)).foldl (fun best p =>
    match best with
    | none => some p
    | some q =>
      if p.label.span.stop - p.label.span.start < q.label.span.stop - q.label.span.start then some p
      else some q) none

/-! ## Characters on screen -/

/-- What a character of a line is shown as, and how many times; a tab reaches the next multiple of
four. -/
def shownAs (column : Nat) (c : Char) : Char × Nat :=
  if c = '\t' then (' ', 4 - column % 4)
  else if Text.isWhiteSpace c then (' ', 1)
  else (c, Text.columnWidth c)

/-- How many columns of the screen the character at a column of the text takes. -/
def widthAt (text : List Char) (column : Nat) : Nat :=
  match text[column]? with
  | some c => (shownAs column c).2
  | none => 1

private def spaces (n : Nat) : String := String.ofList (List.replicate n ' ')

/-- A text, so many times over. -/
def times (n : Nat) (s : String) : String := String.join (List.replicate n s)

/-! ## The parts of a report -/

/-- The frame beside a line of arrows, when line numbers have `w` digits. -/
def blankMargin (w : Nat) : String :=
  " " ++ Ink.faintFrame.paint (spaces (w + 1) ++ "│") ++ " "

/-- The frame beside a line of source text. -/
def numberedMargin (w number : Nat) : String :=
  let digits := toString number
  " " ++ Ink.frame.paint (spaces (w - digits.length) ++ digits ++ " │") ++ " "

/-- A line of source text, each character in the colour of its label. -/
def sourceLine (line : Line) (text : List Char) (ps : List Placed) : String :=
  String.join (text.zipIdx.map fun (c, column) =>
    let ink := ((shortestOn (line.start + column) ps).map (·.label.ink)).getD .source
    let (shown, width) := shownAs column c
    if c = '\t' then times width (ink.paint (String.singleton shown))
    else ink.paint (String.singleton shown))

/-- A symbol for the first column of a character and one for each further column. -/
def fill (text : List Char) (column : Nat) (first further : String) : String :=
  match widthAt text column with
  | 0 => ""
  | n + 1 => first ++ times n further

/-- The line that shows where the labels are: underlines, for the first arrow only, and the arrows
that have not ended yet. -/
def stemLine (line : Line) (text : List Char) (ps : List Placed) (row length : Nat) : String :=
  String.join ((List.range length).map fun column =>
    let stem := (ps.drop row).find? (·.column == column)
    let under := if row = 0 then shortestOn (line.start + column) ps else none
    match stem, under with
    | some p, some _ => fill text column (p.label.ink.paint "┬") (p.label.ink.paint "─")
    | some p, none => fill text column (p.label.ink.paint "│") (p.label.ink.paint " ")
    | none, some u => fill text column (u.label.ink.paint "─") (u.label.ink.paint "─")
    | none, none => fill text column " " " ")

/-- The line on which the arrow of `p` turns to its message. -/
def turnLine (text : List Char) (ps : List Placed) (p : Placed) (row length : Nat) : String :=
  String.join ((List.range length).map fun column =>
    let ink := p.label.ink
    if column = p.column then fill text column (ink.paint "╰") (ink.paint "─")
    else if p.column < column then fill text column (ink.paint "─") (ink.paint "─")
    else
      match (ps.drop row).find? (·.column == column) with
      | some q => fill text column (q.label.ink.paint "│") (ink.paint " ")
      | none => fill text column " " " ")

/-- A line of source text with the arrows of its labels. -/
def annotatedLine (w number : Nat) (line : Line) (ps : List Placed) : String :=
  let text := Text.trimRight line.chars
  let length := (ps.map fun p => p.label.span.stop - line.start).foldl max 0 + 2
  let arrows := ps.zipIdx.map fun (p, row) =>
    blankMargin w ++ stemLine line text ps row length ++ "\n" ++
      blankMargin w ++ turnLine text ps p row length ++ " " ++ p.label.message ++ "\n"
  numberedMargin w number ++ sourceLine line text ps ++ "\n" ++ String.join arrows

/-- The lines from number `number` on. A run of lines without labels is shown as one gap;
`inGap` tells that the line before belongs to one. -/
def annotatedLines (w : Nat) (labels : List Label) : Nat → Bool → List Line → String
  | _, _, [] => ""
  | number, inGap, line :: rest =>
    match labelsOn line labels with
    | [] => (if inGap then "" else blankMargin w ++ "\n") ++
        annotatedLines w labels (number + 1) true rest
    | ps => annotatedLine w number line ps ++ annotatedLines w labels (number + 1) false rest

/-- A closing remark. -/
def remark (w : Nat) (title : String) : Option String → String
  | none => ""
  | some text =>
    blankMargin w ++ "\n" ++ blankMargin w ++ Ink.remark.paint title ++ ": " ++ text ++ "\n"

/-- Line and column, counted from one, of the character at `offset`. -/
def location (lines : List Line) (offset : Nat) : String :=
  match Text.lineIndex? lines offset with
  | none => "?:?"
  | some i =>
    let start := (lines[i]?.map (·.start)).getD 0
    toString (i + 1) ++ ":" ++ toString (offset - start + 1)

/-- The part of a report below its message, for labels that lie on the lines `first` to `last`. -/
def excerpt (d : Diagnostic) (file : String) (lines : List Line) (labels : List Label)
    (first last : Nat) : String :=
  let w := (toString (last + 1)).length
  spaces (w + 2) ++ Ink.frame.paint "╭" ++ Ink.frame.paint "─" ++ Ink.frame.paint "[" ++ file ++
    ":" ++ location lines d.first.span.start ++ Ink.frame.paint "]" ++ "\n" ++
    spaces (w + 2) ++ Ink.frame.paint "│" ++ "\n" ++
    annotatedLines w labels (first + 1) false ((lines.take (last + 1)).drop first) ++
    remark w "Help" d.help ++ remark w "Note" d.note ++
    Ink.frame.paint (times (w + 2) "─" ++ "╯") ++ "\n"

/-- The report of a diagnostic about `source`, which is known as `file`. There is none if a label
ends before it starts. -/
def report? (d : Diagnostic) (source file : String) : Option String :=
  if d.labels.any fun l => l.span.stop < l.span.start then none
  else
    let title := Ink.red.paint "Error:" ++ " " ++ d.message ++ "\n"
    let lines := Text.lines source.toList
    let labels := d.labels.filter (liesOn lines)
    match labels.map (·.span.start) with
    | [] => some title
    | start :: starts =>
      let least := starts.foldl min start
      let greatest := (labels.map (·.span.stop)).foldl max 0
      let first := (Text.lineIndex? lines least).getD 0
      let last := (Text.lineIndex? lines (max (greatest - 1) least)).getD (lines.length - 1)
      some (title ++ d.excerpt file lines labels first last)

end ConstraintHierarchy.Diagnostic
