import ConstraintHierarchy.Toml.Scalar
import ConstraintHierarchy.Toml.Value

/-!
# TOML documents

A document is a sequence of headers and of keys with values. A header opens a table for the keys
that follow it. `parse?` gives the entries of the document, or nothing if the text is no document.
-/

namespace ConstraintHierarchy.Toml

open Text Text.Scan

/-! ## Keys -/

def isBareKeyChar (c : Char) : Bool := c.isAlphanum || c == '_' || c == '-'

def simpleKey : Scan Key :=
  located (basicString <|> literalString <|> (do return String.ofList (← takeWhile1 isBareKeyChar)))

/-- How deep tables and arrays may be nested. -/
def depthLimit : Nat := 80

/-- The parts of a dotted key. -/
def keyPath : Scan (List Key) := do
  let part := blanks *> simpleKey <* blanks
  let k ← part
  let ks ← many (char '.' *> part)
  if (k :: ks).length < depthLimit then pure (k :: ks) else failure

/-- A key, its equals sign and its value. -/
def keyValue (value : Scan Value) : Scan (List Key × Value) := do
  let path ← keyPath
  char '='
  blanks
  let v ← value
  return (path, v)

/-- Adds a value under a key given as the list of its parts. -/
def insertPath (path : List Key) (v : Value) (es : Entries) : Option Entries := do
  let key ← path.getLast?
  insert path.dropLast key v es

/-! ## Values -/

def scalar : Scan Value :=
  (do let s ← located anyString; return .string s.item s.span) <|>
  (do let d ← located datetime; return .datetime d.span) <|>
  (do let x ← located float; return .float x.item x.span) <|>
  (do let n ← located integer; return .integer n.item n.span) <|>
  (do let t ← located (text "true"); return .boolean true t.span) <|>
  (do let f ← located (text "false"); return .boolean false f.span)

/-- The elements of an array; a comma may follow the last one. -/
def elements (value : Scan Value) : Scan (List Value) := do
  filler
  match ← attempt value with
  | none => pure []
  | some v =>
    filler
    let vs ← many (char ',' *> filler *> value <* filler)
    let _ ← attempt (char ',')
    filler
    return v :: vs

def array (value : Scan Value) : Scan Value := do
  let vs ← located (char '[' *> elements value <* char ']')
  return .array vs.item vs.span

/-- The entries between braces, without line breaks; no comma follows the last one. -/
def pairs (value : Scan Value) : Scan (List (List Key × Value)) := do
  blanks
  match ← attempt (keyValue value <* blanks) with
  | none => pure []
  | some p =>
    let ps ← many (char ',' *> keyValue value <* blanks)
    return p :: ps

def inlineTable (value : Scan Value) : Scan Value := do
  let ps ← located (char '\x7b' *> pairs value <* char '\x7d')
  match ps.item.foldlM (fun es p => insertPath p.1 p.2 es) [] with
  | some es => return .table .inline es (some ps.span)
  | none => failure

/-- A value that nests at most `n` levels. -/
def value : Nat → Scan Value
  | 0 => failure
  | n + 1 =>
    scalar <|>
      (if n = 0 then failure else array (value n)) <|>
      (if n = 0 then failure else inlineTable (value n))

/-! ## Headers -/

/-- What the lines so far have made. The table under the latest header is kept apart until the next
header completes it. -/
structure Draft where
  root : Entries := []
  current : Entries := []
  /-- where the current table belongs; the document itself has no path -/
  path : List Key := []
  /-- the current table is an element of an array of tables -/
  isElement : Bool := false
  span : Option Span := none

/-- From the start of the first table to the end of the last. -/
def tablesSpan (elements : List Value) : Option Span := do
  let first ← (← elements.head?).span
  let last ← (← elements.getLast?).span
  return ⟨first.start, last.stop⟩

/-- Puts the current table in its place. -/
def Draft.complete (d : Draft) : Option Entries :=
  match d.path.getLast? with
  | none => some d.current
  | some key => do
    let table := Value.table .header d.current d.span
    let (_, root) ← descend d.path.dropLast (fun es =>
      if d.isElement then
        match es.get? key with
        | some (.tables ts _) =>
          let ts := ts ++ [table]
          some ((), es.replace key (.tables ts (tablesSpan ts)))
        | _ => none
      else some ((), es ++ [(key, table)])) d.root
    pure root

/-- Starts the table of a header. A table can have one header only; the tables made as its children
by earlier headers stay. -/
def Draft.openTable (d : Draft) (path : Located (List Key)) : Option Draft := do
  let root ← d.complete
  let key ← path.item.getLast?
  let (current, root) ← descend path.item.dropLast (fun es =>
    match es.get? key with
    | none => some ([], es)
    | some (.table .implied sub _) => some (sub, es.without key)
    | some _ => none) root
  pure { root, current, path := path.item, span := some path.span }

/-- Starts another table of an array of tables. -/
def Draft.openElement (d : Draft) (path : Located (List Key)) : Option Draft := do
  let root ← d.complete
  let key ← path.item.getLast?
  let (_, root) ← descend path.item.dropLast (fun es =>
    match es.get? key with
    | none => some ((), es ++ [(key, .tables [] none)])
    | some (.tables _ _) => some ((), es)
    | some _ => none) root
  pure { root, current := [], path := path.item, isElement := true, span := some path.span }

/-- Adds a value to the current table, which then reaches to the end of the value. -/
def Draft.add (d : Draft) (path : List Key) (v : Value) : Option Draft := do
  let current ← insertPath path v d.current
  let span := match d.span, v.span with
    | some s, some t => some ⟨s.start, t.stop⟩
    | s, _ => s
  pure { d with current, span }

/-! ## Lines -/

/-- Something on a line that changes the draft. -/
inductive Line where
  | empty
  | header (path : Located (List Key))
  | elementHeader (path : Located (List Key))
  | pair (path : List Key) (v : Value)

def line : Scan Line :=
  (newline *> pure .empty) <|>
  (comment *> (newline <|> atEnd) *> pure .empty) <|>
  (do
    let path ← located (text "[[" *> keyPath <* text "]]")
    restOfLine
    return .elementHeader path) <|>
  (do
    let path ← located (char '[' *> keyPath <* char ']')
    restOfLine
    return .header path) <|>
  (do
    let (path, v) ← keyValue (value depthLimit)
    restOfLine
    return .pair path v)

def Draft.extend (d : Draft) : Line → Option Draft
  | .empty => some d
  | .header path => d.openTable path
  | .elementHeader path => d.openElement path
  | .pair path v => d.add path v

/-- A byte order mark at the front is skipped. -/
def document : Scan (List Line) := do
  let _ ← attempt (char '\ufeff')
  blanks
  many (line <* blanks)

/-- The entries of a document. -/
def parse? (source : String) : Option Entries := do
  let ls ← document.run source
  let d ← ls.foldlM Draft.extend {}
  d.complete

end ConstraintHierarchy.Toml
