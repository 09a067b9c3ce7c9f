import ConstraintHierarchy.Decimal.Layout
import ConstraintHierarchy.Settings.Basic
import ConstraintHierarchy.Text.Display
import ConstraintHierarchy.Toml.Value

/-!
# Settings from tables

Every entry of a table sets the field of its name; fields that no entry names keep their initial
value. The first entry that does not fit is reported, with the place it was written at.

A section may also be given as an array, which sets its fields in their order, and a strength as a
table whose only key is its name.
-/

namespace ConstraintHierarchy

namespace Settings

open Toml (Key Value Entries)

/-- Why an entry does not fit. -/
inductive Reason where
  | unknownField (name : String) (known : List String)
  | unknownStrength (name : String)
  /-- a strength is given by something that cannot be a name -/
  | notAName
  | negative (n : Int)
  | wrongType (found : Value) (expected : String)
  /-- a strength is given by a table with no key or several keys -/
  | notOneKey (isEmpty : Bool)
  /-- the key that names a strength has a value that says something -/
  | unexpectedContent (text : String)

/-- An entry that does not fit, and its place if it has one. -/
structure Misfit where
  reason : Reason
  span : Option Span

/-! ## Texts -/

/-- The known names, in order. -/
def oneOfText (names : List String) : String :=
  let quote (s : String) := "`" ++ s ++ "`"
  match names with
  | [a, b] => quote a ++ " or " ++ quote b
  | [a] => quote a
  | _ => "one of " ++ ", ".intercalate (names.map quote)

/-- Numbers in messages show that they are not whole-number literals. -/
def floatLayout : Decimal.Layout := ⟨fun _ => true, true⟩

/-- What a message calls a value. -/
def describe : Value → String
  | .string s _ => "string " ++ Text.quoted s
  | .integer n _ => "integer `" ++ toString n ++ "`"
  | .float x _ => "floating point `" ++ floatLayout.write x ++ "`"
  | .boolean b _ => "boolean `" ++ (if b then "true" else "false") ++ "`"
  | .datetime _ => "map"
  | .array _ _ => "sequence"
  | .table _ _ _ => "map"
  | .tables _ _ => "sequence"

/-- What a message calls the type of a value. -/
def typeName : Value → String
  | .string _ _ => "string"
  | .integer _ _ => "integer"
  | .float _ _ => "float"
  | .boolean _ _ => "boolean"
  | .datetime _ => "datetime"
  | .array _ _ => "array"
  | .table .inline _ _ => "inline table"
  | .table _ _ _ => "table"
  | .tables _ _ => "array of tables"

def Reason.message : Reason → String
  | unknownField name known => "unknown field `" ++ name ++ "`, expected " ++ oneOfText known
  | unknownStrength name =>
    "unknown variant `" ++ name ++ "`, expected " ++ oneOfText (Strength.all.map Strength.name)
  | notAName => "wanted string or table"
  | negative n => "invalid value: integer `" ++ toString n ++ "`, expected usize"
  | wrongType found expected => "invalid type: " ++ describe found ++ ", expected " ++ expected
  | notOneKey true => "wanted exactly 1 element, found 0 elements"
  | notOneKey false => "wanted exactly 1 element, more than 1 element"
  | unexpectedContent text => text

/-! ## Fields -/

/-- Reads a value of a field. -/
abbrev Decoder (α : Type) := Value → Except Misfit α

/-- The place of a misfit that has none yet. -/
def atSpan {α : Type} (span : Option Span) : Except Misfit α → Except Misfit α
  | .error ⟨reason, none⟩ => .error ⟨reason, span⟩
  | result => result

/-- A whole number that is not negative. -/
def count : Decoder Nat
  | .integer n span => if 0 ≤ n then .ok n.toNat else .error ⟨.negative n, some span⟩
  | v => .error ⟨.wrongType v "usize", v.span⟩

/-- Any number. -/
def number : Decoder Float
  | .float x _ => .ok x
  | .integer n _ => .ok (Float.ofInt n)
  | v => .error ⟨.wrongType v "f64", v.span⟩

def strengthName (name : String) (span : Option Span) : Except Misfit Strength :=
  match Strength.ofName? name with
  | some s => .ok s
  | none => .error ⟨.unknownStrength name, span⟩

/-- The value of a key that is only there for its name has to be an empty table or array. -/
def emptyContent : Decoder Unit
  | .array [] _ => .ok ()
  | .array _ span => .error ⟨.unexpectedContent "expected empty array", some span⟩
  | .tables [] _ => .ok ()
  | .tables _ span => .error ⟨.unexpectedContent "expected empty array", span⟩
  | .table _ [] _ => .ok ()
  | .table _ _ span => .error ⟨.unexpectedContent "expected empty table", span⟩
  | v => .error ⟨.unexpectedContent ("expected table, found " ++ typeName v), v.span⟩

/-- The name of a strength, as a string or as the only key of a table. -/
def strength : Decoder Strength
  | .string s span => strengthName s (some span)
  | .table _ entries span =>
    match entries with
    | [] => .error ⟨.notOneKey true, span⟩
    | [(key, v)] => do
      let s ← strengthName key.item (some key.span)
      emptyContent v
      return s
    | _ => .error ⟨.notOneKey false, span⟩
  | v => .error ⟨.notAName, v.span⟩

/-! ## Sections -/

/-- A field of a record of type `σ`: its name and how a value sets it. -/
structure Field (σ : Type) where
  name : String
  set : Value → σ → Except Misfit σ

/-- A field read by a decoder. -/
def field {σ α : Type} (name : String) (decode : Decoder α) (update : σ → α → σ) : Field σ :=
  ⟨name, fun v s => do return update s (← decode v)⟩

variable {σ : Type}

/-- Sets the field that an entry names. -/
def setEntry (fields : List (Field σ)) (s : σ) (entry : Key × Value) : Except Misfit σ :=
  match fields.find? (·.name == entry.1.item) with
  | some f => atSpan (entry.2.span <|> some entry.1.span) (f.set entry.2 s)
  | none =>
    .error ⟨.unknownField entry.1.item (fields.map (·.name)), some entry.1.span⟩

/-- Sets fields by name, in the order of the entries. -/
def setEntries (fields : List (Field σ)) (s : σ) (entries : Entries) : Except Misfit σ :=
  entries.foldlM (setEntry fields) s

/-- Sets fields by position; elements beyond the last field are not looked at. -/
def setInOrder (fields : List (Field σ)) (s : σ) (elements : List Value) : Except Misfit σ :=
  (fields.zip elements).foldlM (fun s (f, v) => atSpan v.span (f.set v s)) s

/-- The key under which a date or time would be found in a table of fields. -/
def datetimeKey : String := "$__toml_private_datetime"

/-- Reads a section, starting from what it holds so far. -/
def setSection (expected : String) (fields : List (Field σ)) (v : Value) (s : σ) :
    Except Misfit σ :=
  match v with
  | .table _ entries _ => setEntries fields s entries
  | .array elements _ => setInOrder fields s elements
  | .tables elements _ => setInOrder fields s elements
  | .datetime span => .error ⟨.unknownField datetimeKey (fields.map (·.name)), some span⟩
  | v => .error ⟨.wrongType v expected, v.span⟩

def scriptFields : List (Field ScriptSettings) :=
  [field "edit_strength" strength fun s x => { s with editStrength := x },
   field "change_iterations" count fun s x => { s with changeIterations := x }]

def chainFields : List (Field ChainSettings) :=
  [field "length" count fun s x => { s with length := x },
   field "stay_strength" strength fun s x => { s with stayStrength := x },
   field "edit_strength" strength fun s x => { s with editStrength := x },
   field "iterations" count fun s x => { s with iterations := x }]

def projectionFields : List (Field ProjectionSettings) :=
  [field "size" count fun s x => { s with size := x },
   field "scale" number fun s x => { s with scale := x },
   field "offset" number fun s x => { s with offset := x },
   field "stay_strength" strength fun s x => { s with stayStrength := x },
   field "edit_strength" strength fun s x => { s with editStrength := x },
   field "change_iterations" count fun s x => { s with changeIterations := x }]

def sections : List (Field Settings) :=
  [⟨"script", fun v s => do
      return { s with script := ← setSection "struct ScriptConfig" scriptFields v s.script }⟩,
   ⟨"chain", fun v s => do
      return { s with chain := ← setSection "struct ChainConfig" chainFields v s.chain }⟩,
   ⟨"projection", fun v s => do
      return { s with
        projection := ← setSection "struct ProjectionConfig" projectionFields v s.projection }⟩]

/-- The settings that the entries of a document make. -/
def decode (entries : Entries) : Except Misfit Settings := setEntries sections initial entries

end Settings

end ConstraintHierarchy
