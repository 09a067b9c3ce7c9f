import ConstraintHierarchy.Text.Place

/-!
# TOML values

A document is a table. Its values keep the place they were written at, for messages about them, and
its tables remember how they came into being, which decides what may be added to them later.
-/

namespace ConstraintHierarchy.Toml

/-- A key with the place of its text. -/
abbrev Key := Located String

/-- How a table came into being. -/
inductive Origin where
  /-- by a header of its own, or as an element of an array of tables -/
  | header
  /-- as the parent of another table's header -/
  | implied
  /-- by a dotted key -/
  | dotted
  /-- as a value between braces -/
  | inline
  deriving DecidableEq

/-- A value of a document. Tables list their entries in the order they were made; the ones that no
header or braces show have no place of their own. -/
inductive Value where
  | string (s : String) (span : Span)
  | integer (n : Int) (span : Span)
  | float (x : Float) (span : Span)
  | boolean (b : Bool) (span : Span)
  /-- a date, a time or both; what it says is not kept -/
  | datetime (span : Span)
  | array (elements : List Value) (span : Span)
  | table (origin : Origin) (entries : List (Key × Value)) (span : Option Span)
  /-- tables under a repeated header, oldest first -/
  | tables (elements : List Value) (span : Option Span)

namespace Value

def span : Value → Option Span
  | string _ s => some s
  | integer _ s => some s
  | float _ s => some s
  | boolean _ s => some s
  | datetime s => some s
  | array _ s => some s
  | table _ _ s => s
  | tables _ s => s

end Value

abbrev Entries := List (Key × Value)

namespace Entries

def get? (es : Entries) (k : Key) : Option Value :=
  (List.find? (fun e => e.1.item == k.item) es).map Prod.snd

/-- Changes the value of a key that is there. -/
def replace (es : Entries) (k : Key) (v : Value) : Entries :=
  es.map fun e => if e.1.item == k.item then (e.1, v) else e

def without (es : Entries) (k : Key) : Entries := es.filter (·.1.item != k.item)

end Entries

/-! ## Adding to tables -/

/-- Adds a value under a dotted key, of which `path` is all but the last part. A key is given once.
The tables on the way have to be open to dotted keys, and the last one has to be made by them. -/
def insert (path : List Key) (key : Key) (v : Value) (es : Entries) : Option Entries :=
  match path with
  | [] => if (es.get? key).isSome then none else some (es ++ [(key, v)])
  | k :: ks =>
    match es.get? k with
    | none => do
      let sub ← insert ks key v []
      pure (es ++ [(k, .table .dotted sub none)])
    | some (.table origin sub span) =>
      if origin = .dotted ∨ (origin = .implied ∧ ks ≠ []) then do
        let sub ← insert ks key v sub
        pure (es.replace k (.table origin sub span))
      else none
    | some (.tables elements span) =>
      match elements.getLast? with
      | some (.table origin sub last) =>
        if ks ≠ [] then do
          let sub ← insert ks key v sub
          pure (es.replace k (.tables (elements.dropLast ++ [.table origin sub last]) span))
        else none
      | _ => none
    | some _ => none

/-- Works on the table that a header's path leads to, making the tables on the way that are missing.
An array of tables stands for its latest table. -/
def descend {α : Type} (path : List Key) (f : Entries → Option (α × Entries)) (es : Entries) :
    Option (α × Entries) :=
  match path with
  | [] => f es
  | k :: ks =>
    match es.get? k with
    | none => do
      let (a, sub) ← descend ks f []
      pure (a, es ++ [(k, .table .implied sub none)])
    | some (.table origin sub span) =>
      if origin = .inline then none
      else do
        let (a, sub) ← descend ks f sub
        pure (a, es.replace k (.table origin sub span))
    | some (.tables elements span) =>
      match elements.getLast? with
      | some (.table origin sub last) => do
        let (a, sub) ← descend ks f sub
        pure (a, es.replace k (.tables (elements.dropLast ++ [.table origin sub last]) span))
      | _ => none
    | some _ => none

end ConstraintHierarchy.Toml
