import ConstraintHierarchy.Decimal.Layout
import ConstraintHierarchy.Script.Piece
import ConstraintHierarchy.Script.Statement

/-!
# Reading statements

A script is a sequence of statements, and every statement is a keyword followed by a fixed sequence
of names, numbers, equals signs and strengths. Reading stops at the first token that does not fit.
-/

namespace ConstraintHierarchy.Script

/-- Why and where a text is not a script. -/
structure ParseError where
  span : Span
  message : String
  /-- what would have fitted, as far as it is a fixed choice -/
  expected : List String
  deriving DecidableEq

/-- The error with its place, for a list of errors. -/
def ParseError.text (e : ParseError) : String :=
  "Parse error at " ++ toString e.span.start ++ ".." ++ toString e.span.stop ++ ": " ++ e.message

def Keyword.describe (k : Keyword) : String := "keyword '" ++ k.text ++ "'"

/-- How messages speak of a token. -/
def Token.describe : Token → String
  | keyword k => k.describe
  | equals => "'='"
  | identifier name => "identifier '" ++ name ++ "'"
  | number value => "number " ++ Decimal.plain.write value
  | unrecognized => "unrecognized input"

/-- What can stand where a statement may start. -/
def statementStarts : List String := Keyword.all.map Keyword.describe ++ ["end of input"]

/-- Takes part of a statement off the front of the tokens. -/
abbrev Reading := StateT (List (Located Token)) (Except ParseError)

namespace Reading

variable {α β : Type}

/-- The complaint about the next token, or about the end of the text at `ending`. -/
def unexpected (ending : Span) (expected : List String) : List (Located Token) → ParseError
  | [] => ⟨ending, "Unexpected end of input", expected⟩
  | t :: _ => ⟨t.span, "Unexpected " ++ t.item.describe, expected⟩

def name (ending : Span) : Reading Name
  | ⟨.identifier n, s⟩ :: ts => .ok (⟨n, s⟩, ts)
  | ts => .error (unexpected ending [] ts)

def number (ending : Span) : Reading (Located Float)
  | ⟨.number x, s⟩ :: ts => .ok (⟨x, s⟩, ts)
  | ts => .error (unexpected ending [] ts)

def equals (ending : Span) : Reading Unit
  | ⟨.equals, _⟩ :: ts => .ok ((), ts)
  | ts => .error (unexpected ending [Token.equals.describe] ts)

/-- A name that is one of the seven strengths. -/
def strength (ending : Span) : Reading (Located Strength)
  | ⟨.identifier n, s⟩ :: ts =>
    match Strength.parse n with
    | .ok level => .ok (⟨level, s⟩, ts)
    | .error e => .error ⟨s, e.message, []⟩
  | ts => .error (unexpected ending [] ts)

/-- The rest of a statement after its keyword, and where it ends. -/
def body (ending : Span) : Keyword → Reading (Statement × Nat)
  | .var => do
    let n ← name ending
    equals ending
    let x ← number ending
    return (.declare n x.item, x.span.stop)
  | .stay => do
    let n ← name ending
    let s ← strength ending
    return (.stay n s.item, s.span.stop)
  | .edit => do
    let n ← name ending
    let s ← strength ending
    return (.edit n s.item, s.span.stop)
  | .equal => do
    let l ← name ending
    let r ← name ending
    let s ← strength ending
    return (.equal l r s.item, s.span.stop)
  | .scale => do
    let source ← name ending
    let factor ← name ending
    let offset ← name ending
    let target ← name ending
    let s ← strength ending
    return (.scale source factor offset target s.item, s.span.stop)
  | .change => do
    let n ← name ending
    equals ending
    let x ← number ending
    return (.change n x.item, x.span.stop)
  | .expect => do
    let n ← name ending
    equals ending
    let x ← number ending
    return (.expect n x.item, x.span.stop)
  | .print => do
    let n ← name ending
    return (.print n, n.span.stop)

/-- A whole statement. -/
def statement (ending : Span) : Reading (Located Statement)
  | ⟨.keyword k, s⟩ :: ts => do
    let ((stmt, stop), rest) ← body ending k ts
    return (⟨stmt, ⟨s.start, stop⟩⟩, rest)
  | ts => .error (unexpected ending statementStarts ts)

/-! ### Reading makes the rest shorter -/

/-- A reader that gives back no more tokens than it was given. -/
def NonGrowing (p : Reading α) : Prop :=
  ∀ ts a rest, p ts = .ok (a, rest) → rest.length ≤ ts.length

theorem NonGrowing.bind {p : Reading α} {f : α → Reading β} (hp : NonGrowing p)
    (hf : ∀ a, NonGrowing (f a)) : NonGrowing (p >>= f) := by
  intro ts b rest h
  cases hpt : p ts with
  | error e => simp [Bind.bind, StateT.bind, hpt, Except.bind] at h
  | ok r =>
    obtain ⟨a, mid⟩ := r
    have h' : f a mid = .ok (b, rest) := by
      simpa [Bind.bind, StateT.bind, hpt, Except.bind] using h
    exact Nat.le_trans (hf a mid b rest h') (hp ts a mid hpt)

theorem NonGrowing.pure (a : α) : NonGrowing (Pure.pure a : Reading α) := by
  intro ts b rest h
  cases h
  exact Nat.le_refl _

theorem name_nonGrowing (ending : Span) : NonGrowing (name ending) := by
  intro ts a rest h
  unfold name at h
  split at h
  · cases h; simp
  · cases h

theorem number_nonGrowing (ending : Span) : NonGrowing (number ending) := by
  intro ts a rest h
  unfold number at h
  split at h
  · cases h; simp
  · cases h

theorem equals_nonGrowing (ending : Span) : NonGrowing (equals ending) := by
  intro ts a rest h
  unfold equals at h
  split at h
  · cases h; simp
  · cases h

theorem strength_nonGrowing (ending : Span) : NonGrowing (strength ending) := by
  intro ts a rest h
  unfold strength at h
  split at h
  · split at h
    · cases h; simp
    · cases h
  · cases h

theorem body_nonGrowing (ending : Span) (k : Keyword) : NonGrowing (body ending k) := by
  have hn := name_nonGrowing ending
  have hx := number_nonGrowing ending
  have he := equals_nonGrowing ending
  have hs := strength_nonGrowing ending
  cases k with
  | var => exact hn.bind fun _ => he.bind fun _ => hx.bind fun _ => .pure _
  | stay => exact hn.bind fun _ => hs.bind fun _ => .pure _
  | edit => exact hn.bind fun _ => hs.bind fun _ => .pure _
  | equal => exact hn.bind fun _ => hn.bind fun _ => hs.bind fun _ => .pure _
  | scale =>
    exact hn.bind fun _ => hn.bind fun _ => hn.bind fun _ => hn.bind fun _ => hs.bind fun _ =>
      .pure _
  | change => exact hn.bind fun _ => he.bind fun _ => hx.bind fun _ => .pure _
  | expect => exact hn.bind fun _ => he.bind fun _ => hx.bind fun _ => .pure _
  | print => exact hn.bind fun _ => .pure _

theorem statement_shorter {ending : Span} {ts rest : List (Located Token)}
    {s : Located Statement} (h : statement ending ts = .ok (s, rest)) :
    rest.length < ts.length := by
  unfold statement at h
  split at h
  · next k sp ts =>
    cases hb : body ending k ts with
    | error e => simp [hb, Bind.bind, Except.bind] at h
    | ok r =>
      obtain ⟨⟨stmt, stop⟩, mid⟩ := r
      have := body_nonGrowing ending k ts _ _ hb
      simp [hb, Bind.bind, Except.bind, Pure.pure, Except.pure] at h
      obtain ⟨_, rfl⟩ := h
      simp only [List.length_cons]
      omega
  · cases h

end Reading

/-- Reads statements until the tokens are used up. -/
def statements (ending : Span) (ts : List (Located Token)) :
    Except ParseError (List (Located Statement)) :=
  if ts.isEmpty then .ok []
  else
    match h : Reading.statement ending ts with
    | .error e => .error e
    | .ok (s, rest) =>
      have : rest.length < ts.length := Reading.statement_shorter h
      match statements ending rest with
      | .error e => .error e
      | .ok more => .ok (s :: more)
termination_by ts.length

/-- Where an error at the end of a text is reported: from the end of the text to the end of its last
token. -/
def endOfInput (source : String) (ts : List (Located Token)) : Span :=
  ⟨byteLength source.toList, (ts.getLast?.map (·.span.stop)).getD 0⟩

/-- The statements of a script, or what is wrong with it. Nothing is read past the first token that does
not fit, so that there is one error and no list of them. -/
def parse (source : String) : Except ParseError (List (Located Statement)) :=
  let ts := tokens source
  statements (endOfInput source ts) ts

end ConstraintHierarchy.Script
