import Mathlib.Data.List.Forall2
import Mathlib.Data.Set.Subsingleton
import ConstraintHierarchy.Script.Parsing

/-!
# The grammar of scripts

A script is a sequence of phrases, and a phrase has one of eight forms: a keyword, and the names,
numbers and strengths that belong to it. The forms are stated here as a relation between tokens and
statements, without a reader. The reader is right in both directions: what it accepts is composed of
phrases, and it accepts what is composed of them. Since it has at most one answer, there is at most one
way to cut a text into phrases.

## Main definitions

* `Spells`: the eight forms
* `Reads`: a phrase, and the statement it spells with its place
* `Composes`: a way to cut a sequence of tokens into phrases

## Main results

* `Reading.statement_eq_ok`, `statements_eq_ok`: what readers accept, and what they make of it
* `parse_exact`: parsing accepts what is composed of phrases, and nothing else
-/

namespace ConstraintHierarchy.Script

/-- How a name is written. -/
def nameToken (n : Name) : Located Token := ⟨.identifier n.item, n.span⟩

/-- How a number is written. -/
def valueToken (x : Located Float) : Located Token := ⟨.number x.item, x.span⟩

/-- How a strength is written: as an identifier, though not as any identifier. -/
def strengthToken (s : Located Strength) : Located Token := ⟨.identifier s.item.name, s.span⟩

/-- The tokens spell the statement, which has one of eight forms. -/
inductive Spells : List (Located Token) → Statement → Prop
  | declare (k e : Span) (n : Name) (x : Located Float) :
    Spells [⟨.keyword .var, k⟩, nameToken n, ⟨.equals, e⟩, valueToken x] (.declare n x.item)
  | stay (k : Span) (n : Name) (s : Located Strength) :
    Spells [⟨.keyword .stay, k⟩, nameToken n, strengthToken s] (.stay n s.item)
  | edit (k : Span) (n : Name) (s : Located Strength) :
    Spells [⟨.keyword .edit, k⟩, nameToken n, strengthToken s] (.edit n s.item)
  | equal (k : Span) (l r : Name) (s : Located Strength) :
    Spells [⟨.keyword .equal, k⟩, nameToken l, nameToken r, strengthToken s] (.equal l r s.item)
  | scale (k : Span) (source factor offset target : Name) (s : Located Strength) :
    Spells [⟨.keyword .scale, k⟩, nameToken source, nameToken factor, nameToken offset,
        nameToken target, strengthToken s]
      (.scale source factor offset target s.item)
  | change (k e : Span) (n : Name) (x : Located Float) :
    Spells [⟨.keyword .change, k⟩, nameToken n, ⟨.equals, e⟩, valueToken x] (.change n x.item)
  | expect (k e : Span) (n : Name) (x : Located Float) :
    Spells [⟨.keyword .expect, k⟩, nameToken n, ⟨.equals, e⟩, valueToken x] (.expect n x.item)
  | print (k : Span) (n : Name) : Spells [⟨.keyword .print, k⟩, nameToken n] (.print n)

/-- Whatever its form, a phrase is a keyword and at least one token more. -/
theorem Spells.exists_keyword {phrase : List (Located Token)} {stmt : Statement}
    (h : Spells phrase stmt) : ∃ k span t more, phrase = ⟨.keyword k, span⟩ :: t :: more := by
  cases h <;> exact ⟨_, _, _, _, rfl⟩

/-- The phrase spells the statement, which extends from the start of its first token to the end of its
last one. -/
structure Reads (phrase : List (Located Token)) (s : Located Statement) : Prop where
  spells : Spells phrase s.item
  start : phrase.head?.map (·.span.start) = some s.span.start
  stop : phrase.getLast?.map (·.span.stop) = some s.span.stop

/-- The phrases, each of which has one of the eight forms, make up the tokens. -/
def Composes (phrases : List (List (Located Token))) (ts : List (Located Token)) : Prop :=
  phrases.flatten = ts ∧ ∀ phrase ∈ phrases, ∃ stmt, Spells phrase stmt

/-! ## Readers -/

namespace Reading

variable {α β : Type} {ending : Span} {ts rest : List (Located Token)}

theorem bind_eq_ok {p : Reading α} {f : α → Reading β} {b : β} :
    (p >>= f) ts = .ok (b, rest) ↔ ∃ a mid, p ts = .ok (a, mid) ∧ f a mid = .ok (b, rest) := by
  show (p ts >>= fun r => f r.1 r.2) = .ok (b, rest) ↔ _
  cases p ts with
  | error e => simp [bind, Except.bind]
  | ok r =>
    obtain ⟨a, mid⟩ := r
    simp [bind, Except.bind]

theorem pure_eq_ok {a b : α} : (pure a : Reading α) ts = .ok (b, rest) ↔ a = b ∧ ts = rest := by
  show Except.ok (a, ts) = .ok (b, rest) ↔ _
  simp

theorem name_eq_ok {n : Name} : name ending ts = .ok (n, rest) ↔ ts = nameToken n :: rest := by
  constructor
  · intro h
    unfold name at h
    split at h
    · cases h
      rfl
    · cases h
  · rintro rfl
    rfl

theorem number_eq_ok {x : Located Float} :
    number ending ts = .ok (x, rest) ↔ ts = valueToken x :: rest := by
  constructor
  · intro h
    unfold number at h
    split at h
    · cases h
      rfl
    · cases h
  · rintro rfl
    rfl

theorem equals_eq_ok {u : Unit} :
    equals ending ts = .ok (u, rest) ↔ ∃ e, ts = ⟨.equals, e⟩ :: rest := by
  constructor
  · intro h
    unfold equals at h
    split at h
    next e ts =>
      cases h
      exact ⟨e, rfl⟩
    · cases h
  · rintro ⟨e, rfl⟩
    rfl

theorem strength_eq_ok {s : Located Strength} :
    strength ending ts = .ok (s, rest) ↔ ts = strengthToken s :: rest := by
  have hparse : ∀ n level, Strength.parse n = .ok level ↔ level.name = n := by
    intro n level
    constructor
    · intro h
      unfold Strength.parse at h
      split at h
      next hname =>
        cases h
        exact Strength.name_of_ofName? hname
      · cases h
    · rintro rfl
      rw [Strength.parse, Strength.ofName?_name]
  constructor
  · intro h
    unfold strength at h
    split at h
    next n span ts =>
      split at h
      next level hlevel =>
        cases h
        rw [strengthToken, (hparse n level).1 hlevel]
      · cases h
    · cases h
  · rintro rfl
    rw [strengthToken, strength]
    simp only [(hparse _ s.item).2 rfl]

/-- The rest of a statement, put behind its keyword, has one of the forms. -/
theorem body_eq_ok {k : Keyword} {stmt : Statement} {stop : Nat} (span : Span) :
    body ending k ts = .ok ((stmt, stop), rest) ↔
      ∃ phrase, Spells (⟨.keyword k, span⟩ :: phrase) stmt ∧
        phrase.getLast?.map (·.span.stop) = some stop ∧ ts = phrase ++ rest := by
  constructor
  · intro h
    cases k <;>
      simp only [body, bind_eq_ok, name_eq_ok, number_eq_ok, equals_eq_ok, strength_eq_ok, pure_eq_ok,
        Prod.mk.injEq] at h
    case var =>
      obtain ⟨n, _, rfl, _, _, ⟨e, rfl⟩, x, _, rfl, ⟨rfl, rfl⟩, rfl⟩ := h
      exact ⟨_, .declare span e n x, rfl, rfl⟩
    case stay =>
      obtain ⟨n, _, rfl, s, _, rfl, ⟨rfl, rfl⟩, rfl⟩ := h
      exact ⟨_, .stay span n s, rfl, rfl⟩
    case edit =>
      obtain ⟨n, _, rfl, s, _, rfl, ⟨rfl, rfl⟩, rfl⟩ := h
      exact ⟨_, .edit span n s, rfl, rfl⟩
    case equal =>
      obtain ⟨l, _, rfl, r, _, rfl, s, _, rfl, ⟨rfl, rfl⟩, rfl⟩ := h
      exact ⟨_, .equal span l r s, rfl, rfl⟩
    case scale =>
      obtain ⟨a, _, rfl, f, _, rfl, o, _, rfl, b, _, rfl, s, _, rfl, ⟨rfl, rfl⟩, rfl⟩ := h
      exact ⟨_, .scale span a f o b s, rfl, rfl⟩
    case change =>
      obtain ⟨n, _, rfl, _, _, ⟨e, rfl⟩, x, _, rfl, ⟨rfl, rfl⟩, rfl⟩ := h
      exact ⟨_, .change span e n x, rfl, rfl⟩
    case expect =>
      obtain ⟨n, _, rfl, _, _, ⟨e, rfl⟩, x, _, rfl, ⟨rfl, rfl⟩, rfl⟩ := h
      exact ⟨_, .expect span e n x, rfl, rfl⟩
    case print =>
      obtain ⟨n, _, rfl, ⟨rfl, rfl⟩, rfl⟩ := h
      exact ⟨_, .print span n, rfl, rfl⟩
  · rintro ⟨phrase, hspells, hstop, rfl⟩
    cases hspells <;> cases hstop <;>
      simp only [body, bind_eq_ok, name_eq_ok, number_eq_ok, equals_eq_ok, strength_eq_ok, pure_eq_ok,
        Prod.mk.injEq]
    next e n x => exact ⟨n, _, rfl, (), _, ⟨e, rfl⟩, x, _, rfl, ⟨rfl, rfl⟩, rfl⟩
    next n s => exact ⟨n, _, rfl, s, _, rfl, ⟨rfl, rfl⟩, rfl⟩
    next n s => exact ⟨n, _, rfl, s, _, rfl, ⟨rfl, rfl⟩, rfl⟩
    next l r s => exact ⟨l, _, rfl, r, _, rfl, s, _, rfl, ⟨rfl, rfl⟩, rfl⟩
    next a f o b s =>
      exact ⟨a, _, rfl, f, _, rfl, o, _, rfl, b, _, rfl, s, _, rfl, ⟨rfl, rfl⟩, rfl⟩
    next e n x => exact ⟨n, _, rfl, (), _, ⟨e, rfl⟩, x, _, rfl, ⟨rfl, rfl⟩, rfl⟩
    next e n x => exact ⟨n, _, rfl, (), _, ⟨e, rfl⟩, x, _, rfl, ⟨rfl, rfl⟩, rfl⟩
    next n => exact ⟨n, _, rfl, ⟨rfl, rfl⟩, rfl⟩

/-- A statement is read off the front of the tokens exactly if a phrase for it stands there. -/
theorem statement_eq_ok {s : Located Statement} :
    statement ending ts = .ok (s, rest) ↔ ∃ phrase, Reads phrase s ∧ ts = phrase ++ rest := by
  constructor
  · intro h
    unfold statement at h
    split at h
    next k span ts =>
      cases hbody : body ending k ts with
      | error e => simp [hbody, bind, Except.bind] at h
      | ok r =>
        obtain ⟨⟨stmt, stop⟩, mid⟩ := r
        rw [hbody] at h
        cases h
        obtain ⟨phrase, hspells, hstop, rfl⟩ := (body_eq_ok span).1 hbody
        refine ⟨⟨.keyword k, span⟩ :: phrase, ⟨hspells, rfl, ?_⟩, rfl⟩
        cases phrase with
        | nil => cases hstop
        | cons t phrase => exact hstop
    · cases h
  · rintro ⟨phrase, ⟨hspells, hstart, hstop⟩, rfl⟩
    obtain ⟨stmt, start, stop⟩ := s
    obtain ⟨k, span, t, more, rfl⟩ := hspells.exists_keyword
    have hbody : body ending k (t :: more ++ rest) = .ok ((stmt, stop), rest) :=
      (body_eq_ok span).2 ⟨t :: more, hspells, hstop, rfl⟩
    cases hstart
    rw [List.cons_append, statement, hbody]
    rfl

end Reading

/-! ## Whole scripts -/

section Scripts

variable {ending : Span} {ts : List (Located Token)} {ss : List (Located Statement)}
  {phrases : List (List (Located Token))}

/-- Tokens are read as statements exactly if they are composed of phrases for them. -/
theorem statements_eq_ok :
    statements ending ts = .ok ss ↔
      ∃ phrases, List.Forall₂ Reads phrases ss ∧ phrases.flatten = ts := by
  constructor
  · intro h
    fun_induction statements ending ts generalizing ss with
    | case1 ts hempty =>
      cases h
      exact ⟨[], .nil, (List.isEmpty_iff.1 hempty).symm⟩
    | case2 => cases h
    | case3 => cases h
    | case4 ts hempty s rest hs hlt more hmore ih =>
      cases h
      obtain ⟨phrase, hphrase, rfl⟩ := Reading.statement_eq_ok.1 hs
      obtain ⟨phrases, hphrases, rfl⟩ := ih hmore
      exact ⟨phrase :: phrases, .cons hphrase hphrases, rfl⟩
  · rintro ⟨phrases, hphrases, rfl⟩
    induction hphrases with
    | nil => rw [statements]; rfl
    | @cons phrase s phrases ss hphrase _ ih =>
      have hread : Reading.statement ending (phrase :: phrases).flatten = .ok (s, phrases.flatten) :=
        Reading.statement_eq_ok.2 ⟨phrase, hphrase, rfl⟩
      obtain ⟨k, span, t, more, rfl⟩ := hphrase.spells.exists_keyword
      rw [statements, if_neg (by simp)]
      split
      next e he =>
        rw [hread] at he
        cases he
      next s' rest hs =>
        rw [hread] at hs
        cases hs
        rw [ih]

/-- Of two phrases at the front of the same tokens, with whatever comes after them, neither is longer:
a reader of statements finds one of them. -/
theorem Reads.unique {phrase phrase' rest rest' : List (Located Token)} {s s' : Located Statement}
    (h : Reads phrase s) (h' : Reads phrase' s') (heq : phrase ++ rest = phrase' ++ rest') :
    phrase = phrase' ∧ rest = rest' := by
  have hread : Reading.statement default (phrase ++ rest) = .ok (s, rest) :=
    Reading.statement_eq_ok.2 ⟨phrase, h, rfl⟩
  have hread' : Reading.statement default (phrase ++ rest) = .ok (s', rest') :=
    Reading.statement_eq_ok.2 ⟨phrase', h', heq⟩
  rw [hread] at hread'
  cases hread'
  exact ⟨List.append_cancel_right heq, rfl⟩

/-- A phrase can be read, whatever places its tokens have. -/
theorem Spells.exists_reads {phrase : List (Located Token)} {stmt : Statement}
    (h : Spells phrase stmt) : ∃ span, Reads phrase ⟨stmt, span⟩ := by
  obtain ⟨k, span, t, more, rfl⟩ := h.exists_keyword
  exact ⟨⟨span.start, ((t :: more).getLast (by simp)).span.stop⟩, h, rfl, by
    rw [List.getLast?_cons_cons, List.getLast?_eq_getLast_of_ne_nil (by simp)]
    rfl⟩

theorem composes_iff : Composes phrases ts ↔
    ∃ ss, List.Forall₂ Reads phrases ss ∧ phrases.flatten = ts := by
  constructor
  · rintro ⟨rfl, hphrases⟩
    suffices h : ∃ ss, List.Forall₂ Reads phrases ss from h.imp fun _ h => ⟨h, rfl⟩
    induction phrases with
    | nil => exact ⟨[], .nil⟩
    | cons phrase phrases ih =>
      obtain ⟨stmt, hstmt⟩ := hphrases phrase (by simp)
      obtain ⟨span, hs⟩ := hstmt.exists_reads
      obtain ⟨ss, hss⟩ := ih fun p hp => hphrases p (by simp [hp])
      exact ⟨⟨stmt, span⟩ :: ss, .cons hs hss⟩
  · rintro ⟨ss, hphrases, rfl⟩
    refine ⟨rfl, ?_⟩
    induction hphrases with
    | nil => simp
    | @cons phrase s _ _ hs _ ih => exact List.forall_mem_cons.2 ⟨⟨s.item, hs.spells⟩, ih⟩

theorem forall₂_reads_unique {others : List (List (Located Token))} {ss' : List (Located Statement)}
    (h : List.Forall₂ Reads phrases ss) (h' : List.Forall₂ Reads others ss')
    (heq : phrases.flatten = others.flatten) : phrases = others := by
  induction h generalizing others ss' with
  | nil =>
    cases h' with
    | nil => rfl
    | cons hs _ =>
      obtain ⟨k, span, t, more, rfl⟩ := hs.spells.exists_keyword
      cases heq
  | cons hs _ ih =>
    cases h' with
    | nil =>
      obtain ⟨k, span, t, more, rfl⟩ := hs.spells.exists_keyword
      cases heq
    | cons hs' hrest' =>
      obtain ⟨rfl, hrest⟩ := hs.unique hs' heq
      rw [ih hrest' hrest]

end Scripts

/-- A text is parsed exactly if its tokens are composed of phrases, each with one of the eight forms.
There is at most one way to cut the tokens into phrases, and the statements of the script are what the
phrases spell, in their order, each with the place of its phrase. -/
theorem parse_exact (source : String) :
    ((∃ ss, parse source = .ok ss) ↔ ∃ phrases, Composes phrases (tokens source)) ∧
    {phrases | Composes phrases (tokens source)}.Subsingleton ∧
    ∀ ss, parse source = .ok ss ↔
      ∃ phrases, Composes phrases (tokens source) ∧ List.Forall₂ Reads phrases ss := by
  have hparse : ∀ ss, parse source = .ok ss ↔
      ∃ phrases, Composes phrases (tokens source) ∧ List.Forall₂ Reads phrases ss := by
    intro ss
    rw [parse, statements_eq_ok]
    refine exists_congr fun phrases => ?_
    rw [composes_iff]
    exact ⟨fun h => ⟨⟨ss, h⟩, h.1⟩, fun h => ⟨h.2, h.1.choose_spec.2⟩⟩
  refine ⟨⟨?_, ?_⟩, ?_, hparse⟩
  · rintro ⟨ss, h⟩
    obtain ⟨phrases, hphrases, -⟩ := (hparse ss).1 h
    exact ⟨phrases, hphrases⟩
  · rintro ⟨phrases, hphrases⟩
    obtain ⟨ss, hss, -⟩ := composes_iff.1 hphrases
    exact ⟨ss, (hparse ss).2 ⟨phrases, hphrases, hss⟩⟩
  · intro phrases hphrases others hothers
    obtain ⟨ss, hss, hflat⟩ := composes_iff.1 hphrases
    obtain ⟨ss', hss', hflat'⟩ := composes_iff.1 hothers
    exact forall₂_reads_unique hss hss' (hflat.trans hflat'.symm)

end ConstraintHierarchy.Script
