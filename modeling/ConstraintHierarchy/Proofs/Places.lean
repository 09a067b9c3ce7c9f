import ConstraintHierarchy.Proofs.Grammar
import ConstraintHierarchy.Script.Session

/-!
# Scripts apart from their places

Statements and errors say where in the source they are from. Nothing that a script does depends on it:
texts with the same tokens, wherever these stand, are parsed to the same statements or not at all, and
the statements have the same effects. To say so, everything that has a place is given the same one, and
what is left is compared.

## Main definitions

* `Located.unplaced`, `Statement.unplaced`, `ScriptError.unplaced`, `Session.unplaced`: the same without
  its places
* `Interpret.Alike`: two steps of a script do the same apart from places
* `SameOutcome`: two scripts end in the same way

## Main results

* `parse_of_items`: the statements of texts with the same tokens
* `alike_executeAll`: the effects of statements that are the same apart from places
-/

namespace ConstraintHierarchy

/-- The item without its place. -/
def Located.unplaced {α : Type} (x : Located α) : Located α := ⟨x.item, default⟩

theorem Located.unplaced_inj {α : Type} {x x' : Located α} :
    x.unplaced = x'.unplaced ↔ x.item = x'.item := by
  simp [Located.unplaced]

namespace Script

/-- The statement without the places of its names. -/
def Statement.unplaced : Statement → Statement
  | declare n x => declare n.unplaced x
  | stay n s => stay n.unplaced s
  | edit n s => edit n.unplaced s
  | equal l r s => equal l.unplaced r.unplaced s
  | scale a f o b s => scale a.unplaced f.unplaced o.unplaced b.unplaced s
  | change n x => change n.unplaced x
  | expect n x => expect n.unplaced x
  | print n => print n.unplaced

/-- The error without the places it points at. -/
def ScriptError.unplaced : ScriptError → ScriptError
  | undefined n suggestions => undefined n.unplaced suggestions
  | redefined n _ => redefined n.unplaced default
  | unexpectedValue name expected actual _ => unexpectedValue name expected actual default
  | solver e _ => solver e default

/-- The declaration without its place. -/
def Declaration.unplaced (d : Declaration) : Declaration := { d with span := default }

/-- The session without the places of its declarations. -/
def Session.unplaced (s : Session) : Session := { s with names := s.names.map Declaration.unplaced }

/-- Two scripts print the same lines, or are both no scripts, or fail for the same reason. -/
inductive SameOutcome : Except (Failure RunError) (List String) →
    Except (Failure RunError) (List String) → Prop
  | printed (lines : List String) : SameOutcome (.ok lines) (.ok lines)
  | unparsed (e e' : ParseError) :
    SameOutcome (.error (.refused (.parse e))) (.error (.refused (.parse e')))
  | stopped {e e' : ScriptError} (h : e.unplaced = e'.unplaced) :
    SameOutcome (.error (.refused (.script e))) (.error (.refused (.script e')))
  | outOfRange : SameOutcome (.error .outOfRange) (.error .outOfRange)
  | endless : SameOutcome (.error .endless) (.error .endless)

/-! ## Parsing -/

section Parsing

variable {phrase phrase' : List (Located Token)} {stmt : Statement}

/-- Tokens with the same items spell the same statement, apart from places. -/
theorem Spells.of_items (h : Spells phrase stmt)
    (heq : phrase'.map (·.item) = phrase.map (·.item)) :
    ∃ stmt', Spells phrase' stmt' ∧ stmt'.unplaced = stmt.unplaced := by
  cases h <;>
    simp only [List.map_cons, List.map_nil, List.map_eq_cons_iff, List.map_eq_nil_iff, nameToken,
      valueToken, strengthToken] at heq
  case declare n x =>
    obtain ⟨⟨_, k⟩, _, rfl, rfl, ⟨_, sn⟩, _, rfl, rfl, ⟨_, e⟩, _, rfl, rfl, ⟨_, sx⟩, _, rfl, rfl, rfl⟩ :=
      heq
    exact ⟨_, .declare k e ⟨n.item, sn⟩ ⟨x.item, sx⟩, rfl⟩
  case stay n s =>
    obtain ⟨⟨_, k⟩, _, rfl, rfl, ⟨_, sn⟩, _, rfl, rfl, ⟨_, ss⟩, _, rfl, rfl, rfl⟩ := heq
    exact ⟨_, .stay k ⟨n.item, sn⟩ ⟨s.item, ss⟩, rfl⟩
  case edit n s =>
    obtain ⟨⟨_, k⟩, _, rfl, rfl, ⟨_, sn⟩, _, rfl, rfl, ⟨_, ss⟩, _, rfl, rfl, rfl⟩ := heq
    exact ⟨_, .edit k ⟨n.item, sn⟩ ⟨s.item, ss⟩, rfl⟩
  case equal l r s =>
    obtain ⟨⟨_, k⟩, _, rfl, rfl, ⟨_, sl⟩, _, rfl, rfl, ⟨_, sr⟩, _, rfl, rfl, ⟨_, ss⟩, _, rfl, rfl, rfl⟩ :=
      heq
    exact ⟨_, .equal k ⟨l.item, sl⟩ ⟨r.item, sr⟩ ⟨s.item, ss⟩, rfl⟩
  case scale a f o b s =>
    obtain ⟨⟨_, k⟩, _, rfl, rfl, ⟨_, sa⟩, _, rfl, rfl, ⟨_, sf⟩, _, rfl, rfl, ⟨_, so⟩, _, rfl, rfl,
      ⟨_, sb⟩, _, rfl, rfl, ⟨_, ss⟩, _, rfl, rfl, rfl⟩ := heq
    exact ⟨_, .scale k ⟨a.item, sa⟩ ⟨f.item, sf⟩ ⟨o.item, so⟩ ⟨b.item, sb⟩ ⟨s.item, ss⟩, rfl⟩
  case change n x =>
    obtain ⟨⟨_, k⟩, _, rfl, rfl, ⟨_, sn⟩, _, rfl, rfl, ⟨_, e⟩, _, rfl, rfl, ⟨_, sx⟩, _, rfl, rfl, rfl⟩ :=
      heq
    exact ⟨_, .change k e ⟨n.item, sn⟩ ⟨x.item, sx⟩, rfl⟩
  case expect n x =>
    obtain ⟨⟨_, k⟩, _, rfl, rfl, ⟨_, sn⟩, _, rfl, rfl, ⟨_, e⟩, _, rfl, rfl, ⟨_, sx⟩, _, rfl, rfl, rfl⟩ :=
      heq
    exact ⟨_, .expect k e ⟨n.item, sn⟩ ⟨x.item, sx⟩, rfl⟩
  case print n =>
    obtain ⟨⟨_, k⟩, _, rfl, rfl, ⟨_, sn⟩, _, rfl, rfl, rfl⟩ := heq
    exact ⟨_, .print k ⟨n.item, sn⟩, rfl⟩

/-- The statements of texts with the same tokens are the same apart from places. -/
theorem reads_of_items {phrases : List (List (Located Token))} {ss : List (Located Statement)}
    {ts : List (Located Token)} (h : List.Forall₂ Reads phrases ss)
    (heq : ts.map (·.item) = phrases.flatten.map (·.item)) :
    ∃ phrases' ss', List.Forall₂ Reads phrases' ss' ∧ phrases'.flatten = ts ∧
      ss'.map (·.item.unplaced) = ss.map (·.item.unplaced) := by
  induction h generalizing ts with
  | nil =>
    have hnil : ts = [] := List.map_eq_nil_iff.1 heq
    exact ⟨[], [], .nil, hnil.symm, rfl⟩
  | cons hread _ ih =>
    rw [List.flatten_cons, List.map_append] at heq
    obtain ⟨phrase', rest', rfl, hphrase, hrest⟩ := List.map_eq_append_iff.1 heq
    obtain ⟨stmt', hspells, hstmt⟩ := hread.spells.of_items hphrase
    obtain ⟨span', hs'⟩ := hspells.exists_reads
    obtain ⟨phrases', ss', hreads, hflat, hss⟩ := ih hrest
    refine ⟨phrase' :: phrases', ⟨stmt', span'⟩ :: ss', .cons hs' hreads, ?_, ?_⟩
    · rw [List.flatten_cons, hflat]
    · rw [List.map_cons, List.map_cons, hss, hstmt]

/-- A text with the tokens of a script is a script with the same statements, apart from places. -/
theorem parse_ok_of_items {source source' : String} {ss : List (Located Statement)}
    (heq : (tokens source').map (·.item) = (tokens source).map (·.item))
    (h : parse source = .ok ss) :
    ∃ ss', parse source' = .ok ss' ∧ ss'.map (·.item.unplaced) = ss.map (·.item.unplaced) := by
  obtain ⟨phrases, hreads, hflat⟩ := statements_eq_ok.1 h
  rw [← hflat] at heq
  obtain ⟨phrases', ss', hreads', hflat', hss⟩ := reads_of_items hreads heq
  exact ⟨ss', statements_eq_ok.2 ⟨phrases', hreads', hflat'⟩, hss⟩

/-- Texts with the same tokens are scripts with the same statements, apart from places, or are no
scripts. -/
theorem parse_of_items {source source' : String}
    (heq : (tokens source').map (·.item) = (tokens source).map (·.item)) :
    (∃ ss ss', parse source = .ok ss ∧ parse source' = .ok ss' ∧
      ss'.map (·.item.unplaced) = ss.map (·.item.unplaced)) ∨
    ∃ e e', parse source = .error e ∧ parse source' = .error e' := by
  cases hp : parse source with
  | ok ss =>
    obtain ⟨ss', hp', hss⟩ := parse_ok_of_items heq hp
    exact .inl ⟨ss, ss', rfl, hp', hss⟩
  | error e =>
    cases hp' : parse source' with
    | ok ss' =>
      obtain ⟨ss, hss, -⟩ := parse_ok_of_items heq.symm hp'
      rw [hp] at hss
      cases hss
    | error e' => exact .inr ⟨e, e', rfl, rfl⟩

end Parsing

/-! ## Running -/

section Sessions

variable {s s' : Session}

theorem Declaration.unplaced_inj {d d' : Declaration} :
    d.unplaced = d'.unplaced ↔ d.name = d'.name ∧ d.id = d'.id := by
  simp [Declaration.unplaced]

theorem Session.unplaced_inj : s.unplaced = s'.unplaced ↔
    s.network = s'.network ∧
    s.names.map Declaration.unplaced = s'.names.map Declaration.unplaced ∧
    s.transcript = s'.transcript := by
  simp [Session.unplaced]

theorem Session.find?_unplaced (s : Session) (name : String) :
    s.unplaced.find? name = (s.find? name).map Declaration.unplaced :=
  List.find?_map

theorem map_unplaced_find? {name name' : String} (h : s.unplaced = s'.unplaced)
    (hname : name = name') :
    (s.find? name).map Declaration.unplaced = (s'.find? name').map Declaration.unplaced := by
  rw [← Session.find?_unplaced, ← Session.find?_unplaced, h, hname]

theorem map_name_unplaced (ds : List Declaration) :
    (ds.map Declaration.unplaced).map (·.name) = ds.map (·.name) := by
  rw [List.map_map]
  rfl

end Sessions

namespace Interpret

variable {α β : Type}

/-- What came of a step, without places. -/
def unplaced : EStateM.Result (Failure ScriptError) Session α →
    EStateM.Result (Failure ScriptError) Session α
  | .ok a s => .ok a s.unplaced
  | .error f s => .error (f.map ScriptError.unplaced) s.unplaced

/-- Two steps of a script do the same apart from places. -/
def Alike (act act' : Interpret α) : Prop :=
  ∀ s s' : Session, s.unplaced = s'.unplaced → unplaced (act s) = unplaced (act' s')

theorem alike_pure (a : α) : Alike (pure a) (pure a) := by
  intro s s' h
  exact congrArg (EStateM.Result.ok a) h

theorem alike_refuse {e e' : ScriptError} (he : e.unplaced = e'.unplaced) :
    Alike (throw (.refused e) : Interpret α) (throw (.refused e')) := by
  intro s s' h
  exact congrArg₂ EStateM.Result.error (congrArg Failure.refused he) h

theorem alike_modify {g g' : Session → Session}
    (hg : ∀ s s' : Session, s.unplaced = s'.unplaced → (g s).unplaced = (g' s').unplaced) :
    Alike (modify g) (modify g') := by
  intro s s' h
  exact congrArg (EStateM.Result.ok PUnit.unit) (hg s s' h)

/-- Steps that look at the session do the same if they do so in all sessions that look the same. -/
theorem alike_get {next next' : Session → Interpret α}
    (hnext : ∀ s s' : Session, s.unplaced = s'.unplaced → Alike (next s) (next' s')) :
    Alike (get >>= next) (get >>= next') := by
  intro s s' h
  exact hnext s s' h s s' h

theorem alike_bind {act act' : Interpret α} {next next' : α → Interpret β} (hact : Alike act act')
    (hnext : ∀ a, Alike (next a) (next' a)) : Alike (act >>= next) (act' >>= next') := by
  intro s s' h
  have hs := hact s s' h
  show unplaced (EStateM.bind act next s) = unplaced (EStateM.bind act' next' s')
  rw [EStateM.bind, EStateM.bind]
  revert hs
  cases act s <;> cases act' s' <;> intro hs
  case ok.ok a t a' t' =>
    injection hs with ha ht
    subst ha
    exact hnext a t t' ht
  case error.error =>
    injection hs with hf ht
    exact congrArg₂ EStateM.Result.error hf ht
  all_goals cases hs

theorem alike_onNetwork (span span' : Span) (act : Solve α) :
    Alike (onNetwork span act) (onNetwork span' act) := by
  intro s s' h
  obtain ⟨hnet, hnames, hlines⟩ := Session.unplaced_inj.1 h
  rw [onNetwork, onNetwork, hnet]
  cases act s'.network with
  | ok a net => exact congrArg (EStateM.Result.ok a) (Session.unplaced_inj.2 ⟨rfl, hnames, hlines⟩)
  | error f net =>
    have hf : (f.map (ScriptError.solver · span)).map ScriptError.unplaced =
        (f.map (ScriptError.solver · span')).map ScriptError.unplaced := by
      cases f <;> rfl
    exact congrArg₂ EStateM.Result.error hf (Session.unplaced_inj.2 ⟨rfl, hnames, hlines⟩)

end Interpret

section Statements

open Interpret

variable {n n' : Name}

theorem alike_printLine (line : String) : Alike (printLine line) (printLine line) := by
  refine alike_modify fun s s' h => ?_
  obtain ⟨hnet, hnames, hlines⟩ := Session.unplaced_inj.1 h
  exact Session.unplaced_inj.2 ⟨hnet, hnames, by rw [hlines]⟩

/-- The same variable is found, or none for the same reason. -/
theorem alike_resolve (hn : n.item = n'.item) : Alike (resolve n) (resolve n') := by
  refine alike_get fun s s' h => ?_
  have hfind := map_unplaced_find? h hn
  have hnames : s.names.map (·.name) = s'.names.map (·.name) := by
    rw [← map_name_unplaced, (Session.unplaced_inj.1 h).2.1, map_name_unplaced]
  revert hfind
  cases s.find? n.item <;> cases s'.find? n'.item <;> intro hfind
  case some.some d d' =>
    have hid : d.id = d'.id := (Declaration.unplaced_inj.1 (Option.some.inj hfind)).2
    show Alike (pure d.id) (pure d'.id)
    rw [hid]
    exact alike_pure d'.id
  case none.none =>
    refine alike_refuse ?_
    rw [ScriptError.unplaced, ScriptError.unplaced, Located.unplaced_inj.2 hn, hnames, hn]
  all_goals cases hfind

theorem alike_declare (hn : n.item = n'.item) (x : Float) : Alike (declare n x) (declare n' x) := by
  refine alike_get fun s s' h => ?_
  have hfind := map_unplaced_find? h hn
  revert hfind
  cases s.find? n.item <;> cases s'.find? n'.item <;> intro hfind
  case some.some =>
    refine alike_refuse ?_
    rw [ScriptError.unplaced, ScriptError.unplaced, Located.unplaced_inj.2 hn]
  case none.none =>
    rw [hn]
    refine alike_bind (alike_onNetwork _ _ _) fun v => alike_modify fun t t' ht => ?_
    obtain ⟨hnet, hnames, hlines⟩ := Session.unplaced_inj.1 ht
    refine Session.unplaced_inj.2 ⟨hnet, ?_, hlines⟩
    rw [List.map_append, List.map_append, hnames]
    rfl
  all_goals cases hfind

theorem alike_constrain (span span' : Span) (kind : Kind) (strength : Strength) :
    Alike (constrain span kind strength) (constrain span' kind strength) :=
  alike_bind (alike_onNetwork span span' _) fun _ => alike_pure ()

/-- The value is the expected one, or it is another one. -/
theorem alike_check (hn : n.item = n'.item) (span span' : Span) (expected actual : Float) :
    Alike
      (if closeTo actual expected then pure ()
        else throw (.refused (.unexpectedValue n.item expected actual span)))
      (if closeTo actual expected then pure ()
        else throw (.refused (.unexpectedValue n'.item expected actual span'))) := by
  split
  · exact alike_pure ()
  · refine alike_refuse ?_
    rw [ScriptError.unplaced, ScriptError.unplaced, hn]

/-- Statements that are the same apart from places do the same apart from places. -/
theorem alike_execute (settings : ScriptSettings) {st st' : Located Statement}
    (h : st.item.unplaced = st'.item.unplaced) :
    Alike (execute settings st) (execute settings st') := by
  obtain ⟨stmt, span⟩ := st
  obtain ⟨stmt', span'⟩ := st'
  cases stmt <;> cases stmt' <;>
    simp only [Statement.unplaced, reduceCtorEq, Statement.declare.injEq, Statement.stay.injEq,
      Statement.edit.injEq, Statement.equal.injEq, Statement.scale.injEq, Statement.change.injEq,
      Statement.expect.injEq, Statement.print.injEq, Located.unplaced_inj] at h
  case declare.declare =>
    obtain ⟨hn, rfl⟩ := h
    exact alike_declare hn _
  case stay.stay =>
    obtain ⟨hn, rfl⟩ := h
    exact alike_bind (alike_resolve hn) fun v => alike_constrain span span' _ _
  case edit.edit =>
    obtain ⟨hn, rfl⟩ := h
    exact alike_bind (alike_resolve hn) fun v => alike_constrain span span' _ _
  case equal.equal =>
    obtain ⟨hl, hr, rfl⟩ := h
    exact alike_bind (alike_resolve hl) fun a => alike_bind (alike_resolve hr) fun b =>
      alike_constrain span span' _ _
  case scale.scale =>
    obtain ⟨ha, hf, ho, hb, rfl⟩ := h
    exact alike_bind (alike_resolve ha) fun a => alike_bind (alike_resolve hf) fun f =>
      alike_bind (alike_resolve ho) fun o => alike_bind (alike_resolve hb) fun b =>
        alike_constrain span span' _ _
  case change.change =>
    obtain ⟨hn, rfl⟩ := h
    refine alike_bind (alike_resolve hn) fun v => alike_bind (alike_onNetwork span span' _) fun _ => ?_
    rw [hn]
    exact alike_printLine _
  case expect.expect =>
    obtain ⟨hn, rfl⟩ := h
    exact alike_bind (alike_resolve hn) fun v => alike_bind (alike_onNetwork span span' _)
      fun actual => alike_check hn span span' _ actual
  case print.print =>
    refine alike_bind (alike_resolve h) fun v => alike_bind (alike_onNetwork span span' _) fun x => ?_
    rw [h]
    exact alike_printLine _

theorem alike_executeAll (settings : ScriptSettings) {ss ss' : List (Located Statement)}
    (h : ss.map (·.item.unplaced) = ss'.map (·.item.unplaced)) :
    Alike (executeAll settings ss) (executeAll settings ss') := by
  induction ss generalizing ss' with
  | nil =>
    rw [List.map_eq_nil_iff.1 h.symm]
    exact alike_pure ()
  | cons st ss ih =>
    cases ss' with
    | nil => cases h
    | cons st' ss' =>
      obtain ⟨hst, hss⟩ := List.cons.inj h
      exact alike_bind (alike_execute settings hst) fun _ => ih hss

/-- Scripts of the same tokens print the same and fail for the same reasons. -/
theorem sameOutcome_of_items (settings : ScriptSettings) (patience : Nat) {source source' : String}
    (heq : (tokens source').map (·.item) = (tokens source).map (·.item)) :
    SameOutcome (run settings source patience).result (run settings source' patience).result := by
  rcases parse_of_items heq with ⟨ss, ss', hp, hp', hss⟩ | ⟨e, e', hp, hp'⟩
  · have halike := alike_executeAll settings hss.symm (.empty patience) (.empty patience) rfl
    rw [run, run, hp, hp']
    dsimp only
    revert halike
    cases executeAll settings ss (.empty patience) <;>
      cases executeAll settings ss' (.empty patience) <;> intro halike
    case ok.ok u t u' t' =>
      injection halike with _ ht
      dsimp only
      rw [(Session.unplaced_inj.1 ht).2.2]
      exact .printed _
    case error.error f t f' t' =>
      injection halike with hf _
      cases f <;> cases f' <;> injection hf
      next he => exact .stopped he
      · exact .outOfRange
      · exact .endless
    all_goals cases halike
  · rw [run, run, hp, hp']
    exact .unparsed e e'

end Statements

end Script

end ConstraintHierarchy
