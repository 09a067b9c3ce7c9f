import Mathlib.Data.List.Forall2
import ConstraintHierarchy.Proofs.Sessions

/-!
# What statements do

A statement resolves the names it mentions, from left to right, before it touches anything. So whatever
a session refuses for the sake of a name, or of an expected value, leaves no trace; what the solver
refuses leaves its trace in the network only. Lines are printed by two kinds of statements, and only
when they are carried out, so that the transcript of a run tells of each of them once.

## Main definitions

* `Effect`: everything that can come of a statement
* `Statement.onlyReads`, `Statement.reports`: the statements that look, and those that print
* `Shows`: the line that a statement prints in a session
* `reporting`: the statements of a run that print, each with the session that it finds

## Main results

* `effect_execute`: nothing else comes of a statement
* `transcript_executeAll`: the lines that a run adds
* `statements_leave_intact`: what failed statements and statements that only read leave as it was, and
  what a run prints
-/

namespace ConstraintHierarchy.Script

/-- The statement looks at the network and does nothing to it. -/
def Statement.onlyReads : Statement → Bool
  | expect _ _ => true
  | print _ => true
  | _ => false

/-- The statement prints a line. -/
def Statement.reports : Statement → Bool
  | change _ _ => true
  | print _ => true
  | _ => false

/-- The line that a statement prints in a session: the value of a variable there, or the change that was
asked for. -/
inductive Shows (s : Session) : Statement → String → Prop
  | print {n : Name} {v : VariableId} {x : Variable} (hv : s.lookup? n.item = some v)
    (hx : s.network.getVariable? v = some x) :
    Shows s (.print n) (n.item ++ " = " ++ Decimal.plain.write x.value)
  | change (n : Name) (x : Float) :
    Shows s (.change n x) ("change " ++ n.item ++ " = " ++ Decimal.plain.write x)

/-- The sessions that statements find, and the one after the last of them. -/
def Session.visited (settings : ScriptSettings) (s : Session) (ss : List (Located Statement)) :
    List Session :=
  ss.scanl (fun s st => s.after settings st) s

/-- The statements that print, each with the session that it finds. -/
def reporting (settings : ScriptSettings) (s : Session) (ss : List (Located Statement)) :
    List (Located Statement × Session) :=
  (ss.zip (s.visited settings ss)).filter (·.1.item.reports)

/-- Everything that can come of the statement `st` in the session `s`. -/
inductive Effect (s : Session) (st : Located Statement) :
    EStateM.Result (Failure ScriptError) Session Unit → Prop
  | undeclared {n : Name} {suggestions : List String} (hn : n ∈ st.item.names)
    (hfree : s.find? n.item = none) : Effect s st (.error (.refused (.undefined n suggestions)) s)
  | redeclared {n : Name} {x : Float} {d : Declaration} (hst : st.item = .declare n x)
    (hd : s.find? n.item = some d) : Effect s st (.error (.refused (.redefined n d.span)) s)
  | declared {n : Name} {x : Float} {v : VariableId} {net : Network} (hst : st.item = .declare n x)
    (hfree : s.find? n.item = none) :
    Effect s st (.ok () ⟨net, s.names ++ [⟨n.item, v, n.span⟩], s.transcript⟩)
  | constrained {strength : Strength} {net : Network} (hst : st.item.strength? = some strength) :
    Effect s st (.ok () { s with network := net })
  | changed {n : Name} {x : Float} {net : Network} {line : String} (hst : st.item = .change n x)
    (hline : Shows s st.item line) :
    Effect s st (.ok () ⟨net, s.names, s.transcript.push line⟩)
  | unsolved {e : SolveError} {net : Network} (hst : st.item.onlyReads = false) :
    Effect s st (.error (.refused (.solver e st.span)) { s with network := net })
  | broken {f : Failure ScriptError} {net : Network} (hst : st.item.onlyReads = false)
    (hf : ∀ e, f ≠ .refused e) : Effect s st (.error f { s with network := net })
  | met {n : Name} {x : Float} (hst : st.item = .expect n x) : Effect s st (.ok () s)
  | unmet {n : Name} {x actual : Float} (hst : st.item = .expect n x) :
    Effect s st (.error (.refused (.unexpectedValue n.item x actual st.span)) s)
  | printed {n : Name} {line : String} (hst : st.item = .print n) (hline : Shows s st.item line) :
    Effect s st (.ok () { s with transcript := s.transcript.push line })
  | lost (hst : st.item.onlyReads = true) : Effect s st (.error .outOfRange s)

/-! ## One statement -/

/-- A statement with a strength neither only reads nor prints. -/
theorem Statement.of_strength? {st : Statement} {strength : Strength}
    (h : st.strength? = some strength) : st.onlyReads = false ∧ st.reports = false := by
  cases st with
  | stay => exact ⟨rfl, rfl⟩
  | edit => exact ⟨rfl, rfl⟩
  | equal => exact ⟨rfl, rfl⟩
  | scale => exact ⟨rfl, rfl⟩
  | _ => cases h

section Statements

variable {α β : Type} {s s' : Session} {st : Located Statement}

theorem onNetwork_bind (span : Span) (act : Solve α) (next : α → Interpret β) (s : Session) :
    (onNetwork span act >>= next) s =
      match act s.network with
      | .ok a net => next a { s with network := net }
      | .error f net => .error (f.map (.solver · span)) { s with network := net } := by
  show EStateM.bind (onNetwork span act) next s = _
  rw [EStateM.bind, onNetwork]
  cases act s.network <;> rfl

theorem currentValue_bind (span : Span) (v : VariableId) (next : Float → Interpret β) (s : Session) :
    (currentValue span v >>= next) s =
      match s.network.getVariable? v with
      | some x => next x.value s
      | none => .error .outOfRange s := by
  have hread : Solve.readValue v s.network =
      match s.network.getVariable? v with
      | some x => .ok x.value s.network
      | none => .error .outOfRange s.network := by
    show EStateM.bind (Solve.readVariable v) (fun x => pure x.value) s.network = _
    have hvar : Solve.readVariable v s.network =
        (match s.network.getVariable? v with
        | some x => pure x
        | none => throw .outOfRange : Solve Variable) s.network := rfl
    rw [EStateM.bind, hvar]
    cases s.network.getVariable? v <;> rfl
  rw [currentValue, onNetwork_bind, hread]
  cases s.network.getVariable? v <;> rfl

theorem effect_resolve {n : Name} {next : VariableId → Interpret Unit} (hn : n ∈ st.item.names)
    (hnext : ∀ v, s.lookup? n.item = some v → Effect s st (next v s)) :
    Effect s st ((resolve n >>= next) s) := by
  show Effect s st (EStateM.bind (resolve n) next s)
  rw [EStateM.bind, resolve_eq]
  cases hfind : s.find? n.item with
  | none => exact .undeclared hn hfind
  | some d => exact hnext d.id (by rw [Session.lookup?, hfind]; rfl)

theorem effect_onNetwork {act : Solve α} {next : α → Interpret Unit} (hst : st.item.onlyReads = false)
    (hnext : ∀ a net, Effect s st (next a { s with network := net })) :
    Effect s st ((onNetwork st.span act >>= next) s) := by
  rw [onNetwork_bind]
  cases act s.network with
  | ok a net => exact hnext a net
  | error f net =>
    cases f with
    | refused e => exact .unsolved hst
    | outOfRange => exact .broken hst nofun
    | endless => exact .broken hst nofun

theorem effect_constrain {kind : Kind} {strength : Strength}
    (hst : st.item.strength? = some strength) :
    Effect s st (constrain st.span kind strength s) :=
  effect_onNetwork (Statement.of_strength? hst).1 fun _ _ => .constrained hst

/-- Nothing but the listed effects comes of a statement. -/
theorem effect_execute (settings : ScriptSettings) (st : Located Statement) (s : Session) :
    Effect s st (execute settings st s) := by
  obtain ⟨stmt, span⟩ := st
  cases stmt with
  | declare n x =>
    show Effect s _ (declare n x s)
    rw [declare_eq]
    cases hfind : s.find? n.item with
    | none => exact .declared rfl hfind
    | some d => exact .redeclared rfl hfind
  | stay n strength => exact effect_resolve (by simp [Statement.names]) fun _ _ => effect_constrain rfl
  | edit n strength => exact effect_resolve (by simp [Statement.names]) fun _ _ => effect_constrain rfl
  | equal l r strength =>
    exact effect_resolve (by simp [Statement.names]) fun _ _ =>
      effect_resolve (by simp [Statement.names]) fun _ _ => effect_constrain rfl
  | scale a f o b strength =>
    exact effect_resolve (by simp [Statement.names]) fun _ _ =>
      effect_resolve (by simp [Statement.names]) fun _ _ =>
        effect_resolve (by simp [Statement.names]) fun _ _ =>
          effect_resolve (by simp [Statement.names]) fun _ _ => effect_constrain rfl
  | change n x =>
    exact effect_resolve (by simp [Statement.names]) fun _ _ =>
      effect_onNetwork rfl fun _ _ => .changed rfl (.change n x)
  | expect n x =>
    refine effect_resolve (by simp [Statement.names]) fun v hv => ?_
    rw [currentValue_bind]
    cases s.network.getVariable? v with
    | none => exact .lost rfl
    | some y =>
      dsimp only
      split
      · exact .met rfl
      · exact .unmet rfl
  | print n =>
    refine effect_resolve (by simp [Statement.names]) fun v hv => ?_
    rw [currentValue_bind]
    cases hx : s.network.getVariable? v with
    | none => exact .lost rfl
    | some y => exact .printed rfl (.print hv hx)

/-- A failure keeps names and lines, and a refusal that does not come from the solver keeps everything. -/
theorem Effect.of_error {f : Failure ScriptError} (h : Effect s st (.error f s')) :
    s'.names = s.names ∧ s'.transcript = s.transcript ∧
      ∀ e, f = .refused e → (∀ cause span, e ≠ .solver cause span) → s' = s := by
  cases h with
  | undeclared => exact ⟨rfl, rfl, fun _ _ _ => rfl⟩
  | redeclared => exact ⟨rfl, rfl, fun _ _ _ => rfl⟩
  | unmet => exact ⟨rfl, rfl, fun _ _ _ => rfl⟩
  | unsolved =>
    refine ⟨rfl, rfl, ?_⟩
    rintro _ ⟨⟩ hsolver
    exact absurd rfl (hsolver _ _)
  | broken _ hf => exact ⟨rfl, rfl, fun e he => absurd he (hf e)⟩
  | lost => exact ⟨rfl, rfl, fun _ _ _ => rfl⟩

theorem network_after (settings : ScriptSettings) (hst : st.item.onlyReads = true) :
    (s.after settings st).network = s.network := by
  have heffect := effect_execute settings st s
  unfold Session.after
  generalize execute settings st s = r at heffect
  cases heffect with
  | declared h _ =>
    rw [h] at hst
    cases hst
  | constrained h =>
    rw [(Statement.of_strength? h).1] at hst
    cases hst
  | changed h _ =>
    rw [h] at hst
    cases hst
  | unsolved h =>
    rw [h] at hst
    cases hst
  | broken h _ =>
    rw [h] at hst
    cases hst
  | _ => rfl

/-- A statement that is carried out adds the line that it shows, if it is one that prints. -/
theorem Effect.transcript_of_ok (h : Effect s st (.ok () s')) :
    (st.item.reports = true ∧ ∃ line, Shows s st.item line ∧
      s'.transcript = s.transcript.push line) ∨
    (st.item.reports = false ∧ s'.transcript = s.transcript) := by
  cases h with
  | declared hst _ => exact .inr ⟨by rw [hst]; rfl, rfl⟩
  | constrained hst => exact .inr ⟨(Statement.of_strength? hst).2, rfl⟩
  | changed hst hline => exact .inl ⟨by rw [hst]; rfl, _, hline, rfl⟩
  | met hst => exact .inr ⟨by rw [hst]; rfl, rfl⟩
  | printed hst hline => exact .inl ⟨by rw [hst]; rfl, _, hline, rfl⟩

end Statements

/-! ## Runs -/

section Runs

variable {settings : ScriptSettings} {s s' : Session} {st : Located Statement}
  {ss : List (Located Statement)}

theorem reporting_cons : reporting settings s (st :: ss) =
    if st.item.reports then (st, s) :: reporting settings (s.after settings st) ss
    else reporting settings (s.after settings st) ss := by
  rw [reporting, Session.visited, List.scanl_cons, List.zip_cons_cons, List.filter_cons]
  rfl

theorem executeAll_cons_ok : executeAll settings (st :: ss) s = .ok () s' ↔
    execute settings st s = .ok () (s.after settings st) ∧
      executeAll settings ss (s.after settings st) = .ok () s' := by
  show EStateM.bind (execute settings st) (fun _ => executeAll settings ss) s = .ok () s' ↔ _
  rw [EStateM.bind, Session.after]
  cases execute settings st s <;> simp

/-- A run adds one line for each statement that prints, in their order. -/
theorem transcript_executeAll (h : executeAll settings ss s = .ok () s') :
    ∃ lines, s'.transcript.toList = s.transcript.toList ++ lines ∧
      List.Forall₂ (fun p line => Shows p.2 p.1.item line) (reporting settings s ss) lines := by
  induction ss generalizing s with
  | nil =>
    cases h
    exact ⟨[], (List.append_nil _).symm, .nil⟩
  | cons st ss ih =>
    obtain ⟨hst, hss⟩ := executeAll_cons_ok.1 h
    have heffect := effect_execute settings st s
    rw [hst] at heffect
    obtain ⟨lines, hlines, hshown⟩ := ih hss
    rw [reporting_cons]
    rcases heffect.transcript_of_ok with ⟨hreports, line, hline, hpush⟩ | ⟨hreports, hsame⟩
    · refine ⟨line :: lines, ?_, ?_⟩
      · rw [hlines, hpush, Array.toList_push, List.append_assoc]
        rfl
      · rw [if_pos hreports]
        exact .cons hline hshown
    · refine ⟨lines, by rw [hlines, hsame], ?_⟩
      rw [if_neg (by simp [hreports])]
      exact hshown

end Runs

/-- A statement that fails leaves the names and the lines of a session as they were, and if it is refused
for a name or an expected value also the network. A statement that only reads never changes the network.
A run that succeeds adds one line for each statement that prints, in their order, and a printed value is
the one in the session that its statement finds; so do the statements of a script. -/
theorem statements_leave_intact (settings : ScriptSettings) :
    (∀ s st f s', execute settings st s = .error f s' →
      s'.names = s.names ∧ s'.transcript = s.transcript ∧
        ∀ e, f = .refused e → (∀ cause span, e ≠ .solver cause span) → s' = s) ∧
    (∀ (s : Session) (st : Located Statement), st.item.onlyReads = true →
      (s.after settings st).network = s.network) ∧
    (∀ s ss s', executeAll settings ss s = .ok () s' →
      ∃ lines, s'.transcript.toList = s.transcript.toList ++ lines ∧
        List.Forall₂ (fun p line => Shows p.2 p.1.item line) (reporting settings s ss) lines) ∧
    ∀ source patience lines, (run settings source patience).result = .ok lines →
      ∃ ss, parse source = .ok ss ∧ List.Forall₂ (fun p line => Shows p.2 p.1.item line)
        (reporting settings (.empty patience) ss) lines := by
  refine ⟨fun s st f s' h => ?_, fun s st => network_after settings, fun s ss s' h =>
    transcript_executeAll h, fun source patience lines h => ?_⟩
  · have heffect := effect_execute settings st s
    rw [h] at heffect
    exact heffect.of_error
  · rw [run] at h
    cases hparse : parse source with
    | error e =>
      rw [hparse] at h
      cases h
    | ok ss =>
      rw [hparse] at h
      dsimp only at h
      cases hrun : executeAll settings ss (.empty patience) with
      | error f s' =>
        rw [hrun] at h
        cases h
      | ok _ s' =>
        rw [hrun] at h
        cases h
        obtain ⟨lines, hlines, hshown⟩ := transcript_executeAll hrun
        rw [hlines]
        exact ⟨ss, rfl, hshown⟩

def changingScript : String :=
  "var a = 1 var b = 0 stay a normal equal a b required print b change a = 4 print b"

/-- A value is printed before a change and after it. -/
theorem statements_leave_intact_changingScript :
    ∃ ss, parse changingScript = .ok ss ∧
      List.Forall₂ (fun p line => Shows p.2 p.1.item line) (reporting {} .empty ss)
        ["b = 1", "change a = 4", "b = 4"] := by
  refine (statements_leave_intact {}).2.2.2 _ _ _ ?_
  have hrun : (match (run {} changingScript).result with
      | .ok lines => decide (lines = ["b = 1", "change a = 4", "b = 4"])
      | .error _ => false) = true := by
    decide +kernel
  split at hrun
  next lines hlines => rw [hlines, of_decide_eq_true hrun]
  next => cases hrun

end ConstraintHierarchy.Script
