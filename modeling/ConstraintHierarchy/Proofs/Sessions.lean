import ConstraintHierarchy.Proofs.Faults
import ConstraintHierarchy.Script.Session

/-!
# Sessions

Statements refer to variables by name only. As long as the names of a session are exactly those of the
variables of its network, whatever a name stands for exists, and a statement can fail only for what the
script says: for a name that is not declared, or declared twice, for a value that is not the expected
one, and for what the solver refuses on account of the constraints. Every statement leaves the names
like that, also one that fails, so a session can go on with the next one.

A script that is run stops at the first failure. Up to there no dataflow is cyclic, and so it ends.

## Main definitions

* `Session.Reached`: the sessions that statements lead to, whatever comes of them
* `Session.Named`: the names of the session are those of the variables
* `ScriptError.Expected`: an error that is due to the script
* `Interpret.Faultless`: a step of a script keeps the names and fails only with such an error

## Main results

* `faultless_execute`: every statement does so
* `sessions_faultless`: the names of all sessions, the errors of all statements, and the end of every
  run
-/

namespace ConstraintHierarchy.Script

open Solve hiding Faultless
open Network

/-- The session that a statement leaves, whatever comes of it. -/
def Session.after (s : Session) (settings : ScriptSettings) (st : Located Statement) : Session :=
  match execute settings st s with
  | .ok _ s' => s'
  | .error _ s' => s'

/-- The sessions that statements lead to from an empty one, whatever its patience. -/
inductive Session.Reached : Session → Prop
  | empty {patience : Nat} : Reached (.empty patience)
  | step {s : Session} (h : Reached s) (settings : ScriptSettings) (st : Located Statement) :
    Reached (s.after settings st)

/-- The names of the session are those of the variables of its network, in order and without
repetition. -/
structure Session.Named (s : Session) : Prop where
  coherent : s.network.Coherent
  nodup : (s.names.map (·.name)).Nodup
  ids : s.names.map (·.id) = (List.range s.network.vars.size).map VariableId.mk
  name : ∀ d ∈ s.names, (s.network.var d.id).name = d.name

/-- The errors that are due to the script: to its names, to the values it expects and to what its
constraints say. -/
def ScriptError.Expected : ScriptError → Prop
  | undefined _ _ => True
  | redefined _ _ => True
  | unexpectedValue _ _ _ _ => True
  | solver e _ => e.OnSolving

/-- The failures that are due to the script. -/
def Expected : Failure ScriptError → Prop
  | .refused e => e.Expected
  | .outOfRange => False
  | .endless => True

/-! ## Names -/

namespace Session.Named

variable {s : Session} {name : String} {v : VariableId} {d : Declaration}

theorem empty {patience : Nat} : (Session.empty patience).Named where
  coherent := coherent_empty
  nodup := List.nodup_nil
  ids := rfl
  name _ hd := absurd hd List.not_mem_nil

theorem known (h : s.Named) (hd : d ∈ s.names) : d.id.index < s.network.vars.size := by
  have hmem : d.id ∈ s.names.map (·.id) := List.mem_map_of_mem hd
  rw [h.ids] at hmem
  obtain ⟨i, hi, heq⟩ := List.mem_map.1 hmem
  rw [← heq]
  exact List.mem_range.1 hi

theorem exists_declaration (h : s.Named) (hv : v.index < s.network.vars.size) :
    ∃ d ∈ s.names, d.id = v := by
  have hmem : v ∈ s.names.map (·.id) := by
    rw [h.ids]
    exact List.mem_map.2 ⟨v.index, List.mem_range.2 hv, rfl⟩
  exact List.mem_map.1 hmem

/-- A name stands for the variable that it was declared for. -/
theorem find?_eq_some (h : s.Named) : s.find? name = some d ↔ d ∈ s.names ∧ d.name = name := by
  constructor
  · intro hfind
    exact ⟨List.mem_of_find?_eq_some hfind, by simpa using List.find?_some hfind⟩
  · rintro ⟨hd, rfl⟩
    cases hfind : s.find? d.name with
    | none => exact absurd (beq_self_eq_true d.name) (List.find?_eq_none.1 hfind d hd)
    | some d' =>
      have hd' : d' ∈ s.names := List.mem_of_find?_eq_some hfind
      have hname : d'.name = d.name := by simpa using List.find?_some hfind
      rw [List.inj_on_of_nodup_map h.nodup hd' hd hname]

/-- The names stand for the variables, each for the one that has it. -/
theorem lookup?_eq_some (h : s.Named) : s.lookup? name = some v ↔
    ∃ x, s.network.getVariable? v = some x ∧ x.name = name := by
  rw [Session.lookup?, Option.map_eq_some_iff]
  constructor
  · rintro ⟨d, hfind, rfl⟩
    obtain ⟨hd, rfl⟩ := h.find?_eq_some.1 hfind
    exact ⟨_, getVariable?_eq_var (h.known hd), h.name d hd⟩
  · rintro ⟨x, hx, rfl⟩
    obtain ⟨hv, rfl⟩ := getVariable?_eq_some.1 hx
    obtain ⟨d, hd, rfl⟩ := h.exists_declaration hv
    exact ⟨d, h.find?_eq_some.2 ⟨hd, (h.name d hd).symm⟩, rfl⟩

/-- The names stay as they are if the variables do. -/
theorem of_sameNames (h : s.Named) {net : Network} (hnet : SameNames s.network net)
    (lines : Array String) : Session.Named ⟨net, s.names, lines⟩ where
  coherent := hnet.coherent
  nodup := h.nodup
  ids := by rw [h.ids, ← hnet.variableCount]
  name d hd := (hnet.name d.id).trans (h.name d hd)

/-- A new variable with a name that is still free. -/
theorem declare (h : s.Named) (hname : s.find? name = none) {x : Float} {span : Span}
    (journal : Array Event) (lines : Array String) :
    Session.Named ⟨{ s.network.withVariable name x with journal := journal },
      s.names ++ [⟨name, ⟨s.network.vars.size⟩, span⟩], lines⟩ where
  coherent := h.coherent.withVariable.of_sameGraph (sameGraph_of_eq rfl rfl)
  nodup := by
    have hfree : name ∉ s.names.map (·.name) := by
      intro hmem
      obtain ⟨d, hd, rfl⟩ := List.mem_map.1 hmem
      rw [h.find?_eq_some.2 ⟨hd, rfl⟩] at hname
      cases hname
    rw [List.map_append]
    exact h.nodup.append (List.nodup_singleton name) (by simpa using hfree)
  ids := by
    rw [List.map_append, h.ids, withVariable_size, List.range_succ, List.map_append]
    rfl
  name d hd := by
    show ((s.network.withVariable name x).var d.id).name = d.name
    rcases List.mem_append.1 hd with hd | hd
    · have hne : d.id ≠ ⟨s.network.vars.size⟩ := by
        intro heq
        have hlt := h.known hd
        rw [heq] at hlt
        exact Nat.lt_irrefl _ hlt
      rw [withVariable_var_of_ne hne]
      exact h.name d hd
    · rw [List.mem_singleton.1 hd, withVariable_var_new]

end Session.Named

/-! ## Steps -/

namespace Interpret

variable {α β : Type} {s : Session}

/-- After the step the names are in order. It fails in a way that is due to the script, and without end
only if there is a cycle in the dataflow already; otherwise none is there afterwards. -/
def Faultless (act : Interpret α) (s : Session) : Prop :=
  match act s with
  | .ok _ s' => s'.Named ∧ (s.network.Ordered → s'.network.Ordered)
  | .error f s' => s'.Named ∧ Expected f ∧ (s.network.Ordered → f ≠ .endless)

theorem faultless_pure (h : s.Named) (a : α) : Faultless (pure a) s := ⟨h, fun ho => ho⟩

theorem faultless_refuse (h : s.Named) {e : ScriptError} (he : e.Expected) :
    Faultless (throw (.refused e) : Interpret α) s :=
  ⟨h, he, fun _ => nofun⟩

theorem faultless_bind {act : Interpret α} {next : α → Interpret β} (hact : Faultless act s)
    (hnext : ∀ a s', act s = .ok a s' → s'.Named → Faultless (next a) s') :
    Faultless (act >>= next) s := by
  unfold Faultless at hact
  cases hrun : act s with
  | ok a s' =>
    have hbind : (act >>= next) s = next a s' := by
      show EStateM.bind act next s = _
      rw [EStateM.bind, hrun]
    rw [hrun] at hact
    have hrest := hnext a s' hrun hact.1
    unfold Faultless at hrest ⊢
    rw [hbind]
    revert hrest
    cases next a s' with
    | ok b s'' => exact fun hrest => ⟨hrest.1, fun ho => hrest.2 (hact.2 ho)⟩
    | error f s'' => exact fun hrest => ⟨hrest.1, hrest.2.1, fun ho => hrest.2.2 (hact.2 ho)⟩
  | error f s' =>
    have hbind : (act >>= next) s = .error f s' := by
      show EStateM.bind act next s = _
      rw [EStateM.bind, hrun]
    rw [hrun] at hact
    unfold Faultless
    rw [hbind]
    exact hact

/-- What is faultless for the network is so for the session. -/
theorem faultless_onNetwork (h : s.Named) {span : Span} {act : Solve α}
    (hact : act.Faultless s.network) : Faultless (onNetwork span act) s := by
  unfold Solve.Faultless Ends at hact
  unfold Faultless onNetwork
  revert hact
  cases act s.network with
  | ok a net => exact fun hact => ⟨h.of_sameNames hact.1 _, hact.2⟩
  | error f net =>
    rintro ⟨hsame, hf, hendless⟩
    refine ⟨h.of_sameNames hsame _, ?_, ?_⟩
    · cases f with
      | refused e => exact hf
      | outOfRange => exact hf
      | endless => trivial
    · intro ho
      cases f with
      | refused e => exact nofun
      | outOfRange => exact nofun
      | endless => exact absurd rfl (hendless ho)

theorem faultless_printLine (h : s.Named) (line : String) : Faultless (printLine line) s :=
  ⟨h.of_sameNames (.refl h.coherent) _, fun ho => ho⟩

end Interpret

open Interpret

section Statements

variable {α : Type} {s : Session}

theorem resolve_eq (n : Name) (s : Session) : resolve n s =
    match s.find? n.item with
    | some d => .ok d.id s
    | none =>
      .error (.refused (.undefined n (similarNames (s.names.map (·.name)) n.item 2))) s := by
  show (match s.find? n.item with
    | some d => pure d.id
    | none => throw (.refused (.undefined n (similarNames (s.names.map (·.name)) n.item 2))) :
      Interpret VariableId) s = _
  cases s.find? n.item <;> rfl

/-- Whatever a name stands for exists. -/
theorem faultless_resolve (h : s.Named) {n : Name} {next : VariableId → Interpret α}
    (hnext : ∀ v, v.index < s.network.vars.size → Faultless (next v) s) :
    Faultless (resolve n >>= next) s := by
  have hresolve := resolve_eq n s
  cases hfind : s.find? n.item with
  | some d =>
    rw [hfind] at hresolve
    have hknown : d.id.index < s.network.vars.size := h.known (h.find?_eq_some.1 hfind).1
    refine faultless_bind ?_ fun v s' hv _ => ?_
    · rw [Faultless, hresolve]
      exact ⟨h, fun ho => ho⟩
    · rw [hresolve] at hv
      cases hv
      exact hnext d.id hknown
  | none =>
    rw [hfind] at hresolve
    refine faultless_bind ?_ fun v s' hv _ => ?_
    · rw [Faultless, hresolve]
      exact ⟨h, trivial, fun _ => nofun⟩
    · rw [hresolve] at hv
      cases hv

theorem faultless_constrain (h : s.Named) {span : Span} {kind : Kind} {strength : Strength}
    (hk : ∀ v ∈ kind.operands, v.index < s.network.vars.size) :
    Faultless (constrain span kind strength) s :=
  faultless_bind (faultless_onNetwork h (faultless_addConstraint h.coherent hk))
    fun _ _ _ hs' => faultless_pure hs' ()

theorem faultless_currentValue (h : s.Named) {span : Span} {v : VariableId}
    (hv : v.index < s.network.vars.size) : Faultless (currentValue span v) s := by
  refine faultless_onNetwork h ?_
  rw [Solve.Faultless, ends_readValue hv]
  exact ⟨.refl h.coherent, fun ho => ho⟩

theorem declare_eq (n : Name) (x : Float) (s : Session) : declare n x s =
    match s.find? n.item with
    | some d => .error (.refused (.redefined n d.span)) s
    | none =>
      let net := s.network.withVariable n.item x
      .ok () ⟨{ net with journal := net.journal.push (.declaring n.item x) },
        s.names ++ [⟨n.item, ⟨s.network.vars.size⟩, n.span⟩], s.transcript⟩ := by
  show (match s.find? n.item with
    | some d => throw (.refused (.redefined n d.span))
    | none => do
      let v ← onNetwork n.span do
        let v ← Network.addVariable n.item x
        Solve.note (.declaring n.item x)
        pure v
      modify fun s => { s with names := s.names ++ [⟨n.item, v, n.span⟩] } : Interpret Unit) s = _
  cases s.find? n.item <;> rfl

theorem faultless_declare (h : s.Named) (n : Name) (x : Float) : Faultless (declare n x) s := by
  rw [Faultless, declare_eq]
  cases hfind : s.find? n.item with
  | some d => exact ⟨h, trivial, fun _ => nofun⟩
  | none =>
    refine ⟨h.declare hfind _ _, fun ho => ?_⟩
    exact ⟨ho.coherent.withVariable.of_sameGraph (sameGraph_of_eq rfl rfl), ho.acyclic.of_con rfl⟩

/-- Every statement keeps the names in order and fails only in a way that is due to the script. -/
theorem faultless_execute (h : s.Named) (settings : ScriptSettings) (st : Located Statement) :
    Faultless (execute settings st) s := by
  obtain ⟨stmt, span⟩ := st
  cases stmt with
  | declare n x => exact faultless_declare h n x
  | stay n strength =>
    refine faultless_resolve h fun v hv => faultless_constrain h ?_
    simpa [Kind.operands] using hv
  | edit n strength =>
    refine faultless_resolve h fun v hv => faultless_constrain h ?_
    simpa [Kind.operands] using hv
  | equal l r strength =>
    refine faultless_resolve h fun a ha => faultless_resolve h fun b hb => faultless_constrain h ?_
    simpa [Kind.operands] using ⟨ha, hb⟩
  | scale a f o b strength =>
    refine faultless_resolve h fun a ha => faultless_resolve h fun f hf => faultless_resolve h
      fun o ho => faultless_resolve h fun b hb => faultless_constrain h ?_
    simpa [Kind.operands] using ⟨ha, hb, hf, ho⟩
  | change n x =>
    refine faultless_resolve h fun v hv => ?_
    exact faultless_bind (faultless_onNetwork h (faultless_change h.coherent hv))
      fun _ _ _ hs' => faultless_printLine hs' _
  | expect n x =>
    refine faultless_resolve h fun v hv => ?_
    refine faultless_bind (faultless_currentValue h hv) fun actual s' _ hs' => ?_
    split
    · exact faultless_pure hs' ()
    · exact faultless_refuse hs' trivial
  | print n =>
    refine faultless_resolve h fun v hv => ?_
    exact faultless_bind (faultless_currentValue h hv) fun _ _ _ hs' => faultless_printLine hs' _

/-- Without a cycle in the dataflow to begin with, a list of statements comes to an end. -/
theorem executeAll_returns (settings : ScriptSettings) (ss : List (Located Statement)) :
    ∀ {s : Session}, s.Named → s.network.Ordered →
      (∃ s', executeAll settings ss s = .ok () s') ∨
      ∃ e s', executeAll settings ss s = .error (.refused e) s' ∧ e.Expected := by
  induction ss with
  | nil => exact fun _ _ => .inl ⟨_, rfl⟩
  | cons st ss ih =>
    intro s h ho
    have hst := faultless_execute h settings st
    unfold Faultless at hst
    have hexecute : executeAll settings (st :: ss) s =
        EStateM.bind (execute settings st) (fun _ => executeAll settings ss) s := rfl
    rw [hexecute, EStateM.bind]
    revert hst
    cases execute settings st s with
    | ok _ s' => exact fun hst => ih hst.1 (hst.2 ho)
    | error f s' =>
      rintro ⟨-, hf, hendless⟩
      cases f with
      | refused e => exact .inr ⟨e, s', rfl, hf⟩
      | outOfRange => exact hf.elim
      | endless => exact absurd rfl (hendless ho)

end Statements

/-! ## Whole sessions -/

theorem Session.Reached.foldl (settings : ScriptSettings) (sts : List (Located Statement)) :
    ∀ {s : Session}, s.Reached → (sts.foldl (fun s st => s.after settings st) s).Reached := by
  induction sts with
  | nil => exact fun h => h
  | cons st sts ih => exact fun h => ih (h.step settings st)

theorem Session.Reached.named {s : Session} (h : s.Reached) : s.Named := by
  induction h with
  | empty => exact .empty
  | @step s _ settings st ih =>
    have hst := faultless_execute ih settings st
    unfold Interpret.Faultless at hst
    unfold Session.after
    revert hst
    cases execute settings st s with
    | ok _ s' => exact fun hst => hst.1
    | error f s' => exact fun hst => hst.1

/-- In every session that statements lead to, whatever came of them, the declared names and the
variables of the network correspond one to one, in order, and each variable has the name that stands for
it. No statement follows an id that names nothing, and one that is refused is refused for a name, for an
expected value, or because of an unsatisfiable constraint, a cycle or a division by zero. Every script
that is run, which stops at the first refusal, comes to an end. -/
theorem sessions_faultless {s : Session} (h : s.Reached) :
    ((s.names.map (·.name)).Nodup ∧
      s.names.map (·.id) = (List.range s.network.vars.size).map VariableId.mk ∧
      ∀ name v, s.lookup? name = some v ↔
        ∃ x, s.network.getVariable? v = some x ∧ x.name = name) ∧
    (∀ settings st s', execute settings st s ≠ .error .outOfRange s') ∧
    (∀ settings st e s', execute settings st s = .error (.refused e) s' → e.Expected) ∧
    ∀ settings source patience,
      (∃ lines, (run settings source patience).result = .ok lines) ∨
      (∃ e, (run settings source patience).result = .error (.refused (.parse e))) ∨
      ∃ e, (run settings source patience).result = .error (.refused (.script e)) ∧ e.Expected := by
  have hnamed := h.named
  refine ⟨⟨hnamed.nodup, hnamed.ids, fun _ _ => hnamed.lookup?_eq_some⟩, ?_, ?_, ?_⟩
  · intro settings st s' hrun
    have hst := faultless_execute hnamed settings st
    rw [Interpret.Faultless, hrun] at hst
    exact hst.2.1
  · intro settings st e s' hrun
    have hst := faultless_execute hnamed settings st
    rw [Interpret.Faultless, hrun] at hst
    exact hst.2.1
  · intro settings source patience
    rw [run]
    cases parse source with
    | error e => exact .inr (.inl ⟨e, rfl⟩)
    | ok ss =>
      rcases executeAll_returns settings ss .empty ordered_empty with ⟨s', hrun⟩ | ⟨e, s', hrun, he⟩
      · refine .inl ⟨s'.transcript.toList, ?_⟩
        dsimp only
        rw [hrun]
      · refine .inr (.inr ⟨e, ?_, he⟩)
        dsimp only
        rw [hrun]
        rfl

/-- A name declared twice, a name that is not declared, and a constraint that cannot be satisfied. -/
def failingStatements : List (Located Statement) :=
  [Statement.declare ⟨"x", default⟩ 1, .declare ⟨"x", default⟩ 2, .print ⟨"y", default⟩,
    .stay ⟨"x", default⟩ .required, .edit ⟨"x", default⟩ .required,
    .declare ⟨"y", default⟩ 2].map (⟨·, default⟩)

def failingSession : Session := failingStatements.foldl (fun s st => s.after {} st) .empty

theorem sessions_faultless_failingSession :
    failingSession.Reached ∧ failingSession.network.constraints.size = 2 ∧
    failingSession.names.map (·.name) = ["x", "y"] ∧
    (∃ x, failingSession.network.getVariable? ⟨1⟩ = some x ∧ x.name = "y") ∧
    ∀ settings st s', execute settings st failingSession ≠ .error .outOfRange s' := by
  have hreached : failingSession.Reached := .foldl {} failingStatements .empty
  have hfaultless := sessions_faultless hreached
  have hlookup : failingSession.lookup? "y" = some ⟨1⟩ := by decide +kernel
  exact ⟨hreached, by decide +kernel, by decide +kernel, (hfaultless.1.2.2 "y" ⟨1⟩).1 hlookup,
    hfaultless.2.1⟩

end ConstraintHierarchy.Script
