import ConstraintHierarchy.Proofs.Quiet

/-!
# Runs

A run is a sequence of requests to a network that starts out empty. A request is answered, or it is
refused and leaves what it has done so far; the run goes on in either case. Only a division by zero
ends a run, and so does a request that breaks down and does not return.

## Main definitions

* `Request`, `Request.perform`: what can be asked of a network
* `Request.opening`: the first thing a request does to the graph
* `Run`: the networks that runs lead to
* `OperationInvariant`: what adding, satisfying and retracting a constraint have to keep
* `RunInvariant`: the same for runs, in which a half-done operation is the last one

## Main results

* `RunInvariant.holds`: an invariant of the operations holds after every run
-/

namespace ConstraintHierarchy

open Solve Network

/-- What can be asked of a network. -/
inductive Request where
  | addVariable (name : String) (value : Float)
  | valueOf (v : VariableId)
  | assign (v : VariableId) (value : Float)
  | freshMark
  | add (kind : Kind) (strength : Strength)
  | enforce (c : ConstraintId)
  | retract (c : ConstraintId)
  | destroy (c : ConstraintId)
  | change (v : VariableId) (value : Float) (strength : Strength) (iterations : Nat)
  | makePlan (sources : List ConstraintId)
  | extractPlan (cs : List ConstraintId)
  | runPlan (p : Plan)

namespace Request

/-- Carries out a request. The answer is not kept: the next request may be any other. -/
def perform : Request → Solve Unit
  | addVariable name value => discard (Network.addVariable name value)
  | valueOf v => discard (Network.valueOf v)
  | assign v value => Network.assign v value
  | freshMark => discard Solve.freshMark
  | add kind strength => discard (addConstraint kind strength)
  | enforce c => Network.enforce c
  | retract c => Network.retract c
  | destroy c => Network.destroy c
  | change v value strength iterations => Network.change v value strength iterations
  | makePlan sources => discard (Network.makePlan sources)
  | extractPlan cs => discard (Network.extractPlan cs)
  | runPlan p => Network.runPlan p

/-- The network at the moment when a request has added its constraint and not yet looked for a
method; a request that adds none changes nothing up to there. -/
def opening : Request → Solve Unit
  | add kind strength => do
    checkVariables kind.operands
    discard (register kind strength)
  | change v _ strength _ => do
    checkVariables [v]
    discard (register (.edit v) strength)
  | _ => pure ()

/-- The network from which a run goes on after a request; none if the request divides by zero or
does not return. -/
def outcome? (r : Request) (net : Network) : Option Network :=
  match r.perform net with
  | .ok _ net' => some net'
  | .error (.refused (.divisionByZero _)) _ => none
  | .error (.refused _) net' => some net'
  | .error _ _ => none

/-- The network after a list of requests, each of which has to pass a test where it is made. -/
def runAll (test : Network → Request → Bool) (rs : List Request) (net : Network) : Option Network :=
  rs.foldlM (fun net r => if test net r then r.outcome? net else none) net

/-- The test that a request is answered. -/
def answered? (net : Network) (r : Request) : Bool :=
  match r.perform net with
  | .ok _ _ => true
  | .error _ _ => false

theorem of_answered? {net : Network} {r : Request} (h : answered? net r = true) :
    ∃ net', r.perform net = .ok () net' := by
  unfold answered? at h
  split at h
  next hr => exact ⟨_, hr⟩
  next => cases h

end Request

/-- The networks that runs lead to, each request being one that `admits` admits. -/
inductive Run (admits : Network → Request → Prop) : Network → Prop
  | empty {patience : Nat} : Run admits (.empty patience)
  | answered {net net' : Network} {r : Request} (h : Run admits net) (ha : admits net r)
    (hr : r.perform net = .ok () net') : Run admits net'
  | refused {net net' : Network} {r : Request} {e : SolveError} (h : Run admits net)
    (ha : admits net r) (hr : r.perform net = .error (.refused e) net')
    (he : ∀ c, e ≠ .divisionByZero c) : Run admits net'

theorem Run.mono {admits admits' : Network → Request → Prop} {net : Network} (h : Run admits net)
    (himp : ∀ net r, admits net r → admits' net r) : Run admits' net := by
  induction h with
  | empty => exact .empty
  | answered _ ha hr ih => exact ih.answered (himp _ _ ha) hr
  | refused _ ha hr he ih => exact ih.refused (himp _ _ ha) hr he

theorem Run.of_outcome? {admits : Network → Request → Prop} {net net' : Network} {r : Request}
    (h : Run admits net) (ha : admits net r) (hr : r.outcome? net = some net') : Run admits net' := by
  unfold Request.outcome? at hr
  split at hr
  next hok =>
    cases hr
    exact h.answered ha hok
  next => cases hr
  next hne herror =>
    cases hr
    exact h.refused ha herror hne
  next => cases hr

/-- Requests carried out one after the other make a run if the test admits only what is admitted. -/
theorem Run.of_runAll {admits : Network → Request → Prop} {test : Network → Request → Bool}
    (htest : ∀ net r, test net r = true → admits net r) (rs : List Request) :
    ∀ {net net' : Network}, Run admits net → Request.runAll test rs net = some net' →
      Run admits net' := by
  induction rs with
  | nil =>
    intro net net' h hr
    cases hr
    exact h
  | cons r rs ih =>
    intro net net' h hr
    obtain ⟨net₁, hr₁, hrs⟩ := Option.bind_eq_some_iff.1 hr
    dsimp only at hr₁
    split at hr₁
    next ht => exact ih (h.of_outcome? (htest net r ht) hr₁) hrs
    next => cases hr₁

/-! ## Rules for the outer layer of an operation -/

/-- The refusal of an id that names nothing, or nothing in the graph. -/
def SolveError.OnLookup : SolveError → Prop
  | .unknownVariable _ => True
  | .unknownConstraint _ => True
  | .detached _ => True
  | _ => False

section Rules

variable {α : Type} {net : Network} {c : ConstraintId} {P Q : Network → Prop}
  {ok : Unit → Network → Prop} {fail fail' : Failure SolveError → Network → Prop}

theorem ends_discard {act : Solve α} :
    Ends (discard act) net ok fail ↔ Ends act net (fun _ net' => ok () net') fail := by
  unfold Ends
  simp only [discard, Functor.mapConst, EStateM.map, Function.comp_apply]
  cases act net <;> rfl

theorem discard_of_ok {act : Solve α} {a : α} {net' : Network} (h : act net = .ok a net') :
    discard act net = .ok () net' := by
  simp only [discard, Functor.mapConst, EStateM.map, Function.comp_apply, h]

theorem discard_congr {act act' : Solve α} (h : act' net = act net) :
    discard act' net = discard act net := by
  simp only [discard, Functor.mapConst, EStateM.map, Function.comp_apply, h]

theorem ends_nesting {ok : Nat → Network → Prop} :
    Ends nesting net ok fail ↔ ok net.generations net := Iff.rfl

theorem ends_checkAttached (hok : (net.con c).attached = true → ok () net)
    (hfail : (net.con c).attached = false → ∀ e, e.OnLookup → fail (.refused e) net) :
    Ends (checkAttached c) net ok fail := by
  rw [checkAttached, ends_bind, ends_get]
  split
  next hk =>
    refine hfail ?_ _ trivial
    rw [con_of_unknown fun hc => ?_]
    rw [getConstraint?_eq_con hc] at hk
    cases hk
  next k hk =>
    obtain ⟨-, rfl⟩ := getConstraint?_eq_some.1 hk
    split
    next ha => exact hok ha
    next ha => exact hfail (by simpa using ha) _ trivial

theorem ends_checkVariable {v : VariableId} (hok : v.index < net.vars.size → ok () net)
    (hfail : ∀ e, e.OnLookup → fail (.refused e) net) : Ends (checkVariable v) net ok fail := by
  rw [checkVariable, ends_bind, ends_get]
  split
  next x hx => exact hok (getVariable?_eq_some.1 hx).1
  · exact hfail _ trivial

theorem ends_checkVariables (vs : List VariableId)
    (hfail : ∀ e, e.OnLookup → fail (.refused e) net) :
    ∀ {ok : Unit → Network → Prop}, ((∀ v ∈ vs, v.index < net.vars.size) → ok () net) →
      Ends (checkVariables vs) net ok fail := by
  induction vs with
  | nil => exact fun hok => hok (by simp)
  | cons v vs ih =>
    intro ok hok
    rw [checkVariables, ends_bind]
    refine ends_checkVariable (fun hv => ih fun hvs => hok ?_) hfail
    intro w hw
    rcases List.mem_cons.1 hw with rfl | hw
    · exact hv
    · exact hvs w hw

theorem ends_checkVariables_known {vs : List VariableId}
    (h : ∀ v ∈ vs, v.index < net.vars.size) :
    Ends (checkVariables vs) net ok fail ↔ ok () net := by
  induction vs with
  | nil => rfl
  | cons v vs ih =>
    rw [checkVariables, ends_bind, checkVariable, ends_bind, ends_get,
      getVariable?_eq_var (h v (by simp))]
    exact ih fun w hw => h w (List.mem_cons_of_mem v hw)

theorem assign_eq {v : VariableId} {value : Float} (hv : v.index < net.vars.size) :
    assign v value net = .ok () (net.alterVariable v fun x => { x with value := value }) := by
  apply Ends.eq_ok
  rw [assign, ends_bind, checkVariable, ends_bind, ends_get, getVariable?_eq_var hv]
  show Ends (setValue v value) net _ _
  rw [ends_setValue hv]
  exact ⟨rfl, rfl⟩

/-- An addition opens with the registration of its constraint, if it gets that far. -/
theorem opening_add {kind : Kind} {strength : Strength}
    (h : ∀ v ∈ kind.operands, v.index < net.vars.size) :
    (Request.add kind strength).opening net = .ok () (net.registered kind strength) := by
  apply Ends.eq_ok
  rw [Request.opening, ends_bind, ends_checkVariables_known h, ends_discard, ends_register h]
  exact ⟨rfl, rfl⟩

/-- The refusal that takes the constraint out of the graph is the only one that is caught. -/
theorem ends_orDetach {act : Solve Unit} (h : Ends act net ok fail')
    (hother : ∀ e net', fail' e net' → e ≠ .refused (.unsatisfiable c) → fail e net')
    (hcaught : ∀ net', fail' (.refused (.unsatisfiable c)) net' →
      Ends (detach c) net' (fun _ net'' => fail (.refused (.unsatisfiable c)) net'') fail) :
    Ends (orDetach c act) net ok fail := by
  cases hact : act net with
  | ok a net' =>
    have hrun : orDetach c act net = .ok a net' := by rw [orDetach, hact]
    simp only [Ends, hrun]
    exact h.of_ok hact
  | error e net' =>
    have hfail := h.of_error hact
    by_cases he : e = .refused (.unsatisfiable c)
    · subst he
      have hrun : orDetach c act net = (do detach c; refuse (.unsatisfiable c)) net' := by
        rw [orDetach, hact]
        exact if_pos rfl
      simp only [Ends, hrun]
      exact ends_bind.2 (hcaught net' hfail)
    · have hrun : orDetach c act net = .error e net' := by
        rw [orDetach, hact]
        cases e with
        | refused reason =>
          cases reason with
          | unsatisfiable d => exact if_neg fun hd => he (by rw [hd])
          | _ => rfl
        | outOfRange => rfl
        | endless => rfl
      simp only [Ends, hrun]
      exact hother e net' hfail he

theorem orDetach_congr {act act' : Solve Unit} (h : act' net = act net) :
    orDetach c act' net = orDetach c act net := by
  rw [orDetach, orDetach, h]

/-- An action followed by a clean-up in every case: the failure of the action comes first, unless the
clean-up breaks down. -/
theorem ends_always {act cleanup : Solve Unit} {failed : Failure SolveError → Prop}
    (hact : Ends act net (fun _ net' => P net') (fun e net' => failed e ∧ P net'))
    (hclean : ∀ net', P net' → Ends cleanup net' (fun _ net'' => Q net'') fail)
    (hleft : ∀ e net', failed e → (∀ s, e ≠ .refused s) ∧ P net' ∨ Q net' → fail e net')
    (hfirst : ∀ e e' net', failed (.refused e) → fail (.refused e') net' → fail (.refused e) net') :
    Ends (always act cleanup) net (fun _ net' => Q net') fail := by
  unfold Ends always
  cases hrun : act net with
  | ok a net' => exact hclean net' (hact.of_ok hrun)
  | error e net' =>
    obtain ⟨hfailed, hnet'⟩ := hact.of_error hrun
    cases e with
    | refused reason =>
      have hend := hclean net' hnet'
      cases hc : cleanup net' with
      | ok a net'' => simpa only [hc] using hleft _ _ hfailed (.inr (hend.of_ok hc))
      | error e' net'' =>
        have hfail := hend.of_error hc
        cases e' with
        | refused reason' => simpa only [hc] using hfirst _ _ _ hfailed hfail
        | outOfRange => simpa only [hc] using hfail
        | endless => simpa only [hc] using hfail
    | outOfRange => exact hleft _ _ hfailed (.inl ⟨nofun, hnet'⟩)
    | endless => exact hleft _ _ hfailed (.inl ⟨nofun, hnet'⟩)

theorem always_congr {act cleanup cleanup' : Solve Unit}
    (h : Ends act net (fun _ net' => cleanup' net' = cleanup net')
      fun _ net' => cleanup' net' = cleanup net') :
    always act cleanup' net = always act cleanup net := by
  unfold always
  cases hrun : act net with
  | ok a net' => exact h.of_ok hrun
  | error e net' =>
    cases e with
    | refused e => simp only [h.of_error hrun]
    | outOfRange => rfl
    | endless => rfl

end Rules

/-! ## Invariants of the operations -/

/-- A property of networks that adding, satisfying and retracting constraints keep, as long as requests
are admitted. An operation that fails leaves `fail` behind. -/
structure OperationInvariant (admits : Network → Request → Prop) (P : Network → Prop)
    (fail : Failure SolveError → Network → Prop) : Prop where
  coherent : ∀ {net}, P net → net.Coherent
  note : ∀ {net} e, P net → P { net with journal := net.journal.push e }
  refused : ∀ {net} e, P net → fail (.refused e) net
  edit : ∀ {net v value strength n}, admits net (.change v value strength n) →
    admits net (.add (.edit v) strength)
  add : ∀ {net kind strength}, P net → admits net (.add kind strength) →
    (∀ v ∈ kind.operands, v.index < net.vars.size) →
    Ends (orDetach ⟨net.constraints.size⟩
        (establish (net.registered kind strength).generations ⟨net.constraints.size⟩))
      (net.registered kind strength) (fun _ => P) fail
  establish : ∀ {net c}, P net → (net.con c).attached = true → (net.con c).isSatisfied = false →
    Ends (establish net.generations c) net (fun _ => P) fail
  withdraw : ∀ {net c}, P net → (net.con c).isSatisfied = true →
    Ends (withdraw net.generations c) net (fun _ => P) fail
  drop : ∀ {net c}, P net → (net.con c).attached = true → (net.con c).isSatisfied = false →
    P (net.detached c)

namespace OperationInvariant

variable {admits : Network → Request → Prop} {P : Network → Prop}
  {fail : Failure SolveError → Network → Prop} {net : Network} {c : ConstraintId}

theorem ends_addConstraint (inv : OperationInvariant admits P fail) {kind : Kind}
    {strength : Strength} (hnet : P net) (ha : admits net (.add kind strength)) :
    Ends (addConstraint kind strength) net (fun _ => P) fail := by
  rw [addConstraint, ends_bind]
  apply ends_checkVariables _ fun e _ => inv.refused e hnet
  intro hk
  rw [ends_bind, ends_register hk, ends_bind, ends_nesting, ends_bind]
  exact inv.add hnet ha hk

theorem ends_enforce (inv : OperationInvariant admits P fail) (hnet : P net) :
    Ends (enforce c) net (fun _ => P) fail := by
  rw [enforce, ends_bind]
  refine ends_checkAttached ?_ fun _ e _ => inv.refused e hnet
  intro ha
  rw [ends_bind, ends_readConstraint (known_of_attached ha)]
  split
  · exact hnet
  next hu =>
    rw [ends_bind, ends_nesting]
    exact inv.establish hnet ha (by simpa using hu)

theorem ends_retract (inv : OperationInvariant admits P fail) (hnet : P net) :
    Ends (retract c) net (fun _ => P) fail := by
  rw [retract, ends_bind]
  refine ends_checkAttached ?_ fun _ e _ => inv.refused e hnet
  intro ha
  have hk := known_of_attached ha
  rw [ends_bind, ends_readConstraint hk]
  split
  next hs =>
    rw [ends_bind, ends_nesting]
    exact inv.withdraw hnet hs
  next hu =>
    rw [ends_detach hk ((inv.coherent hnet).known c hk)]
    exact inv.drop hnet ha (by simpa using hu)

theorem ends_destroy (inv : OperationInvariant admits P fail) (hnet : P net) :
    Ends (destroy c) net (fun _ => P) fail := by
  rw [destroy, ends_bind, ends_note]
  exact inv.ends_retract (inv.note _ hnet)

/-- A temporary edit, given what becomes of its plan. -/
theorem ends_change (inv : OperationInvariant admits P fail) (failed : Failure SolveError → Prop)
    {v : VariableId} {value : Float} {strength : Strength} {n : Nat}
    (hplan : ∀ net edit, P net → Ends (extractPlan [edit]) net
      (fun plan net' => Ends (replay plan v value n) net' (fun _ => P)
        (fun e net'' => failed e ∧ P net'')) fail)
    (hleft : ∀ e net, failed e → P net → fail e net)
    (hfirst : ∀ e e' net, failed (.refused e) → fail (.refused e') net → fail (.refused e) net)
    (hnet : P net) (ha : admits net (.change v value strength n)) :
    Ends (change v value strength n) net (fun _ => P) fail := by
  rw [change, ends_bind]
  refine (inv.ends_addConstraint hnet (inv.edit ha)).mono_ok fun edit net₁ h₁ => ?_
  rw [ends_bind]
  refine (hplan net₁ edit h₁).mono_ok fun plan net₂ h₂ => ?_
  exact ends_always h₂ (fun _ h => inv.ends_destroy h)
    (fun e net' hf h => hleft e net' hf (h.elim And.right id)) hfirst

section Quiet

variable (inv : OperationInvariant admits P fail)
  (hquiet : ∀ {net net'}, P net → Quiet net net' → P net')
  (hleft : ∀ e {net}, P net → fail e net)

include hquiet hleft

theorem ends_of_quietly {α : Type} {act : Solve α} {allowed : Failure SolveError → Prop}
    (h : Quietly 0 allowed act) (hnet : P net) : Ends act net (fun _ => P) fail :=
  (h net (Nat.zero_le _)).mono (fun _ _ hq => hquiet hnet hq)
    fun e _ hq => hleft e (hquiet hnet hq.2)

include inv

/-- If moreover only satisfying and retracting can break the invariant, every request keeps it. -/
theorem ends_perform (hvariable : ∀ {net name value}, P net → P (net.withVariable name value))
    (hfirst : ∀ {e e' net}, Failure.Abrupt (.refused e) → fail (.refused e') net →
      fail (.refused e) net)
    (hnet : P net) {r : Request} (ha : admits net r) : Ends r.perform net (fun _ => P) fail := by
  cases r with
  | addVariable name value =>
    simp only [Request.perform, ends_discard, Network.addVariable, ends_bind, ends_get, ends_modify,
      ends_pure]
    exact hvariable hnet
  | valueOf v => exact ends_discard.2 (ends_of_quietly hquiet hleft quietly_valueOf hnet)
  | assign v value => exact ends_of_quietly hquiet hleft quietly_assign hnet
  | freshMark => exact ends_discard.2 (hquiet hnet quiet_freshMark)
  | add kind strength => exact ends_discard.2 (inv.ends_addConstraint hnet ha)
  | enforce c => exact inv.ends_enforce hnet
  | retract c => exact inv.ends_retract hnet
  | destroy c => exact inv.ends_destroy hnet
  | change v value strength n =>
    refine inv.ends_change Failure.Abrupt ?_ (fun e _ _ h => hleft e h)
      (fun _ _ _ habrupt hf => hfirst habrupt hf) hnet ha
    intro net₁ edit h₁
    refine (ends_of_quietly hquiet hleft (quietly_extractPlan [edit]) h₁).mono_ok
      fun plan net₂ h₂ => ?_
    refine (quietly_replay plan v value n net₂ (Nat.zero_le _)).mono ?_ ?_
    · exact fun _ _ hq => hquiet h₂ hq
    · exact fun _ _ hq => ⟨hq.1, hquiet h₂ hq.2⟩
  | makePlan sources =>
    exact ends_discard.2 (ends_of_quietly hquiet hleft (quietly_makePlan sources) hnet)
  | extractPlan cs =>
    exact ends_discard.2 (ends_of_quietly hquiet hleft (quietly_extractPlan cs) hnet)
  | runPlan p => exact ends_of_quietly hquiet hleft (quietly_runPlan p) hnet

end Quiet

end OperationInvariant

/-- A failing operation leaves something half-done or keeps `P`. -/
def Failure.Leaves (P : Network → Prop) (e : Failure SolveError) (net : Network) : Prop :=
  e.Abrupt ∨ P net

/-- A property of networks that every operation keeps, as long as requests are admitted. -/
structure RunInvariant (admits : Network → Request → Prop) (P : Network → Prop) : Prop where
  coherent : ∀ {net}, P net → net.Coherent
  empty : ∀ {patience}, P (.empty patience)
  quiet : ∀ {net net'}, P net → Quiet net net' → P net'
  withVariable : ∀ {net name value}, P net → P (net.withVariable name value)
  edit : ∀ {net v value strength n}, admits net (.change v value strength n) →
    admits net (.add (.edit v) strength)
  add : ∀ {net kind strength} n, P net → admits net (.add kind strength) →
    (∀ v ∈ kind.operands, v.index < net.vars.size) →
    Ends (orDetach ⟨net.constraints.size⟩ (establish n ⟨net.constraints.size⟩))
      (net.registered kind strength) (fun _ => P) (Failure.Leaves P)
  establish : ∀ {net c} n, P net → (net.con c).attached = true →
    (net.con c).isSatisfied = false → Ends (establish n c) net (fun _ => P) (Failure.Leaves P)
  withdraw : ∀ {net c} n, P net → (net.con c).isSatisfied = true →
    Ends (withdraw n c) net (fun _ => P) (Failure.Leaves P)
  drop : ∀ {net c}, P net → (net.con c).attached = true → (net.con c).isSatisfied = false →
    P (net.detached c)

namespace RunInvariant

variable {admits : Network → Request → Prop} {P : Network → Prop} {net : Network}
  {c : ConstraintId}

theorem operation (inv : RunInvariant admits P) :
    OperationInvariant admits P (Failure.Leaves P) where
  coherent h := inv.coherent h
  note _ h := inv.quiet h quiet_note
  refused _ h := .inr h
  edit h := inv.edit h
  add h ha hk := inv.add _ h ha hk
  establish h ha hu := inv.establish _ h ha hu
  withdraw h hs := inv.withdraw _ h hs
  drop h ha hu := inv.drop h ha hu

theorem ends_addConstraint (inv : RunInvariant admits P) {kind : Kind} {strength : Strength}
    (hnet : P net) (ha : admits net (.add kind strength)) :
    Ends (addConstraint kind strength) net (fun _ => P) (Failure.Leaves P) :=
  inv.operation.ends_addConstraint hnet ha

theorem ends_destroy (inv : RunInvariant admits P) (hnet : P net) :
    Ends (destroy c) net (fun _ => P) (Failure.Leaves P) :=
  inv.operation.ends_destroy hnet

theorem ends_perform (inv : RunInvariant admits P) (hnet : P net) {r : Request}
    (ha : admits net r) : Ends r.perform net (fun _ => P) (Failure.Leaves P) :=
  inv.operation.ends_perform inv.quiet (fun _ _ h => .inr h) inv.withVariable
    (fun habrupt _ => .inl habrupt) hnet ha

/-- What every operation keeps holds after every run. -/
theorem holds (inv : RunInvariant admits P) (h : Run admits net) : P net := by
  induction h with
  | empty => exact inv.empty
  | answered _ ha hr ih => exact (inv.ends_perform ih ha).of_ok hr
  | @refused _ _ _ e _ ha hr he ih =>
    rcases (inv.ends_perform ih ha).of_error hr with habrupt | hP
    · cases e with
      | divisionByZero c => exact absurd rfl (he c)
      | _ => exact habrupt.elim
    · exact hP

end RunInvariant

end ConstraintHierarchy
