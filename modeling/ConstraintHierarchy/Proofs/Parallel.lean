import ConstraintHierarchy.Proofs.Indifference
import ConstraintHierarchy.Proofs.Promises

/-!
# Runs that differ in values only

Two runs make the same requests, with other values for new variables, assignments and temporary edits.
As long as nothing divides by zero, they go through the same graphs, methods, marks and plans and are
refused for the same reasons.

A temporary edit is what is left to look at. It goes on after its replay has divided by zero, with some
values written and others not, so it takes what is known about a single execution of a plan.

## Main definitions

* `Request.answer`, `Request.transcript`: what a request is answered, and the outcomes of a run
* `Request.Parallel`: requests are the same but for values

## Main results

* `Network.change_matches`: temporary edits
* `Request.Parallel.answer_matches`: one request of each run
* `transcripts_agree`: two runs that are the same but for values have the same outcomes but for values
-/

namespace ConstraintHierarchy

open Solve Network

namespace Network

/-! ## Temporary edits -/

section Edit

variable {net net' : Network} {v : VariableId} {strength : Strength} {n : Nat}

/-- What is done in any case finds a network that differs in values only from the one before, whether
the values could be written or not. -/
theorem exists_always_eq {act cleanup : Solve Unit}
    (h : Ends act net (fun _ cur => cur.withoutValues = net.withoutValues)
      (fun e cur => (∃ d, e = .refused (.divisionByZero d)) ∧ cur.withoutValues = net.withoutValues))
    (hd : divides (always act cleanup net) = false) :
    ∃ cur, cur.withoutValues = net.withoutValues ∧ always act cleanup net = cleanup cur := by
  unfold always at hd ⊢
  cases hact : act net with
  | ok _ cur => exact ⟨cur, h.of_ok hact, rfl⟩
  | error e cur =>
    obtain ⟨⟨d, rfl⟩, hcur⟩ := h.of_error hact
    refine ⟨cur, hcur, ?_⟩
    rw [hact] at hd
    -- an answer or a refusal would leave the division by zero as the outcome
    cases hclean : cleanup cur with
    | ok _ last => simp [hclean, fails, Failure.isDivision] at hd
    | error e' last =>
      cases e' with
      | refused e' => simp [hclean, fails, Failure.isDivision] at hd
      | outOfRange => simp [hclean]
      | endless => simp [hclean]

/-- The plan of a temporary edit can be replayed where it was extracted. -/
theorem ends_extractPlan_executable (h : net.Regular) (cs : List ConstraintId) :
    Ends (extractPlan cs) net
      (fun plan cur => cur.Executable plan.steps ∧ cur.vars.size = net.vars.size)
      (fun _ _ => True) := by
  refine (ends_extractPlan h.coherent cs fun _ _ _ _ _ => trivial).mono_ok ?_
  rintro plan cur ⟨hsame, hsteps⟩
  refine ⟨fun c hc => ?_, hsame.variableCount⟩
  rw [hsame.con, hsame.constraintCount, hsame.variableCount]
  exact ⟨hsteps c hc, h.coherent.known c (hsteps c hc)⟩

/-- An edit that has been added knows its variable. -/
theorem ends_addConstraint_knows (h : net.Regular) :
    Ends (addConstraint (.edit v) strength) net
      (fun _ cur => cur.Regular ∧ v.index < cur.vars.size) (fun _ _ => True) := by
  refine (ends_addConstraint_accounts h).mono ?_ fun _ _ _ => trivial
  rintro _ cur ⟨-, hreg, hkeeps⟩
  have hkind : (cur.con ⟨net.constraints.size⟩).kind = .edit v := by
    rw [hkeeps.kind, registered_con_new]
  have hknown : (⟨net.constraints.size⟩ : ConstraintId).index < cur.constraints.size := by
    rw [hkeeps.constraintCount]
    simp
  refine ⟨hreg, hreg.coherent.known _ hknown v ?_⟩
  rw [hkind]
  exact List.mem_singleton_self v

/-- The replay only writes values, so the removal of the edit finds networks that differ in values
only, however many of them have been written. -/
theorem change_matches {a b : Float} (h : net.Regular) (h' : net'.Regular)
    (hnet : net.withoutValues = net'.withoutValues)
    (hd : divides (change v a strength n net) = false)
    (hd' : divides (change v b strength n net') = false) :
    Matches .values Eq (change v a strength n net) (change v b strength n net') := by
  refine Matches.bind (indifferent_addConstraint net net' (Aspect.same_values_iff.2 hnet)) ?_ hd hd'
  rintro edit _ net₁ net₁' hadd hadd' rfl hnet₁ hd₁ hd₁'
  obtain ⟨hreg, hv⟩ := (ends_addConstraint_knows h).of_ok hadd
  obtain ⟨hreg', hv'⟩ := (ends_addConstraint_knows h').of_ok hadd'
  refine Matches.bind (indifferent_extractPlan [edit] net₁ net₁' hnet₁) ?_ hd₁ hd₁'
  rintro plan _ net₂ net₂' hplan hplan' rfl hnet₂ hd₂ hd₂'
  obtain ⟨hexec, hsize⟩ := (ends_extractPlan_executable hreg [edit]).of_ok hplan
  obtain ⟨hexec', hsize'⟩ := (ends_extractPlan_executable hreg' [edit]).of_ok hplan'
  obtain ⟨cur, hcur, hrun⟩ := exists_always_eq (ends_replay_frame n hexec (hsize ▸ hv)) hd₂
  obtain ⟨cur', hcur', hrun'⟩ := exists_always_eq (ends_replay_frame n hexec' (hsize' ▸ hv')) hd₂'
  rw [hrun] at hd₂ ⊢
  rw [hrun'] at hd₂' ⊢
  refine indifferent_destroy cur cur' (Aspect.same_values_iff.2 ?_) hd₂ hd₂'
  rw [hcur, hcur', Aspect.same_values_iff.1 hnet₂]

end Edit

end Network

/-! ## Two runs -/

/-- What a request is answered. -/
inductive Answer where
  | done
  | newVariable (v : VariableId)
  | newConstraint (c : ConstraintId)
  | mark (n : Nat)
  | plan (p : Plan)
  | value (x : Float)

/-- The answer with a value that tells nothing. -/
def Answer.withoutValue : Answer → Answer
  | value _ => value 0
  | a => a

namespace Request

/-- Carries out a request and keeps the answer. -/
def answer : Request → Solve Answer
  | addVariable name value => return .newVariable (← Network.addVariable name value)
  | valueOf v => return .value (← Network.valueOf v)
  | assign v value => do
    Network.assign v value
    return .done
  | freshMark => return .mark (← Solve.freshMark)
  | add kind strength => return .newConstraint (← addConstraint kind strength)
  | enforce c => do
    Network.enforce c
    return .done
  | retract c => do
    Network.retract c
    return .done
  | destroy c => do
    Network.destroy c
    return .done
  | change v value strength iterations => do
    Network.change v value strength iterations
    return .done
  | makePlan sources => return .plan (← Network.makePlan sources)
  | extractPlan cs => return .plan (← Network.extractPlan cs)
  | runPlan p => do
    Network.runPlan p
    return .done

/-- The outcomes of a list of requests, each made in the network that the one before has left. -/
def transcript : List Request → Network → List (EStateM.Result (Failure SolveError) Network Answer)
  | [], _ => []
  | r :: rs, net => r.answer net :: transcript rs (r.after net)

/-- The requests are the same but for the values in them. -/
inductive Parallel : Request → Request → Prop
  | same (r : Request) : Parallel r r
  | addVariable (name : String) (a b : Float) : Parallel (.addVariable name a) (.addVariable name b)
  | assign (v : VariableId) (a b : Float) : Parallel (.assign v a) (.assign v b)
  | change (v : VariableId) (a b : Float) (strength : Strength) (iterations : Nat) :
    Parallel (.change v a strength iterations) (.change v b strength iterations)

section Agreement

variable {r r' : Request} {net net' : Network}

theorem discard_return {α β : Type} (act : Solve α) (f : α → β) :
    discard (do return f (← act)) = discard act := by
  funext net
  simp only [discard, Functor.mapConst, EStateM.map, Function.comp_apply, Bind.bind, EStateM.bind]
  cases act net with
  | ok _ _ => rfl
  | error _ _ => rfl

theorem discard_unit (act : Solve Unit) : discard act = act := by
  funext net
  simp only [discard, Functor.mapConst, EStateM.map, Function.comp_apply]
  cases act net with
  | ok _ _ => rfl
  | error _ _ => rfl

/-- To perform a request is to answer it and not to listen. -/
theorem discard_answer (r : Request) : discard r.answer = r.perform := by
  have hdone : ∀ act : Solve Unit, discard (do act; return Answer.done) = act :=
    fun act => (discard_return act fun _ => Answer.done).trans (discard_unit act)
  cases r with
  | addVariable name value => exact discard_return _ _
  | valueOf v => exact discard_return _ _
  | assign v value => exact hdone _
  | freshMark => exact discard_return _ _
  | add kind strength => exact discard_return _ _
  | enforce c => exact hdone _
  | retract c => exact hdone _
  | destroy c => exact hdone _
  | change v value strength iterations => exact hdone _
  | makePlan sources => exact discard_return _ _
  | extractPlan cs => exact discard_return _ _
  | runPlan p => exact hdone _

/-- If the outcomes match, then so do the networks from which the runs go on. -/
theorem after_of_matches {R : Answer → Answer → Prop}
    (h : Matches .values R (r.answer net) (r'.answer net')) :
    (r.after net).withoutValues = (r'.after net').withoutValues := by
  simp only [after, ← discard_answer, discard, Functor.mapConst, EStateM.map, Function.comp_apply]
  generalize r.answer net = result at h ⊢
  generalize r'.answer net' = result' at h ⊢
  cases h with
  | ok _ hn => exact Aspect.same_values_iff.1 hn
  | error hn => exact Aspect.same_values_iff.1 hn

theorem Parallel.answer_matches (h : Parallel r r') (hreg : net.Regular) (hreg' : net'.Regular)
    (hnet : net.withoutValues = net'.withoutValues) (hd : divides (r.answer net) = false)
    (hd' : divides (r'.answer net') = false) :
    Matches .values (fun a b => a.withoutValue = b.withoutValue) (r.answer net) (r'.answer net') := by
  have halike : ∀ {act act' : Solve Answer},
      Alike .values (fun a b => a.withoutValue = b.withoutValue) act act' →
      divides (act net) = false → divides (act' net') = false → Matches .values _ (act net) (act' net') :=
    fun h => h net net' (Aspect.same_values_iff.2 hnet)
  have hchange : ∀ {v a b strength n},
      divides ((Request.change v a strength n).answer net) = false →
      divides ((Request.change v b strength n).answer net') = false →
      Matches .values (fun a b => a.withoutValue = b.withoutValue)
        ((Request.change v a strength n).answer net) ((Request.change v b strength n).answer net') :=
    Matches.bind (s := .values) (change_matches hreg hreg' hnet) fun _ _ _ _ _ _ _ hn _ _ => .ok rfl hn
  cases h with
  | addVariable name a b =>
    exact halike ((alike_addVariable (Aspect.seen_values _ _)).bind
      fun _ _ h => alike_pure (h ▸ rfl)) hd hd'
  | assign v a b =>
    exact halike ((alike_assign (Aspect.seen_values _ _)).bind fun _ _ _ => alike_pure rfl) hd hd'
  | change v a b strength iterations => exact hchange hd hd'
  | same =>
    cases r with
    | addVariable name value =>
      exact halike ((alike_addVariable (Aspect.seen_values _ _)).bind
        fun _ _ h => alike_pure (h ▸ rfl)) hd hd'
    | valueOf v => exact halike (alike_valueOf.bind fun _ _ _ => alike_pure rfl) hd hd'
    | assign v value =>
      exact halike ((alike_assign (Aspect.seen_values _ _)).bind fun _ _ _ => alike_pure rfl) hd hd'
    | freshMark => exact halike (indifferent_freshMark.andThen fun _ => alike_pure rfl) hd hd'
    | add kind strength => exact halike (indifferent_addConstraint.andThen fun _ => alike_pure rfl) hd hd'
    | enforce c => exact halike (indifferent_enforce.andThen fun _ => alike_pure rfl) hd hd'
    | retract c => exact halike (indifferent_retract.andThen fun _ => alike_pure rfl) hd hd'
    | destroy c => exact halike (indifferent_destroy.andThen fun _ => alike_pure rfl) hd hd'
    | change v value strength iterations => exact hchange hd hd'
    | makePlan sources =>
      exact halike ((indifferent_makePlan sources).andThen fun _ => alike_pure rfl) hd hd'
    | extractPlan cs => exact halike ((indifferent_extractPlan cs).andThen fun _ => alike_pure rfl) hd hd'
    | runPlan p => exact halike ((indifferent_runPlan p).andThen fun _ => alike_pure rfl) hd hd'

/-- Runs that go on from networks which differ in values only. -/
theorem transcript_matches {rs rs' : List Request} (h : List.Forall₂ Parallel rs rs') :
    ∀ {net net' : Network}, net.Regular → net'.Regular →
      net.withoutValues = net'.withoutValues → (∀ o ∈ transcript rs net, divides o = false) →
      (∀ o ∈ transcript rs' net', divides o = false) →
      List.Forall₂ (Matches .values fun a b => a.withoutValue = b.withoutValue) (transcript rs net)
        (transcript rs' net') := by
  induction h with
  | nil => exact fun _ _ _ _ _ => .nil
  | @cons r r' rs rs' hr _ ih =>
    intro net net' hreg hreg' hnet hd hd'
    have hfirst := hr.answer_matches hreg hreg' hnet (hd _ List.mem_cons_self)
      (hd' _ List.mem_cons_self)
    exact .cons hfirst (ih (hreg.after r) (hreg'.after r') (after_of_matches hfirst)
      (fun o ho => hd o (List.mem_cons_of_mem _ ho)) fun o ho => hd' o (List.mem_cons_of_mem _ ho))

end Agreement

end Request

/-- Two runs make the same requests but for values, and none of these divides by zero. Then request by
request the outcomes are the same: the same answer, but for the value of a variable, or the same
failure, and networks that are the same but for the values of their variables. -/
theorem transcripts_agree {patience : Nat} {rs rs' : List Request}
    (h : List.Forall₂ Request.Parallel rs rs')
    (hd : ∀ o ∈ Request.transcript rs (.empty patience), divides o = false)
    (hd' : ∀ o ∈ Request.transcript rs' (.empty patience), divides o = false) :
    List.Forall₂ (Matches .values fun a b => a.withoutValue = b.withoutValue)
      (Request.transcript rs (.empty patience)) (Request.transcript rs' (.empty patience)) :=
  Request.transcript_matches h regular_empty regular_empty rfl hd hd'

/-- A scaling is added and displaced, a cycle is refused, and a temporary edit runs the scaling
backward. -/
def pairedRequests (a b edited : Float) : List Request :=
  [.addVariable "a" a, .addVariable "b" b, .addVariable "m" 2, .addVariable "d" 0,
    .add (.scale ⟨0⟩ ⟨1⟩ ⟨2⟩ ⟨3⟩) .required, .add (.equal ⟨1⟩ ⟨0⟩) .required, .assign ⟨0⟩ b,
    .add (.stay ⟨0⟩) .normal, .change ⟨1⟩ edited .preferred 2, .valueOf ⟨0⟩]

theorem transcripts_agree_pairedRequests :
    ((∀ o ∈ Request.transcript (pairedRequests 1 2 6) .empty, divides o = false) ∧
      ∀ o ∈ Request.transcript (pairedRequests 0 7 (-3)) .empty, divides o = false) ∧
    List.Forall₂ (Matches .values fun a b => a.withoutValue = b.withoutValue)
      (Request.transcript (pairedRequests 1 2 6) .empty)
      (Request.transcript (pairedRequests 0 7 (-3)) .empty) := by
  have hd : ∀ o ∈ Request.transcript (pairedRequests 1 2 6) .empty, divides o = false := by
    decide +kernel
  have hd' : ∀ o ∈ Request.transcript (pairedRequests 0 7 (-3)) .empty, divides o = false := by
    decide +kernel
  refine ⟨⟨hd, hd'⟩, transcripts_agree ?_ hd hd'⟩
  exact .cons (.addVariable ..) (.cons (.addVariable ..) (.cons (.same _) (.cons (.same _)
    (.cons (.same _) (.cons (.same _) (.cons (.assign ..) (.cons (.same _) (.cons (.change ..)
      (.cons (.same _) .nil)))))))))

end ConstraintHierarchy
