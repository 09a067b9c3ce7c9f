import ConstraintHierarchy.Proofs.Structure

/-!
# Required constraints

A constraint of strength `required` may lose its method to another one. It is then the displaced
constraint of a cascade, and the cascade goes on until it has another method or the request is refused.
So as long as requests are refused at most because an id names nothing, or nothing in the graph, every
required constraint of the graph has a method.

## Main definitions

* `Request.Smooth`: a request is answered, or refused for an id
* `Network.Demanding`: the invariant of a cascade

## Main results

* `Network.required_satisfied`: required constraints are satisfied
-/

namespace ConstraintHierarchy

open Solve Network

instance : DecidablePred SolveError.OnLookup
  | .unknownVariable _ => isTrue trivial
  | .unknownConstraint _ => isTrue trivial
  | .detached _ => isTrue trivial
  | .unsatisfiable _ => isFalse id
  | .cycle _ => isFalse id
  | .noWeaker _ => isFalse id
  | .divisionByZero _ => isFalse id

/-- The request is answered, or refused for an id that names nothing, or nothing in the graph. -/
def Request.Smooth (net : Network) (r : Request) : Prop :=
  ∀ e, r.refusal? net = some e → e.OnLookup

instance (net : Network) (r : Request) : Decidable (r.Smooth net) :=
  inferInstanceAs (Decidable (∀ e ∈ r.refusal? net, e.OnLookup))

/-- What a failure leaves if it is the refusal of an id. -/
def Failure.IfOnLookup (P : Network → Prop) (e : Failure SolveError) (net : Network) : Prop :=
  ∀ s, e = .refused s → s.OnLookup → P net

namespace Network

/-- The required constraints of the graph are satisfied, apart from `o`, which looks for a method. -/
structure Demanding (o : Option ConstraintId) (net : Network) : Prop where
  regular : net.Regular
  required : ∀ c, (net.con c).attached = true → (net.con c).strength = .required →
    (net.con c).isSatisfied = false → o = some c

section Demanding

variable {net net' : Network} {c : ConstraintId} {o : Option ConstraintId}

theorem Demanding.of_sameGraph (h : net.Demanding o) (hr : net'.Regular) (hg : SameGraph net net') :
    net'.Demanding o :=
  ⟨hr, by rw [hg.con]; exact h.required⟩

theorem Demanding.of_quiet (h : net.Demanding o) (hq : Quiet net net') : net'.Demanding o :=
  h.of_sameGraph (h.regular.of_quiet hq) hq.toSameGraph

theorem Demanding.detached (h : net.Demanding none) (hc : c.index < net.constraints.size) :
    (net.detached c).Demanding none := by
  refine ⟨h.regular.detached hc, fun d ha => ?_⟩
  have hne := ne_of_detached_attached hc ha
  rw [detached_con_of_ne hne] at ha ⊢
  exact h.required d ha

theorem Demanding.registered (h : net.Demanding none) {kind : Kind} {strength : Strength}
    (hk : ∀ v ∈ kind.operands, v.index < net.vars.size) :
    (net.registered kind strength).Demanding (some ⟨net.constraints.size⟩) := by
  refine ⟨h.regular.registered hk, fun d ha hr hu => ?_⟩
  by_cases hd : d = ⟨net.constraints.size⟩
  · rw [hd]
  · rw [registered_con_of_ne hd] at ha hr hu
    exact nomatch h.required d ha hr hu

/-- The constraint that takes the output over is satisfied, and the one that loses it is the next to
look for a method. -/
theorem Demanding.takenOver {mark : Nat} {flow : Flow} (h : net.Demanding (some c))
    (ha : (net.con c).attached = true) (hu : (net.con c).isSatisfied = false) (hm : mark ≤ net.mark)
    (hflow : net.flowFor mark c = some flow) :
    (net.takenOver mark c flow).Demanding (net.var (net.directed c flow).output).determinedBy := by
  have hcoh := h.regular.coherent
  have hkeeps : Keeps net (net.takenOver mark c flow) := keeps_takenOver
  refine ⟨h.regular.takenOver ha hu hm hflow, fun d hda hr hdu => ?_⟩
  rw [hkeeps.attached] at hda
  rw [hkeeps.strength] at hr
  have hlost : ¬ (d = c ∨ (net.con d).isSatisfied = true ∧
      (net.con d).output ≠ (net.directed c flow).output) := by
    intro hkept
    rw [(takenOver_isSatisfied_iff hcoh (known_of_attached ha) hu).2 hkept] at hdu
    exact Bool.noConfusion hdu
  have hd : d ≠ c := fun hd => hlost (.inl hd)
  have hds : (net.con d).isSatisfied = true := by
    by_contra hns
    have hpending := h.required d hda hr (by simpa using hns)
    exact hd (Option.some.inj hpending).symm
  rw [hcoh.determines]
  exact ⟨hds, by_contra fun ho => hlost (.inr ⟨hds, ho⟩)⟩

end Demanding

/-! ## Satisfying and retracting -/

/-- A cascade goes on until every required constraint is satisfied or it fails, and then not because of
an id. -/
theorem cascadeInvariant_demanding :
    CascadeInvariant Demanding (fun net c => net.Regular ∧ (net.con c).isSatisfied = true) Fails where
  coherent h := h.regular.coherent
  keep h hq _ := h.of_quiet hq
  candidate h _ _ := ⟨h.regular, fun d ha hr hu => nomatch h.required d ha hr hu⟩
  given_up {net c} h hweak := by
    refine ⟨h.regular, fun d ha hr hu => ?_⟩
    cases h.required d ha hr hu
    exact absurd hr hweak
  walk {net c flow} mark h ha hu hm hflow := by
    refine (solvingInvariant_regular.walk 0 mark h.regular ha hu hm hflow).mono_ok ?_
    rintro met net' ⟨⟨q, hvisit⟩, hnone, hsome⟩
    refine ⟨⟨q, hvisit⟩, fun hmet => ?_, fun v hv => ?_⟩
    · exact (h.takenOver ha hu hm hflow).of_sameGraph (hnone hmet) hvisit.graph
    · exact solvingInvariant_regular.keep_but (hsome v hv)
        (quiet_unwound hvisit.graph.variableCount.symm)
  unsatisfiable h ha hu := solvingInvariant_regular.unsatisfiable 0 h.regular ha hu
  keeps hk hf := solvingInvariant_regular.keeps (n := 0) hk hf

theorem retries_demanding (n : Nat) :
    CascadeInvariant.Retries Demanding Fails (establish n) := by
  cases n with
  | zero => exact fun _ _ h ha _ => solvingInvariant_regular.spent h.regular ha
  | succ n =>
    apply cascadeInvariant_demanding.ends_establishUsing
    exact solvingInvariant_regular.repair.rollsBack (n := n)
      fun _ _ h => solvingInvariant_regular.ends_withdraw n h

theorem ends_withdraw_demanding {net : Network} {c : ConstraintId} (n : Nat)
    (h : net.Demanding none) (hsat : (net.con c).isSatisfied = true) :
    Ends (withdraw n c) net (fun _ net' => net'.Demanding none ∧ Keeps (net.detached c) net')
      (Fails (net.detached c)) := by
  refine cascadeInvariant_demanding.ends_withdrawUsing (retries_demanding n) h.regular.coherent hsat ?_
  refine (solvingInvariant_regular.release 0 ⟨h.regular, hsat⟩).mono_ok ?_
  rintro found net' ⟨hreg, hgraph, hfound⟩
  exact ⟨(h.detached (known_of_isSatisfied hsat)).of_sameGraph hreg hgraph, hgraph, hfound⟩

/-! ## Whole requests -/

/-- No id is refused once the search for a method has begun. -/
theorem Fails.not_onLookup {net net' : Network} {s : SolveError}
    (h : Fails net (.refused s) net') : ¬ s.OnLookup := by
  intro hs
  have hback : s.isRolledBack = true := by
    cases s with
    | unknownVariable v => rfl
    | unknownConstraint c => rfl
    | detached c => rfl
    | _ => exact hs.elim
  obtain ⟨d, rfl, -, -⟩ := h.promised s rfl hback
  exact hs

theorem Fails.ifOnLookup {net net' : Network} {e : Failure SolveError} {P : Network → Prop}
    (h : Fails net e net') : e.IfOnLookup P net' := by
  intro s he hs
  subst he
  exact absurd hs h.not_onLookup

theorem operationInvariant_demanding :
    OperationInvariant (fun _ _ => True) (Demanding none) (Failure.IfOnLookup (Demanding none)) where
  coherent h := h.regular.coherent
  note _ h := h.of_quiet quiet_note
  refused _ h := fun _ _ _ => h
  edit _ := trivial
  add {net kind strength} h _ hk := by
    have hreg : (net.registered kind strength).Demanding (some ⟨net.constraints.size⟩) :=
      h.registered hk
    refine (ends_orDetach (retries_demanding _ _ _ hreg registered_new_attached
      registered_new_unsatisfied) ?_ ?_).mono_ok fun _ _ hend => hend.1
    · exact fun _ _ hf _ => hf.ifOnLookup
    · intro net' hf
      have hc := hf.known_new
      rw [ends_detach hc (hf.regular.coherent.known _ hc)]
      intro s hs hlookup
      cases hs
      exact hlookup.elim
  establish h ha hu := by
    have hpending := cascadeInvariant_demanding.candidate h ha hu
    exact (retries_demanding _ _ _ hpending ha hu).mono (fun _ _ hend => hend.1)
      fun _ _ hf => hf.ifOnLookup
  withdraw h hs := (ends_withdraw_demanding _ h hs).mono (fun _ _ hend => hend.1)
    fun _ _ hf => hf.ifOnLookup
  drop h ha _ := h.detached (known_of_attached ha)

theorem Demanding.withVariable {net : Network} (h : net.Demanding none) {name : String}
    {value : Float} : (net.withVariable name value).Demanding none :=
  ⟨h.regular.withVariable, h.required⟩

theorem demanding_empty {patience : Nat} : (Network.empty patience).Demanding none := by
  refine ⟨regular_empty, fun c hc => ?_⟩
  exact absurd (known_of_attached hc) (by simp [Network.empty])

theorem ends_perform_demanding {net : Network} (r : Request) (h : net.Demanding none) :
    Ends r.perform net (fun _ => Demanding none) (Failure.IfOnLookup (Demanding none)) := by
  refine operationInvariant_demanding.ends_perform Demanding.of_quiet (fun _ _ h _ _ _ => h)
    (fun h => h.withVariable) ?_ h trivial
  -- a plan that cannot be executed divides by zero, whatever is refused in the clean-up
  intro e e' net' habrupt _ s hs hlookup
  cases hs
  cases e with
  | divisionByZero c => exact hlookup.elim
  | _ => exact habrupt.elim

/-- After a run in which every request was answered, or refused for an id that names nothing or nothing
in the graph, every required constraint of the graph is satisfied. -/
theorem required_satisfied {net : Network} (h : Run Request.Smooth net) {c : ConstraintId}
    {k : Constraint} (hk : net.getConstraint? c = some k) (ha : k.attached = true)
    (hr : k.strength = .required) : k.isSatisfied = true := by
  have hnet : net.Demanding none := by
    clear hk
    induction h with
    | empty => exact demanding_empty
    | @answered _ _ r _ _ hr ih => exact (ends_perform_demanding r ih).of_ok hr
    | @refused _ _ r e _ hsmooth hr _ ih =>
      refine (ends_perform_demanding r ih).of_error hr e rfl (hsmooth e ?_)
      rw [Request.refusal?, hr]
  obtain ⟨-, rfl⟩ := getConstraint?_eq_some.1 hk
  by_contra hu
  exact nomatch hnet.required c ha hr (by simpa using hu)

end Network

/-- Two required constraints on a cycle of the graph: an edit turns one of them round, an unknown id is
refused, and when the edit is destroyed the constraint turns back. -/
def turnedRequests : List Request :=
  [.addVariable "a" 1, .addVariable "b" 2, .addVariable "m" 3, .addVariable "d" 4,
    .add (.stay ⟨0⟩) .normal, .add (.equal ⟨0⟩ ⟨2⟩) .required,
    .add (.scale ⟨0⟩ ⟨1⟩ ⟨2⟩ ⟨3⟩) .required, .add (.edit ⟨2⟩) .strongPreferred,
    .enforce ⟨9⟩, .destroy ⟨3⟩]

def turnedNetwork : Network :=
  (Request.runAll (fun net r => decide (r.Smooth net)) turnedRequests .empty).get (by decide +kernel)

namespace Network

theorem required_satisfied_turnedNetwork :
    ∃ k, turnedNetwork.getConstraint? ⟨1⟩ = some k ∧ k.kind = .equal ⟨0⟩ ⟨2⟩ ∧
      k.attached = true ∧ k.strength = .required ∧ k.isSatisfied = true := by
  have hrun : Run Request.Smooth turnedNetwork :=
    Run.of_runAll (fun _ _ ht => of_decide_eq_true ht) turnedRequests .empty (Option.some_get _).symm
  have hk : turnedNetwork.getConstraint? ⟨1⟩ = some (turnedNetwork.con ⟨1⟩) :=
    getConstraint?_eq_con (by decide +kernel)
  have ha : (turnedNetwork.con ⟨1⟩).attached = true := by decide +kernel
  have hr : (turnedNetwork.con ⟨1⟩).strength = .required := by decide +kernel
  exact ⟨_, hk, by decide +kernel, ha, hr, required_satisfied hrun hk ha hr⟩

end Network

end ConstraintHierarchy
