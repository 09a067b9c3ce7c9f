import ConstraintHierarchy.Scenario
import ConstraintHierarchy.Proofs.PathStrength
import ConstraintHierarchy.Proofs.Persistence
import ConstraintHierarchy.Proofs.Refusals

/-!
# Rules for scenarios

A scenario runs operations of a network one after the other and stops where one of them is refused or a
value is not the expected one. To say what comes of it one needs a rule for every kind of step, and one
has to know that the operations on the way are answered, which in a tree-shaped network they are.

## Main definitions

* `Scenario.Ends`: what holds after a step of a scenario
* `Network.TreeState`: a network between two operations, with a graph that is a forest
* `Network.Has`: the graph has a constraint
* `Network.Added`: what is known of a network to which a constraint has been added

## Main results

* `Network.TreeState.exists_added`: a constraint that can be satisfied is added
-/

namespace ConstraintHierarchy

open Solve Network

namespace Scenario

variable {α β : Type} {act : Scenario α} {net : Network} {ok ok' : α → Network → Prop}
  {fail fail' : Failure ScenarioError → Network → Prop}

/-- If the step is answered, `ok` holds of the answer and the network; if it fails, `fail` holds. -/
def Ends (act : Scenario α) (net : Network) (ok : α → Network → Prop)
    (fail : Failure ScenarioError → Network → Prop) : Prop :=
  match act net with
  | .ok a net' => ok a net'
  | .error e net' => fail e net'

theorem Ends.mono (h : Ends act net ok fail) (hok : ∀ a net', ok a net' → ok' a net')
    (hfail : ∀ e net', fail e net' → fail' e net') : Ends act net ok' fail' := by
  unfold Ends at *
  split at h
  next hrun => simpa only [hrun] using hok _ _ h
  next hrun => simpa only [hrun] using hfail _ _ h

theorem Ends.exists_ok (h : Ends act net ok fun _ _ => False) :
    ∃ a net', act net = .ok a net' ∧ ok a net' := by
  unfold Ends at h
  split at h
  next hrun => exact ⟨_, _, hrun, h⟩
  next => exact h.elim

theorem Ends.exists_error (h : Ends act net (fun _ _ => False) fail) :
    ∃ e net', act net = .error e net' ∧ fail e net' := by
  unfold Ends at h
  split at h
  next => exact h.elim
  next hrun => exact ⟨_, _, hrun, h⟩

@[simp] theorem ends_pure {a : α} : Ends (pure a) net ok fail ↔ ok a net := Iff.rfl

@[simp] theorem ends_throw {e : Failure ScenarioError} :
    Ends (throw e) net ok fail ↔ fail e net := Iff.rfl

@[simp] theorem ends_bind {f : α → Scenario β} {ok : β → Network → Prop} :
    Ends (act >>= f) net ok fail ↔ Ends act net (fun a net' => Ends (f a) net' ok fail) fail := by
  simp only [Ends, bind, EStateM.bind]
  cases act net <;> rfl

theorem ends_solve {act : Solve α} :
    Ends (solve act) net ok fail ↔
      Solve.Ends act net ok fun e net' => fail (e.map .solver) net' := by
  simp only [Ends, Solve.Ends, solve]
  cases act net <;> rfl

/-- A step that is answered is gone through. -/
theorem ends_solve_ok {act : Solve α} {a : α} {net' : Network} (h : act net = .ok a net') :
    Ends (solve act) net ok fail ↔ ok a net' := by
  simp only [Ends, solve, h]

theorem ends_check {scenario : String} {v : VariableId} {expected : Float}
    {ok : Unit → Network → Prop} (hv : v.index < net.vars.size) :
    Ends (check scenario v expected) net ok fail ↔
      if (net.value v == expected) = true then ok () net
      else fail (.refused (.mismatch scenario (net.var v).name expected (net.value v))) net := by
  rw [check, ends_bind, ends_solve, ends_readVariable hv]
  show Ends (if (net.value v == expected) = true then _ else _) net ok fail ↔ _
  split <;> rfl

end Scenario

namespace Network

variable {net net' : Network} {c : ConstraintId} {v : VariableId} {k kind : Kind}
  {s strength : Strength} {name : String} {value : Float}

theorem addVariable_eq :
    addVariable name value net = .ok ⟨net.vars.size⟩ (net.withVariable name value) := rfl

/-- The graph has `c` as a constraint of the given kind and strength. -/
structure Has (net : Network) (c : ConstraintId) (kind : Kind) (strength : Strength) : Prop where
  attached : (net.con c).attached = true
  kind : (net.con c).kind = kind
  strength : (net.con c).strength = strength

theorem Has.of_keeps (h : net.Has c k s) (hkeeps : Keeps net net') : net'.Has c k s :=
  ⟨(hkeeps.attached c).trans h.attached, (hkeeps.kind c).trans h.kind,
    (hkeeps.strength c).trans h.strength⟩

theorem Has.known (h : net.Has c k s) : c.index < net.constraints.size := known_of_attached h.attached

theorem Has.registered (h : net.Has c k s) : (net.registered kind strength).Has c k s := by
  have hne : c ≠ ⟨net.constraints.size⟩ := by
    rintro rfl
    exact Nat.lt_irrefl _ h.known
  obtain ⟨ha, hk, hs⟩ := h
  rw [← registered_con_of_ne hne] at ha hk hs
  exact ⟨ha, hk, hs⟩

theorem has_registered : (net.registered kind strength).Has ⟨net.constraints.size⟩ kind strength := by
  refine ⟨registered_new_attached, ?_, ?_⟩ <;> rw [registered_con_new]

/-- For a constraint of the graph a plan is returned. -/
theorem TreeSolution.exists_plan (h : net.TreeSolution) (ha : (net.con c).attached = true) :
    ∃ plan net', extractPlan [c] net = .ok plan net' ∧ Quiet net net' ∧
      Planning net (net.mark + 1) (net.inputsAmong [c]) net' plan.steps [] := by
  have hends := (ends_extractPlan_planning h.settled h.marksPast [c]).and
    (quietly_extractPlan [c] net (Nat.zero_le _))
  cases hplan : extractPlan [c] net with
  | ok plan net' =>
    obtain ⟨hplanning, hquiet⟩ := hends.of_ok hplan
    exact ⟨plan, net', rfl, hquiet, hplanning⟩
  | error e net' =>
    obtain ⟨⟨-, d, hd, hdetached⟩, -⟩ := hends.of_error hplan
    rw [List.mem_singleton.1 hd, ha] at hdetached
    cases hdetached

/-- A network between two operations: the graph is a forest, what is satisfied is what can be, and the
records are in order. A scenario also writes to the journal, so that its networks are not those of a
run. -/
structure TreeState (net : Network) : Prop where
  solution : net.TreeSolution
  ordered : net.Ordered
  regular : net.Regular

namespace TreeState

theorem empty {patience : Nat} : (Network.empty patience).TreeState :=
  ⟨runInvariant_treeSolution.empty, runInvariant_ordered.empty, regular_empty⟩

theorem coherent (h : net.TreeState) : net.Coherent := h.regular.coherent

theorem of_quiet (h : net.TreeState) (hq : Quiet net net') : net'.TreeState :=
  ⟨h.solution.of_quiet hq, h.ordered.of_sameGraph hq.toSameGraph, h.regular.of_quiet hq⟩

theorem performed {r : Request} (h : net.TreeState)
    (hopen : ∀ net', r.opening net = .ok () net' → net'.TreeShaped)
    (hr : r.perform net = .ok () net') : net'.TreeState where
  solution := (runInvariant_treeSolution.ends_perform h.solution hopen).of_ok hr
  ordered := (runInvariant_ordered.ends_perform h.ordered trivial).of_ok hr
  regular := ((ends_perform_follows r (.refl h.regular)).of_ok hr).regular

theorem withVariable (h : net.TreeState) : (net.withVariable name value).TreeState := by
  have hperform : (Request.addVariable name value).perform net =
      .ok () (net.withVariable name value) := by
    apply Ends.eq_ok
    rw [Request.perform, ends_discard]
    exact ⟨rfl, rfl⟩
  refine h.performed (fun net' hopen => ?_) hperform
  cases hopen
  exact h.solution.tree

end TreeState

/-! ## Adding -/

/-- The network `net'` is `net` with a new constraint, which has found its place. -/
structure Added (net : Network) (kind : Kind) (strength : Strength) (net' : Network) : Prop where
  state : net'.TreeState
  leads : Leads (fun _ => True) (net.registered kind strength) net'
  keeps : Keeps (net.registered kind strength) net'

namespace Added

theorem has (h : Added net kind strength net') (hc : net.Has c k s) : net'.Has c k s :=
  hc.registered.of_keeps h.keeps

theorem has_new (h : Added net kind strength net') :
    net'.Has ⟨net.constraints.size⟩ kind strength :=
  has_registered.of_keeps h.keeps

/-- The constraints that were there are still there, and say the same. -/
theorem attached_of_ne (h : Added net kind strength net') (hne : c ≠ ⟨net.constraints.size⟩) :
    (net'.con c).attached = (net.con c).attached := by
  rw [h.keeps.attached, registered_con_of_ne hne]

theorem kind_of_ne (h : Added net kind strength net') (hne : c ≠ ⟨net.constraints.size⟩) :
    (net'.con c).kind = (net.con c).kind := by
  rw [h.keeps.kind, registered_con_of_ne hne]

theorem variableCount (h : Added net kind strength net') : net'.vars.size = net.vars.size :=
  h.keeps.variableCount.trans registered_size

theorem constraintCount (h : Added net kind strength net') :
    net'.constraints.size = net.constraints.size + 1 :=
  h.keeps.constraintCount.trans registered_count

theorem name_eq (h : Added net kind strength net') (hcoh : net.Coherent)
    (hk : ∀ v ∈ kind.operands, v.index < net.vars.size) : (net'.var v).name = (net.var v).name := by
  have hname := h.leads.name (v := v) (hcoh.registered hk)
  rwa [registered_var hk] at hname

/-- What is steady as long as the new constraint looks for its place has the value that it had. -/
theorem value_eq (h : Added net kind strength net') (hcoh : net.Coherent)
    (hk : ∀ v ∈ kind.operands, v.index < net.vars.size)
    (hv : ∀ {mid}, Leads (fun _ => True) (net.registered kind strength) mid → mid.Steady v) :
    net'.value v = net.value v := by
  have hvalue := h.leads.value_eq (hcoh.registered hk) hv
  rwa [Network.value, Network.value, registered_var hk] at hvalue

end Added

/-- No variable has been visited by the walk that looks for a method for a new constraint. -/
theorem Regular.mark_opened_ne (h : net.Regular)
    (hk : ∀ v ∈ kind.operands, v.index < net.vars.size) :
    ((net.opened kind strength).var v).mark ≠ (net.opened kind strength).mark :=
  Nat.ne_of_lt (Nat.lt_succ_of_le ((h.registered hk).marksPast v))

theorem leads_overridden {flow : Flow}
    (hflow : (net.opened kind strength).flowFor (net.opened kind strength).mark
      ⟨net.constraints.size⟩ = some flow) :
    Leads (fun _ => True) (net.registered kind strength) (net.overridden kind strength flow) := by
  have hopened : Leads (fun _ => True) (net.registered kind strength) (net.opened kind strength) :=
    .aside .refl rfl rfl
  unfold overridden
  exact hopened.takeOver (fun _ _ => trivial) registered_new_attached registered_new_unsatisfied hflow

/-- If a new constraint has a method to begin with, all the rest comes after it has taken over its
output. -/
theorem leads_addConstraint_overridden (hcoh : net.Coherent)
    (hk : ∀ v ∈ kind.operands, v.index < net.vars.size) {flow : Flow}
    (hflow : (net.opened kind strength).flowFor (net.opened kind strength).mark
      ⟨net.constraints.size⟩ = some flow) :
    Ends (addConstraint kind strength) net
      (fun _ => Leads (fun _ => True) (net.overridden kind strength flow)) (fun _ _ => True) := by
  have hwait : Waiting (fun _ => True) (net.registered kind strength) ⟨net.constraints.size⟩ :=
    ⟨fun _ _ => trivial, registered_new_attached, registered_new_unsatisfied⟩
  rw [addConstraint, ends_bind, ends_checkVariables_known hk, ends_bind, ends_register hk, ends_bind,
    ends_nesting, ends_bind]
  exact ends_orDetach (leads_establish_taken _ (hcoh.registered hk) region_true hwait hflow)
    (fun _ _ _ _ => trivial) fun _ _ => ends_true

/-- A constraint that can be satisfied is added, if no network on the way divides by zero. -/
theorem TreeState.exists_added (h : net.TreeState) (hk : ∀ v ∈ kind.operands, v.index < net.vars.size)
    (htree : (net.registered kind strength).TreeShaped)
    (hr : ¬ (net.registered kind strength).Refuses ⟨net.constraints.size⟩)
    (hdiv : ∀ {mid}, Leads (fun _ => True) (net.registered kind strength) mid →
      ∀ d, (mid.con d).isSatisfied = true → (mid.con d).compute mid.value ≠ none) :
    ∃ net', addConstraint kind strength net = .ok ⟨net.constraints.size⟩ net' ∧
      Added net kind strength net' := by
  have hset := h.solution.settled
  have hreg : (net.registered kind strength).Region fun _ => True := region_true
  have hleads := leads_addConstraint hset.coherent hreg fun _ _ => trivial
  obtain ⟨net', hadd⟩ := h.solution.exists_addConstraint h.ordered hk htree hr fun d net' herror => by
    obtain ⟨-, hne⟩ | ⟨-, -, hblames⟩ := hleads.of_error herror
    · exact hne d rfl
    · obtain ⟨mid, hmid, hs, hzero⟩ := hblames d rfl
      exact hdiv hmid d hs hzero.2
  refine ⟨net', hadd, h.performed (fun later hopen => ?_) (perform_add hadd),
    (hleads.of_ok hadd).2.2, ((ends_addConstraint_keeps hset).of_ok hadd).2⟩
  rw [opening_add hk] at hopen
  cases hopen
  exact htree

end Network

end ConstraintHierarchy
