import ConstraintHierarchy.Proofs.Changes
import ConstraintHierarchy.Proofs.Execution

/-!
# What single changes leave alone

The values and the methods of a network change in three ways only: a constraint takes over an output, an
output is brought up to date, a constraint leaves the graph. Every other change, putting values back
included, is one of marks, annotations and lists. So what is said about values and methods can be proved
for whole operations by looking at the three.

## Main definitions

* `Network.Kept`: a property of methods and values that the three changes keep
* `Network.Steady`: no method writes a variable

## Main results

* `Network.Kept.holds`: it holds wherever changes lead to
* `Network.Leads.value_eq`: a value that no method writes is constant
* `Network.Leads.flow_eq`: the only constraint that can compute a variable keeps its method
-/

namespace ConstraintHierarchy

open Solve

namespace Network

variable {R : VariableId → Prop} {start net : Network} {c d : ConstraintId} {v w : VariableId}

/-- A property of the constraints and of the values that holds in `start` and that is kept by changes
inside of `R`. -/
structure Kept (R : VariableId → Prop) (start : Network)
    (P : (ConstraintId → Constraint) → (VariableId → Float) → Prop) : Prop where
  init : P start.con start.value
  takeOver : ∀ {net mark c flow}, Leads R start net → net.Inside R c →
    (net.con c).attached = true → (net.con c).isSatisfied = false →
    net.flowFor mark c = some flow → P net.con net.value →
    P (net.takenOver mark c flow).con net.value
  compute : ∀ {net c x}, Leads R start net → net.Inside R c → (net.con c).isSatisfied = true →
    (net.con c).compute net.value = some x → P net.con net.value →
    P net.con (Function.update net.value (net.con c).output x)
  detach : ∀ {net c}, Leads R start net → net.Inside R c → (net.con c).attached = true →
    P net.con net.value → P (net.detached c).con net.value

/-- Whatever computes `w` leaves its value alone, since it has no input. -/
def Steady (net : Network) (w : VariableId) : Prop :=
  ∀ d, (net.con d).isSatisfied = true → (net.con d).output = w → (net.con d).input = none

section Values

theorem value_detached (hcoh : net.Coherent) (hc : c.index < net.constraints.size) :
    (net.detached c).value = net.value := by
  funext w
  rw [value, detached_var hcoh hc]
  rfl

theorem value_dismissed (hcoh : net.Coherent) (hc : c.index < net.constraints.size) :
    (net.dismissed c).value = net.value := by
  let noted : Network := { net with journal := net.journal.push (.destroying c) }
  have hnoted : noted.Coherent := hcoh.of_sameGraph (sameGraph_of_eq rfl rfl)
  have hvalue : (noted.released c).value = (noted.detached c).value :=
    funext fun _ => alterVariable_var_field fun _ => rfl
  exact hvalue.trans (value_detached hnoted hc)

theorem value_recalculated (hout : (net.con c).output.index < net.vars.size) :
    (net.recalculated c).value = net.value ∨ ∃ x, (net.con c).compute net.value = some x ∧
      (net.recalculated c).value = Function.update net.value (net.con c).output x := by
  have hother : ∀ w, w ≠ (net.con c).output → (net.recalculated c).value w = net.value w :=
    fun w hw => congrArg Variable.value (recalculated_var_of_ne hw)
  have hself : (net.recalculated c).value (net.con c).output =
      if (net.annotationFor c).stay then
        ((net.con c).compute net.value).getD (net.value (net.con c).output)
      else net.value (net.con c).output := by
    rw [value, recalculated, alterVariable_var_self hout]
    rfl
  by_cases hstay : (net.annotationFor c).stay = true ∧ ((net.con c).compute net.value).isSome
  · obtain ⟨x, hx⟩ := Option.isSome_iff_exists.1 hstay.2
    refine .inr ⟨x, hx, funext fun w => ?_⟩
    by_cases hw : w = (net.con c).output
    · rw [hw, hself, if_pos hstay.1, hx, Function.update_self]
      rfl
    · rw [hother w hw, Function.update_of_ne hw]
  · refine .inl (funext fun w => ?_)
    by_cases hw : w = (net.con c).output
    · rw [hw, hself]
      split
      next hs =>
        have hnone : (net.con c).compute net.value = none := by simpa [hs] using hstay
        rw [hnone, Option.getD_none]
      next => rfl
    · exact hother w hw

end Values

/-- What the three changes keep holds in every network that changes lead to. -/
theorem Kept.holds {P : (ConstraintId → Constraint) → (VariableId → Float) → Prop}
    (hP : Kept R start P) (hcoh : start.Coherent) (h : Leads R start net) :
    P net.con net.value := by
  induction h with
  | refl => exact hP.init
  | @aside net net' _ hvars hcons ih =>
    have hvalue : net'.value = net.value := by
      funext w
      rw [value, var_congr hvars, value]
    rw [con_congr hcons, hvalue]
    exact ih
  | @takeOver net mark c flow h hin ha hu hflow ih =>
    have hvalue : (net.takenOver mark c flow).value = net.value := funext fun _ => takenOver_value
    rw [hvalue]
    exact hP.takeOver h hin ha hu hflow ih
  | @recalculate net c h hin hs ih =>
    rw [sameGraph_recalculated.con]
    rcases value_recalculated ((h.coherent hcoh).known_output (known_of_isSatisfied hs)) with
      hsame | ⟨x, hx, hwritten⟩
    · rw [hsame]
      exact ih
    · rw [hwritten]
      exact hP.compute h hin hs hx ih
  | @visit net mark c _ _ _ ih =>
    have hvalue : (net.alterVariable (net.con c).output fun x => { x with mark := mark }).value =
        net.value := funext fun _ => alterVariable_var_field fun _ => rfl
    rw [hvalue]
    exact ih
  | @unwind before net c v hb h hgraph ihb _ =>
    -- the graph is that of the network before, and so are the values
    have hvalue : (net.unwound before.vars c v).value = before.value :=
      funext fun _ => unwound_value hgraph.variableCount
    have hcon : (net.unwound before.vars c v).con = before.con := hgraph.con
    rw [hvalue, hcon]
    exact ihb
  | @release net c h hin hs ih =>
    have hnet := h.coherent hcoh
    have hvalue : (net.released c).value = (net.detached c).value :=
      funext fun _ => alterVariable_var_field fun _ => rfl
    rw [hvalue, value_detached hnet (known_of_isSatisfied hs)]
    exact hP.detach h hin (hnet.attached c hs) ih
  | drop h hin ha _ ih =>
    rw [value_detached (h.coherent hcoh) (known_of_attached ha)]
    exact hP.detach h hin ha ih

/-- No change touches a name. -/
theorem Leads.name (h : Leads R start net) (hcoh : start.Coherent) :
    (net.var v).name = (start.var v).name := by
  induction h with
  | refl => rfl
  | aside _ hvars _ ih => rw [var_congr hvars, ih]
  | takeOver h _ ha _ _ ih =>
    rw [takenOver_var (h.coherent hcoh) (known_of_attached ha)]
    exact ih
  | recalculate _ _ _ ih =>
    exact (alterVariable_var_field (p := Variable.name) (by intro; rfl)).trans ih
  | visit _ _ _ ih =>
    exact (alterVariable_var_field (p := Variable.name) (by intro; rfl)).trans ih
  | unwind _ _ hgraph _ ih =>
    rw [unwound_var_field (p := Variable.name) (fun _ _ => rfl) hgraph.variableCount.symm, ih]
  | release h _ hs ih =>
    refine (alterVariable_var_field (p := Variable.name) (by intro; rfl)).trans ?_
    rw [detached_var (h.coherent hcoh) (known_of_isSatisfied hs)]
    exact ih
  | drop h _ ha _ ih =>
    rw [detached_var (h.coherent hcoh) (known_of_attached ha)]
    exact ih

/-- A value that is steady in every network on the way is constant. -/
theorem Leads.value_eq (h : Leads R start net) (hcoh : start.Coherent)
    (hw : ∀ {mid}, Leads R start mid → mid.Steady w) : net.value w = start.value w := by
  have hkept : Kept R start fun _ value => value w = start.value w :=
    { init := rfl
      takeOver := fun _ _ _ _ _ h => h
      compute := by
        intro mid c x hl _ hs hx h
        by_cases hout : (mid.con c).output = w
        · -- the value that is written is the one that is there
          have hholds : mid.Holds c := holds_of_input_none (hw hl c hs hout)
          rw [Holds, hx, Option.some.injEq] at hholds
          rw [hout, Function.update_self, hholds, hout]
          exact h
        · rw [Function.update_of_ne (Ne.symm hout)]
          exact h
      detach := fun _ _ _ h => h }
  exact hkept.holds hcoh h

/-- What is taken over is not the output of a satisfied constraint that only that constraint can
compute. -/
theorem takenOver_con_of_sole {mark : Nat} {flow : Flow} (hcoh : net.Coherent)
    (hc : (net.con c).isSatisfied = true) (hd : (net.con d).isSatisfied = false)
    (hsole : (net.con c).output ∈ (net.con d).kind.outputs → d = c) :
    (net.takenOver mark d flow).con c = net.con c := by
  have hne : c ≠ d := by
    rintro rfl
    rw [hc] at hd
    cases hd
  refine takenOver_con_of_ne hne fun hdet => hne (hsole ?_).symm
  rw [((hcoh.determines _ c).1 hdet).2]
  exact Kind.output_mem_outputs (k := (net.con d).kind)

/-- A satisfied constraint keeps its method as long as it is in the graph, if it is the only one there
that can compute its output. -/
theorem Leads.flow_eq (h : Leads R start net) (hcoh : start.Coherent)
    (hc : (start.con c).isSatisfied = true)
    (hsole : ∀ d, (start.con d).attached = true →
      (start.con c).output ∈ (start.con d).kind.outputs → d = c)
    (ha : (net.con c).attached = true) : (net.con c).flow = (start.con c).flow := by
  have hkept : Kept R start fun con _ =>
      (con c).attached = true → (con c).flow = (start.con c).flow :=
    { init := fun _ => rfl
      takeOver := by
        intro mid mark d flow hl _ had hud _ hmid ha'
        have hflow := hmid (by rwa [keeps_takenOver.attached] at ha')
        have hsat : (mid.con c).isSatisfied = true := by
          rw [Constraint.isSatisfied, hflow]
          exact hc
        have hout : (mid.con c).output = (start.con c).output := by
          rw [Constraint.output, hl.kind, hflow, Constraint.output]
        rw [takenOver_con_of_sole (hl.coherent hcoh) hsat hud, hflow]
        rw [hout, hl.kind]
        exact hsole d (hl.attached had)
      compute := fun _ _ _ _ h => h
      detach := by
        intro mid d hl _ had hmid ha'
        have hne : c ≠ d := ne_of_detached_attached (known_of_attached had) ha'
        rw [detached_con_of_ne hne] at ha' ⊢
        exact hmid ha' }
  exact hkept.holds hcoh h ha

end Network

end ConstraintHierarchy
