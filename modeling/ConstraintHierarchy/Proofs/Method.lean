import Mathlib.Logic.Function.Iterate
import ConstraintHierarchy.Proofs.Outcome

/-!
# What single methods do

The actions of one constraint as functions of the network: which method is chosen, what is computed,
how the output is annotated, who reads a variable. Every action of `ConstraintHierarchy.Network.Method`
gets one rule that replaces it by such a function; later proofs cite the rules and do not open the
actions again.

## Main definitions

* `Constraint.compute`: the value that a method gives its output
* `Network.annotationFor`, `Network.recalculated`: the output of a constraint brought up to date
* `Network.consumersOf`: the satisfied constraints that read a variable
* `Network.flowFor`: the method that a constraint can choose
-/

namespace ConstraintHierarchy

/-! ## Variables of a constraint -/

namespace Kind

variable {k : Kind} {flow : Option Flow} {v : VariableId}

theorem output_mem_outputs : k.output flow ∈ k.outputs := by
  cases k with
  | stay v => simp [output, outputs]
  | edit v => simp [output, outputs]
  | equal a b => rcases flow with _ | _ | _ <;> simp [output, outputs]
  | scale a b factor offset => rcases flow with _ | _ | _ <;> simp [output, outputs]

theorem mem_operands_of_mem_outputs (h : v ∈ k.outputs) : v ∈ k.operands := by
  cases k <;> simp_all [outputs, operands]
  case scale => tauto

/-- A constraint mentions its output, its input and its parameters, and nothing else. -/
theorem mem_operands_iff :
    v ∈ k.operands ↔ v = k.output flow ∨ k.input flow = some v ∨ v ∈ k.parameters := by
  cases k with
  | stay w => simp [operands, output, input, parameters]
  | edit w => simp [operands, output, input, parameters]
  | equal a b =>
    rcases flow with _ | _ | _ <;> simp [operands, output, input, parameters, eq_comm, or_comm]
  | scale a b factor offset =>
    rcases flow with _ | _ | _
    · simp [operands, output, input, parameters, eq_comm]
    · simp [operands, output, input, parameters, eq_comm]
      tauto
    · simp [operands, output, input, parameters, eq_comm]

/-- The possible outputs are the output and the input of any one method. -/
theorem mem_outputs_iff : v ∈ k.outputs ↔ v = k.output flow ∨ k.input flow = some v := by
  cases k with
  | stay w => simp [outputs, output, input]
  | edit w => simp [outputs, output, input]
  | equal a b => rcases flow with _ | _ | _ <;> simp [outputs, output, input, eq_comm, or_comm]
  | scale a b factor offset =>
    rcases flow with _ | _ | _ <;> simp [outputs, output, input, eq_comm, or_comm]

/-- Only a stay or an edit has no input. -/
theorem input_eq_none_iff : k.input flow = none ↔ ∃ w, k = .stay w ∨ k = .edit w := by
  cases k with
  | stay w => simp [input]
  | edit w => simp [input]
  | equal a b => rcases flow with _ | _ | _ <;> simp [input]
  | scale a b factor offset => rcases flow with _ | _ | _ <;> simp [input]

theorem operands_edit_lt {n : Nat} (h : v.index < n) : ∀ w ∈ (edit v).operands, w.index < n := by
  simpa [operands] using h

end Kind

namespace Constraint

variable {k : Constraint} {v : VariableId}

theorem mem_reads : v ∈ k.reads ↔ k.input = some v ∨ v ∈ k.kind.parameters := by
  simp [reads, eq_comm]

/-- What has no input has no parameters either. -/
theorem reads_eq_nil (h : k.input = none) : k.reads = [] := by
  obtain ⟨w, hk | hk⟩ := Kind.input_eq_none_iff.1 h
  · simp [reads, h, hk, Kind.parameters]
  · simp [reads, h, hk, Kind.parameters]

/-- An edit reads nothing. -/
theorem input_of_isInput (h : k.isInput = true) : k.input = none := by
  obtain ⟨kind, strength, flow, attached⟩ := k
  cases kind with
  | edit w => rfl
  | _ => simp [isInput, Kind.isInput] at h

theorem mem_operands_iff : v ∈ k.kind.operands ↔ v = k.output ∨ v ∈ k.reads := by
  rw [mem_reads]
  exact Kind.mem_operands_iff

theorem mem_outputs_iff : v ∈ k.kind.outputs ↔ v = k.output ∨ k.input = some v :=
  Kind.mem_outputs_iff

theorem output_mem_operands : k.output ∈ k.kind.operands := mem_operands_iff.2 (.inl rfl)

theorem mem_operands_of_mem_reads (h : v ∈ k.reads) : v ∈ k.kind.operands :=
  mem_operands_iff.2 (.inr h)

theorem isSatisfied_iff : k.isSatisfied = true ↔ ∃ flow, k.flow = some flow := by
  simp [isSatisfied, Option.isSome_iff_exists]

theorem not_isSatisfied_iff : k.isSatisfied = false ↔ k.flow = none := by
  simp [isSatisfied]

/-- The value that the method of `k` gives its output, if it can be computed. A unary constraint
leaves its variable alone. -/
def compute (k : Constraint) (value : VariableId → Float) : Option Float :=
  match k.kind with
  | .stay v | .edit v => some (value v)
  | .equal a b => some (if k.flow = some .forward then value a else value b)
  | .scale a b factor offset =>
    if k.flow = some .forward then some (value a * value factor + value offset)
    else if value factor == 0.0 then none
    else some ((value b - value offset) / value factor)

end Constraint

/-! ## Functions of the network -/

namespace Network

variable (net : Network)

def value (v : VariableId) : Float := (net.var v).value

/-- The annotation that the method of `c` gives its output. -/
def annotationFor (c : ConstraintId) : Annotation :=
  Constraint.annotation (net.con c) ((net.con c).input.map net.var)
    ((net.con c).kind.parameters.map net.var)

/-- The output of `c` would have to be computed by a division by zero. -/
def DividesByZero (c : ConstraintId) : Prop :=
  (net.annotationFor c).stay = true ∧ (net.con c).compute net.value = none

/-- What is left of `x` when `c` brings it up to date. -/
def refreshed (c : ConstraintId) (x : Variable) : Variable :=
  { x.annotate (net.annotationFor c) with
    value :=
      if (net.annotationFor c).stay then ((net.con c).compute net.value).getD x.value else x.value }

/-- The network after `c` has brought its output up to date. -/
def recalculated (c : ConstraintId) : Network :=
  net.alterVariable (net.con c).output (net.refreshed c)

/-- The satisfied constraints that mention `v` without computing it. -/
def consumersOf (v : VariableId) : List ConstraintId :=
  ((net.var v).constraints.filter ((net.var v).determinedBy ≠ some ·)).filter
    fun c => (net.con c).isSatisfied

/-- `found` with the unsatisfied constraints among `cs`, each once. -/
def withUnsatisfied (found cs : List ConstraintId) : List ConstraintId :=
  cs.foldl (fun found c =>
    if (net.con c).isSatisfied || found.contains c then found else found ++ [c]) found

/-- The method that `c` can choose in the walk `mark`. -/
def flowFor (mark : Nat) (c : ConstraintId) : Option Flow :=
  match (net.con c).kind with
  | .stay v | .edit v => unaryFlow (net.con c).strength mark (net.var v)
  | .equal a b | .scale a b _ _ => binaryFlow (net.con c).strength mark (net.var a) (net.var b)

/-- The network after every listed variable is rewritten, once per mention. -/
def alterVariables (vs : List VariableId) (f : Variable → Variable) : Network :=
  vs.foldl (fun net v => net.alterVariable v f) net

variable {net}

theorem mem_withUnsatisfied {found cs : List ConstraintId} {d : ConstraintId} :
    d ∈ net.withUnsatisfied found cs ↔ d ∈ found ∨ (d ∈ cs ∧ (net.con d).isSatisfied = false) := by
  unfold withUnsatisfied
  induction cs generalizing found with
  | nil => simp
  | cons c cs ih =>
    rw [List.foldl_cons, ih]
    by_cases hs : (net.con c).isSatisfied = true
    · simp only [hs, Bool.true_or, if_true, List.mem_cons]
      grind
    · by_cases hf : c ∈ found
      · simp only [List.contains_iff_mem.2 hf, Bool.or_true, if_true, List.mem_cons]
        grind
      · have hc : found.contains c = false := by simpa using hf
        simp only [hs, hc, Bool.or_self, Bool.false_eq_true, if_false, List.mem_append,
          List.mem_cons]
        grind

section AlterVariables

variable {vs : List VariableId} {f : Variable → Variable} {w : VariableId}

@[simp] theorem alterVariables_constraints :
    (net.alterVariables vs f).constraints = net.constraints := by
  unfold alterVariables
  induction vs generalizing net with
  | nil => rfl
  | cons v vs ih => rw [List.foldl_cons, ih, alterVariable_constraints]

@[simp] theorem alterVariables_mark : (net.alterVariables vs f).mark = net.mark := by
  unfold alterVariables
  induction vs generalizing net with
  | nil => rfl
  | cons v vs ih => rw [List.foldl_cons, ih, alterVariable_mark]

@[simp] theorem alterVariables_size : (net.alterVariables vs f).vars.size = net.vars.size := by
  unfold alterVariables
  induction vs generalizing net with
  | nil => rfl
  | cons v vs ih => rw [List.foldl_cons, ih, alterVariable_size]

@[simp] theorem alterVariables_con : (net.alterVariables vs f).con = net.con :=
  con_congr alterVariables_constraints

/-- A variable is rewritten as often as it is listed. -/
theorem alterVariables_var (h : ∀ v ∈ vs, v.index < net.vars.size) :
    (net.alterVariables vs f).var w = f^[vs.count w] (net.var w) := by
  induction vs generalizing net with
  | nil => rfl
  | cons v vs ih =>
    have hv : v.index < net.vars.size := h v (by simp)
    have hvs : ∀ u ∈ vs, u.index < (net.alterVariable v f).vars.size := by
      intro u hu
      rw [alterVariable_size]
      exact h u (List.mem_cons_of_mem v hu)
    change ((net.alterVariable v f).alterVariables vs f).var w = _
    rw [ih hvs]
    by_cases hw : w = v
    · subst hw
      rw [alterVariable_var_self hv, List.count_cons_self, Function.iterate_succ_apply]
    · rw [alterVariable_var_of_ne hw, List.count_cons_of_ne (Ne.symm hw)]

theorem alterVariables_var_field {γ : Type} {p : Variable → γ} (hp : ∀ x, p (f x) = p x) :
    p ((net.alterVariables vs f).var w) = p (net.var w) := by
  unfold alterVariables
  induction vs generalizing net with
  | nil => rfl
  | cons v vs ih => rw [List.foldl_cons, ih, alterVariable_var_field hp]

end AlterVariables

theorem alterVariable_alterVariable {v : VariableId} {f g : Variable → Variable} :
    (net.alterVariable v f).alterVariable v g = net.alterVariable v fun x => g (f x) := by
  have hvars : (net.vars.modify v.index f).modify v.index g =
      net.vars.modify v.index fun x => g (f x) := by
    apply Array.ext_getElem?
    intro i
    simp only [Array.getElem?_modify]
    split
    next => cases net.vars[i]? <;> rfl
    next => rfl
  simp only [alterVariable, hvars]

/-- Rewriting a variable by itself changes nothing. -/
theorem alterVariable_eq_self {v : VariableId} {f : Variable → Variable}
    (h : v.index < net.vars.size) (hf : f (net.var v) = net.var v) :
    net.alterVariable v f = net := by
  have hv : net.vars[v.index]? = some (net.var v) := getVariable?_eq_var h
  have hvars : net.vars.modify v.index f = net.vars := by
    apply Array.ext_getElem?
    intro i
    rw [Array.getElem?_modify]
    split
    next hi => rw [← hi, hv, Option.map_some, hf]
    next => rfl
  rw [alterVariable, hvars]

theorem alterConstraint_eq_self {c : ConstraintId} {g : Constraint → Constraint}
    (h : c.index < net.constraints.size) (hg : g (net.con c) = net.con c) :
    net.alterConstraint c g = net := by
  have hc : net.constraints[c.index]? = some (net.con c) := getConstraint?_eq_con h
  have hcons : net.constraints.modify c.index g = net.constraints := by
    apply Array.ext_getElem?
    intro i
    rw [Array.getElem?_modify]
    split
    next hi => rw [← hi, hc, Option.map_some, hg]
    next => rfl
  rw [alterConstraint, hcons]

/-! ### A recalculated output -/

section Recalculated

variable {c : ConstraintId} {v : VariableId}

@[simp] theorem recalculated_constraints : (net.recalculated c).constraints = net.constraints := rfl

@[simp] theorem recalculated_mark : (net.recalculated c).mark = net.mark := rfl

@[simp] theorem recalculated_size : (net.recalculated c).vars.size = net.vars.size := by
  simp [recalculated]

@[simp] theorem recalculated_con : (net.recalculated c).con = net.con := rfl

theorem recalculated_var_of_ne (h : v ≠ (net.con c).output) :
    (net.recalculated c).var v = net.var v :=
  alterVariable_var_of_ne h

theorem recalculated_var_output (h : (net.con c).output.index < net.vars.size) :
    (net.recalculated c).var (net.con c).output = net.refreshed c (net.var (net.con c).output) :=
  alterVariable_var_self h

@[simp] theorem recalculated_listed :
    ((net.recalculated c).var v).constraints = (net.var v).constraints :=
  alterVariable_var_field fun _ => rfl

@[simp] theorem recalculated_determinedBy :
    ((net.recalculated c).var v).determinedBy = (net.var v).determinedBy :=
  alterVariable_var_field fun _ => rfl

@[simp] theorem recalculated_marks : ((net.recalculated c).var v).mark = (net.var v).mark :=
  alterVariable_var_field fun _ => rfl

@[simp] theorem recalculated_consumersOf {w : VariableId} :
    (net.recalculated c).consumersOf w = net.consumersOf w := by
  simp [consumersOf]

end Recalculated

end Network

/-! ## Rules for the actions -/

namespace Network

open Solve

variable {net : Network} {fail : Failure SolveError → Network → Prop} {c : ConstraintId}

theorem ends_attachTo {vs : List VariableId} {ok : Unit → Network → Prop}
    (h : ∀ v ∈ vs, v.index < net.vars.size) :
    Ends (attachTo c vs) net ok fail ↔ ok () (net.alterVariables vs (·.attach c)) := by
  induction vs generalizing net with
  | nil => rfl
  | cons v vs ih =>
    have hv : v.index < net.vars.size := h v (by simp)
    rw [attachTo, ends_bind, ends_updateVariable hv, ih (by simpa using fun u hu => h u (by simp [hu]))]
    rfl

theorem ends_detachFrom {vs : List VariableId} {ok : Unit → Network → Prop}
    (h : ∀ v ∈ vs, v.index < net.vars.size) :
    Ends (detachFrom c vs) net ok fail ↔ ok () (net.alterVariables vs (·.detach c)) := by
  induction vs generalizing net with
  | nil => rfl
  | cons v vs ih =>
    have hv : v.index < net.vars.size := h v (by simp)
    rw [detachFrom, ends_bind, ends_updateVariable hv,
      ih (by simpa using fun u hu => h u (by simp [hu]))]
    rfl

theorem ends_markAll {mark : Nat} {vs : List VariableId} {ok : Unit → Network → Prop}
    (h : ∀ v ∈ vs, v.index < net.vars.size) :
    Ends (markAll mark vs) net ok fail ↔
      ok () (net.alterVariables vs fun x => { x with mark := mark }) := by
  induction vs generalizing net with
  | nil => rfl
  | cons v vs ih =>
    have hv : v.index < net.vars.size := h v (by simp)
    rw [markAll, ends_bind, ends_updateVariable hv,
      ih (by simpa using fun u hu => h u (by simp [hu]))]
    rfl

/-- Takes `c` out of the graph. -/
def detached (net : Network) (c : ConstraintId) : Network :=
  (net.alterVariables (net.con c).kind.operands (·.detach c)).alterConstraint c
    fun k => { k with flow := none, attached := false }

theorem ends_detach {ok : Unit → Network → Prop} (hc : c.index < net.constraints.size)
    (h : ∀ v ∈ (net.con c).kind.operands, v.index < net.vars.size) :
    Ends (detach c) net ok fail ↔ ok () (net.detached c) := by
  rw [detach, ends_bind, ends_readConstraint hc, ends_bind, ends_detachFrom h,
    ends_updateConstraint (by simpa using hc)]
  rfl

theorem ends_chooseFlow {mark : Nat} {ok : Option Flow → Network → Prop}
    (hc : c.index < net.constraints.size)
    (h : ∀ v ∈ (net.con c).kind.operands, v.index < net.vars.size) :
    Ends (chooseFlow mark c) net ok fail ↔ ok (net.flowFor mark c) net := by
  rw [chooseFlow, ends_bind, ends_readConstraint hc, flowFor]
  cases hk : (net.con c).kind with
  | stay v =>
    have hv := h v (by simp [hk, Kind.operands])
    simp only [ends_bind, ends_readVariable hv, ends_pure]
  | edit v =>
    have hv := h v (by simp [hk, Kind.operands])
    simp only [ends_bind, ends_readVariable hv, ends_pure]
  | equal a b =>
    have ha := h a (by simp [hk, Kind.operands])
    have hb := h b (by simp [hk, Kind.operands])
    simp only [ends_bind, ends_readVariable ha, ends_readVariable hb, ends_pure]
  | scale a b factor offset =>
    have ha := h a (by simp [hk, Kind.operands])
    have hb := h b (by simp [hk, Kind.operands])
    simp only [ends_bind, ends_readVariable ha, ends_readVariable hb, ends_pure]

theorem ends_execute {ok : Unit → Network → Prop} (hc : c.index < net.constraints.size)
    (h : ∀ v ∈ (net.con c).kind.operands, v.index < net.vars.size) :
    Ends (execute c) net ok fail ↔
      (∀ value, (net.con c).compute net.value = some value →
        ok () (net.alterVariable (net.con c).output fun x => { x with value := value })) ∧
      ((net.con c).compute net.value = none → fail (.refused (.divisionByZero c)) net) := by
  rw [execute, ends_bind, ends_readConstraint hc]
  -- a unary constraint computes nothing; the value it writes back is the one already there
  have keep : ∀ v : VariableId, v.index < net.vars.size →
      net.alterVariable v (fun x => { x with value := (net.var v).value }) = net :=
    fun v hv => alterVariable_eq_self hv rfl
  cases hk : (net.con c).kind with
  | stay v =>
    have hv := h v (by simp [hk, Kind.operands])
    simp [Constraint.compute, hk, value, Constraint.output, Kind.output, keep v hv]
  | edit v =>
    have hv := h v (by simp [hk, Kind.operands])
    simp [Constraint.compute, hk, value, Constraint.output, Kind.output, keep v hv]
  | equal a b =>
    have ha := h a (by simp [hk, Kind.operands])
    have hb := h b (by simp [hk, Kind.operands])
    by_cases hf : (net.con c).flow = some .forward
    · simp [Constraint.compute, hk, hf, value, Constraint.output, Kind.output,
        ends_readValue ha, ends_setValue hb]
    · have ho : (net.con c).output = a := by
        rw [Constraint.output, hk]
        rcases hflow : (net.con c).flow with _ | _ | _ <;> simp_all [Kind.output]
      simp [Constraint.compute, hk, hf, value, ho, ends_readValue hb, ends_setValue ha]
  | scale a b factor offset =>
    have ha := h a (by simp [hk, Kind.operands])
    have hb := h b (by simp [hk, Kind.operands])
    have hm := h factor (by simp [hk, Kind.operands])
    have hd := h offset (by simp [hk, Kind.operands])
    by_cases hf : (net.con c).flow = some .forward
    · simp [Constraint.compute, hk, hf, value, Constraint.output, Kind.output,
        ends_readValue ha, ends_readValue hm, ends_readValue hd, ends_setValue hb]
    · have ho : (net.con c).output = a := by
        rw [Constraint.output, hk]
        rcases hflow : (net.con c).flow with _ | _ | _ <;> simp_all [Kind.output]
      simp only [ends_bind, ends_readValue hm, ends_readValue hd, hf, if_false,
        Constraint.compute, hk, value, ho]
      split
      next hz => simp [hz]
      next hz => simp [hz, ends_readValue hb, ends_setValue ha]

/-- A constraint brings its output up to date; the annotation is kept even if the value cannot be
computed. -/
theorem ends_recalculate {ok : Unit → Network → Prop} (hc : c.index < net.constraints.size)
    (h : ∀ v ∈ (net.con c).kind.operands, v.index < net.vars.size) :
    Ends (recalculate c) net ok fail ↔
      (¬ net.DividesByZero c → ok () (net.recalculated c)) ∧
      (net.DividesByZero c → fail (.refused (.divisionByZero c)) (net.recalculated c)) := by
  have hreads : ∀ v ∈ (net.con c).reads, v.index < net.vars.size :=
    fun v hv => h v (Constraint.mem_operands_of_mem_reads hv)
  have hinput : ∀ v ∈ (net.con c).input.toList, v.index < net.vars.size :=
    fun v hv => hreads v (by simp [Constraint.reads, hv])
  have hparams : ∀ v ∈ (net.con c).kind.parameters, v.index < net.vars.size :=
    fun v hv => hreads v (by simp [Constraint.reads, hv])
  have hout : (net.con c).output.index < net.vars.size := h _ Constraint.output_mem_operands
  have hhead : ((net.con c).input.toList.map net.var).head? = (net.con c).input.map net.var := by
    cases (net.con c).input <;> rfl
  have hvalue : (net.alterVariable (net.con c).output (·.annotate (net.annotationFor c))).value =
      net.value := by
    funext v
    exact alterVariable_var_field fun _ => rfl
  rw [recalculate, ends_bind, ends_readConstraint hc, ends_bind, ends_readVariables hinput,
    ends_bind, ends_readVariables hparams, hhead, ends_bind, ends_updateVariable hout]
  change Ends (if (net.annotationFor c).stay then execute c else pure ())
    (net.alterVariable (net.con c).output (·.annotate (net.annotationFor c))) ok fail ↔ _
  cases hs : (net.annotationFor c).stay with
  | false =>
    have hfresh : net.refreshed c = (·.annotate (net.annotationFor c)) := by
      funext x
      simp [refreshed, hs, Variable.annotate]
    simp [DividesByZero, hs, recalculated, hfresh]
  | true =>
    rw [if_pos rfl, ends_execute (by simpa using hc) (by simpa using h), hvalue]
    simp only [alterVariable_con, alterVariable_alterVariable]
    cases hv : (net.con c).compute net.value with
    | none =>
      have hfresh : net.refreshed c = (·.annotate (net.annotationFor c)) := by
        funext x
        simp [refreshed, hs, hv, Variable.annotate]
      simp [DividesByZero, hs, hv, recalculated, hfresh]
    | some value =>
      have hfresh : net.refreshed c =
          fun x => { x.annotate (net.annotationFor c) with value := value } := by
        funext x
        simp [refreshed, hs, hv, Variable.annotate]
      simp [DividesByZero, hs, hv, recalculated, hfresh]

theorem ends_satisfiedAmong {cs : List ConstraintId} {ok : List ConstraintId → Network → Prop}
    (h : ∀ d ∈ cs, d.index < net.constraints.size) :
    Ends (satisfiedAmong cs) net ok fail ↔
      ok (cs.filter fun d => (net.con d).isSatisfied) net := by
  induction cs generalizing ok with
  | nil => rfl
  | cons d cs ih =>
    have hd := h d (by simp)
    have hcs := fun e he => h e (List.mem_cons_of_mem d he)
    rw [satisfiedAmong, ends_bind, ends_readConstraint hd, ends_bind, ih hcs, ends_pure,
      List.filter_cons]

theorem ends_consumers {v : VariableId} {ok : List ConstraintId → Network → Prop}
    (hv : v.index < net.vars.size)
    (h : ∀ d ∈ (net.var v).constraints, d.index < net.constraints.size) :
    Ends (consumers v) net ok fail ↔ ok (net.consumersOf v) net := by
  rw [consumers, ends_bind, ends_readVariable hv,
    ends_satisfiedAmong fun d hd => h d (List.mem_filter.1 hd).1]
  rfl

theorem ends_collectUnsatisfied {found cs : List ConstraintId}
    {ok : List ConstraintId → Network → Prop} (h : ∀ d ∈ cs, d.index < net.constraints.size) :
    Ends (collectUnsatisfied found cs) net ok fail ↔ ok (net.withUnsatisfied found cs) net := by
  induction cs generalizing found with
  | nil => rfl
  | cons d cs ih =>
    have hd := h d (by simp)
    have hcs := fun e he => h e (List.mem_cons_of_mem d he)
    rw [collectUnsatisfied, ends_bind, ends_readConstraint hd, withUnsatisfied, List.foldl_cons]
    split
    next => exact ih hcs
    next => exact ih hcs

end Network

end ConstraintHierarchy
