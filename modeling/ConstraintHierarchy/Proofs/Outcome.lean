import Mathlib.Logic.Relation
import Mathlib.Tactic.Common
import ConstraintHierarchy.Network.Plan

/-!
# Outcomes of actions

Specifications of actions in the style of Hoare: `Ends act net ok fail` says what holds after `act`
is run on `net`, with one postcondition for an answer and one for a failure, because a failing
action keeps what it has done. The rules follow the constructors of the monad, so that the
specification of an action is read off its definition. Two actions do the same on a network if their
parts do wherever they lead.

The second half views a network as two total functions, `Network.var` and `Network.con`. An id that
names nothing is given an entry that no action ever produces and that satisfies every invariant of
interest, so most statements about networks need no side condition on ids.

## Main definitions

* `Solve.Ends`: the outcome of an action
* `Network.var`, `Network.con`: total look-up
* `Network.alterVariable`, `Network.alterConstraint`: the network after one primitive write

## Main results

* `Solve.ends_bind`: the rule for sequences
* `Solve.bind_congr_at`: sequences that do the same
-/

namespace ConstraintHierarchy

namespace Solve

variable {α β : Type} {net : Network}

/-- After `act` is run on `net`, either `ok` holds of the answer and the network left, or `fail` of
the failure and the network left. -/
def Ends (act : Solve α) (net : Network) (ok : α → Network → Prop)
    (fail : Failure SolveError → Network → Prop) : Prop :=
  match act net with
  | .ok a net' => ok a net'
  | .error e net' => fail e net'

section Rules

variable {act : Solve α} {f : α → Solve β} {ok ok' : α → Network → Prop}
  {fail fail' : Failure SolveError → Network → Prop}

/-- Consequence rule: both postconditions can be weakened. -/
theorem Ends.mono (h : Ends act net ok fail) (hok : ∀ a net', ok a net' → ok' a net')
    (hfail : ∀ e net', fail e net' → fail' e net') : Ends act net ok' fail' := by
  unfold Ends at *
  split at h
  · exact hok _ _ h
  · exact hfail _ _ h

theorem Ends.mono_ok (h : Ends act net ok fail) (hok : ∀ a net', ok a net' → ok' a net') :
    Ends act net ok' fail :=
  h.mono hok fun _ _ h => h

/-- An action has one outcome, so two specifications of it hold together. -/
theorem Ends.and (h : Ends act net ok fail) (h' : Ends act net ok' fail') :
    Ends act net (fun a net' => ok a net' ∧ ok' a net')
      (fun e net' => fail e net' ∧ fail' e net') := by
  unfold Ends at *
  split at h
  next heq => simp only [heq] at h' ⊢; exact ⟨h, h'⟩
  next heq => simp only [heq] at h' ⊢; exact ⟨h, h'⟩

/-- A specification speaks about the one outcome that an action has. -/
theorem Ends.run (h : Ends act net ok fail) :
    Ends act net (fun a net' => ok a net' ∧ act net = .ok a net')
      (fun e net' => fail e net' ∧ act net = .error e net') := by
  unfold Ends at *
  split at h
  next heq => simp only [heq, and_true]; exact h
  next heq => simp only [heq, and_true]; exact h

/-- Every action ends somehow. -/
theorem ends_true : Ends act net (fun _ _ => True) (fun _ _ => True) := by
  unfold Ends
  split <;> trivial

theorem Ends.of_ok {a : α} {net' : Network} (h : Ends act net ok fail)
    (hrun : act net = .ok a net') : ok a net' := by
  simpa only [Ends, hrun] using h

theorem Ends.of_error {e : Failure SolveError} {net' : Network} (h : Ends act net ok fail)
    (hrun : act net = .error e net') : fail e net' := by
  simpa only [Ends, hrun] using h

theorem Ends.eq_ok {a : α} {net' : Network}
    (h : Ends act net (fun b net'' => b = a ∧ net'' = net') (fun _ _ => False)) :
    act net = .ok a net' := by
  unfold Ends at h
  split at h
  next hrun => rw [hrun, h.1, h.2]
  next => exact h.elim

/-- An action that cannot fail is answered. -/
theorem Ends.exists_ok (h : Ends act net ok fun _ _ => False) :
    ∃ a net', act net = .ok a net' ∧ ok a net' := by
  unfold Ends at h
  split at h
  next hrun => exact ⟨_, _, hrun, h⟩
  next => exact h.elim

/-- Postconditions that can be evaluated are checked by running the action. -/
instance Ends.decidable [∀ a net', Decidable (ok a net')] [∀ e net', Decidable (fail e net')] :
    Decidable (Ends act net ok fail) :=
  match hrun : act net with
  | .ok a net' => decidable_of_iff (ok a net') (by rw [Ends, hrun])
  | .error e net' => decidable_of_iff (fail e net') (by rw [Ends, hrun])

deriving instance DecidableEq for Failure

@[simp] theorem ends_pure {a : α} : Ends (pure a) net ok fail ↔ ok a net := Iff.rfl

@[simp] theorem ends_bind {ok : β → Network → Prop} :
    Ends (act >>= f) net ok fail ↔
      Ends act net (fun a net' => Ends (f a) net' ok fail) fail := by
  unfold Ends
  simp only [bind, EStateM.bind]
  cases act net <;> rfl

@[simp] theorem ends_throw {e : Failure SolveError} :
    Ends (throw e : Solve α) net ok fail ↔ fail e net := Iff.rfl

@[simp] theorem ends_refuse {e : SolveError} :
    Ends (refuse e : Solve α) net ok fail ↔ fail (.refused e) net := Iff.rfl

/-! ### Equal outcomes -/

theorem Ends.of_eq {act' : Solve α} {net' : Network} (heq : act net = act' net')
    (h : Ends act' net' ok fail) : Ends act net ok fail := by
  unfold Ends at *
  rwa [heq]

/-- An action is known when all that can be said about it is. -/
theorem eq_of_ends {act' : Solve α} {net' : Network}
    (h : ∀ ok fail, Ends act' net' ok fail → Ends act net ok fail) :
    act net = act' net' := by
  have hends := h _ _ ends_true.run
  unfold Ends at hends
  split at hends
  next heq => rw [heq, hends.2]
  next heq => rw [heq, hends.2]

/-- Two sequences do the same if their first parts do and their second parts do wherever the first ones
lead. -/
theorem bind_congr_at {act' : Solve α} {f' : α → Solve β} (h : act' net = act net)
    (hf : Ends act net (fun a net' => f' a net' = f a net') fun _ _ => True) :
    (act' >>= f') net = (act >>= f) net := by
  show EStateM.bind act' f' net = EStateM.bind act f net
  rw [EStateM.bind, EStateM.bind, h]
  cases hrun : act net with
  | ok a net' => exact hf.of_ok hrun
  | error e net' => rfl

theorem bind_congr_run {act' : Solve α} {f' : α → Solve β} (h : act' net = act net)
    (hf : ∀ a net', act net = .ok a net' → f' a net' = f a net') :
    (act' >>= f') net = (act >>= f) net :=
  bind_congr_at h (ends_true.run.mono (fun a net' hrun => hf a net' hrun.2) fun _ _ _ => trivial)

end Rules

section Primitives

variable {ok : Unit → Network → Prop} {fail : Failure SolveError → Network → Prop}

@[simp] theorem ends_get {ok : Network → Network → Prop} :
    Ends (get : Solve Network) net ok fail ↔ ok net net := Iff.rfl

@[simp] theorem ends_modify {f : Network → Network} :
    Ends (modify f : Solve Unit) net ok fail ↔ ok () (f net) := Iff.rfl

@[simp] theorem ends_note {e : Event} :
    Ends (note e) net ok fail ↔ ok () { net with journal := net.journal.push e } := Iff.rfl

@[simp] theorem ends_freshMark {ok : Nat → Network → Prop} :
    Ends freshMark net ok fail ↔ ok (net.mark + 1) { net with mark := net.mark + 1 } := Iff.rfl

end Primitives

end Solve

/-! ## Total look-up -/

namespace Network

variable (net : Network)

/-- The variable with the given id; an unknown id stands for a variable that nothing computes. -/
def var (v : VariableId) : Variable := (net.getVariable? v).getD { name := "", value := 0 }

/-- The constraint with the given id; an unknown id stands for a destroyed constraint. -/
def con (c : ConstraintId) : Constraint :=
  (net.getConstraint? c).getD { kind := .stay ⟨0⟩, strength := .weakest }

/-- The network after the variable `v` is rewritten. -/
def alterVariable (v : VariableId) (f : Variable → Variable) : Network :=
  { net with vars := net.vars.modify v.index f }

/-- The network after the constraint `c` is rewritten. -/
def alterConstraint (c : ConstraintId) (f : Constraint → Constraint) : Network :=
  { net with constraints := net.constraints.modify c.index f }

variable {net}

theorem getVariable?_eq_var {v : VariableId} (h : v.index < net.vars.size) :
    net.getVariable? v = some (net.var v) := by
  simp [var, getVariable?, Array.getElem?_eq_getElem h]

theorem getConstraint?_eq_con {c : ConstraintId} (h : c.index < net.constraints.size) :
    net.getConstraint? c = some (net.con c) := by
  simp [con, getConstraint?, Array.getElem?_eq_getElem h]

theorem getVariable?_eq_some {v : VariableId} {x : Variable} :
    net.getVariable? v = some x ↔ v.index < net.vars.size ∧ net.var v = x := by
  constructor
  · intro h
    have hv : v.index < net.vars.size := (Array.getElem?_eq_some_iff.1 h).1
    rw [getVariable?_eq_var hv, Option.some.injEq] at h
    exact ⟨hv, h⟩
  · rintro ⟨hv, rfl⟩
    exact getVariable?_eq_var hv

theorem getConstraint?_eq_some {c : ConstraintId} {k : Constraint} :
    net.getConstraint? c = some k ↔ c.index < net.constraints.size ∧ net.con c = k := by
  constructor
  · intro h
    have hc : c.index < net.constraints.size := (Array.getElem?_eq_some_iff.1 h).1
    rw [getConstraint?_eq_con hc, Option.some.injEq] at h
    exact ⟨hc, h⟩
  · rintro ⟨hc, rfl⟩
    exact getConstraint?_eq_con hc

theorem var_of_unknown {v : VariableId} (h : ¬ v.index < net.vars.size) :
    net.var v = { name := "", value := 0 } := by
  simp [var, getVariable?, Array.getElem?_eq_none (Nat.le_of_not_lt h)]

theorem con_of_unknown {c : ConstraintId} (h : ¬ c.index < net.constraints.size) :
    net.con c = { kind := .stay ⟨0⟩, strength := .weakest } := by
  simp [con, getConstraint?, Array.getElem?_eq_none (Nat.le_of_not_lt h)]

theorem getVariable?_congr {net' : Network} {v : VariableId}
    (hsize : net'.vars.size = net.vars.size) (hvar : net'.var v = net.var v) :
    net'.getVariable? v = net.getVariable? v := by
  by_cases hk : v.index < net.vars.size
  · rw [getVariable?_eq_var hk, getVariable?_eq_var (by rwa [hsize]), hvar]
  · rw [getVariable?, getVariable?, Array.getElem?_eq_none (by omega),
      Array.getElem?_eq_none (by omega)]

/-- Only a constraint of the network can be part of the graph. -/
theorem known_of_attached {c : ConstraintId} (h : (net.con c).attached = true) :
    c.index < net.constraints.size := by
  by_contra hc
  simp [con_of_unknown hc] at h

theorem known_of_isSatisfied {c : ConstraintId} (h : (net.con c).isSatisfied = true) :
    c.index < net.constraints.size := by
  by_contra hc
  simp [con_of_unknown hc, Constraint.isSatisfied] at h

theorem con_congr {net' : Network} (h : net'.constraints = net.constraints) :
    net'.con = net.con := by
  funext c
  simp [con, getConstraint?, h]

theorem var_congr {net' : Network} (h : net'.vars = net.vars) : net'.var = net.var := by
  funext v
  simp [var, getVariable?, h]

/-! ### After a write -/

section Alter

variable {v w : VariableId} {c d : ConstraintId} {f : Variable → Variable}
  {g : Constraint → Constraint}

@[simp] theorem alterVariable_constraints : (net.alterVariable v f).constraints = net.constraints :=
  rfl

@[simp] theorem alterVariable_mark : (net.alterVariable v f).mark = net.mark := rfl

@[simp] theorem alterVariable_size : (net.alterVariable v f).vars.size = net.vars.size := by
  simp [alterVariable]

@[simp] theorem alterVariable_con : (net.alterVariable v f).con c = net.con c := rfl

theorem alterVariable_var_self (h : v.index < net.vars.size) :
    (net.alterVariable v f).var v = f (net.var v) := by
  have hv : net.vars[v.index]? = some (net.var v) := getVariable?_eq_var h
  rw [var, getVariable?, alterVariable, Array.getElem?_modify, if_pos rfl, hv]
  rfl

theorem alterVariable_var_of_ne (h : w ≠ v) : (net.alterVariable v f).var w = net.var w := by
  have hi : v.index ≠ w.index := by
    intro hi
    apply h
    cases v
    cases w
    simp_all
  simp [alterVariable, var, getVariable?, Array.getElem?_modify, hi]

/-- What the rewriting leaves alone is the same at every id, known or not. -/
theorem alterVariable_var_field {γ : Type} {p : Variable → γ} (hp : ∀ x, p (f x) = p x) :
    p ((net.alterVariable v f).var w) = p (net.var w) := by
  by_cases hw : w = v
  · subst hw
    by_cases hv : w.index < net.vars.size
    · rw [alterVariable_var_self hv, hp]
    · rw [var_of_unknown hv, var_of_unknown (by simpa using hv)]
  · rw [alterVariable_var_of_ne hw]

@[simp] theorem alterConstraint_vars : (net.alterConstraint c g).vars = net.vars := rfl

@[simp] theorem alterConstraint_mark : (net.alterConstraint c g).mark = net.mark := rfl

@[simp] theorem alterConstraint_size :
    (net.alterConstraint c g).constraints.size = net.constraints.size := by
  simp [alterConstraint]

@[simp] theorem alterConstraint_var : (net.alterConstraint c g).var v = net.var v := rfl

theorem alterConstraint_con_self (h : c.index < net.constraints.size) :
    (net.alterConstraint c g).con c = g (net.con c) := by
  have hc : net.constraints[c.index]? = some (net.con c) := getConstraint?_eq_con h
  rw [con, getConstraint?, alterConstraint, Array.getElem?_modify, if_pos rfl, hc]
  rfl

theorem alterConstraint_con_of_ne (h : d ≠ c) : (net.alterConstraint c g).con d = net.con d := by
  have hi : c.index ≠ d.index := by
    intro hi
    apply h
    cases c
    cases d
    simp_all
  simp [alterConstraint, con, getConstraint?, Array.getElem?_modify, hi]

theorem alterConstraint_con_field {γ : Type} {p : Constraint → γ} (hp : ∀ k, p (g k) = p k) :
    p ((net.alterConstraint c g).con d) = p (net.con d) := by
  by_cases hd : d = c
  · subst hd
    by_cases hc : d.index < net.constraints.size
    · rw [alterConstraint_con_self hc, hp]
    · rw [con_of_unknown hc, con_of_unknown (by simpa using hc)]
  · rw [alterConstraint_con_of_ne hd]

end Alter

end Network

/-! ## Reads and writes of known ids -/

namespace Solve

variable {net : Network} {fail : Failure SolveError → Network → Prop}

theorem ends_readVariable {v : VariableId} {ok : Variable → Network → Prop}
    (h : v.index < net.vars.size) :
    Ends (readVariable v) net ok fail ↔ ok (net.var v) net := by
  simp [readVariable, Network.getVariable?_eq_var h]

theorem ends_readConstraint {c : ConstraintId} {ok : Constraint → Network → Prop}
    (h : c.index < net.constraints.size) :
    Ends (readConstraint c) net ok fail ↔ ok (net.con c) net := by
  simp [readConstraint, Network.getConstraint?_eq_con h]

theorem ends_updateVariable {v : VariableId} {f : Variable → Variable}
    {ok : Unit → Network → Prop} (h : v.index < net.vars.size) :
    Ends (updateVariable v f) net ok fail ↔ ok () (net.alterVariable v f) := by
  simp [updateVariable, h, Network.alterVariable]

theorem ends_updateConstraint {c : ConstraintId} {f : Constraint → Constraint}
    {ok : Unit → Network → Prop} (h : c.index < net.constraints.size) :
    Ends (updateConstraint c f) net ok fail ↔ ok () (net.alterConstraint c f) := by
  simp [updateConstraint, h, Network.alterConstraint]

theorem ends_readVariables {vs : List VariableId} {ok : List Variable → Network → Prop}
    (h : ∀ v ∈ vs, v.index < net.vars.size) :
    Ends (readVariables vs) net ok fail ↔ ok (vs.map net.var) net := by
  induction vs generalizing ok with
  | nil => simp [readVariables]
  | cons v vs ih =>
    have hv := h v (by simp)
    have hvs := fun w hw => h w (List.mem_cons_of_mem v hw)
    simp only [readVariables, ends_bind, ends_readVariable hv, ih hvs, ends_pure, List.map_cons]

theorem ends_readValue {v : VariableId} {ok : Float → Network → Prop}
    (h : v.index < net.vars.size) :
    Ends (readValue v) net ok fail ↔ ok (net.var v).value net := by
  simp only [readValue, ends_bind, ends_readVariable h, ends_pure]

theorem ends_setValue {v : VariableId} {value : Float} {ok : Unit → Network → Prop}
    (h : v.index < net.vars.size) :
    Ends (setValue v value) net ok fail ↔
      ok () (net.alterVariable v fun x => { x with value := value }) := by
  simp [setValue, ends_updateVariable h]

end Solve

end ConstraintHierarchy
