import ConstraintHierarchy.Proofs.Exactness

/-!
# Actions that leave the solution alone

Reading, assigning values, extracting plans and replaying them change values, marks and the journal,
but neither the graph nor the annotations. Such an action is quiet whatever ids it is given: an
unknown one stops it, and what it has done so far was quiet.

## Main definitions

* `Network.MarksPast`: no variable is marked by a walk to come
* `Network.Quiet`: a change that leaves the solution alone
* `Solve.Quietly`: an action that makes only such changes

## Main results

* `Network.quietly_makePlan`, `Network.quietly_extractPlan`, `Network.quietly_runPlan`,
  `Network.quietly_replay`
-/

namespace ConstraintHierarchy

namespace Network

/-- No variable carries the number of a walk to come. -/
def MarksPast (net : Network) : Prop := ∀ v, (net.var v).mark ≤ net.mark

/-- From `net` to `net'` only values, marks, the number of the latest walk and the journal change. -/
structure Quiet (net net' : Network) : Prop extends SameSolution net net' where
  later : net.mark ≤ net'.mark
  marksPast : net.MarksPast → net'.MarksPast

theorem Quiet.refl (net : Network) : Quiet net net := ⟨.refl net, Nat.le_refl _, fun h => h⟩

theorem Quiet.trans {net net' net'' : Network} (h : Quiet net net') (h' : Quiet net' net'') :
    Quiet net net'' :=
  ⟨h.toSameSolution.trans h'.toSameSolution, Nat.le_trans h.later h'.later,
    fun hm => h'.marksPast (h.marksPast hm)⟩

/-- Rewriting a variable is quiet if it keeps the graph and the annotation and gives no mark but one
of a walk that has started. -/
theorem quiet_alterVariable {net : Network} {v : VariableId} {f : Variable → Variable}
    (hl : ∀ x, (f x).constraints = x.constraints)
    (hd : ∀ x, (f x).determinedBy = x.determinedBy) (hc : ∀ x, (f x).current = x.current)
    (hm : ∀ x, (f x).mark = x.mark ∨ (f x).mark ≤ net.mark) :
    Quiet net (net.alterVariable v f) := by
  refine ⟨sameSolution_alterVariable hl hd hc, Nat.le_refl _, ?_⟩
  intro h w
  rw [alterVariable_mark]
  by_cases hw : w = v
  · subst hw
    by_cases hk : w.index < net.vars.size
    · rw [alterVariable_var_self hk]
      rcases hm (net.var w) with heq | hle
      · rw [heq]
        exact h w
      · exact hle
    · rw [var_of_unknown (by simpa using hk)]
      exact Nat.zero_le _
  · rw [alterVariable_var_of_ne hw]
    exact h w

theorem quiet_freshMark {net : Network} : Quiet net { net with mark := net.mark + 1 } :=
  ⟨sameSolution_of_eq rfl rfl, Nat.le_succ _, fun h v => Nat.le_succ_of_le (h v)⟩

theorem quiet_note {net : Network} {e : Event} :
    Quiet net { net with journal := net.journal.push e } :=
  ⟨sameSolution_of_eq rfl rfl, Nat.le_refl _, fun h => h⟩

theorem quiet_unwound {net : Network} {before : Array Variable} {c : ConstraintId} {v : VariableId}
    (hsize : before.size = net.vars.size) : Quiet net (net.unwound before c v) := by
  refine ⟨sameSolution_unwound hsize, Nat.le_refl _, fun h w => ?_⟩
  rw [unwound_var_field (p := Variable.mark) (fun _ _ => rfl) hsize]
  exact h w

section MarksPast

variable {net : Network} {c : ConstraintId} {kind : Kind} {strength : Strength}

theorem MarksPast.detached (h : net.MarksPast) (hcoh : net.Coherent)
    (hc : c.index < net.constraints.size) : (net.detached c).MarksPast := by
  intro v
  rw [detached_var hcoh hc, detached_mark]
  exact h v

theorem MarksPast.registered (h : net.MarksPast)
    (hk : ∀ v ∈ kind.operands, v.index < net.vars.size) :
    (net.registered kind strength).MarksPast := by
  intro v
  rw [registered_var hk, registered_mark]
  exact h v

end MarksPast

end Network

/-! ## Quiet actions -/

namespace Solve

open Network

variable {α β : Type} {mark : Nat} {allowed : Failure SolveError → Prop}

/-- Started once the walk `mark` has begun, the action makes only quiet changes and fails only in
an allowed way. -/
def Quietly (mark : Nat) (allowed : Failure SolveError → Prop) (act : Solve α) : Prop :=
  ∀ net, mark ≤ net.mark →
    Ends act net (fun _ net' => Quiet net net') (fun e net' => allowed e ∧ Quiet net net')

theorem quietly_pure {a : α} : Quietly mark allowed (pure a) := fun net _ => .refl net

theorem quietly_throw {e : Failure SolveError} (h : allowed e) :
    Quietly mark allowed (throw e : Solve α) := fun net _ => ⟨h, .refl net⟩

theorem Quietly.bind {act : Solve α} {f : α → Solve β} (h : Quietly mark allowed act)
    (hf : ∀ a, Quietly mark allowed (f a)) : Quietly mark allowed (act >>= f) := by
  intro net hm
  rw [ends_bind]
  refine (h net hm).mono_ok fun a net' hq => ?_
  refine (hf a net' (Nat.le_trans hm hq.later)).mono ?_ ?_
  · exact fun _ _ hq' => hq.trans hq'
  · exact fun _ _ hq' => ⟨hq'.1, hq.trans hq'.2⟩

theorem quietly_readVariable {v : VariableId} (h : allowed .outOfRange) :
    Quietly mark allowed (readVariable v) := by
  intro net _
  rw [readVariable, ends_bind, ends_get]
  split
  · exact .refl net
  · exact ⟨h, .refl net⟩

theorem quietly_readConstraint {c : ConstraintId} (h : allowed .outOfRange) :
    Quietly mark allowed (readConstraint c) := by
  intro net _
  rw [readConstraint, ends_bind, ends_get]
  split
  · exact .refl net
  · exact ⟨h, .refl net⟩

theorem quietly_readValue {v : VariableId} (h : allowed .outOfRange) :
    Quietly mark allowed (readValue v) :=
  (quietly_readVariable h).bind fun _ => quietly_pure

theorem quietly_updateVariable {v : VariableId} {f : Variable → Variable}
    (h : allowed .outOfRange) (hf : ∀ net, mark ≤ net.mark → Quiet net (net.alterVariable v f)) :
    Quietly mark allowed (updateVariable v f) := by
  intro net hm
  rw [updateVariable, ends_bind, ends_get]
  split
  · exact hf net hm
  · exact ⟨h, .refl net⟩

theorem quietly_setValue {v : VariableId} {value : Float} (h : allowed .outOfRange) :
    Quietly mark allowed (setValue v value) :=
  quietly_updateVariable h fun _ _ =>
    quiet_alterVariable (fun _ => rfl) (fun _ => rfl) (fun _ => rfl) fun _ => .inl rfl

theorem quietly_setMark {v : VariableId} (h : allowed .outOfRange) :
    Quietly mark allowed (updateVariable v fun x => { x with mark := mark }) :=
  quietly_updateVariable h fun _ hm =>
    quiet_alterVariable (fun _ => rfl) (fun _ => rfl) (fun _ => rfl) fun _ => .inr hm

/-- A check refuses or does nothing. -/
theorem quietly_checkAttached {c : ConstraintId} :
    Quietly mark (fun _ => True) (checkAttached c) := by
  intro net _
  rw [checkAttached, ends_bind, ends_get]
  split
  · exact ⟨trivial, .refl net⟩
  · split
    · exact .refl net
    · exact ⟨trivial, .refl net⟩

theorem quietly_checkVariable {v : VariableId} :
    Quietly mark (fun _ => True) (checkVariable v) := by
  intro net _
  rw [checkVariable, ends_bind, ends_get]
  split
  · exact .refl net
  · exact ⟨trivial, .refl net⟩

end Solve

namespace Network

open Solve

variable {mark : Nat}

theorem quietly_checkAllAttached (cs : List ConstraintId) :
    Quietly mark (fun _ => True) (checkAllAttached cs) := by
  induction cs with
  | nil => exact quietly_pure
  | cons c cs ih => exact quietly_checkAttached.bind fun _ => ih

theorem quietly_valueOf {v : VariableId} : Quietly mark (fun _ => True) (valueOf v) :=
  quietly_checkVariable.bind fun _ => quietly_readValue trivial

theorem quietly_assign {v : VariableId} {value : Float} :
    Quietly mark (fun _ => True) (assign v value) :=
  quietly_checkVariable.bind fun _ => quietly_setValue trivial

/-! ## Extraction -/

theorem quietly_satisfiedAmong (cs : List ConstraintId) :
    Quietly mark (fun _ => True) (satisfiedAmong cs) := by
  induction cs with
  | nil => exact quietly_pure
  | cons c cs ih =>
    exact (quietly_readConstraint trivial).bind fun _ => ih.bind fun _ => quietly_pure

theorem quietly_consumers {v : VariableId} : Quietly mark (fun _ => True) (consumers v) :=
  (quietly_readVariable trivial).bind fun _ => quietly_satisfiedAmong _

theorem quietly_inputKnown {k : Constraint} :
    Quietly mark (fun _ => True) (inputKnown mark k) := by
  unfold inputKnown
  split
  · exact quietly_pure
  · exact (quietly_readVariable trivial).bind fun _ => quietly_pure

theorem quietly_planAll (cs : List ConstraintId) :
    Quietly mark (fun _ => True) (planAll mark cs) := by
  induction cs with
  | nil => exact quietly_pure
  | cons c cs ih =>
    refine (quietly_readConstraint trivial).bind fun k => ?_
    refine (quietly_readVariable trivial).bind fun x => ?_
    refine quietly_inputKnown.bind fun known => ?_
    split
    · refine (quietly_setMark trivial).bind fun _ => ?_
      exact quietly_consumers.bind fun _ => ih.bind fun _ => quietly_pure
    · exact ih

theorem quietly_planFrom (n : Nat) :
    ∀ cs, Quietly mark (fun _ => True) (planFrom mark n cs) := by
  induction n with
  | zero =>
    intro cs
    cases cs with
    | nil => exact quietly_pure
    | cons c cs => exact quietly_throw trivial
  | succ n ih =>
    intro cs
    cases cs with
    | nil => exact quietly_pure
    | cons c cs =>
      exact (quietly_planAll _).bind fun _ => (ih _).bind fun _ => quietly_pure

theorem quietly_makePlan (sources : List ConstraintId) :
    Quietly mark (fun _ => True) (makePlan sources) := by
  refine (quietly_checkAllAttached sources).bind fun _ => ?_
  intro net _
  -- the steps are marked with the number of the walk that starts here
  rw [ends_bind, ends_freshMark, ends_bind, ends_get, ends_bind]
  have hm : net.mark + 1 ≤ ({ net with mark := net.mark + 1 } : Network).mark := Nat.le_refl _
  refine (quietly_planFrom _ sources _ hm).mono ?_ ?_
  · exact fun _ _ hq => quiet_freshMark.trans hq
  · exact fun _ _ hq => ⟨trivial, quiet_freshMark.trans hq.2⟩

theorem quietly_satisfiedInputs (cs : List ConstraintId) :
    Quietly mark (fun _ => True) (satisfiedInputs cs) := by
  induction cs with
  | nil => exact quietly_pure
  | cons c cs ih =>
    refine quietly_checkAttached.bind fun _ => ?_
    exact (quietly_readConstraint trivial).bind fun _ => ih.bind fun _ => quietly_pure

theorem quietly_extractPlan (cs : List ConstraintId) :
    Quietly mark (fun _ => True) (extractPlan cs) :=
  (quietly_satisfiedInputs cs).bind fun _ => quietly_makePlan _

/-! ## Execution

Executing can only be stopped by a division by zero, or by an id that names nothing. -/

theorem quietly_execute {c : ConstraintId} : Quietly mark Failure.Abrupt (execute c) := by
  have hr : Failure.Abrupt .outOfRange := trivial
  refine (quietly_readConstraint hr).bind fun k => ?_
  split
  · exact quietly_pure
  · exact quietly_pure
  · split
    · exact (quietly_readValue hr).bind fun _ => quietly_setValue hr
    · exact (quietly_readValue hr).bind fun _ => quietly_setValue hr
  · refine (quietly_readValue hr).bind fun m => (quietly_readValue hr).bind fun d => ?_
    split
    · exact (quietly_readValue hr).bind fun _ => quietly_setValue hr
    · split
      · exact quietly_throw trivial
      · exact (quietly_readValue hr).bind fun _ => quietly_setValue hr

theorem quietly_executeAll (cs : List ConstraintId) :
    Quietly mark Failure.Abrupt (executeAll cs) := by
  induction cs with
  | nil => exact quietly_pure
  | cons c cs ih => exact quietly_execute.bind fun _ => ih

theorem quietly_runPlan (p : Plan) : Quietly mark Failure.Abrupt (runPlan p) :=
  quietly_executeAll p.steps

theorem quietly_replay (p : Plan) (v : VariableId) (value : Float) (n : Nat) :
    Quietly mark Failure.Abrupt (replay p v value n) := by
  induction n with
  | zero => exact quietly_pure
  | succ n ih =>
    exact (quietly_setValue trivial).bind fun _ => (quietly_runPlan p).bind fun _ => ih

end Network

end ConstraintHierarchy
