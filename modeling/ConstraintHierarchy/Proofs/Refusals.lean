import ConstraintHierarchy.Proofs.Rollback
import ConstraintHierarchy.Proofs.Structure
import ConstraintHierarchy.Proofs.Termination
import ConstraintHierarchy.Proofs.Unblocked

/-!
# Refusals in tree-shaped networks

In a tree-shaped network there is hardly a reason to refuse an operation. No cycle is met, a constraint
that has been displaced is not required, and so an operation on a constraint of the graph is answered
unless it divides by zero. What can be refused is a new constraint that is required while every possible
output of it carries a required strength already, and then nothing has happened.

## Main results

* `Network.ends_addConstraint_tree`: a new constraint that can be satisfied is
* `Network.ends_addConstraint_unblocked`: one that cannot leaves everything as it was
* `Network.tree_refusals`: which operations are refused, and for which reason
-/

namespace ConstraintHierarchy

open Solve

/-- An action that fails only half-way, and not by a division, is answered. -/
theorem Solve.Ends.answered {α : Type} {act : Solve α} {net : Network} {ok : α → Network → Prop}
    (h : Ends act net ok fun e _ => e.Abrupt)
    (hreturns : Ends act net (fun _ _ => True) (Network.Halts False))
    (hdiv : ∀ d net', act net ≠ .error (.refused (.divisionByZero d)) net') :
    ∃ a net', act net = .ok a net' ∧ ok a net' := by
  cases hact : act net with
  | ok a net' => exact ⟨a, net', rfl, h.of_ok hact⟩
  | error e net' =>
    exfalso
    have habrupt : e.Abrupt := h.of_error hact
    have hhalts := hreturns.of_error hact
    match e with
    | .refused (.divisionByZero d) => exact hdiv d net' hact
    | .outOfRange => exact hhalts
    | .endless => exact hhalts

namespace Network

variable {net : Network} {c : ConstraintId} {v : VariableId} {kind : Kind} {strength : Strength}

/-! ## A constraint that cannot be satisfied -/

/-- A new constraint is refused if it is required and so is what each of its outputs carries. -/
theorem registered_refuses_iff (hk : ∀ v ∈ kind.operands, v.index < net.vars.size) :
    (net.registered kind strength).Refuses ⟨net.constraints.size⟩ ↔
      strength = .required ∧ ∀ v ∈ kind.outputs, (net.var v).walkStrength = .required := by
  have hstrong : ∀ s : Strength, Strength.StrongerThan .required s ↔ s ≠ .required := by
    intro s
    cases s <;> decide
  simp only [Refuses, Blocked, registered_con_new, registered_var hk]
  refine and_congr_right fun hs => ?_
  simp [hs, hstrong, Constraint.isSatisfied]

/-- To satisfy a constraint that is too weak for all of its outputs has no other effect than to begin a
walk; a required one is refused. -/
theorem ends_establish_unblocked (n : Nat) (hcoh : net.Coherent) (ha : (net.con c).attached = true)
    (hu : (net.con c).isSatisfied = false) (h : ¬ net.Blocked c) :
    Ends (establish (n + 1) c) net
      (fun _ net' => (net.con c).strength ≠ .required ∧ net' = { net with mark := net.mark + 1 })
      (fun e net' => (net.con c).strength = .required ∧ e = .refused (.unsatisfiable c) ∧
        net' = { net with mark := net.mark + 1 }) := by
  rw [establish, establishUsing, ends_bind, ends_freshMark, ends_bind]
  refine Network.ends_install (hcoh.of_sameGraph (sameGraph_of_eq rfl rfl)) ha hu
    (fun _ hr => ⟨hr, rfl, rfl⟩) (fun _ hr => ?_) fun flow hf => ?_
  · rw [ends_bind, ends_get, resatisfy]
    exact ⟨hr, rfl⟩
  · -- a method would take over an output that carries less
    obtain ⟨⟨-, hweak⟩, -⟩ := flowFor_some hf
    have hout : (net.directed c flow).output ∈ (net.con c).kind.outputs := Kind.output_mem_outputs
    exact (h ⟨ha, hu, _, hout, hweak⟩).elim

/-- To register a constraint and to detach it again leaves the variables as they were. -/
theorem registered_var_detach (hcoh : net.Coherent)
    (hk : ∀ v ∈ kind.operands, v.index < net.vars.size) :
    ((net.registered kind strength).var v).detach ⟨net.constraints.size⟩ = net.var v := by
  have hnew : (⟨net.constraints.size⟩ : ConstraintId) ∉ (net.var v).constraints := fun hmem =>
    Nat.lt_irrefl _ (hcoh.known_listed hmem)
  have hdet : (net.var v).determinedBy ≠ some ⟨net.constraints.size⟩ := fun hd =>
    Nat.lt_irrefl _ (known_of_isSatisfied ((hcoh.determines v _).1 hd).1)
  have hkeep : (net.var v).constraints.filter (· ≠ ⟨net.constraints.size⟩) =
      (net.var v).constraints := by
    rw [List.filter_eq_self]
    exact fun d hd => decide_eq_true fun heq => hnew (heq ▸ hd)
  rw [registered_var hk, Variable.detach, List.filter_append, hkeep]
  simp [hdet]

/-- A new constraint that is too weak for all of its outputs is registered and no more, unless it is
required. Then it is refused, and every variable, marks included, and every earlier constraint are as
before. -/
theorem ends_addConstraint_unblocked (hcoh : net.Coherent)
    (hk : ∀ v ∈ kind.operands, v.index < net.vars.size)
    (h : ¬ (net.registered kind strength).Blocked ⟨net.constraints.size⟩) :
    Ends (addConstraint kind strength) net
      (fun c net' => strength ≠ .required ∧ c = ⟨net.constraints.size⟩ ∧
        net' = net.opened kind strength)
      (fun e net' => strength = .required ∧
        e = .refused (.unsatisfiable ⟨net.constraints.size⟩) ∧
        net'.vars.size = net.vars.size ∧ (∀ v, net'.var v = net.var v) ∧
        net'.constraints.size = net.constraints.size + 1 ∧
        ∀ c, c.index < net.constraints.size → net'.con c = net.con c) := by
  have hstuck := ends_establish_unblocked
    ((net.registered kind strength).constraints.size + (net.registered kind strength).patience)
    (hcoh.registered hk) registered_new_attached registered_new_unsatisfied h
  rw [registered_con_new] at hstuck
  rw [addConstraint, ends_bind, ends_checkVariables_known hk, ends_bind, ends_register hk, ends_bind,
    ends_nesting, ends_bind]
  refine (ends_orDetach hstuck (fun _ _ hf hne => absurd hf.2.1 hne) ?_).mono_ok
    fun _ _ hend => ⟨hend.1, rfl, hend.2⟩
  rintro _ ⟨hr, -, rfl⟩
  have hcount : (net.opened kind strength).constraints.size = net.constraints.size + 1 :=
    registered_count
  have hsize : (net.opened kind strength).vars.size = net.vars.size :=
    quiet_opened.variableCount.trans registered_size
  have hopened : (net.opened kind strength).Coherent := hcoh.opened hk
  show Ends (detach _) (net.opened kind strength) _ _
  rw [ends_detach (by simp [hcount]) (hopened.known _ (by simp [hcount]))]
  refine ⟨hr, rfl, detached_size.trans hsize, fun v => ?_, detached_count.trans hcount,
    fun c hc => ?_⟩
  · rw [detached_var hopened (by simp [hcount]), opened_var, registered_var_detach hcoh hk]
  · have hne : c ≠ ⟨net.constraints.size⟩ := by
      rintro rfl
      exact Nat.lt_irrefl _ hc
    rw [detached_con_of_ne hne]
    exact registered_con_of_ne hne

/-! ## Operations on solutions -/

/-- A new constraint that can be satisfied is, whatever it displaces. -/
theorem ends_addConstraint_tree (h : net.TreeSolution)
    (hk : ∀ v ∈ kind.operands, v.index < net.vars.size)
    (htree : (net.registered kind strength).TreeShaped)
    (hr : ¬ (net.registered kind strength).Refuses ⟨net.constraints.size⟩) :
    Ends (addConstraint kind strength) net
      (fun c net' => c = ⟨net.constraints.size⟩ ∧ net'.TreeSolution) (fun e _ => e.Abrupt) := by
  rw [addConstraint, ends_bind, ends_checkVariables_known hk, ends_bind, ends_register hk, ends_bind,
    ends_nesting, ends_bind]
  refine (ends_add_tree _ h htree hk).mono (fun _ _ hend => ⟨rfl, hend⟩) ?_
  rintro e net' (habrupt | ⟨hrefuses, -⟩)
  · exact habrupt
  · exact absurd hrefuses hr

theorem ends_enforce_tree (h : net.TreeSolution) (ha : (net.con c).attached = true) :
    Ends (enforce c) net (fun _ => TreeSolution) (fun e _ => e.Abrupt) := by
  rw [enforce, ends_bind]
  refine ends_checkAttached (fun _ => ?_) fun hdetached => absurd ha (by simp [hdetached])
  rw [ends_bind, ends_readConstraint (known_of_attached ha)]
  split
  · exact h
  next hu =>
    rw [ends_bind, ends_nesting]
    have hretry : Retrying net [] (fun _ _ => False) net :=
      ⟨h.toSound, .refl net, fun e he => absurd he (h.unblocked e)⟩
    exact (hretry.ends_establish _ ha (by simpa using hu) fun _ _ _ h => h).mono_ok
      fun _ net' h' => ⟨h'.sound, fun e he => (h'.pending e he).2⟩

theorem ends_retract_tree (h : net.TreeSolution) (ha : (net.con c).attached = true) :
    Ends (retract c) net (fun _ => TreeSolution) (fun e _ => e.Abrupt) := by
  have hc := known_of_attached ha
  rw [retract, ends_bind]
  refine ends_checkAttached (fun _ => ?_) fun hdetached => absurd ha (by simp [hdetached])
  rw [ends_bind, ends_readConstraint hc]
  split
  next hs =>
    rw [ends_bind, ends_nesting]
    exact ends_withdraw_tree _ h hs
  next hu =>
    rw [ends_detach hc (h.settled.coherent.known c hc)]
    exact runInvariant_treeSolution.drop h ha (by simpa using hu)

theorem ends_destroy_tree (h : net.TreeSolution) (ha : (net.con c).attached = true) :
    Ends (destroy c) net (fun _ => TreeSolution) (fun e _ => e.Abrupt) := by
  rw [destroy, ends_bind, ends_note]
  exact ends_retract_tree (h.of_quiet quiet_note) ha

/-! ## Runs -/

theorem perform_add {net' : Network} (h : addConstraint kind strength net = .ok c net') :
    (Request.add kind strength).perform net = .ok () net' := by
  apply Ends.eq_ok
  rw [Request.perform, ends_discard, Ends, h]
  exact ⟨rfl, rfl⟩

theorem perform_add_error {net' : Network} {e : Failure SolveError}
    (h : addConstraint kind strength net = .error e net') :
    (Request.add kind strength).perform net = .error e net' := by
  have hends : Ends (Request.add kind strength).perform net (fun _ _ => False)
      (fun e' net'' => e' = e ∧ net'' = net') := by
    rw [Request.perform, ends_discard, Ends, h]
    exact ⟨rfl, rfl⟩
  cases hperform : (Request.add kind strength).perform net with
  | ok _ _ => exact (hends.of_ok hperform).elim
  | error e' net'' =>
    obtain ⟨rfl, rfl⟩ := hends.of_error hperform
    rfl

theorem TreeRun.solution (h : net.TreeRun) : net.TreeSolution := runInvariant_treeSolution.holds h

theorem TreeRun.ordered (h : net.TreeRun) : net.Ordered :=
  runInvariant_ordered.holds (h.mono fun _ _ _ => trivial)

/-- A new constraint on known variables that keeps the graph a forest is added unless it cannot be
satisfied. -/
theorem TreeSolution.exists_addConstraint (h : net.TreeSolution) (hord : net.Ordered)
    (hk : ∀ v ∈ kind.operands, v.index < net.vars.size)
    (htree : (net.registered kind strength).TreeShaped)
    (hr : ¬ (net.registered kind strength).Refuses ⟨net.constraints.size⟩)
    (hdiv : ∀ d net', addConstraint kind strength net ≠ .error (.refused (.divisionByZero d)) net') :
    ∃ net', addConstraint kind strength net = .ok ⟨net.constraints.size⟩ net' := by
  have hreturns : Ends (addConstraint kind strength) net (fun _ _ => True) (Halts False) :=
    ((operationInvariant_halts 0).ends_addConstraint ⟨hord, Nat.zero_le _⟩ trivial).mono_ok
      fun _ _ _ => trivial
  obtain ⟨_, net', hadd, rfl, -⟩ :=
    (ends_addConstraint_tree h hk htree hr).answered hreturns hdiv
  exact ⟨net', hadd⟩

/-- Which operations are refused after a tree-shaped run, if they do not divide by zero. A new constraint
on known variables that keeps the graph a forest is refused exactly if it is required and so is what each
of its possible outputs carries; then it is the constraint that is named, and every variable, marks
included, and every earlier constraint are as before. Operations on a constraint of the graph are
answered. -/
theorem tree_refusals (h : net.TreeRun) :
    (∀ kind strength, (∀ v ∈ kind.operands, ∃ x, net.getVariable? v = some x) →
      (∀ net', (Request.add kind strength).opening net = .ok () net' → net'.TreeShaped) →
      (∀ d, (Request.add kind strength).refusal? net ≠ some (.divisionByZero d)) →
      ((strength = .required ∧
          ∀ v ∈ kind.outputs, ∀ x, net.getVariable? v = some x → x.walkStrength = .required) →
        ∃ net', addConstraint kind strength net =
            .error (.refused (.unsatisfiable ⟨net.constraints.size⟩)) net' ∧
          (∀ v, net'.getVariable? v = net.getVariable? v) ∧
          ∀ c k, net.getConstraint? c = some k → net'.getConstraint? c = some k) ∧
      (¬ (strength = .required ∧
          ∀ v ∈ kind.outputs, ∀ x, net.getVariable? v = some x → x.walkStrength = .required) →
        ∃ net', addConstraint kind strength net = .ok ⟨net.constraints.size⟩ net')) ∧
    ∀ c k, net.getConstraint? c = some k → k.attached = true →
      ∀ r ∈ [Request.enforce c, .retract c, .destroy c],
        (∀ d, r.refusal? net ≠ some (.divisionByZero d)) → ∃ net', r.perform net = .ok () net' := by
  have hsol := h.solution
  have hcoh := hsol.settled.coherent
  constructor
  · intro kind strength hknown htree hdiv
    have hk : ∀ v ∈ kind.operands, v.index < net.vars.size := fun v hv =>
      (getVariable?_eq_some.1 (hknown v hv).choose_spec).1
    have hrefuses : (net.registered kind strength).Refuses ⟨net.constraints.size⟩ ↔
        (strength = .required ∧
          ∀ v ∈ kind.outputs, ∀ x, net.getVariable? v = some x → x.walkStrength = .required) := by
      rw [registered_refuses_iff hk]
      refine and_congr_right fun _ => forall₂_congr fun v hv => ?_
      simp [getVariable?_eq_var (hk v (Kind.mem_operands_of_mem_outputs hv))]
    rw [← hrefuses]
    constructor
    · intro hr
      have hends := ends_addConstraint_unblocked hcoh hk hr.2
      cases hadd : addConstraint kind strength net with
      | ok c net' => exact absurd (hrefuses.1 hr).1 (hends.of_ok hadd).1
      | error e net' =>
        obtain ⟨-, rfl, hsize, hvar, hcount, hcon⟩ := hends.of_error hadd
        refine ⟨net', rfl, fun v => getVariable?_congr hsize (hvar v), fun c k hck => ?_⟩
        obtain ⟨hc, rfl⟩ := getConstraint?_eq_some.1 hck
        rw [getConstraint?_eq_con (by omega), hcon c hc]
    · intro hr
      refine hsol.exists_addConstraint h.ordered hk (htree _ (opening_add hk)) hr
        fun d net' hadd => hdiv d ?_
      rw [Request.refusal?, perform_add_error hadd]
  · intro c k hck ha r hmem hdiv
    obtain ⟨-, rfl⟩ := getConstraint?_eq_some.1 hck
    have hends : Ends r.perform net (fun _ => TreeSolution) (fun e _ => e.Abrupt) := by
      simp only [List.mem_cons, List.not_mem_nil, or_false] at hmem
      obtain rfl | rfl | rfl := hmem
      · exact ends_enforce_tree hsol ha
      · exact ends_retract_tree hsol ha
      · exact ends_destroy_tree hsol ha
    have hreturns : Ends r.perform net (fun _ _ => True) (Halts False) :=
      (ends_perform_ordered h.ordered fun p hp => by simp [hp] at hmem).mono_ok fun _ _ _ => trivial
    obtain ⟨_, net', hperform, -⟩ := hends.answered hreturns fun d net' herror =>
      hdiv d (by rw [Request.refusal?, herror])
    exact ⟨net', hperform⟩

end Network

/-- A required equality hands a required stay on. -/
def pinnedRequests : List Request :=
  [.addVariable "a" 1, .addVariable "b" 2, .addVariable "c" 3, .add (.stay ⟨0⟩) .required,
    .add (.equal ⟨0⟩ ⟨1⟩) .required]

def pinnedNetwork : Network :=
  (Request.runAll Request.growsForest pinnedRequests .empty).get (by decide +kernel)

namespace Network

/-- An edit of the variable at the end is refused if it is required and added if it is not; the stay is
destroyed without more ado. -/
theorem tree_refusals_pinnedNetwork :
    (∃ net', addConstraint (.edit ⟨1⟩) .required pinnedNetwork =
        .error (.refused (.unsatisfiable ⟨2⟩)) net' ∧
      net'.getVariable? ⟨1⟩ = pinnedNetwork.getVariable? ⟨1⟩) ∧
    (∃ net', addConstraint (.equal ⟨1⟩ ⟨2⟩) .required pinnedNetwork = .ok ⟨2⟩ net') ∧
    ∃ net', (Request.destroy ⟨0⟩).perform pinnedNetwork = .ok () net' := by
  have hrun : pinnedNetwork.TreeRun := TreeRun.of_runAll (Option.some_get _).symm
  have hsize : pinnedNetwork.vars.size = 3 := by decide +kernel
  have hcount : pinnedNetwork.constraints.size = 2 := by decide +kernel
  have hknown : ∀ i < 3, ∃ x, pinnedNetwork.getVariable? ⟨i⟩ = some x := fun i hi =>
    ⟨_, getVariable?_eq_var (hsize ▸ hi)⟩
  obtain ⟨hadd, hdestroy⟩ := tree_refusals hrun
  rw [hcount] at hadd
  refine ⟨?_, ?_, ?_⟩
  · have hrefusal : (Request.add (.edit ⟨1⟩) .required).refusal? pinnedNetwork =
        some (.unsatisfiable ⟨2⟩) := by decide +kernel
    have hstrong : (pinnedNetwork.var ⟨1⟩).walkStrength = .required := by decide +kernel
    have hall : ∀ v ∈ (Kind.edit ⟨1⟩).outputs, ∀ x, pinnedNetwork.getVariable? v = some x →
        x.walkStrength = .required := by
      intro v hv x hx
      obtain ⟨-, rfl⟩ := getVariable?_eq_some.1 hx
      rw [List.mem_singleton.1 hv, hstrong]
    obtain ⟨net', herror, hsame, -⟩ := (hadd (.edit ⟨1⟩) .required
      (by simpa [Kind.operands] using hknown 1 (by decide))
      (treeShaped_of_growsForest (by decide +kernel)) (by simp [hrefusal])).1 ⟨rfl, hall⟩
    exact ⟨net', herror, hsame ⟨1⟩⟩
  · have hrefusal : (Request.add (.equal ⟨1⟩ ⟨2⟩) .required).refusal? pinnedNetwork = none := by
      decide +kernel
    have hweak : (pinnedNetwork.var ⟨2⟩).walkStrength = .weakest := by decide +kernel
    refine (hadd (.equal ⟨1⟩ ⟨2⟩) .required ?_ (treeShaped_of_growsForest (by decide +kernel))
      (by simp [hrefusal])).2 fun hall => ?_
    · simpa [Kind.operands] using And.intro (hknown 1 (by decide)) (hknown 2 (by decide))
    · have hstrong := hall.2 ⟨2⟩ (by simp [Kind.outputs]) _ (getVariable?_eq_var (by decide +kernel))
      rw [hweak] at hstrong
      cases hstrong
  · have hrefusal : (Request.destroy ⟨0⟩).refusal? pinnedNetwork = none := by decide +kernel
    have hk : pinnedNetwork.getConstraint? ⟨0⟩ = some (pinnedNetwork.con ⟨0⟩) :=
      getConstraint?_eq_con (by decide +kernel)
    exact hdestroy ⟨0⟩ _ hk (by decide +kernel) (.destroy ⟨0⟩) (by simp) (by simp [hrefusal])

end Network

end ConstraintHierarchy
