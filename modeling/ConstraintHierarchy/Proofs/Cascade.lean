import ConstraintHierarchy.Proofs.Propagation

/-!
# Rules for adding and retracting

The loops of the incremental algorithm, reduced to their steps. A constraint is installed by one
choice of a method and one propagation; a cascade is a sequence of installations, each of the
constraint that the one before has displaced; a withdrawal is one release followed by a sequence of
retries. Each rule asks for an invariant that the single step keeps.

## Main results

* `Network.install_of_flowFor`, `Network.ends_install`: one installation
* `Network.ends_establishUsing`: a cascade of installations
* `Network.ends_retryLevels`: the retries after a release
* `Network.ends_withdrawUsing`: a withdrawal
-/

namespace ConstraintHierarchy.Network

open Solve

variable {net : Network} {mark : Nat} {c : ConstraintId}
  {rollback retry : ConstraintId → Solve Unit} {fail : Failure SolveError → Network → Prop}

/-! ## One installation -/

theorem ends_displace {o : Option ConstraintId} {ok : Unit → Network → Prop}
    (h : ∀ d, o = some d → d.index < net.constraints.size) :
    Ends (displace o) net ok fail ↔ ok () (net.withoutMethod o) := by
  cases o with
  | none => rfl
  | some d => rw [displace, ends_updateConstraint (h d rfl), withoutMethod]

/-- What is done with a constraint that finds a method. -/
theorem install_of_flowFor {flow : Flow} (h : net.Coherent) (ha : (net.con c).attached = true)
    (hflow : net.flowFor mark c = some flow) :
    install rollback mark c net = (do
      propagate rollback mark c
      updateVariable (net.directed c flow).output fun x => { x with mark := mark }
      pure (net.var (net.directed c flow).output).determinedBy : Solve (Option ConstraintId))
        (net.takenOver mark c flow) := by
  have hc : c.index < net.constraints.size := known_of_attached ha
  have hreads : ∀ v ∈ (net.directed c flow).reads, v.index < net.vars.size :=
    h.known_directed_reads hc
  have hout : (net.directed c flow).output.index < net.vars.size :=
    h.known_directed_output hc
  have hdet : (((net.alterConstraint c fun k => { k with flow := some flow }).alterVariables
      (net.directed c flow).reads fun x => { x with mark := mark }).var
        (net.directed c flow).output).determinedBy =
      (net.var (net.directed c flow).output).determinedBy :=
    alterVariables_var_field fun _ => rfl
  have hknown : ∀ d, (net.var (net.directed c flow).output).determinedBy = some d →
      d.index < net.constraints.size :=
    fun d hd => known_of_isSatisfied ((h.determines _ d).1 hd).1
  apply eq_of_ends
  intro ok fail hends
  rw [install, ends_bind, ends_chooseFlow hc (h.known c hc), hflow, ends_bind,
    ends_updateConstraint hc, ends_bind, ends_readConstraint (by simpa using hc),
    alterConstraint_con_self hc]
  simp only [Constraint.isSatisfied, Option.isSome_some, if_true]
  rw [ends_bind, ends_markAll (by simpa using hreads), ends_bind,
    ends_readVariable (by simpa using hout), hdet, ends_bind,
    ends_displace (by simpa using hknown), ends_bind, ends_updateVariable (by simpa using hout)]
  exact hends

/-- What is done with a constraint that finds none. -/
theorem install_of_flowFor_none (h : net.Coherent) (ha : (net.con c).attached = true)
    (hu : (net.con c).isSatisfied = false) (hflow : net.flowFor mark c = none) :
    install rollback mark c net = (if (net.con c).strength = .required then refuse (.unsatisfiable c)
      else pure none : Solve (Option ConstraintId)) net := by
  have hc : c.index < net.constraints.size := known_of_attached ha
  -- the method that is written is the one an unsatisfied constraint already has
  have hsame : net.alterConstraint c (fun k => { k with flow := none }) = net := by
    apply alterConstraint_eq_self hc
    have hnone := Constraint.not_isSatisfied_iff.1 hu
    cases hk : net.con c
    simp_all
  apply eq_of_ends
  intro ok fail hends
  rw [install, ends_bind, ends_chooseFlow hc (h.known c hc), hflow, ends_bind,
    ends_updateConstraint hc, hsame, ends_bind, ends_readConstraint hc]
  simpa [hu] using hends

/-- Installing an unsatisfied constraint of the graph: without a method nothing changes; with one,
the constraint takes over its output, which is then propagated. -/
theorem ends_install {ok : Option ConstraintId → Network → Prop} (h : net.Coherent)
    (ha : (net.con c).attached = true) (hu : (net.con c).isSatisfied = false)
    (stuck : net.flowFor mark c = none → (net.con c).strength = .required →
      fail (.refused (.unsatisfiable c)) net)
    (weak : net.flowFor mark c = none → (net.con c).strength ≠ .required → ok none net)
    (flows : ∀ flow, net.flowFor mark c = some flow →
      Ends (propagate rollback mark c) (net.takenOver mark c flow)
        (fun _ net' => net'.vars.size = net.vars.size ∧
          ok (net.var (net.directed c flow).output).determinedBy
            (net'.alterVariable (net.directed c flow).output fun x => { x with mark := mark }))
        fail) :
    Ends (install rollback mark c) net ok fail := by
  cases hflow : net.flowFor mark c with
  | none =>
    apply Ends.of_eq (install_of_flowFor_none h ha hu hflow)
    split
    next hr => exact stuck hflow hr
    next hr => exact weak hflow hr
  | some flow =>
    apply Ends.of_eq (install_of_flowFor h ha hflow)
    rw [ends_bind]
    refine (flows flow hflow).mono_ok ?_
    rintro - net' ⟨hsize, hok⟩
    rw [ends_bind, ends_updateVariable, ends_pure]
    · exact hok
    · rw [hsize]
      exact h.known_directed_output (known_of_attached ha)

/-- Installations that propagate alike are alike. -/
theorem install_congr {rollback' : ConstraintId → Solve Unit} (h : net.Coherent)
    (ha : (net.con c).attached = true) (hu : (net.con c).isSatisfied = false)
    (hprop : ∀ flow, net.flowFor mark c = some flow →
      propagate rollback' mark c (net.takenOver mark c flow) =
        propagate rollback mark c (net.takenOver mark c flow)) :
    install rollback' mark c net = install rollback mark c net := by
  cases hflow : net.flowFor mark c with
  | none => rw [install_of_flowFor_none h ha hu hflow, install_of_flowFor_none h ha hu hflow]
  | some flow =>
    rw [install_of_flowFor h ha hflow, install_of_flowFor h ha hflow]
    exact bind_congr_run (hprop flow hflow) fun _ _ _ => rfl

/-! ## A cascade of installations -/

section Cascade

variable {cause : ConstraintId} {J : Option ConstraintId → Network → Prop}

/-- If an installation turns an invariant with a displaced constraint into the invariant with the
next one, then at the end of the cascade the invariant holds with none. -/
theorem ends_resatisfy (install : ∀ {o net}, J (some o) net →
      Ends (install rollback mark o) net J fail)
    (journal : ∀ {o net e}, J o net → J o { net with journal := net.journal.push e })
    (endless : ∀ {o net}, J (some o) net → fail .endless net) (n : Nat) :
    ∀ {o : Option ConstraintId} {net : Network}, J o net →
      Ends (resatisfy rollback mark cause n o) net (fun _ net' => J none net') fail := by
  induction n with
  | zero =>
    intro o net h
    cases o with
    | none => exact h
    | some o => exact endless h
  | succ n ih =>
    intro o net h
    cases o with
    | none => exact h
    | some o =>
      rw [resatisfy, ends_bind, ends_note, ends_bind]
      exact (install (journal h)).mono_ok fun _ _ h => ih h

theorem ends_establishUsing
    (start : J (some c) { net with mark := net.mark + 1 })
    (install : ∀ {o net'}, J (some o) net' → Ends (install rollback (net.mark + 1) o) net' J fail)
    (journal : ∀ {o net e}, J o net → J o { net with journal := net.journal.push e })
    (endless : ∀ {o net}, J (some o) net → fail .endless net) :
    Ends (establishUsing rollback c) net (fun _ net' => J none net') fail := by
  rw [establishUsing, ends_bind, ends_freshMark, ends_bind]
  refine (install start).mono_ok ?_
  intro o net' h
  rw [ends_bind, ends_get]
  exact ends_resatisfy install journal endless _ h

end Cascade

/-! ## Retries -/

/-- The candidates of one level are tried in order; `J` says what is left to be tried. -/
theorem ends_retryLevel {level : Strength} {J : List ConstraintId → Network → Prop}
    (known : ∀ {us net}, J us net → ∀ u ∈ us, u.index < net.constraints.size)
    (tried : ∀ {u us net}, J (u :: us) net → (net.con u).strength = level →
      (net.con u).isSatisfied = false → Ends (retry u) net (fun _ net' => J us net') fail)
    (passed : ∀ {u us net}, J (u :: us) net →
      ¬ ((net.con u).strength = level ∧ (net.con u).isSatisfied = false) → J us net)
    (us : List ConstraintId) :
    ∀ {net : Network}, J us net →
      Ends (retryLevel retry level us) net (fun _ net' => J [] net') fail := by
  induction us with
  | nil => exact fun h => h
  | cons u us ih =>
    intro net h
    rw [retryLevel, ends_bind, ends_readConstraint (known h u (by simp))]
    dsimp only
    split
    next hu =>
      rw [ends_bind]
      exact (tried h hu.1 hu.2).mono_ok fun _ _ h => ih h
    next hu => exact ih (passed h hu)

theorem ends_retryLevels {candidates : List ConstraintId} {L : List Strength → Network → Prop}
    (level : ∀ {level levels net}, L (level :: levels) net →
      Ends (retryLevel retry level candidates) net (fun _ net' => L levels net') fail)
    (levels : List Strength) :
    ∀ {net : Network}, L levels net →
      Ends (retryLevels retry candidates levels) net (fun _ net' => L [] net') fail := by
  induction levels with
  | nil => exact fun h => h
  | cons l levels ih =>
    intro net h
    rw [retryLevels, ends_bind]
    exact (level h).mono_ok fun _ _ h => ih h

/-- A withdrawal takes the constraint out of the graph, releases its output and retries what the
release has found. -/
theorem ends_withdrawUsing {ok : Unit → Network → Prop} (h : net.Coherent)
    (hc : (net.con c).isSatisfied = true)
    (repair : Ends (release (net.con c).output) (net.detached c)
      (fun found net' => ∀ event, Ends (retryLevels retry found Strength.all)
        { net' with journal := net'.journal.push event } ok fail) fail) :
    Ends (withdrawUsing retry c) net ok fail := by
  have hk := known_of_isSatisfied hc
  rw [withdrawUsing, ends_bind, ends_readConstraint hk, ends_bind, ends_detach hk (h.known c hk),
    ends_bind]
  refine repair.mono_ok ?_
  intro found net' hretry
  rw [ends_bind, ends_note]
  exact hretry _

end ConstraintHierarchy.Network
