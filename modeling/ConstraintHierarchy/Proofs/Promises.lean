import Mathlib
import ConstraintHierarchy.Proofs.Rollback
import ConstraintHierarchy.Proofs.Termination

/-!
# What the promise of a roll-back comes to

Some refusals promise that the network is as it was before. A refusal about an id keeps the promise to
the letter. A refusal about a cycle names the constraint that has been given up, which is out of the
graph for good. If that is an older one, the promise is broken. Only the addition of a constraint can
be refused for the cycle of a constraint that was not there before, and then it depends on what the
roll-back has found.

## Main definitions

* `Network.Accounts`: what a refusal that promises a roll-back has done

## Main results

* `Network.ends_perform_accounts`: every request accounts for its promises
* `Network.rolledBack_accounted`: when the promise is kept
* `Network.rolledBack_not_restored`: it is not always kept
-/

namespace ConstraintHierarchy

open Solve

namespace Network

/-- What a refusal that promises a roll-back has done to `net`: an id that is not there is noticed
before anything else, and a cycle takes the constraint that closes it out of the graph. That is an
older constraint, or else `own` holds and it is the new one. -/
structure Accounts (net : Network) (own : Prop) (f : Failure SolveError) (net' : Network) :
    Prop where
  unchanged : ∀ e, f = .refused e → e.isRolledBack = true → (∀ d, e ≠ .cycle d) →
    net'.vars = net.vars ∧ net'.constraints = net.constraints ∧ net'.mark = net.mark
  closing : ∀ d, f = .refused (.cycle d) → (net'.con d).attached = false ∧
    (net.Loses net' ∨ d = ⟨net.constraints.size⟩ ∧ own)

section Accounts

variable {net start net' : Network} {c : ConstraintId} {own : Prop} {f : Failure SolveError}

theorem accounts_of_onLookup {e : SolveError} (he : e.OnLookup) (hv : net'.vars = net.vars)
    (hc : net'.constraints = net.constraints) (hm : net'.mark = net.mark) :
    Accounts net own (.refused e) net' := by
  refine ⟨fun _ _ _ _ => ⟨hv, hc, hm⟩, ?_⟩
  rintro d ⟨⟩
  exact he.elim

theorem Accounts.imp {own' : Prop} (h : Accounts net own f net') (himp : own → own') :
    Accounts net own' f net' :=
  ⟨h.unchanged, fun d hf => ⟨(h.closing d hf).1,
    (h.closing d hf).2.imp_right fun hnew => ⟨hnew.1, himp hnew.2⟩⟩⟩

/-- A failure that promises nothing. -/
theorem accounts_of_unpromised (h : ∀ e, f = .refused e → e.isRolledBack = false) :
    Accounts net own f net' := by
  refine ⟨fun e hf he _ => ?_, fun d hf => ?_⟩
  · exact Bool.noConfusion ((h e hf).symm.trans he)
  · exact Bool.noConfusion (h _ hf)

theorem accounts_of_abrupt (h : f.Abrupt) : Accounts net own f net' := by
  apply accounts_of_unpromised
  rintro e rfl
  cases e with
  | divisionByZero c => rfl
  | _ => exact h.elim

/-- What an attempt to satisfy or to retract a constraint gives up is lost. -/
theorem Fails.accounts (h : Fails start f net')
    (hsub : ∀ d, (start.con d).attached = true →
      (net.con d).attached = true ∨ d = ⟨net.constraints.size⟩ ∧ own) :
    Accounts net own f net' := by
  refine ⟨?_, ?_⟩
  · intro e hf he hne
    obtain ⟨d, hd, -, -⟩ := h.promised e hf he
    exact absurd hd (hne d)
  · intro d hf
    obtain ⟨d', hd, hin, hout⟩ := h.promised _ hf rfl
    cases hd
    exact ⟨hout, (hsub d hin).imp_left fun hold => ⟨d, hold, hout⟩⟩

theorem ends_enforce_accounts (h : net.Regular) :
    Ends (enforce c) net (fun _ _ => True) (Accounts net own) := by
  rw [enforce, ends_bind]
  refine ends_checkAttached (fun ha => ?_) fun _ e he => accounts_of_onLookup he rfl rfl rfl
  rw [ends_bind, ends_readConstraint (known_of_attached ha)]
  split
  · trivial
  next hu =>
    rw [ends_bind, ends_nesting]
    exact (solvingInvariant_regular.ends_establish _ h ha (by simpa using hu)).mono
      (fun _ _ _ => trivial) fun _ _ hf => hf.accounts fun _ hd => .inl hd

/-- A removal, given what a refusal of the id amounts to. -/
theorem ends_retract_accounts (h : start.Regular)
    (hsub : ∀ d, d ≠ c → (start.con d).attached = true → (net.con d).attached = true)
    (hfail : (start.con c).attached = false → ∀ e, e.OnLookup →
      Accounts net own (.refused e) start) :
    Ends (retract c) start (fun _ _ => True) (Accounts net own) := by
  rw [retract, ends_bind]
  refine ends_checkAttached (fun ha => ?_) hfail
  have hk := known_of_attached ha
  rw [ends_bind, ends_readConstraint hk]
  split
  next hs =>
    rw [ends_bind, ends_nesting]
    refine (solvingInvariant_regular.ends_withdraw _ ⟨h, hs⟩).mono (fun _ _ _ => trivial)
      fun _ _ hf => hf.accounts fun d hd => ?_
    have hne := ne_of_detached_attached hk hd
    rw [detached_con_of_ne hne] at hd
    exact .inl (hsub d hne hd)
  next hu =>
    rw [ends_detach hk (h.coherent.known c hk)]
    trivial

theorem ends_addConstraint_accounts {kind : Kind} {strength : Strength} (h : net.Regular) :
    Ends (addConstraint kind strength) net
      (fun c net' => c = ⟨net.constraints.size⟩ ∧ net'.Regular ∧
        Keeps (net.registered kind strength) net')
      (Accounts net True) := by
  rw [addConstraint, ends_bind]
  refine ends_checkVariables _ (fun e he => accounts_of_onLookup he rfl rfl rfl) fun hk => ?_
  rw [ends_bind, ends_register hk, ends_bind, ends_nesting, ends_bind]
  refine ends_orDetach (solvingInvariant_regular.ends_establish _ (h.registered hk)
    registered_new_attached registered_new_unsatisfied) ?_ ?_ |>.mono_ok
    fun _ _ hend => ⟨rfl, hend⟩
  · intro e net' hf _
    refine hf.accounts fun d hd => ?_
    by_cases hnew : d = ⟨net.constraints.size⟩
    · exact .inr ⟨hnew, trivial⟩
    · rw [registered_con_of_ne hnew] at hd
      exact .inl hd
  · intro net' hf
    have hc := hf.known_new
    rw [ends_detach hc (hf.regular.coherent.known _ hc)]
    exact accounts_of_unpromised (by rintro _ ⟨⟩; rfl)

/-- A temporary edit closes no cycle itself, neither when it is added nor when it is removed. -/
theorem ends_change_accounts {v : VariableId} {value : Float} {strength : Strength} {n : Nat}
    (h : net.Regular) :
    Ends (change v value strength n) net (fun _ _ => True) (Accounts net False) := by
  rw [change, ends_bind]
  refine ((ends_addConstraint_accounts h).and
    (ends_addConstraint_costs (rollsBack_edit h) h)).mono ?_ ?_
  · rintro _ net₁ ⟨⟨rfl, hreg, hkeeps⟩, -⟩
    have ha : (net₁.con ⟨net.constraints.size⟩).attached = true :=
      (hkeeps.attached _).trans registered_new_attached
    rw [ends_bind]
    refine ((ends_extractPlan hreg.coherent [⟨net.constraints.size⟩] ?_).and
      (quietly_extractPlan [⟨net.constraints.size⟩] net₁ (Nat.zero_le _))).mono ?_ fun _ _ hf => hf.1
    · intro c hc hdetached
      rw [List.mem_singleton.1 hc, ha] at hdetached
      cases hdetached
    rintro plan net₂ ⟨-, hplan⟩
    have hreplay : Ends (replay plan v value n) net₂ (fun _ => Quiet net₁)
        (fun e cur => e.Abrupt ∧ Quiet net₁ cur) :=
      (quietly_replay plan v value n net₂ (Nat.zero_le _)).mono
        (fun _ _ hq => hplan.trans hq) fun _ _ hq => ⟨hq.1, hplan.trans hq.2⟩
    refine ends_always hreplay (Q := fun _ => True) (fun cur hq => ?_)
      (fun _ _ hf _ => accounts_of_abrupt hf) (fun _ _ _ hf _ => accounts_of_abrupt hf)
    rw [destroy, ends_bind, ends_note]
    have hnoted := hq.trans (quiet_note (e := .destroying ⟨net.constraints.size⟩))
    refine ends_retract_accounts (hreg.of_quiet hnoted) ?_ ?_
    · intro d hne hd
      rwa [hnoted.con, hkeeps.attached, registered_con_of_ne hne] at hd
    · intro hdetached
      rw [hnoted.con, ha] at hdetached
      cases hdetached
  · rintro f net' ⟨hacc, hcosts⟩
    refine ⟨hacc.unchanged, fun d hf => ?_⟩
    obtain ⟨hout, hlost | ⟨rfl, -⟩⟩ := hacc.closing d hf
    · exact ⟨hout, .inl hlost⟩
    · exact ⟨hout, .inl ((hcosts hf).resolve_right id)⟩

/-- Every request accounts for its promises, whatever came before. -/
theorem ends_perform_accounts (h : net.Regular) (r : Request) :
    Ends r.perform net (fun _ _ => True)
      (Accounts net (∃ kind strength, r = .add kind strength)) := by
  have hlookup : ∀ e : SolveError, e.OnLookup →
      Accounts net (∃ kind strength, r = .add kind strength) (.refused e) net :=
    fun e he => accounts_of_onLookup he rfl rfl rfl
  cases r with
  | addVariable name value =>
    simp only [Request.perform, ends_discard, Network.addVariable, ends_bind, ends_get, ends_modify,
      ends_pure]
  | valueOf v =>
    rw [Request.perform, ends_discard, Network.valueOf, ends_bind]
    refine ends_checkVariable (fun hv => ?_) hlookup
    rw [ends_readValue hv]
    trivial
  | assign v value =>
    rw [Request.perform, Network.assign, ends_bind]
    refine ends_checkVariable (fun hv => ?_) hlookup
    rw [ends_setValue hv]
    trivial
  | freshMark => exact ends_discard.2 trivial
  | add kind strength =>
    exact ends_discard.2 ((ends_addConstraint_accounts h).mono (fun _ _ _ => trivial)
      fun _ _ hacc => hacc.imp fun _ => ⟨kind, strength, rfl⟩)
  | enforce c => exact ends_enforce_accounts h
  | retract c => exact ends_retract_accounts h (fun _ _ hd => hd) fun _ => hlookup
  | destroy c =>
    rw [Request.perform, Network.destroy, ends_bind, ends_note]
    refine ends_retract_accounts (h.of_quiet quiet_note) (fun _ _ hd => hd) fun _ e he => ?_
    exact accounts_of_onLookup he rfl rfl rfl
  | change v value strength n =>
    exact (ends_change_accounts h).mono (fun _ _ _ => trivial) fun _ _ hacc => hacc.imp False.elim
  | makePlan sources =>
    exact ends_discard.2 ((ends_makePlan h.coherent sources fun _ _ _ => hlookup).mono_ok
      fun _ _ _ => trivial)
  | extractPlan cs =>
    exact ends_discard.2 ((ends_extractPlan h.coherent cs fun _ _ _ => hlookup).mono_ok
      fun _ _ _ => trivial)
  | runPlan p =>
    exact (quietly_runPlan p net (Nat.zero_le _)).mono (fun _ _ _ => trivial)
      fun _ _ hf => accounts_of_abrupt hf.1

end Accounts

/-- After any history, a refusal that promises a roll-back has changed nothing if it is about an id.
If it is about a cycle, the constraint that closes it is out of the graph, and with it one that was
there before, unless it is the one that was to be added; then everything is as it was if the addition
is undoable and no division by zero came before. -/
theorem rolledBack_accounted {patience : Nat} {net net' : Network} {r : Request} {e : SolveError}
    (h : Reaches (.empty patience) net) (hr : r.perform net = .error (.refused e) net')
    (he : e.isRolledBack = true) :
    ((∀ d, e ≠ .cycle d) →
      net'.vars = net.vars ∧ net'.constraints = net.constraints ∧ net'.mark = net.mark) ∧
    ∀ d, e = .cycle d → (net'.con d).attached = false ∧
      (net.Loses net' ∨ d = ⟨net.constraints.size⟩ ∧ ∃ kind strength, r = .add kind strength ∧
        (Run (fun _ _ => True) net → net.Undoable kind → Restores net net')) := by
  have hreg : net.Regular := h.regular
  have hacc := (ends_perform_accounts hreg r).of_error hr
  refine ⟨hacc.unchanged e rfl he, ?_⟩
  rintro d rfl
  obtain ⟨hout, hcase⟩ := hacc.closing d rfl
  by_cases hlost : net.Loses net'
  · exact ⟨hout, .inl hlost⟩
  obtain ⟨rfl, kind, strength, rfl⟩ := hcase.resolve_left hlost
  refine ⟨hout, .inr ⟨rfl, kind, strength, rfl, fun hrun hundo => ?_⟩⟩
  have hnet : net.Ordered := runInvariant_ordered.holds hrun
  have hset : net.Settled := runInvariant_settled.holds hrun
  have hends : Ends (Request.add kind strength).perform net (fun _ _ => True)
      (Costs net (Suspended net none)) :=
    ends_discard.2 (ends_addConstraint_costs (hundo.rollsBack hnet hset hreg) hreg)
  exact ((hends.of_error hr rfl).resolve_left hlost).restores hnet hset

/-- To close the chain takes its start over from the stay, which is given back. -/
theorem rolledBack_accounted_chainNetwork :
    (Request.add (.equal ⟨2⟩ ⟨0⟩) .required).refusal? chainNetwork = some (.cycle ⟨3⟩) ∧
      chainNetwork.Undoable (.equal ⟨2⟩ ⟨0⟩) ∧
      Restores chainNetwork ((Request.add (.equal ⟨2⟩ ⟨0⟩) .required).after chainNetwork) := by
  have hrun : Run (fun _ _ => True) chainNetwork :=
    Run.of_runAll (fun _ _ _ => trivial) (closedRequests.take 6) .empty (Option.some_get _).symm
  have hrefusal : (Request.add (.equal ⟨2⟩ ⟨0⟩) .required).refusal? chainNetwork =
      some (.cycle ⟨3⟩) := by decide +kernel
  have hcount : chainNetwork.constraints.size = 3 := by decide +kernel
  have hundo : chainNetwork.Undoable (.equal ⟨2⟩ ⟨0⟩) := by
    refine ⟨fun _ _ d hd _ => ?_, fun _ _ _ _ u hu _ => ?_, fun _ _ o ho hf => ?_⟩
    · have hlt : d.index < 3 := hcount ▸ known_of_isSatisfied hd
      obtain ⟨i⟩ := d
      unfold Holds
      obtain rfl | rfl | rfl : i = 0 ∨ i = 1 ∨ i = 2 := by
        change i < 3 at hlt
        omega
      · cbv
      · cbv
      · cbv
    · have hall : ∀ i < 3, (chainNetwork.con ⟨i⟩).isSatisfied = true := by decide +kernel
      exact hall u.index (hcount ▸ known_of_attached hu)
    · have hall : ∀ i < 3, (chainNetwork.con ⟨i⟩).flow ≠ some .backward := by decide +kernel
      refine absurd hf (hall o.index (hcount ▸ known_of_isSatisfied ?_))
      exact Constraint.isSatisfied_iff.2 ⟨_, hf⟩
  have hkept : ¬ chainNetwork.Loses
      ((Request.add (.equal ⟨2⟩ ⟨0⟩) .required).after chainNetwork) :=
    not_loses (by decide +kernel)
  refine ⟨hrefusal, hundo, ?_⟩
  obtain ⟨patience, hreach⟩ := reaches_of_run hrun
  have hcase := (rolledBack_accounted hreach (Request.perform_of_refusal? hrefusal) rfl).2 _ rfl
  obtain ⟨-, kind, strength, heq, hrestores⟩ := hcase.2.resolve_left hkept
  cases heq
  exact hrestores hrun hundo

end Network

/-- A stay on `y` is going to take it over from the scaling, which can then only compute `x`, and that
is what its own factor is computed from. -/
def factorRequests : List Request :=
  [.addVariable "x" 2, .addVariable "y" 0, .addVariable "m" 0, .addVariable "d" 0,
    .add (.equal ⟨0⟩ ⟨2⟩) .required, .add (.scale ⟨0⟩ ⟨1⟩ ⟨2⟩ ⟨3⟩) .normal]

/-- The first equation has been computed backward since there was a stay on `b`. Now that the stay is
gone, both of its ends are equally weak. -/
def tiedRequests : List Request :=
  [.addVariable "a" 1, .addVariable "b" 1, .addVariable "x" 1, .add (.stay ⟨1⟩) .preferred,
    .add (.equal ⟨0⟩ ⟨1⟩) .required, .destroy ⟨0⟩, .add (.equal ⟨0⟩ ⟨2⟩) .required]

def factorNetwork : Network := factorRequests.foldl (fun net r => r.after net) .empty

def tiedNetwork : Network :=
  (Request.runAll (fun _ _ => true) tiedRequests .empty).get (by decide +kernel)

namespace Network

/-- The promise is not kept in general, and not even if the cycle is that of the new constraint and
nothing has left the graph. -/
theorem rolledBack_not_restored :
    (¬ ∀ net net' r e, Reaches .empty net → Request.perform r net = .error (.refused e) net' →
      e.isRolledBack = true → Restores net net') ∧
    ¬ ∀ net net' kind strength, Run (fun _ _ => True) net →
      (Request.add kind strength).perform net =
        .error (.refused (.cycle ⟨net.constraints.size⟩)) net' →
      ¬ net.Loses net' → Restores net net' := by
  refine ⟨fun hall => ?_, fun hall => ?_⟩
  · -- the stay is added, and the scaling is given up
    have hrefusal : (Request.add (.stay ⟨1⟩) .preferred).refusal? factorNetwork =
        some (.cycle ⟨1⟩) := by decide +kernel
    have hrestores := hall _ _ _ _ (Reaches.foldl factorRequests .refl)
      (Request.perform_of_refusal? hrefusal) rfl
    have hcon := congrArg Constraint.attached (hrestores.con ⟨1⟩ (by decide +kernel))
    exact absurd hcon (by decide +kernel)
  · -- the first equation is given a method again, but not the one it had
    have hrun : Run (fun _ _ => True) tiedNetwork :=
      Run.of_runAll (fun _ _ _ => trivial) tiedRequests .empty (Option.some_get _).symm
    have hrefusal : (Request.add (.equal ⟨2⟩ ⟨0⟩) .required).refusal? tiedNetwork =
        some (.cycle ⟨3⟩) := by decide +kernel
    have hcount : tiedNetwork.constraints.size = 3 := by decide +kernel
    have hkept : ¬ tiedNetwork.Loses
        ((Request.add (.equal ⟨2⟩ ⟨0⟩) .required).after tiedNetwork) :=
      not_loses (by decide +kernel)
    have hrestores := hall _ _ _ _ hrun
      (by rw [hcount]; exact Request.perform_of_refusal? hrefusal) hkept
    have hcon := congrArg Constraint.flow (hrestores.con ⟨1⟩ (by decide +kernel))
    exact absurd hcon (by decide +kernel)

end Network

end ConstraintHierarchy
