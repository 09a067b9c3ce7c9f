import ConstraintHierarchy.Proofs.Restoration

/-!
# The roll-back of an addition

A constraint is added, closes a cycle and is rolled back. Whether that leads back to the network before
depends on what the new constraint has displaced. The cycle may also be found later, when a displaced
constraint looks for another method. Then it is the displaced one that is given up, while the new one
keeps its method: the rounds of a cascade mark what they compute, and nobody takes over a marked
variable.

## Main definitions

* `Network.Undoable`: what leads the roll-back of a new constraint back to the same network
* `Network.overridden`: the network at the moment when a new constraint has taken over its output
* `Network.RollsBack`: what the roll-back of a new constraint leaves
* `Network.Costs`: what an addition leaves that is refused for the cycle of its own constraint

## Main results

* `Network.ends_addConstraint_costs`: an addition that is refused for its own cycle leaves what its
  roll-back leaves, unless an older constraint has left the graph
* `Network.Undoable.rollsBack`: the roll-back of an undoable addition leads back
* `Network.rollsBack_edit`: an edit closes no cycle
-/

namespace ConstraintHierarchy

open Solve Relation

namespace Network

/-- What leads the roll-back of a new constraint of the given kind back to `net`. It is about the
variables at the ends of the constraint and what is computed from them. -/
structure Undoable (net : Network) (kind : Kind) : Prop where
  /-- what is recalculated there is up to date -/
  holds : ∀ v ∈ kind.outputs, ∀ d, (net.con d).isSatisfied = true →
    net.Downstream v (net.con d).output → net.Holds d
  /-- no constraint waits there for a method -/
  satisfied : ∀ v ∈ kind.outputs, ∀ w, net.Downstream v w → ∀ u, (net.con u).attached = true →
    w ∈ (net.con u).kind.operands → (net.con u).isSatisfied = true
  /-- a constraint that may be displaced would not choose the other end on a tie -/
  rechosen : ∀ v ∈ kind.outputs, ∀ o, (net.var v).determinedBy = some o →
    (net.con o).flow = some .backward → ∀ w, (net.con o).input = some w →
    (net.var w).walkStrength ≠ .weakest

/-! ## A new constraint -/

/-- The network at the moment when a method for a new constraint is looked for. -/
def opened (net : Network) (kind : Kind) (strength : Strength) : Network :=
  { net.registered kind strength with mark := (net.registered kind strength).mark + 1 }

/-- The network at the moment when the new constraint has taken over its output. -/
def overridden (net : Network) (kind : Kind) (strength : Strength) (flow : Flow) : Network :=
  (net.opened kind strength).takenOver (net.opened kind strength).mark ⟨net.constraints.size⟩ flow

section Overridden

variable {net cur : Network} {kind : Kind} {strength : Strength} {flow : Flow} {d : ConstraintId}
  {v : VariableId}

theorem registered_directed :
    (net.registered kind strength).directed ⟨net.constraints.size⟩ flow =
      { kind, strength, flow := some flow, attached := true } := by
  show { (net.registered kind strength).con ⟨net.constraints.size⟩ with flow := some flow } = _
  rw [registered_con_new]

theorem opened_var : (net.opened kind strength).var v = (net.registered kind strength).var v := rfl

theorem opened_con : (net.opened kind strength).con = (net.registered kind strength).con := rfl

theorem quiet_opened : Quiet (net.registered kind strength) (net.opened kind strength) :=
  quiet_freshMark

theorem Coherent.opened (h : net.Coherent) (hk : ∀ v ∈ kind.operands, v.index < net.vars.size) :
    (net.opened kind strength).Coherent :=
  (h.registered hk).of_sameGraph quiet_opened.toSameGraph

theorem overridden_con_new (h : net.Coherent)
    (hk : ∀ v ∈ kind.operands, v.index < net.vars.size) :
    (net.overridden kind strength flow).con ⟨net.constraints.size⟩ =
      { kind, strength, flow := some flow, attached := true } := by
  have hc : (⟨net.constraints.size⟩ : ConstraintId).index <
      (net.registered kind strength).constraints.size := by simp
  exact (takenOver_con_self (h.opened hk) hc registered_new_unsatisfied).trans
    registered_directed

/-- The older constraints are as they were, but for the one that has computed the output. -/
theorem overridden_con (h : net.Coherent) (hk : ∀ v ∈ kind.operands, v.index < net.vars.size)
    (hd : d.index < net.constraints.size) :
    (net.overridden kind strength flow).con d =
      if (net.var (kind.output (some flow))).determinedBy = some d then
        { net.con d with flow := none }
      else net.con d := by
  have hne : d ≠ ⟨net.constraints.size⟩ := by
    rintro rfl
    exact Nat.lt_irrefl _ hd
  have hdet : ((net.registered kind strength).var
      ((net.registered kind strength).directed ⟨net.constraints.size⟩ flow).output).determinedBy =
      (net.var (kind.output (some flow))).determinedBy := by
    rw [registered_directed, registered_var hk]
    rfl
  have hold : (net.registered kind strength).con d = net.con d := registered_con_of_ne hne
  split
  next hdis =>
    rw [← hold]
    exact takenOver_con_displaced (h.opened hk) registered_new_unsatisfied
      (hdet.trans hdis)
  next hdis =>
    rw [← hold]
    exact takenOver_con_of_ne hne fun he => hdis (hdet.symm.trans he)

theorem overridden_value (h : net.Coherent) (hk : ∀ v ∈ kind.operands, v.index < net.vars.size) :
    (net.overridden kind strength flow).value v = net.value v := by
  unfold overridden value
  rw [takenOver_var (h.opened hk) (by simp [opened])]
  show ((net.registered kind strength).var v).value = _
  rw [registered_var hk]

theorem overridden_count :
    (net.overridden kind strength flow).constraints.size = net.constraints.size + 1 := by
  unfold overridden
  rw [takenOver_count]
  exact registered_count

theorem overridden_size : (net.overridden kind strength flow).vars.size = net.vars.size := by
  unfold overridden
  rw [takenOver_size]
  show (net.registered kind strength).vars.size = net.vars.size
  exact registered_size

/-- Without the new constraint, only the method that it has displaced is missing. -/
theorem sameBut_detached (h : net.Coherent) (hk : ∀ v ∈ kind.operands, v.index < net.vars.size)
    (hcur : cur.Coherent) (hs : SameGraph (net.overridden kind strength flow) cur)
    (hv : ∀ v, cur.value v = net.value v) :
    SameBut net (net.var (kind.output (some flow))).determinedBy
      (cur.detached ⟨net.constraints.size⟩) := by
  have hcount : cur.constraints.size = net.constraints.size + 1 :=
    hs.constraintCount.trans overridden_count
  have hc : (⟨net.constraints.size⟩ : ConstraintId).index < cur.constraints.size := by
    rw [hcount]
    exact Nat.lt_succ_self _
  refine ⟨hcur.detached hc, ?_, ?_, ?_, ?_, ?_⟩
  · rw [detached_size, hs.variableCount, overridden_size]
  · rw [detached_count, hcount]
  · intro v
    rw [← hv v]
    unfold value
    rw [detached_var hcur hc]
    rfl
  · intro d hd
    have hne : d ≠ ⟨net.constraints.size⟩ := by
      rintro rfl
      exact Nat.lt_irrefl _ hd
    rw [detached_con_of_ne hne, hs.con, overridden_con h hk hd]
  · intro d hd
    by_cases hdc : d = ⟨net.constraints.size⟩
    · rw [hdc, detached_con_self hc]
    · rw [con_of_unknown]
      rw [detached_count, hcount]
      intro hlt
      apply hdc
      obtain ⟨i⟩ := d
      simp only [ConstraintId.mk.injEq]
      exact Nat.le_antisymm (Nat.le_of_lt_succ hlt) hd

/-- The roll-back of the new constraint leads back to `net`. -/
theorem Undoable.ends_withdraw (h : net.Undoable kind) (hnet : net.Ordered) (hset : net.Settled)
    (hreg : net.Regular) (hk : ∀ v ∈ kind.operands, v.index < net.vars.size)
    (hs : SameGraph (net.overridden kind strength flow) cur)
    (hv : ∀ v, cur.value v = net.value v) (hcur : cur.Regular)
    (hun : cur.Unsettled ⟨net.constraints.size⟩) (n : Nat) :
    Ends (withdraw n ⟨net.constraints.size⟩) cur (fun _ => Suspended net none)
      (fun _ _ => True) := by
  have hnew : cur.con ⟨net.constraints.size⟩ =
      { kind, strength, flow := some flow, attached := true } := by
    rw [hs.con, overridden_con_new hnet.coherent hk]
  have hout : (cur.con ⟨net.constraints.size⟩).output = kind.output (some flow) := by
    rw [hnew]
    rfl
  have hends : kind.output (some flow) ∈ kind.outputs := Kind.output_mem_outputs
  have hsame : SameBut net (net.var (kind.output (some flow))).determinedBy
      (cur.detached ⟨net.constraints.size⟩) :=
    sameBut_detached hnet.coherent hk hcur.coherent hs hv
  apply ends_withdrawUsing hun.coherent hun.satisfied
  refine (((ends_release_settled hun).and
    (solvingInvariant_regular.release n ⟨hcur, hun.satisfied⟩)).and
    (ends_release_values hun.coherent hun.satisfied ?_)).mono ?_ fun _ _ _ => trivial
  · -- what is recalculated is recalculated from what it was computed from in `net`
    intro d hd hp
    rw [hout, hsame.con_of_satisfied hd] at hp
    exact (h.holds _ hends d (hsame.isSatisfied_iff.1 hd).1 (hsame.downstream hp)).congr
      (hsame.con_of_satisfied hd) hsame.value
  rintro found cur' ⟨⟨⟨hset', hgraph, -⟩, hreg', -, -⟩, htrace⟩ event
  rw [hout] at htrace
  have hsusp : Suspended net (net.var (kind.output (some flow))).determinedBy cur' :=
    ⟨hsame.of_sameGraph hgraph htrace.values, hreg', hset'⟩
  have hdis : ∀ d, (net.var (kind.output (some flow))).determinedBy = some d →
      (net.con d).isSatisfied = true ∧ (net.con d).output = kind.output (some flow) :=
    fun d hd => (hnet.coherent.determines _ d).1 hd
  refine hsusp.journal.ends_retryLevels (fun d hd => (hdis d hd).1) ?_ ?_
  · intro d cur₂ hd hcur₂
    obtain ⟨hds, hdo⟩ := hdis d hd
    obtain ⟨f, hf⟩ := Constraint.isSatisfied_iff.1 hds
    refine hcur₂.ends_establish hnet hset (hreg.chosen d hds) hf ?_ ?_ n
    · rintro rfl w hw
      exact h.rechosen _ hends d hd hf w hw
    · rw [hdo]
      exact h.holds _ hends
  · intro u
    constructor
    · -- another candidate would be a constraint of `net` that waits for a method
      intro hu
      obtain ⟨hun, w, hw, hp⟩ := htrace.candidates u hu
      have ha := htrace.found u hu
      have hku : u.index < net.constraints.size := by
        by_contra hlt
        rw [hsame.added u (Nat.le_of_not_lt hlt)] at ha
        cases ha
      by_contra hne
      rw [hsame.con u hku, if_neg hne] at hun ha hw
      have := h.satisfied _ hends w (hsame.downstream hp) u ha hw
      exact Bool.noConfusion (hun.symm.trans this)
    · intro hd
      obtain ⟨hds, hdo⟩ := hdis u hd
      have hcon := hsame.con u (known_of_isSatisfied hds)
      rw [if_pos hd] at hcon
      refine htrace.scanned.resolve_left (by simp) u ?_ ?_ ?_
      · rw [hcon]
        exact hnet.coherent.attached u hds
      · rw [hcon]
        rfl
      · rw [hcon, ← hdo]
        exact Constraint.output_mem_operands

end Overridden

/-! ## The cycle of an addition -/

/-- The walk below a method fails only half-way, and it stops only at a variable of its own mark. -/
theorem ends_walk_met {start : Network} {c : ConstraintId} {mark n : Nat}
    (hcoh : start.Coherent) (hsat : (start.con c).isSatisfied = true) :
    Ends (walk mark n [c]) start (fun met _ => ∀ v, met = some v → (start.var v).mark = mark)
      (fun e _ => e.Abrupt) := by
  have inv : WalkInvariant mark (fun e _ => e.Abrupt) (Visiting start) :=
    walkInvariant_visiting hcoh (fun _ => trivial) fun _ => trivial
  refine (ends_walk inv n (visiting_start hsat)).mono_ok ?_
  rintro met net' hend v rfl
  obtain ⟨d, q, hmet, -, hm⟩ := hend
  rwa [hmet.marks] at hm

/-- A constraint has left the graph on the way from `net` to `net'`. -/
def Loses (net net' : Network) : Prop :=
  ∃ o, (net.con o).attached = true ∧ (net'.con o).attached = false

theorem not_loses {net net' : Network} (h : ∀ i < net.constraints.size,
    (net.con ⟨i⟩).attached = true → (net'.con ⟨i⟩).attached = true) : ¬ net.Loses net' := by
  rintro ⟨o, hin, hout⟩
  exact Bool.noConfusion (hout.symm.trans (h o.index (known_of_attached hin) hin))

/-- An addition to `net` that is refused for the cycle of its own constraint has cost the graph an
older one, or else `R` is left. -/
def Costs (net : Network) (R : Network → Prop) (e : Failure SolveError) (net' : Network) : Prop :=
  e = .refused (.cycle ⟨net.constraints.size⟩) → net.Loses net' ∨ R net'

/-- The roll-back of a constraint that has just been added to `net` leaves `R`, if there is one. -/
def RollsBack (net : Network) (kind : Kind) (strength : Strength) (n : Nat) (R : Network → Prop) :
    Prop :=
  ∀ flow, (net.opened kind strength).flowFor (net.opened kind strength).mark
      ⟨net.constraints.size⟩ = some flow →
    Ends (walk (net.opened kind strength).mark
        (net.overridden kind strength flow).generations [⟨net.constraints.size⟩])
      (net.overridden kind strength flow)
      (fun met cur => ∀ v, met = some v →
        Ends (withdraw n ⟨net.constraints.size⟩)
          (cur.unwound (net.overridden kind strength flow).vars ⟨net.constraints.size⟩ v)
          (fun _ => R) (fun _ _ => True))
      (fun _ _ => True)

/-- A round of the cascade that `c` has started. It keeps its method, since its output is marked. -/
structure Prevailing (start : Network) (mark : Nat) (c : ConstraintId) (rounds : Nat)
    (o : Option ConstraintId) (net : Network) : Prop
    extends Resatisfying Regular start mark rounds o net where
  prevails : o ≠ none →
    (net.con c).isSatisfied = true ∧ (net.var (net.con c).output).mark = mark

section Addition

variable {net cur net' : Network} {kind : Kind} {strength : Strength} {mark n rounds : Nat}
  {o : ConstraintId} {e : Failure SolveError} {R : Network → Prop}

theorem costs_of_ne (h : e ≠ .refused (.cycle ⟨net.constraints.size⟩)) : Costs net R e net' :=
  fun he => absurd he h

theorem costs_of_abrupt (h : e.Abrupt) : Costs net R e net' := by
  rintro rfl
  exact h.elim

/-- The displaced constraint takes over another output than that of `c`. -/
theorem Prevailing.taken {start : Network} {c : ConstraintId} {flow : Flow} {q : List ConstraintId}
    (h : Prevailing start mark c rounds (some o) cur) (hflow : cur.flowFor mark o = some flow)
    (hvisit : Visiting (cur.takenOver mark o flow) net' q) :
    let next := net'.alterVariable (cur.directed o flow).output fun x => { x with mark := mark }
    (next.con c).isSatisfied = true ∧ (next.var (next.con c).output).mark = mark := by
  intro next
  obtain ⟨ha, hu, -⟩ := h.displaced o rfl
  obtain ⟨hs, hm⟩ := h.prevails nofun
  have hcoh := h.holds.coherent
  have hfree : (cur.var (cur.directed o flow).output).mark ≠ mark := (flowFor_some hflow).1.1
  have hout : (cur.con c).output ≠ (cur.directed o flow).output := by
    intro heq
    rw [← heq] at hfree
    exact hfree hm
  have hcon : next.con c = cur.con c := by
    show net'.con c = cur.con c
    rw [hvisit.graph.con, takenOver_con_of_satisfied hcoh hu hs hout]
  rw [hcon]
  refine ⟨hs, ?_⟩
  rw [alterVariable_var_of_ne hout, hvisit.marks, takenOver_var hcoh (known_of_attached ha)]
  show (if _ then mark else _) = mark
  split
  · rfl
  · exact hm

/-- A cycle that is found in the cascade takes an older constraint out of the graph. -/
theorem Prevailing.ends_install
    (h : Prevailing (net.registered kind strength) mark ⟨net.constraints.size⟩ (rounds + 1) (some o)
      cur) :
    Ends (install (withdraw n) mark o) cur
      (Prevailing (net.registered kind strength) mark ⟨net.constraints.size⟩ rounds)
      (Costs net R) := by
  obtain ⟨ha, hu, -⟩ := h.displaced o rfl
  have hcoh := h.holds.coherent
  have hoc : o ≠ ⟨net.constraints.size⟩ := ne_of_isSatisfied hu (h.prevails nofun).1
  have hold : (net.con o).attached = true := by
    rw [← registered_con_of_ne hoc, ← h.keeps.attached]
    exact ha
  have hown : Ends (install (withdraw n) mark o) cur
      (fun _ cur' => (cur'.con ⟨net.constraints.size⟩).isSatisfied = true ∧
        (cur'.var (cur'.con ⟨net.constraints.size⟩).output).mark = mark) (Costs net R) := by
    refine Network.ends_install hcoh ha hu (fun _ _ => costs_of_ne nofun)
      (fun _ _ => h.prevails nofun) ?_
    intro flow hflow
    apply ends_propagate
    have hsat : ((cur.takenOver mark o flow).con o).isSatisfied = true :=
      (takenOver_isSatisfied_iff hcoh (known_of_attached ha) hu).2 (.inl rfl)
    refine ((solvingInvariant_regular.walk n mark h.holds ha hu h.started hflow).and
      (ends_walk_met (hcoh.takenOver ha hu) hsat)).mono ?_ fun _ _ hf => costs_of_abrupt hf.2
    rintro met net' ⟨⟨⟨q, hvisit⟩, -, hsome⟩, -⟩
    cases met with
    | none => exact ⟨hvisit.graph.variableCount.trans takenOver_size, h.taken hflow hvisit⟩
    | some v =>
      have hun : Quiet net' (net'.unwound (cur.takenOver mark o flow).vars o v) :=
        quiet_unwound hvisit.graph.variableCount.symm
      have hk : o.index <
          (net'.unwound (cur.takenOver mark o flow).vars o v).constraints.size := by
        rw [hun.constraintCount, hvisit.graph.constraintCount, takenOver_count]
        exact known_of_attached ha
      refine (solvingInvariant_regular.ends_withdraw n
        (solvingInvariant_regular.keep_but (hsome v rfl) hun)).mono ?_ ?_
      · refine fun _ _ _ => costs_of_ne fun he => hoc ?_
        cases he
        rfl
      · intro e net'' hf _
        refine .inl ⟨o, hold, Bool.eq_false_iff.2 fun hback => ?_⟩
        have hgone := hf.attached o (by rwa [detached_count]) hback
        exact ne_of_detached_attached hk hgone rfl
  exact ((solvingInvariant_regular.ends_install (n := n)
    (fun _ _ hq => solvingInvariant_regular.ends_withdraw n hq) h.toResatisfying).and hown).mono
    (fun _ _ hend => ⟨hend.1, fun _ => hend.2⟩) fun _ _ hf => hf.2

/-- The walk below the method of the new constraint. -/
theorem ends_walk_overridden {flow : Flow} (hreg : net.Regular)
    (hk : ∀ v ∈ kind.operands, v.index < net.vars.size)
    (hflow : (net.opened kind strength).flowFor (net.opened kind strength).mark
      ⟨net.constraints.size⟩ = some flow) :
    Ends (walk (net.opened kind strength).mark
        (net.overridden kind strength flow).generations [⟨net.constraints.size⟩])
      (net.overridden kind strength flow)
      (fun met cur => (∃ q, Visiting (net.overridden kind strength flow) cur q) ∧
        ∀ v, met = some v → (cur.Regular ∧ (cur.con ⟨net.constraints.size⟩).isSatisfied = true) ∧
          ((net.overridden kind strength flow).var v).mark = (net.opened kind strength).mark)
      (fun e _ => e.Abrupt) := by
  have hopened : (net.opened kind strength).Regular := (hreg.registered hk).of_quiet quiet_opened
  have hwalk := solvingInvariant_regular.walk 0 (net.opened kind strength).mark hopened
    registered_new_attached registered_new_unsatisfied (Nat.le_refl _) hflow
  have hcoh : (net.overridden kind strength flow).Coherent :=
    hopened.coherent.takenOver registered_new_attached registered_new_unsatisfied
  have hsat : ((net.overridden kind strength flow).con ⟨net.constraints.size⟩).isSatisfied =
      true := by
    rw [overridden_con_new hreg.coherent hk]
    rfl
  refine (hwalk.and (ends_walk_met hcoh hsat)).mono ?_ fun _ _ hf => hf.2
  rintro met cur ⟨⟨hvisit, -, hsome⟩, hmark⟩
  exact ⟨hvisit, fun v hv => ⟨hsome v hv, hmark v hv⟩⟩

/-- The first round, in which the new constraint takes over its output. -/
theorem RollsBack.ends_install (h : RollsBack net kind strength n R) (hreg : net.Regular)
    (hk : ∀ v ∈ kind.operands, v.index < net.vars.size) :
    Ends (install (withdraw n) (net.opened kind strength).mark ⟨net.constraints.size⟩)
      (net.opened kind strength)
      (Prevailing (net.registered kind strength) (net.opened kind strength).mark
        ⟨net.constraints.size⟩ net.vars.size) (Costs net R) := by
  have hregistered : (net.registered kind strength).Regular := hreg.registered hk
  have hopened := hregistered.of_quiet quiet_opened
  have ha : ((net.registered kind strength).con ⟨net.constraints.size⟩).attached = true :=
    registered_new_attached
  have hu : ((net.registered kind strength).con ⟨net.constraints.size⟩).isSatisfied = false :=
    registered_new_unsatisfied
  have hown : Ends (install (withdraw n) (net.opened kind strength).mark ⟨net.constraints.size⟩)
      (net.opened kind strength)
      (fun o cur => o ≠ none → (cur.con ⟨net.constraints.size⟩).isSatisfied = true ∧
        (cur.var (cur.con ⟨net.constraints.size⟩).output).mark = (net.opened kind strength).mark)
      (Costs net R) := by
    refine Network.ends_install hopened.coherent ha hu (fun _ _ => costs_of_ne nofun)
      (fun _ _ hne => absurd rfl hne) ?_
    intro flow hflow
    apply ends_propagate
    have hdirected : (net.opened kind strength).directed ⟨net.constraints.size⟩ flow =
        { kind, strength, flow := some flow, attached := true } := registered_directed
    refine ((ends_walk_overridden hreg hk hflow).and (h flow hflow)).mono ?_
      fun _ _ hf => costs_of_abrupt hf.1
    rintro met cur ⟨⟨⟨q, hvisit⟩, hsome⟩, hback⟩
    cases met with
    | none =>
      refine ⟨hvisit.graph.variableCount.trans takenOver_size, fun _ => ?_⟩
      have hcon : cur.con ⟨net.constraints.size⟩ = _ :=
        (congrFun hvisit.graph.con _).trans (overridden_con_new hreg.coherent hk)
      have hout : (kind.output (some flow)).index < cur.vars.size := by
        rw [hvisit.graph.variableCount]
        exact overridden_size.symm ▸ hk _ (Kind.mem_operands_of_mem_outputs Kind.output_mem_outputs)
      rw [hdirected, alterVariable_con, hcon]
      refine ⟨rfl, ?_⟩
      show ((cur.alterVariable (kind.output (some flow)) _).var (kind.output (some flow))).mark = _
      rw [alterVariable_var_self hout]
    | some v =>
      have hun : Quiet cur (cur.unwound (net.overridden kind strength flow).vars
          ⟨net.constraints.size⟩ v) := quiet_unwound hvisit.graph.variableCount.symm
      refine ((solvingInvariant_regular.ends_withdraw n
        (solvingInvariant_regular.keep_but (hsome v rfl).1 hun)).and (hback v rfl)).mono ?_ ?_
      · exact fun _ _ hend _ => .inr hend.2
      · -- a constraint that is out of the graph is not the one a nested attempt gives up
        intro e net'' hf he
        obtain ⟨d, hd, hin, -⟩ := hf.1.promised _ he rfl
        cases hd
        refine absurd rfl (ne_of_detached_attached ?_ hin)
        rw [hun.constraintCount, hvisit.graph.constraintCount]
        exact overridden_count.symm ▸ Nat.lt_succ_self _
  exact ((solvingInvariant_regular.ends_install (n := n)
    (fun _ _ hq => solvingInvariant_regular.ends_withdraw n hq)
    (solvingInvariant_regular.resatisfying_start hregistered ha hu)).and hown).mono
    (fun _ _ hend => ⟨by rw [← registered_size]; exact hend.1, hend.2⟩) fun _ _ hf => hf.2

theorem ends_establish_new (h : ∀ n, RollsBack net kind strength n R) (hreg : net.Regular)
    (hk : ∀ v ∈ kind.operands, v.index < net.vars.size) (n : Nat) :
    Ends (establish n ⟨net.constraints.size⟩) (net.registered kind strength) (fun _ _ => True)
      (Costs net R) := by
  cases n with
  | zero => exact costs_of_ne nofun
  | succ n =>
    rw [establish, establishUsing, ends_bind, ends_freshMark, ends_bind]
    refine ((h n).ends_install hreg hk).mono_ok fun o cur hcur => ?_
    rw [ends_bind, ends_get, hcur.keeps.variableCount, registered_size]
    refine (ends_resatisfy_within (J := Prevailing (net.registered kind strength)
      (net.opened kind strength).mark ⟨net.constraints.size⟩) ?_ ?_ ?_ _ hcur).mono_ok
      fun _ _ _ => trivial
    · exact fun h => h.ends_install
    · exact fun h => ⟨solvingInvariant_regular.resatisfying_journal h.toResatisfying, h.prevails⟩
    · exact fun h => Nat.not_lt_zero _ (h.displaced _ rfl).2.2

/-- What the roll-back of the new constraint leaves is what the addition leaves. -/
theorem ends_addConstraint_costs
    (h : (∀ v ∈ kind.operands, v.index < net.vars.size) → ∀ n, RollsBack net kind strength n R)
    (hreg : net.Regular) :
    Ends (addConstraint kind strength) net (fun _ _ => True) (Costs net R) := by
  rw [addConstraint, ends_bind]
  refine ends_checkVariables _ (fun e he => costs_of_ne ?_) fun hk => ?_
  · rintro ⟨⟩
    exact he.elim
  rw [ends_bind, ends_register hk, ends_bind, ends_nesting, ends_bind]
  refine ends_orDetach ((ends_establish_new (h hk) hreg hk _).and
    (solvingInvariant_regular.ends_establish _ (hreg.registered hk) registered_new_attached
      registered_new_unsatisfied)) (fun _ _ hf _ => hf.1) ?_ |>.mono_ok fun _ _ _ => trivial
  rintro net' ⟨-, hf⟩
  have hc := hf.known_new
  rw [ends_detach hc (hf.regular.coherent.known _ hc)]
  exact costs_of_ne (by rintro ⟨⟩)

/-- The roll-back of an undoable addition leads back. -/
theorem Undoable.rollsBack (h : net.Undoable kind) (hnet : net.Ordered) (hset : net.Settled)
    (hreg : net.Regular) (hk : ∀ v ∈ kind.operands, v.index < net.vars.size) (n : Nat) :
    RollsBack net kind strength n (Suspended net none) := by
  intro flow hflow
  have hsettled : (net.opened kind strength).Settled :=
    (hset.registered hk).of_sameSolution quiet_opened.toSameSolution
  have hwalk : Ends (walk (net.opened kind strength).mark
      (net.overridden kind strength flow).generations [⟨net.constraints.size⟩])
      (net.overridden kind strength flow)
      (fun met cur => ∀ v, met = some v → cur.Unsettled ⟨net.constraints.size⟩)
      (fun e _ => e.Abrupt) :=
    (hsettled.ends_walk registered_new_attached registered_new_unsatisfied).mono_ok
      fun _ _ hend => hend.2.2
  refine ((ends_walk_overridden hreg hk hflow).and hwalk).mono ?_ fun _ _ _ => trivial
  rintro _ cur ⟨⟨⟨q, hvisit⟩, hregular⟩, hunsettled⟩ v rfl
  have hun : Quiet cur (cur.unwound (net.overridden kind strength flow).vars
      ⟨net.constraints.size⟩ v) := quiet_unwound hvisit.graph.variableCount.symm
  refine h.ends_withdraw hnet hset hreg hk (hvisit.graph.trans hun.toSameGraph) (fun w => ?_)
    ((hregular v rfl).1.1.of_quiet hun) ((hunsettled v rfl).of_sameSolution hun.toSameSolution) n
  rw [unwound_value hvisit.graph.variableCount, overridden_value hreg.coherent hk]

/-- An edit reads nothing, so it closes no cycle. -/
theorem rollsBack_edit {v : VariableId} (hreg : net.Regular)
    (hk : ∀ w ∈ (Kind.edit v).operands, w.index < net.vars.size) (n : Nat) :
    RollsBack net (.edit v) strength n fun _ => False := by
  intro flow hflow
  refine (ends_walk_overridden hreg hk hflow).mono ?_ fun _ _ _ => trivial
  rintro met cur ⟨-, hmet⟩ w hw
  have hmark : ((net.overridden (.edit v) strength flow).var w).mark =
      (net.opened (.edit v) strength).mark := (hmet w hw).2
  have hpast : ((net.registered (.edit v) strength).var w).mark ≤
      (net.registered (.edit v) strength).mark := (hreg.registered hk).marksPast w
  have hreads : w ∉ ((net.opened (.edit v) strength).directed ⟨net.constraints.size⟩ flow).reads := by
    rw [show (net.opened (.edit v) strength).directed ⟨net.constraints.size⟩ flow = _ from
      registered_directed, Constraint.reads_eq_nil rfl]
    exact List.not_mem_nil
  rw [overridden, takenOver_var (hreg.coherent.opened hk) (by simp [opened])] at hmark
  simp only [if_neg hreads] at hmark
  exact absurd hmark (Nat.ne_of_lt (Nat.lt_succ_of_le hpast))

end Addition

end Network

end ConstraintHierarchy
