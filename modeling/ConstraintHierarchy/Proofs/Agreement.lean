import ConstraintHierarchy.Proofs.Extraction
import ConstraintHierarchy.Proofs.Values

/-!
# Agreement after careful runs

Values come into a network from outside: they are assigned, and plans and temporary edits compute new
ones from them. A caller is careful who assigns only variables that do not stay, who executes a plan
only as long as the graph is the one it was extracted for, and whose temporary edits are strong enough
to take their variable over. All that a careful caller can do to a value that stays is to change the
constraints, so such values agree with the constraints after every careful run.

## Main definitions

* `Network.Consistent`: what holds after a careful run
* `Request.Careful`, `Request.held`, `CarefulRun`: careful runs, with the plans that are still good
* `Network.Ruling`: the cascade of an edit that takes its variable over

## Main results

* `Network.operationInvariant_consistent`: changing the graph keeps values in agreement
* `Network.values_agree`: after a careful run every value that stays is right
-/

namespace ConstraintHierarchy

open Solve Network

namespace Network

/-- The network is regular and its values agree with its constraints. -/
structure Consistent (net : Network) : Prop where
  regular : net.Regular
  agreeing : net.Agreeing

section Consistent

variable {net net' : Network} {c : ConstraintId} {v : VariableId}

theorem Consistent.of_quiet (h : net.Consistent) (hq : Quiet net net')
    (hv : ∀ v, net'.value v = net.value v) : net'.Consistent :=
  ⟨h.regular.of_quiet hq, h.agreeing.of_sameSolution hq.toSameSolution hv⟩

theorem Moving.of_sameSolution (h : net.Moving c) (hs : SameSolution net net') : net'.Moving c := by
  have hstay := congrArg Annotation.stay (hs.current (net.con c).output)
  rw [Moving, hs.con]
  exact ⟨h.1, hstay.trans h.2⟩

/-- Whatever is written to a variable that does not stay, the values that stay depend on none such. -/
theorem Agreeing.assigned (h : net.Agreeing) (hv : (net.var v).stay = false) {value : Float} :
    (net.alterVariable v fun x => { x with value := value }).Agreeing := by
  have hsol : SameSolution net (net.alterVariable v fun x => { x with value := value }) :=
    sameSolution_alterVariable (fun _ => rfl) (fun _ => rfl) fun _ => rfl
  have hvalue : ∀ u, (net.var u).stay = true →
      (net.alterVariable v fun x => { x with value := value }).value u = net.value u := by
    intro u hu
    have hne : u ≠ v := fun huv => Bool.noConfusion (hv.symm.trans (huv ▸ hu))
    rw [Network.value, alterVariable_var_of_ne hne, Network.value]
  refine ⟨h.toSettled.of_sameSolution hsol, fun w c hc hstay => ?_⟩
  rw [hsol.determinedBy] at hc
  have hstay' : (net.var w).stay = true :=
    (congrArg Annotation.stay (hsol.current w)).symm.trans hstay
  obtain ⟨hsat, rfl⟩ := (h.coherent.determines w c).1 hc
  have hreads := ((h.toSettled.stay_output_iff hsat).1 hstay').2
  have hholds := h.agrees _ c hc hstay'
  rw [Holds, alterVariable_con, hvalue _ hstay',
    Constraint.compute_congr (fun u hu => hvalue u (hreads u hu)) fun _ => hvalue _ hstay']
  exact hholds

theorem Consistent.assigned (h : net.Consistent) (hv : (net.var v).stay = false) {value : Float} :
    (net.alterVariable v fun x => { x with value := value }).Consistent := by
  have hquiet : Quiet net (net.alterVariable v fun x => { x with value := value }) :=
    quiet_alterVariable (fun _ => rfl) (fun _ => rfl) (fun _ => rfl) fun _ => .inl rfl
  exact ⟨h.regular.of_quiet hquiet, h.agreeing.assigned hv⟩

/-- A network agrees if its satisfied constraints, and what they mention, are those of one that does. -/
theorem Agreeing.of_satisfied (h : net.Agreeing) (hset : net'.Settled)
    (hdet : ∀ v, (net'.var v).determinedBy = (net.var v).determinedBy)
    (hstay : ∀ v, (net'.var v).stay = (net.var v).stay)
    (hcon : ∀ d, (net.con d).isSatisfied = true → net'.con d = net.con d)
    (hvalue : ∀ v, v.index < net.vars.size → net'.value v = net.value v) : net'.Agreeing := by
  refine ⟨hset, fun w => (h.agrees w).congr (hdet w) (hstay w) fun d hd => ?_⟩
  have hsat := ((h.coherent.determines w d).1 hd).1
  have hknown := h.coherent.known d (known_of_isSatisfied hsat)
  exact ⟨hcon d hsat, hvalue _ (hknown _ Constraint.output_mem_operands),
    fun v hv => hvalue v (hknown v (Constraint.mem_operands_of_mem_reads hv))⟩

theorem Agreeing.detached (h : net.Agreeing) (ha : (net.con c).attached = true)
    (hu : (net.con c).isSatisfied = false) : (net.detached c).Agreeing := by
  have hvar : ∀ v, (net.detached c).var v = (net.var v).detach c :=
    fun _ => detached_var h.coherent (known_of_attached ha)
  refine h.of_satisfied (h.toSettled.detached ha hu) (fun v => ?_) (fun v => by rw [hvar]; rfl)
    (fun d hd => detached_con_of_ne (ne_of_isSatisfied hu hd).symm)
    fun v _ => by rw [value, hvar]; rfl
  have hne : (net.var v).determinedBy ≠ some c :=
    fun hdet => ne_of_determinedBy h.coherent hu hdet rfl
  rw [hvar, Variable.detach, if_neg hne]

theorem Agreeing.registered (h : net.Agreeing) {kind : Kind} {strength : Strength}
    (hk : ∀ v ∈ kind.operands, v.index < net.vars.size) :
    (net.registered kind strength).Agreeing := by
  refine h.of_satisfied (h.toSettled.registered hk) (fun v => by rw [registered_var hk])
    (fun v => by rw [registered_var hk]) (fun d hd => ?_)
    fun v _ => by rw [value, registered_var hk, value]
  apply registered_con_of_ne
  rintro rfl
  exact Nat.lt_irrefl _ (known_of_isSatisfied hd)

theorem Consistent.withVariable (h : net.Consistent) {name : String} {value : Float} :
    (net.withVariable name value).Consistent := by
  refine ⟨h.regular.withVariable, h.agreeing.of_satisfied h.agreeing.toSettled.withVariable
    (fun _ => withVariable_var_field (p := Variable.determinedBy) fun _ _ => rfl)
    (fun _ => withVariable_var_field (p := Variable.stay) fun _ _ => rfl) (fun _ _ => rfl) ?_⟩
  intro v hv
  have hne : v ≠ ⟨net.vars.size⟩ := by
    rintro rfl
    exact Nat.lt_irrefl _ hv
  rw [Network.value, withVariable_var_of_ne hne, Network.value]

theorem consistent_empty {patience : Nat} : (Network.empty patience).Consistent := by
  refine ⟨regular_empty, settled_empty, fun v c hc => ?_⟩
  rw [var_of_unknown (by simp [Network.empty])] at hc
  cases hc

end Consistent

/-! ## Changing the graph -/

section Operations

variable {net net' : Network} {c : ConstraintId} {e : Failure SolveError} {n : Nat}

theorem Fails.leaves_consistent (h : Fails net e net') (hl : e.Leaves Agreeing net') :
    e.Leaves Consistent net' :=
  hl.imp_right fun hagree => ⟨h.regular, hagree⟩

theorem Consistent.ends_establish (h : net.Consistent) (ha : (net.con c).attached = true)
    (hu : (net.con c).isSatisfied = false) :
    Ends (establish n c) net (fun _ => Consistent) (Failure.Leaves Consistent) :=
  ((solvingInvariant_regular.ends_establish n h.regular ha hu).and
    (repairInvariant_agreeing.ends_establish n h.agreeing ha hu)).mono
    (fun _ _ hend => ⟨hend.1.1, hend.2.1⟩) fun _ _ hf => hf.1.leaves_consistent hf.2

theorem operationInvariant_consistent :
    OperationInvariant (fun _ _ => True) Consistent (Failure.Leaves Consistent) where
  coherent h := h.regular.coherent
  note _ h := h.of_quiet quiet_note fun _ => rfl
  refused _ h := .inr h
  edit _ := trivial
  add {net kind strength} h _ hk := by
    have hreg : (net.registered kind strength).Consistent :=
      ⟨h.regular.registered hk, h.agreeing.registered hk⟩
    refine ends_orDetach (hreg.ends_establish registered_new_attached registered_new_unsatisfied
      |>.and (establishes_establish _ _ _ hreg.agreeing.toSettled registered_new_attached
        registered_new_unsatisfied)) (fun _ _ hf _ => hf.1) ?_ |>.mono_ok fun _ _ hend => hend.1
    intro net' hf
    -- the constraint that is taken out again computes nothing
    obtain ⟨hcons, hset⟩ := hf
    obtain ⟨ha, hu⟩ := (hset.resolve_left id).2 _ rfl
    have hcons : net'.Consistent := hcons.resolve_left id
    have hc := known_of_attached ha
    rw [ends_detach hc (hcons.regular.coherent.known _ hc)]
    exact .inr ⟨hcons.regular.detached hc, hcons.agreeing.detached ha hu⟩
  establish h ha hu := h.ends_establish ha hu
  withdraw {net c} h hs :=
    ((solvingInvariant_regular.ends_withdraw _ ⟨h.regular, hs⟩).and
      (repairInvariant_agreeing.ends_withdraw _ (h.agreeing.disagreeing hs))).mono
      (fun _ _ hend => ⟨hend.1.1, hend.2.1⟩) fun _ _ hf => hf.1.leaves_consistent hf.2
  drop h ha hu := ⟨h.regular.detached (known_of_attached ha), h.agreeing.detached ha hu⟩

end Operations

/-! ## Extracting and executing plans -/

section Plans

variable {net net' start : Network} {mark : Nat} {v : VariableId}

theorem Consistent.of_withoutMarks (h : net.Consistent) (hq : Quiet net net')
    (hs : net'.withoutMarks = net.withoutMarks) : net'.Consistent :=
  h.of_quiet hq fun _ => var_field_of_withoutMarks (p := Variable.value) (fun _ => rfl) hs

/-- The state of an extraction from arbitrary sources: only marks have changed. -/
structure Marking (start net : Network) (steps q : List ConstraintId) : Prop where
  same : net.withoutMarks = start.withoutMarks
  known : ∀ c ∈ steps ++ q, c.index < net.constraints.size

theorem planInvariant_marking (hcoh : start.Coherent) : PlanInvariant mark (Marking start) where
  coherent h := hcoh.of_sameGraph (sameSolution_of_withoutMarks h.same).toSameGraph
  known h c hc := h.known c (List.mem_append_right _ hc)
  take {net steps q c} h _ _ := by
    have hnet : net.Coherent := hcoh.of_sameGraph (sameSolution_of_withoutMarks h.same).toSameGraph
    refine ⟨withoutMarks_alterVariable.trans h.same, fun d hd => ?_⟩
    by_cases hread : d ∈ net.consumersOf (net.con c).output
    · exact known_of_isSatisfied (hnet.mem_consumersOf.1 hread).1
    · refine h.known d ?_
      simp only [List.mem_append, List.mem_cons] at hd ⊢
      tauto
  pass {net steps q c} h _ := by
    refine ⟨h.same, fun d hd => h.known d ?_⟩
    simp only [List.mem_append, List.mem_cons] at hd ⊢
    tauto

theorem Consistent.ends_makePlan (h : net.Consistent) (sources : List ConstraintId) :
    Ends (makePlan sources) net (fun _ => Consistent) (Failure.Leaves Consistent) := by
  have hreturns : Ends (makePlan sources) net (fun _ _ => True) (fun _ net' => net' = net) :=
    (Network.ends_makePlan h.regular.coherent sources fun _ _ _ _ _ => rfl).mono_ok
      fun _ _ _ => trivial
  have hmarks : Ends (makePlan sources) net (fun _ net' => net'.withoutMarks = net.withoutMarks)
      (fun _ _ => True) := by
    rw [makePlan, ends_bind]
    refine ends_checkAllAttached _ (fun _ _ _ _ _ => trivial) fun hattached => ?_
    rw [ends_bind, ends_freshMark, ends_bind, ends_get, ends_bind]
    have hstart : Marking net { net with mark := net.mark + 1 } [] sources :=
      ⟨rfl, fun c hc => known_of_attached (hattached c hc)⟩
    exact ((planInvariant_marking h.regular.coherent).ends_planFrom _ hstart).mono_ok
      fun _ _ hend => hend.same
  refine ((hreturns.and hmarks).and (quietly_makePlan sources net (Nat.zero_le _))).mono ?_ ?_
  · exact fun _ _ hend => h.of_withoutMarks hend.2 hend.1.2
  · exact fun _ _ hf => .inr (hf.1.1 ▸ h)

/-- The plan that is extracted moves: executing it writes to no variable that stays. -/
theorem Consistent.ends_extractPlan (h : net.Consistent) (cs : List ConstraintId) :
    Ends (extractPlan cs) net
      (fun plan net' => net'.Consistent ∧ SameSolution net net' ∧ ∀ c ∈ plan.steps, net'.Moving c)
      (fun _ net' => net' = net) := by
  refine ((ends_extractPlan_planning h.agreeing.toSettled h.regular.marksPast cs).and
    (quietly_extractPlan cs net (Nat.zero_le _))).mono ?_ fun _ _ hf => hf.1.1
  intro plan net' hend
  obtain ⟨hplan, hquiet⟩ := hend
  refine ⟨h.of_withoutMarks hquiet hplan.same, hquiet.toSameSolution, fun c hc => ?_⟩
  exact (hplan.moving c (by simpa using hc)).of_sameSolution hquiet.toSameSolution

theorem Consistent.ends_executeAll (cs : List ConstraintId) :
    ∀ {net : Network}, net.Consistent → (∀ c ∈ cs, net.Moving c) →
      Ends (executeAll cs) net (fun _ net' => net'.Consistent ∧ SameSolution net net')
        (fun e net' => e.Abrupt ∧ net'.Consistent) := by
  induction cs with
  | nil => exact fun h _ => ⟨h, .refl _⟩
  | cons c cs ih =>
    intro net h hcs
    obtain ⟨hsat, hstay⟩ := hcs c (by simp)
    have hc : c.index < net.constraints.size := known_of_isSatisfied hsat
    rw [executeAll, ends_bind, ends_execute hc (h.regular.coherent.known c hc)]
    refine ⟨fun value _ => ?_, fun _ => ⟨trivial, h⟩⟩
    have hsol : SameSolution net
        (net.alterVariable (net.con c).output fun x => { x with value := value }) :=
      sameSolution_alterVariable (fun _ => rfl) (fun _ => rfl) fun _ => rfl
    refine (ih (h.assigned hstay) fun d hd => ?_).mono_ok
      fun _ _ hend => ⟨hend.1, hsol.trans hend.2⟩
    exact (hcs d (List.mem_cons_of_mem c hd)).of_sameSolution hsol

theorem Consistent.ends_replay {plan : Plan} {value : Float} (n : Nat) :
    ∀ {net : Network}, net.Consistent → (net.var v).stay = false →
      (∀ c ∈ plan.steps, net.Moving c) →
      Ends (replay plan v value n) net (fun _ => Consistent)
        (fun e net' => e.Abrupt ∧ net'.Consistent) := by
  induction n with
  | zero => exact fun h _ _ => h
  | succ n ih =>
    intro net h hv hplan
    have hknown : v.index < net.vars.size := by
      by_contra hv'
      rw [var_of_unknown hv'] at hv
      cases hv
    have hset : SameSolution net (net.alterVariable v fun x => { x with value := value }) :=
      sameSolution_alterVariable (fun _ => rfl) (fun _ => rfl) fun _ => rfl
    rw [replay, ends_bind, ends_setValue hknown, ends_bind]
    refine (Consistent.ends_executeAll plan.steps (h.assigned hv)
      fun c hc => (hplan c hc).of_sameSolution hset).mono_ok ?_
    intro _ net' hend
    have hsol := hset.trans hend.2
    refine ih hend.1 ?_ fun c hc => (hplan c hc).of_sameSolution hsol
    exact (congrArg Annotation.stay (hsol.current v)).trans hv

end Plans

/-! ## An edit that takes its variable over -/

/-- A round of the cascade that `c` starts in the walk `mark`: `c` is about to take `v` over, or it has
done so and `v` is marked. -/
structure Ruling (mark : Nat) (c : ConstraintId) (v : VariableId) (o : Option ConstraintId)
    (net : Network) : Prop where
  coherent : net.Coherent
  displaced : ∀ d, o = some d → (net.con d).attached = true ∧ (net.con d).isSatisfied = false
  rules : (o = some c ∧ ∃ flow, net.flowFor mark c = some flow ∧
      (net.directed c flow).output = v) ∨
    (net.var v).mark = mark ∧ (net.var v).determinedBy = some c

section Ruling

variable {net : Network} {mark n : Nat} {c o : ConstraintId} {v : VariableId}
  {rollback : ConstraintId → Solve Unit}

/-- A marked variable is not taken over. -/
theorem Ruling.taken {flow : Flow} {net' : Network} {q : List ConstraintId}
    (h : Ruling mark c v (some o) net) (hflow : net.flowFor mark o = some flow)
    (hvisit : Visiting (net.takenOver mark o flow) net' q) :
    let next := net'.alterVariable (net.directed o flow).output fun x => { x with mark := mark }
    (next.var v).mark = mark ∧ (next.var v).determinedBy = some c := by
  intro next
  obtain ⟨ha, hu⟩ := h.displaced o rfl
  have hcoh := h.coherent
  have ho : o.index < net.constraints.size := known_of_attached ha
  have hdet : (next.var v).determinedBy = ((net.takenOver mark o flow).var v).determinedBy := by
    rw [← hvisit.graph.determinedBy]
    exact alterVariable_var_field fun _ => rfl
  rw [hdet, takenOver_var hcoh ho]
  obtain ⟨hoc, flow', hflow', rfl⟩ | ⟨hm, hd⟩ := h.rules
  · cases hoc
    cases hflow.symm.trans hflow'
    have hout : (net.directed c flow).output.index < net'.vars.size := by
      rw [hvisit.graph.variableCount, takenOver_size]
      exact hcoh.known_directed_output ho
    exact ⟨by rw [alterVariable_var_self hout], if_pos rfl⟩
  · have hne : v ≠ (net.directed o flow).output := by
      rintro rfl
      exact (flowFor_some hflow).1.1 hm
    refine ⟨?_, (if_neg hne).trans hd⟩
    rw [alterVariable_var_of_ne hne, hvisit.marks, takenOver_var hcoh ho]
    show (if _ then mark else _) = mark
    split
    · rfl
    · exact hm

theorem Ruling.ends_install (h : Ruling mark c v (some o) net) :
    Ends (install rollback mark o) net (Ruling mark c v) (fun _ _ => True) := by
  obtain ⟨ha, hu⟩ := h.displaced o rfl
  have hcoh := h.coherent
  refine Network.ends_install hcoh ha hu (fun _ _ => trivial) (fun hnone _ => ?_) ?_
  · refine ⟨hcoh, nofun, .inr (h.rules.resolve_left ?_)⟩
    rintro ⟨hoc, flow, hflow, -⟩
    cases hoc
    cases hnone.symm.trans hflow
  intro flow hflow
  have hcoh' : (net.takenOver mark o flow).Coherent := hcoh.takenOver ha hu
  have hsat : ((net.takenOver mark o flow).con o).isSatisfied = true :=
    (takenOver_isSatisfied_iff hcoh (known_of_attached ha) hu).2 (.inl rfl)
  have inv : WalkInvariant mark (fun _ _ => True) (Visiting (net.takenOver mark o flow)) :=
    walkInvariant_visiting hcoh' (fun _ => trivial) fun _ => trivial
  apply ends_propagate
  refine (ends_walk inv _ (visiting_start hsat)).mono_ok ?_
  intro met net' hend
  cases met with
  | none =>
    have hmark : SameGraph net' (net'.alterVariable (net.directed o flow).output
        fun x => { x with mark := mark }) := sameGraph_alterVariable (fun _ => rfl) fun _ => rfl
    refine ⟨hend.graph.variableCount.trans takenOver_size,
      (hcoh'.of_sameGraph hend.graph).of_sameGraph hmark, fun d hd => ?_, .inr (h.taken hflow hend)⟩
    rw [hmark.con, hend.graph.con, takenOver_con_displaced hcoh hu hd]
    exact ⟨hcoh.attached d ((hcoh.determines _ d).1 hd).1, rfl⟩
  | some w => exact ends_true

theorem Ruling.ends_establish
    (h : Ruling (net.mark + 1) c v (some c) { net with mark := net.mark + 1 }) :
    Ends (establish n c) net (fun _ net' => (net'.var v).determinedBy = some c)
      (fun _ _ => True) := by
  cases n with
  | zero => trivial
  | succ n =>
    refine (Network.ends_establishUsing (J := Ruling (net.mark + 1) c v) h
      (fun h => h.ends_install) (fun h => ?_) fun _ => trivial).mono_ok ?_
    · exact ⟨h.coherent.of_sameGraph (sameGraph_of_eq rfl rfl), h.displaced, h.rules⟩
    intro _ net' hend
    exact (hend.rules.resolve_left fun hleft => nomatch hleft.1).2

end Ruling

/-- A new edit that is stronger than what its variable carries is going to compute it. -/
theorem ruling_edit {net : Network} {v : VariableId} {strength : Strength} (h : net.Regular)
    (hk : ∀ w ∈ (Kind.edit v).operands, w.index < net.vars.size)
    (hstrong : strength.StrongerThan (net.var v).walkStrength) :
    Ruling ((net.registered (.edit v) strength).mark + 1) ⟨net.constraints.size⟩ v
      (some ⟨net.constraints.size⟩) { net.registered (.edit v) strength with
        mark := (net.registered (.edit v) strength).mark + 1 } := by
  have hreg : (net.registered (.edit v) strength).Regular := h.registered hk
  have hcon : (net.registered (.edit v) strength).con ⟨net.constraints.size⟩ =
      { kind := .edit v, strength, attached := true } := registered_con_new
  have hdirected : Network.directed { net.registered (.edit v) strength with
        mark := (net.registered (.edit v) strength).mark + 1 } ⟨net.constraints.size⟩ .forward =
      { kind := .edit v, strength, flow := some .forward, attached := true } := by
    show { (net.registered (.edit v) strength).con ⟨net.constraints.size⟩ with
      flow := some .forward } = _
    rw [hcon]
  have hyields : ((net.registered (.edit v) strength).con ⟨net.constraints.size⟩).strength.StrongerThan
      ((net.registered (.edit v) strength).var v).walkStrength := by
    rw [hcon, registered_var hk]
    exact hstrong
  refine ⟨hreg.coherent.of_sameGraph (sameGraph_of_eq rfl rfl), ?_, .inl ⟨rfl, .forward, ?_, ?_⟩⟩
  · intro d hd
    cases hd
    exact ⟨registered_new_attached, registered_new_unsatisfied⟩
  · refine flowFor_eq_some ?_ (fun _ => rfl) ?_
    · rw [hdirected]
      exact ⟨Nat.ne_of_lt (Nat.lt_succ_of_le (hreg.marksPast v)), hyields⟩
    · rw [hdirected]
      exact nofun
  · rw [hdirected]
    rfl

/-- An edit that is stronger than what its variable carries computes it. -/
theorem ends_addConstraint_edit {net : Network} {v : VariableId} {strength : Strength}
    (h : net.Regular)
    (hstrong : v.index < net.vars.size → strength.StrongerThan (net.var v).walkStrength) :
    Ends (addConstraint (.edit v) strength) net
      (fun c net' => (net'.var v).determinedBy = some c ∧ (net'.con c).isInput = true)
      (fun _ _ => True) := by
  rw [addConstraint, ends_bind]
  refine ends_checkVariables _ (fun _ _ => trivial) fun hk => ?_
  rw [ends_bind, ends_register hk, ends_bind, ends_nesting, ends_bind]
  have hrules := ruling_edit h hk (hstrong (hk v (by simp [Kind.operands])))
  refine ends_orDetach (hrules.ends_establish.and (solvingInvariant_regular.ends_establish _
    (h.registered hk) registered_new_attached registered_new_unsatisfied)) (fun _ _ _ _ => trivial)
    (fun _ _ => ends_true) |>.mono_ok ?_
  intro _ net' hend
  refine ⟨hend.1, ?_⟩
  have hkind := hend.2.2.kind ⟨net.constraints.size⟩
  rw [Constraint.isInput, hkind, registered_con_new]
  rfl

end Network

/-! ## Careful runs -/

namespace Request

/-- What a careful caller asks for, `plans` being the plans that are still good: variables that stay are
not assigned, no other plan is executed, and a temporary edit is stronger than what its variable
carries. -/
def Careful (net : Network) (plans : List Plan) : Request → Prop
  | assign v _ => ∀ x, net.getVariable? v = some x → x.stay = false
  | change v _ strength _ => ∀ x, net.getVariable? v = some x → strength.StrongerThan x.walkStrength
  | runPlan p => p ∈ plans
  | _ => True

/-- The plans that are good after a request: one that may add or retract a constraint spoils all. -/
def held (r : Request) (net : Network) (plans : List Plan) : List Plan :=
  match r with
  | add _ _ => []
  | enforce _ => []
  | retract _ => []
  | destroy _ => []
  | change _ _ _ _ => []
  | extractPlan cs =>
    match Network.extractPlan cs net with
    | .ok p _ => p :: plans
    | .error _ _ => plans
  | _ => plans

instance (net : Network) (plans : List Plan) : DecidablePred (Careful net plans)
  | addVariable _ _ => isTrue trivial
  | valueOf _ => isTrue trivial
  | assign v _ => inferInstanceAs (Decidable (∀ x ∈ net.getVariable? v, x.stay = false))
  | freshMark => isTrue trivial
  | add _ _ => isTrue trivial
  | enforce _ => isTrue trivial
  | retract _ => isTrue trivial
  | destroy _ => isTrue trivial
  | change v _ strength _ =>
    inferInstanceAs (Decidable (∀ x ∈ net.getVariable? v, strength.StrongerThan x.walkStrength))
  | makePlan _ => isTrue trivial
  | extractPlan _ => isTrue trivial
  | runPlan p => inferInstanceAs (Decidable (p ∈ plans))

/-- The network after a list of requests, each of which has to be careful where it is made, and the
plans that are good there. -/
def runCarefully : List Request → Network → List Plan → Option (Network × List Plan)
  | [], net, plans => some (net, plans)
  | r :: rs, net, plans =>
    if r.Careful net plans then
      (r.outcome? net).bind fun net' => runCarefully rs net' (r.held net plans)
    else none

end Request

/-- The networks that careful runs lead to, and the plans that are good there. -/
inductive CarefulRun : Network → List Plan → Prop
  | empty {patience : Nat} : CarefulRun (.empty patience) []
  | step {net net' : Network} {plans : List Plan} {r : Request} (h : CarefulRun net plans)
    (hc : r.Careful net plans) (hr : r.outcome? net = some net') : CarefulRun net' (r.held net plans)

theorem CarefulRun.of_runCarefully (rs : List Request) :
    ∀ {net : Network} {plans : List Plan} {outcome : Network × List Plan}, CarefulRun net plans →
      Request.runCarefully rs net plans = some outcome → CarefulRun outcome.1 outcome.2 := by
  induction rs with
  | nil =>
    intro net plans outcome h hrun
    cases hrun
    exact h
  | cons r rs ih =>
    intro net plans outcome h hrun
    rw [Request.runCarefully] at hrun
    split at hrun
    next hc =>
      obtain ⟨net₁, hr, hrest⟩ := Option.bind_eq_some_iff.1 hrun
      exact ih (h.step hc hr) hrest
    next => cases hrun

/-- What a request keeps unless it stops half-way holds where the run goes on. -/
theorem Request.of_outcome? {r : Request} {net net' : Network} {P : Network → Prop}
    (hr : r.outcome? net = some net') (h : Ends r.perform net (fun _ => P) (Failure.Leaves P)) :
    P net' := by
  unfold Request.outcome? at hr
  split at hr
  next hok =>
    cases hr
    exact h.of_ok hok
  next => cases hr
  next e _ hne herror =>
    cases hr
    refine (h.of_error herror).resolve_left fun habrupt => ?_
    cases e with
    | divisionByZero c => exact hne c rfl
    | _ => exact habrupt
  next => cases hr

namespace Network

section Careful

variable {net net' : Network} {plans : List Plan} {r : Request}

theorem Consistent.ends_change (h : net.Consistent) {v : VariableId} {value : Float}
    {strength : Strength} {n : Nat}
    (hc : (Request.change v value strength n).Careful net plans) :
    Ends (change v value strength n) net (fun _ => Consistent) (Failure.Leaves Consistent) := by
  have hstrong : v.index < net.vars.size → strength.StrongerThan (net.var v).walkStrength :=
    fun hv => hc _ (getVariable?_eq_var hv)
  rw [change, ends_bind]
  refine ((operationInvariant_consistent.ends_addConstraint h trivial).and
    (ends_addConstraint_edit h.regular hstrong)).mono ?_ fun _ _ hf => hf.1
  intro edit net₁ hadd
  obtain ⟨h₁, hdet, hinput⟩ := hadd
  have hstay₁ : (net₁.var v).stay = false := by
    obtain ⟨hsat, rfl⟩ := (h₁.regular.coherent.determines v edit).1 hdet
    exact (h₁.agreeing.toSettled.moving_of_isInput hsat hinput).2
  rw [ends_bind]
  refine (h₁.ends_extractPlan [edit]).mono ?_ fun _ _ hf => .inr (hf ▸ h₁)
  intro plan net₂ hextract
  obtain ⟨h₂, hsol, hplan⟩ := hextract
  have hstay₂ : (net₂.var v).stay = false :=
    (congrArg Annotation.stay (hsol.current v)).trans hstay₁
  refine ends_always (h₂.ends_replay n hstay₂ hplan)
    (fun _ h => operationInvariant_consistent.ends_destroy h) ?_ ?_
  · exact fun _ _ habrupt _ => .inl habrupt
  · exact fun _ _ _ habrupt _ => .inl habrupt

/-- A careful request keeps values in agreement. -/
theorem Consistent.ends_perform (h : net.Consistent)
    (hplans : ∀ p ∈ plans, ∀ c ∈ p.steps, net.Moving c) (hc : r.Careful net plans) :
    Ends r.perform net (fun _ => Consistent) (Failure.Leaves Consistent) := by
  have hlookup : ∀ e : SolveError, e.OnLookup → Failure.Leaves Consistent (.refused e) net :=
    fun _ _ => .inr h
  have inv := operationInvariant_consistent
  cases r with
  | addVariable name value =>
    simp only [Request.perform, ends_discard, Network.addVariable, ends_bind, ends_get, ends_modify,
      ends_pure]
    exact h.withVariable
  | valueOf v =>
    rw [Request.perform, ends_discard, Network.valueOf, ends_bind]
    refine ends_checkVariable (fun hv => ?_) hlookup
    rw [ends_readValue hv]
    exact h
  | assign v value =>
    rw [Request.perform, Network.assign, ends_bind]
    refine ends_checkVariable (fun hv => ?_) hlookup
    rw [ends_setValue hv]
    exact h.assigned (hc _ (getVariable?_eq_var hv))
  | freshMark => exact ends_discard.2 (h.of_quiet quiet_freshMark fun _ => rfl)
  | add kind strength => exact ends_discard.2 (inv.ends_addConstraint h trivial)
  | enforce c => exact inv.ends_enforce h
  | retract c => exact inv.ends_retract h
  | destroy c => exact inv.ends_destroy h
  | change v value strength n => exact h.ends_change hc
  | makePlan sources => exact ends_discard.2 (h.ends_makePlan sources)
  | extractPlan cs =>
    exact ends_discard.2 ((h.ends_extractPlan cs).mono (fun _ _ hend => hend.1)
      fun _ _ hf => .inr (hf ▸ h))
  | runPlan p =>
    exact (Consistent.ends_executeAll p.steps h (hplans p hc)).mono (fun _ _ hend => hend.1)
      fun _ _ hf => .inl hf.1

/-- A quiet request spoils no plan. -/
theorem moving_of_quietly {α : Type} {act : Solve α} {allowed : Failure SolveError → Prop}
    (hq : Quietly 0 allowed act) :
    Ends act net (fun _ net' => ∀ c, net.Moving c → net'.Moving c)
      (Failure.Leaves fun net' => ∀ c, net.Moving c → net'.Moving c) :=
  (hq net (Nat.zero_le _)).mono (fun _ _ hq _ hc => hc.of_sameSolution hq.toSameSolution)
    fun _ _ hq => .inr fun _ hc => hc.of_sameSolution hq.2.toSameSolution

/-- Every step of a plan that is still good computes something that moves. -/
theorem Consistent.moving_held (h : net.Consistent)
    (hplans : ∀ p ∈ plans, ∀ c ∈ p.steps, net.Moving c) (hr : r.outcome? net = some net') :
    ∀ p ∈ r.held net plans, ∀ c ∈ p.steps, net'.Moving c := by
  have hkept : (∀ c, net.Moving c → net'.Moving c) →
      ∀ p ∈ plans, ∀ c ∈ p.steps, net'.Moving c :=
    fun hmoves p hp c hc => hmoves c (hplans p hp c hc)
  cases r with
  | addVariable name value =>
    have hnet' : net.withVariable name value = net' := Option.some.inj hr
    refine hkept fun c hc => ?_
    rw [← hnet']
    refine ⟨hc.1, ?_⟩
    rw [withVariable_var_field (p := Variable.stay) fun _ _ => rfl]
    exact hc.2
  | valueOf v =>
    exact hkept (Request.of_outcome? hr (ends_discard.2 (moving_of_quietly quietly_valueOf)))
  | assign v value =>
    exact hkept (Request.of_outcome? hr (moving_of_quietly quietly_assign))
  | freshMark =>
    have hnet' : { net with mark := net.mark + 1 } = net' := Option.some.inj hr
    rw [← hnet']
    exact hplans
  | add kind strength => simp [Request.held]
  | enforce c => simp [Request.held]
  | retract c => simp [Request.held]
  | destroy c => simp [Request.held]
  | change v value strength n => simp [Request.held]
  | makePlan sources =>
    exact hkept (Request.of_outcome? hr (ends_discard.2 (moving_of_quietly (quietly_makePlan _))))
  | extractPlan cs =>
    have hold := hkept
      (Request.of_outcome? hr (ends_discard.2 (moving_of_quietly (quietly_extractPlan cs))))
    cases hrun : Network.extractPlan cs net with
    | error e net'' =>
      simp only [Request.held, hrun]
      exact hold
    | ok plan net'' =>
      have hperform : (Request.extractPlan cs).perform net = .ok () net'' := by
        simp only [Request.perform, discard, Functor.mapConst, EStateM.map, Function.comp_apply, hrun]
      have hnet' : net'' = net' := by
        rw [Request.outcome?, hperform] at hr
        exact Option.some.inj hr
      simp only [Request.held, hrun]
      intro p hp
      obtain rfl | hp := List.mem_cons.1 hp
      · rw [← hnet']
        exact ((h.ends_extractPlan cs).of_ok hrun).2.2
      · exact hold p hp
  | runPlan p => exact hkept (Request.of_outcome? hr (moving_of_quietly (quietly_runPlan p)))

theorem consistent_of_carefulRun (h : CarefulRun net plans) :
    net.Consistent ∧ ∀ p ∈ plans, ∀ c ∈ p.steps, net.Moving c := by
  induction h with
  | empty => exact ⟨consistent_empty, by simp⟩
  | step _ hc hr ih =>
    obtain ⟨hnet, hplans⟩ := ih
    exact ⟨Request.of_outcome? hr (hnet.ends_perform hplans hc), hnet.moving_held hplans hr⟩

end Careful

/-- After every careful run, whatever was refused, the output of a satisfied constraint has the value
that its method computes from the current values, if it stays; to execute the method once more changes
nothing. -/
theorem values_agree {net : Network} {plans : List Plan} (h : CarefulRun net plans)
    {c : ConstraintId} {k : Constraint} {x : Variable} (hk : net.getConstraint? c = some k)
    (hs : k.isSatisfied = true) (hx : net.getVariable? k.output = some x) (hstay : x.stay = true) :
    k.compute net.value = some x.value ∧ execute c net = .ok () net := by
  obtain ⟨hc, rfl⟩ := getConstraint?_eq_some.1 hk
  obtain ⟨hout, rfl⟩ := getVariable?_eq_some.1 hx
  have hnet := (consistent_of_carefulRun h).1
  have hcoh := hnet.regular.coherent
  have hholds : net.Holds c := hnet.agreeing.agrees _ c (hcoh.determinedBy_output hs) hstay
  refine ⟨hholds, Ends.eq_ok ?_⟩
  rw [ends_execute hc (hcoh.known c hc)]
  refine ⟨fun value hvalue => ?_, fun hnone => nomatch hnone.symm.trans hholds⟩
  rw [hholds] at hvalue
  cases hvalue
  exact ⟨rfl, alterVariable_eq_self hout rfl⟩

end Network

/-- A plan for the edit of `a` is replayed by hand, the edit is destroyed, an equation that closes a
cycle is refused, and `b` is edited for a while. -/
def carefulRequests : List Request :=
  plannedRequests ++ [.extractPlan [⟨0⟩], .assign ⟨0⟩ 5, .runPlan ⟨[⟨0⟩, ⟨2⟩, ⟨1⟩]⟩, .destroy ⟨0⟩,
    .add (.equal ⟨1⟩ ⟨0⟩) .required, .change ⟨1⟩ 7 .strongPreferred 2]

def carefulOutcome : Network × List Plan :=
  (Request.runCarefully carefulRequests .empty []).get (by decide +kernel)

def carefulNetwork : Network := carefulOutcome.1

namespace Network

theorem values_agree_carefulNetwork :
    ∃ k x, carefulNetwork.getConstraint? ⟨1⟩ = some k ∧ k.kind = .scale ⟨1⟩ ⟨3⟩ ⟨0⟩ ⟨2⟩ ∧
      carefulNetwork.getVariable? k.output = some x ∧ x.stay = true ∧
      k.compute carefulNetwork.value = some x.value ∧
      execute ⟨1⟩ carefulNetwork = .ok () carefulNetwork := by
  have hrun : CarefulRun carefulNetwork carefulOutcome.2 :=
    CarefulRun.of_runCarefully carefulRequests .empty (Option.some_get _).symm
  have hk : carefulNetwork.getConstraint? ⟨1⟩ = some (carefulNetwork.con ⟨1⟩) :=
    getConstraint?_eq_con (by decide +kernel)
  have hs : (carefulNetwork.con ⟨1⟩).isSatisfied = true := by decide +kernel
  have hx : carefulNetwork.getVariable? (carefulNetwork.con ⟨1⟩).output =
      some (carefulNetwork.var (carefulNetwork.con ⟨1⟩).output) :=
    getVariable?_eq_var (by decide +kernel)
  have hstay : (carefulNetwork.var (carefulNetwork.con ⟨1⟩).output).stay = true := by decide +kernel
  exact ⟨_, _, hk, by decide +kernel, hx, hstay, values_agree hrun hk hs hx hstay⟩

end Network

end ConstraintHierarchy
