import ConstraintHierarchy.Proofs.Extraction
import ConstraintHierarchy.Proofs.Values

/-!
# The order of a plan and its execution

A plan is executed step by step on the values that are there. A step whose operands have been computed
by then, or are computed by no step, finds the values that they will have in the end, and since no two
steps have the same output nothing overwrites what it computes. So such a step holds when the plan is
through, and a plan all of whose steps hold can be executed again without effect.

The extraction waits for the input of a constraint but not for the factor and the offset of a scaling.
An input is therefore always computed in time, whereas a parameter can be computed too late.

## Main definitions

* `Network.withoutValues`: a network up to the values of its variables
* `Plan.ComputesAt`: a step of a plan computes a variable
* `Plan.CurrentAt`: a variable has its final value when a step of the plan is reached
* `Plan.InOrder`: every step finds what it reads up to date

## Main results

* `Network.ends_executeAll_frame`: execution changes nothing but outputs
* `Network.Planning.ends_executeAll_holds`: a step that finds its operands up to date holds in the end
* `Network.extractPlan_inputs_current`: inputs are up to date, and parameters unless they come late
* `Network.runPlan_idempotent`: a plan without computed parameters makes its steps hold, once and for
  all
-/

namespace ConstraintHierarchy

open Solve Network

/-- The variable with a value that tells nothing. -/
def Variable.withoutValue (x : Variable) : Variable := { x with value := 0 }

namespace Network

/-- The network with values that tell nothing. -/
def withoutValues (net : Network) : Network :=
  { net with vars := net.vars.map Variable.withoutValue }

section Values

variable {net net' : Network} {v : VariableId}

/-- Writing a value is forgotten with the values. -/
theorem withoutValues_alterVariable {value : Float} :
    (net.alterVariable v fun x => { x with value := value }).withoutValues = net.withoutValues := by
  have hvars : (net.vars.modify v.index fun x => { x with value := value }).map
      Variable.withoutValue = net.vars.map Variable.withoutValue := by
    ext i hi hi'
    · simp
    · simp only [Array.getElem_map, Array.getElem_modify]
      split
      · rfl
      · rfl
  simp only [withoutValues, alterVariable, hvars]

theorem var_withoutValues : net.withoutValues.var v = (net.var v).withoutValue := by
  by_cases hv : v.index < net.vars.size
  · have hx : net.vars[v.index]? = some (net.var v) := getVariable?_eq_var hv
    rw [var, getVariable?, withoutValues, Array.getElem?_map, hx]
    rfl
  · rw [var_of_unknown hv, var_of_unknown (by simpa [withoutValues] using hv)]
    rfl

theorem name_of_withoutValues (h : net'.withoutValues = net.withoutValues) :
    (net'.var v).name = (net.var v).name := by
  have hvar : (net'.var v).withoutValue = (net.var v).withoutValue := by
    rw [← var_withoutValues, h, var_withoutValues]
  exact (congrArg Variable.name hvar :)

theorem constraints_of_withoutValues (h : net'.withoutValues = net.withoutValues) :
    net'.constraints = net.constraints :=
  (congrArg Network.constraints h :)

theorem size_of_withoutValues (h : net'.withoutValues = net.withoutValues) :
    net'.vars.size = net.vars.size := by
  simpa [withoutValues] using congrArg (fun n => n.vars.size) h

end Values

/-! ## Executing a list of constraints -/

/-- The constraints exist and so does everything that they mention. -/
def Executable (net : Network) (cs : List ConstraintId) : Prop :=
  ∀ c ∈ cs, c.index < net.constraints.size ∧
    ∀ v ∈ (net.con c).kind.operands, v.index < net.vars.size

section Execute

variable {net net' : Network} {c d : ConstraintId} {cs pre post : List ConstraintId}
  {v : VariableId}

theorem Executable.mono (h : net.Executable cs) (hcons : net'.constraints = net.constraints)
    (hvars : net.vars.size ≤ net'.vars.size) : net'.Executable cs := by
  intro c hc
  rw [con_congr hcons, hcons]
  exact ⟨(h c hc).1, fun v hv => lt_of_lt_of_le ((h c hc).2 v hv) hvars⟩

theorem Executable.of_withoutValues (h : net.Executable cs)
    (hsame : net'.withoutValues = net.withoutValues) : net'.Executable cs :=
  h.mono (constraints_of_withoutValues hsame) (size_of_withoutValues hsame).ge

/-- A single step writes the output of a constraint that has an input, and nothing else; what it has
written is what its method gives. -/
theorem ends_execute_frame {ok : Unit → Network → Prop} (h : net.Executable [c])
    (hok : ∀ net', net'.withoutValues = net.withoutValues →
      (∀ v, (v = (net.con c).output → (net.con c).input = none) → net'.value v = net.value v) →
      some (net'.value (net.con c).output) = (net.con c).compute net.value → ok () net') :
    Ends (execute c) net ok (fun e net' => e = .refused (.divisionByZero c) ∧ net' = net ∧
      (net.con c).compute net.value = none) := by
  obtain ⟨hc, hoperands⟩ := h c (by simp)
  have hout := hoperands _ Constraint.output_mem_operands
  rw [ends_execute hc hoperands]
  refine ⟨fun x hx => hok _ withoutValues_alterVariable (fun v hv => ?_) ?_,
    fun hnone => ⟨rfl, rfl, hnone⟩⟩
  · by_cases hvo : v = (net.con c).output
    · have hholds : net.Holds c := holds_of_input_none (hv hvo)
      rw [Holds, hx, Option.some.injEq] at hholds
      rw [hvo, value, alterVariable_var_self hout]
      exact hholds
    · rw [value, alterVariable_var_of_ne hvo, value]
  · rw [value, alterVariable_var_self hout, hx]

/-- No constraint in the list that has an input computes `v`. -/
def Unwritten (net : Network) (cs : List ConstraintId) (v : VariableId) : Prop :=
  ∀ c ∈ cs, v = (net.con c).output → (net.con c).input = none

/-- Execution changes the outputs of constraints that have an input, and nothing else. It stops only at a
division by zero. -/
theorem ends_executeAll_frame (cs : List ConstraintId) :
    ∀ {net : Network}, net.Executable cs →
      Ends (executeAll cs) net
        (fun _ net' => net'.withoutValues = net.withoutValues ∧
          ∀ v, net.Unwritten cs v → net'.value v = net.value v)
        (fun e net' => (∃ d ∈ cs, e = .refused (.divisionByZero d) ∧
            (net'.con d).compute net'.value = none) ∧
          net'.withoutValues = net.withoutValues ∧
          ∀ v, net.Unwritten cs v → net'.value v = net.value v) := by
  induction cs with
  | nil => exact fun _ => ⟨rfl, fun _ _ => rfl⟩
  | cons c cs ih =>
    intro net h
    rw [executeAll, ends_bind]
    refine (ends_execute_frame (fun d hd => h d (by simp_all)) fun mid hsame hvalue _ => ?_).mono
      (fun _ _ hend => hend) ?_
    · have hmid : mid.Executable cs :=
        Executable.of_withoutValues (fun d hd => h d (by simp [hd])) hsame
      have hframe : ∀ net' : Network, (∀ v, mid.Unwritten cs v → net'.value v = mid.value v) →
          ∀ v, net.Unwritten (c :: cs) v → net'.value v = net.value v := by
        intro net' hnet' v hv
        rw [hnet' v fun d hd => ?_, hvalue v (hv c (by simp))]
        rw [con_congr (constraints_of_withoutValues hsame)]
        exact hv d (by simp [hd])
      refine (ih hmid).mono (fun _ _ hfinal => ⟨hfinal.1.trans hsame, hframe _ hfinal.2⟩) ?_
      rintro _ _ ⟨⟨d, hd, he, hnone⟩, hrest, hfinal⟩
      exact ⟨⟨d, by simp [hd], he, hnone⟩, hrest.trans hsame, hframe _ hfinal⟩
    · rintro _ _ ⟨he, rfl, hnone⟩
      exact ⟨⟨c, by simp, he, hnone⟩, rfl, fun _ _ => rfl⟩

/-- To replay a plan is to write values, up to a division by zero. -/
theorem ends_replay_frame {p : Plan} {value : Float} (n : Nat) :
    ∀ {net : Network}, net.Executable p.steps → v.index < net.vars.size →
      Ends (replay p v value n) net (fun _ net' => net'.withoutValues = net.withoutValues)
        (fun e net' => (∃ d, e = .refused (.divisionByZero d)) ∧
          net'.withoutValues = net.withoutValues) := by
  induction n with
  | zero => exact fun _ _ => rfl
  | succ n ih =>
    intro net h hv
    let written := net.alterVariable v fun x => { x with value := value }
    have hwritten : written.withoutValues = net.withoutValues := withoutValues_alterVariable
    rw [replay, ends_bind, ends_setValue hv, ends_bind, runPlan]
    refine (ends_executeAll_frame p.steps (h.of_withoutValues hwritten)).mono ?_ ?_
    · rintro _ net' ⟨hsame, -⟩
      have hnet' := hsame.trans hwritten
      exact (ih (h.of_withoutValues hnet') (by rwa [size_of_withoutValues hnet'])).mono
        (fun _ _ hend => hend.trans hnet') fun _ _ hfail => ⟨hfail.1, hfail.2.trans hnet'⟩
    · rintro _ _ ⟨⟨d, -, hd, -⟩, hsame, -⟩
      exact ⟨⟨d, hd⟩, hsame.trans hwritten⟩

theorem executeAll_append (pre post : List ConstraintId) :
    executeAll (pre ++ post) = (do executeAll pre; executeAll post) := by
  induction pre with
  | nil => rfl
  | cons c pre ih => simp [executeAll, ih, bind_assoc]

/-- A constraint holds after its execution if nothing that is executed from then on writes what it
reads, and nothing afterwards its output. -/
theorem ends_executeAll_split (h : net.Executable (pre ++ c :: post))
    (hreads : ∀ d ∈ c :: post, (net.con d).output ∉ (net.con c).reads)
    (houts : ∀ d ∈ post, (net.con d).output ≠ (net.con c).output) :
    Ends (executeAll (pre ++ c :: post)) net (fun _ final => final.Holds c) (fun _ _ => True) := by
  have hpre : net.Executable pre := fun d hd => h d (by simp [hd])
  rw [executeAll_append, ends_bind]
  refine (ends_executeAll_frame pre hpre).mono (fun _ before hbefore => ?_) fun _ _ _ => trivial
  have hcon : before.con = net.con := con_congr (constraints_of_withoutValues hbefore.1)
  have hrest : before.Executable (c :: post) :=
    Executable.of_withoutValues (fun d hd => h d (by simp at hd ⊢; tauto)) hbefore.1
  rw [executeAll, ends_bind]
  refine (ends_execute_frame (fun d hd => hrest d (by simp_all))
    fun mid hsame hvalue hwritten => ?_).mono (fun _ _ hend => hend) fun _ _ _ => trivial
  have hcon' : mid.con = net.con := (con_congr (constraints_of_withoutValues hsame)).trans hcon
  have hpost : mid.Executable post :=
    Executable.of_withoutValues (fun d hd => hrest d (by simp [hd])) hsame
  refine (ends_executeAll_frame post hpost).mono (fun _ final hfinal => ?_) fun _ _ _ => trivial
  rw [hcon] at hvalue hwritten
  simp only [Unwritten, hcon'] at hfinal
  have hout : final.value (net.con c).output = mid.value (net.con c).output :=
    hfinal.2 _ fun d hd ho => absurd ho.symm (houts d hd)
  have hread : ∀ v ∈ (net.con c).reads, final.value v = before.value v := by
    intro v hv
    have hlater : ∀ d ∈ c :: post, v ≠ (net.con d).output := fun d hd ho => hreads d hd (ho ▸ hv)
    rw [hfinal.2 v fun d hd ho => absurd ho (hlater d (by simp [hd])),
      hvalue v fun ho => absurd ho (hlater c (by simp))]
  have hunary : (net.con c).input = none →
      final.value (net.con c).output = before.value (net.con c).output :=
    fun hi => hout.trans (hvalue _ fun _ => hi)
  rw [Holds, con_congr (constraints_of_withoutValues hfinal.1), hcon', hout, hwritten,
    Constraint.compute_congr hread hunary]

/-- Executing constraints that hold has no effect. -/
theorem executeAll_of_holds (h : net.Executable cs) (hholds : ∀ c ∈ cs, net.Holds c) :
    executeAll cs net = .ok () net := by
  refine Ends.eq_ok ?_
  induction cs with
  | nil => exact ⟨rfl, rfl⟩
  | cons c cs ih =>
    obtain ⟨hc, hoperands⟩ := h c (by simp)
    have hcomputes : (net.con c).compute net.value = some (net.value (net.con c).output) :=
      hholds c (by simp)
    rw [executeAll, ends_bind, ends_execute hc hoperands, hcomputes]
    refine ⟨fun x hx => ?_, fun hnone => Option.some_ne_none _ hnone⟩
    cases hx
    rw [alterVariable_eq_self (hoperands _ Constraint.output_mem_operands) rfl]
    exact ih (fun d hd => h d (by simp [hd])) fun d hd => hholds d (by simp [hd])

end Execute

end Network

/-! ## The order of a plan -/

namespace Plan

variable (p : Plan) (net : Network)

/-- The step at position `i` computes `v`. -/
def ComputesAt (i : Nat) (v : VariableId) : Prop :=
  ∃ c k, p.steps[i]? = some c ∧ net.getConstraint? c = some k ∧ k.output = v

/-- When the step at position `i` is reached, `v` has been computed, or no step computes it. -/
def CurrentAt (i : Nat) (v : VariableId) : Prop :=
  (∃ j < i, p.ComputesAt net j v) ∨ ∀ j, ¬ p.ComputesAt net j v

/-- Every step finds all that it reads up to date. -/
def InOrder : Prop :=
  ∀ i c k, p.steps[i]? = some c → net.getConstraint? c = some k → ∀ v ∈ k.reads, p.CurrentAt net i v

end Plan

namespace Network

namespace Planning

variable {start net : Network} {mark : Nat} {sources : List ConstraintId} {plan : Plan}
  {c : ConstraintId} {i j : Nat} {v : VariableId}

theorem satisfied (h : Planning start mark sources net plan.steps []) (hc : c ∈ plan.steps) :
    (start.con c).isSatisfied = true :=
  (h.moving c (by simpa using hc)).1

theorem computesAt_output (h : Planning start mark sources net plan.steps [])
    (hi : plan.steps[i]? = some c) : plan.ComputesAt start i (start.con c).output :=
  ⟨c, _, hi, getConstraint?_eq_con (known_of_isSatisfied (h.satisfied (List.mem_of_getElem? hi))),
    rfl⟩

/-- A variable is computed by one step at most. -/
theorem computesAt_unique (h : Planning start mark sources net plan.steps []) (hs : start.Settled)
    (hi : plan.ComputesAt start i v) (hj : plan.ComputesAt start j v) : i = j := by
  obtain ⟨c, k, hci, hk, ho⟩ := hi
  obtain ⟨d, l, hdj, hl, ho'⟩ := hj
  obtain ⟨-, rfl⟩ := getConstraint?_eq_some.1 hk
  obtain ⟨-, rfl⟩ := getConstraint?_eq_some.1 hl
  have hc := hs.coherent.determinedBy_output (h.satisfied (List.mem_of_getElem? hci))
  have hd := hs.coherent.determinedBy_output (h.satisfied (List.mem_of_getElem? hdj))
  rw [ho] at hc
  rw [ho', hc] at hd
  cases hd
  obtain ⟨hi', -⟩ := List.getElem?_eq_some_iff.1 hci
  exact (List.getElem?_inj hi' h.nodup).1 (hci.trans hdj.symm)

/-- What is up to date at a step is computed neither there nor later. -/
theorem not_computesAt_of_current (h : Planning start mark sources net plan.steps [])
    (hs : start.Settled) (hcur : plan.CurrentAt start i v) (hij : i ≤ j) :
    ¬ plan.ComputesAt start j v := by
  intro hj
  obtain ⟨k, hki, hk⟩ | hnone := hcur
  · have hkj : k = j := h.computesAt_unique hs hk hj
    omega
  · exact hnone j hj

/-- What is computed neither at a step nor later is up to date there. -/
theorem current_of_not_computesAt (hlater : ∀ j, i ≤ j → ¬ plan.ComputesAt start j v) :
    plan.CurrentAt start i v := by
  by_cases hnone : ∀ j, ¬ plan.ComputesAt start j v
  · exact .inr hnone
  · obtain ⟨j, hj⟩ := not_forall_not.1 hnone
    exact .inl ⟨j, Nat.lt_of_not_le fun hij => hlater j hij hj, hj⟩

/-- A step does not compute what it reads. -/
theorem not_computesAt_self (h : Planning start mark sources net plan.steps [])
    (hs : start.Settled) (hi : plan.steps[i]? = some c) (hv : v ∈ (start.con c).reads) :
    ¬ plan.ComputesAt start i v := by
  rintro ⟨d, k, hd, hk, ho⟩
  obtain ⟨-, rfl⟩ := getConstraint?_eq_some.1 hk
  rw [hi, Option.some.injEq] at hd
  subst hd
  exact hs.irreflexive c (h.satisfied (List.mem_of_getElem? hi)) (ho ▸ hv)

/-- The input of a step is up to date. -/
theorem input_current (h : Planning start mark sources net plan.steps []) (hs : start.Settled)
    (hi : plan.steps[i]? = some c) (hv : (start.con c).input = some v) :
    plan.CurrentAt start i v := by
  refine current_of_not_computesAt fun j hij hj => ?_
  obtain rfl | hlt := hij.eq_or_lt
  · exact h.not_computesAt_self hs hi (Constraint.mem_reads.2 (.inl hv)) hj
  · obtain ⟨d, k, hd, hk, ho⟩ := hj
    obtain ⟨-, rfl⟩ := getConstraint?_eq_some.1 hk
    obtain ⟨hi', rfl⟩ := List.getElem?_eq_some_iff.1 hi
    obtain ⟨hj', rfl⟩ := List.getElem?_eq_some_iff.1 hd
    exact List.pairwise_iff_getElem.1 h.ordered i j hi' hj' hlt (ho ▸ hv)

/-- What a step computes does not stay. -/
theorem stay_of_computesAt (h : Planning start mark sources net plan.steps [])
    (hi : plan.ComputesAt start i v) : (start.var v).stay = false := by
  obtain ⟨c, k, hc, hk, rfl⟩ := hi
  obtain ⟨-, rfl⟩ := getConstraint?_eq_some.1 hk
  exact (h.moving c (by simpa using List.mem_of_getElem? hc)).2

theorem executable (h : Planning start mark sources net plan.steps []) (hs : start.Settled) :
    start.Executable plan.steps := by
  intro c hc
  have hknown := known_of_isSatisfied (h.satisfied hc)
  exact ⟨hknown, hs.coherent.known c hknown⟩

/-- A step that finds all that it reads up to date holds when the plan is through, whatever the values
were. -/
theorem ends_executeAll_holds (h : Planning start mark sources net plan.steps [])
    (hs : start.Settled) (hi : plan.steps[i]? = some c)
    (hcur : ∀ v ∈ (start.con c).reads, plan.CurrentAt start i v) {later : Network}
    (hcons : later.constraints = start.constraints) (hvars : start.vars.size ≤ later.vars.size) :
    Ends (executeAll plan.steps) later (fun _ final => final.Holds c) (fun _ _ => True) := by
  have hcon : later.con = start.con := con_congr hcons
  have hex : later.Executable plan.steps := (h.executable hs).mono hcons hvars
  obtain ⟨hi', hget⟩ := List.getElem?_eq_some_iff.1 hi
  have hsplit : plan.steps = plan.steps.take i ++ c :: plan.steps.drop (i + 1) := by
    rw [← hget, ← List.drop_eq_getElem_cons hi', List.take_append_drop]
  -- the steps from `c` on, by position
  have hfrom : ∀ d ∈ plan.steps.drop (i + 1), ∃ j > i, plan.ComputesAt start j (start.con d).output := by
    intro d hd
    obtain ⟨n, hn⟩ := List.mem_iff_getElem?.1 hd
    rw [List.getElem?_drop] at hn
    exact ⟨i + 1 + n, by omega, h.computesAt_output hn⟩
  have hself := h.computesAt_output hi
  rw [hsplit] at hex ⊢
  refine ends_executeAll_split hex (fun d hd hr => ?_) fun d hd ho => ?_
  · rw [hcon] at hr
    obtain rfl | hd := List.mem_cons.1 hd
    · exact h.not_computesAt_of_current hs (hcur _ hr) le_rfl hself
    · obtain ⟨j, hij, hj⟩ := hfrom d hd
      exact h.not_computesAt_of_current hs (hcur _ hr) hij.le hj
  · rw [hcon] at ho
    obtain ⟨j, hij, hj⟩ := hfrom d hd
    rw [ho] at hj
    have hji : j = i := h.computesAt_unique hs hj hself
    omega

end Planning

/-- After every run, the extraction for constraints of the graph returns a plan with a state that tells
where its steps come from. -/
theorem extractPlan_returns {net : Network} (h : Run (fun _ _ => True) net)
    {cs : List ConstraintId}
    (hcs : ∀ c ∈ cs, ∃ k, net.getConstraint? c = some k ∧ k.attached = true) :
    ∃ plan net', extractPlan cs net = .ok plan net' ∧
      Planning net (net.mark + 1) (net.inputsAmong cs) net' plan.steps [] := by
  have hs : net.Settled := runInvariant_settled.holds h
  have hpast : net.MarksPast := (regular_of_run h).marksPast
  have hends := ends_extractPlan_planning hs hpast cs
  cases hrun : extractPlan cs net with
  | error e net' =>
    obtain ⟨c, hc, ha⟩ := (hends.of_error hrun).2
    obtain ⟨k, hk, hka⟩ := hcs c hc
    obtain ⟨-, rfl⟩ := getConstraint?_eq_some.1 hk
    exact absurd (ha.symm.trans hka) Bool.false_ne_true
  | ok plan net' => exact ⟨plan, net', rfl, hends.of_ok hrun⟩

/-- After every run the extraction for constraints of the graph returns a plan in which the input of
every step is up to date when the step is reached. So is every parameter of a scaling, unless it is one
that an edit can change and that a later step computes. Whatever values are there when the plan is
executed, every step whose parameters are up to date holds in the end. -/
theorem extractPlan_inputs_current {net : Network} (h : Run (fun _ _ => True) net)
    {cs : List ConstraintId}
    (hcs : ∀ c ∈ cs, ∃ k, net.getConstraint? c = some k ∧ k.attached = true) :
    ∃ plan net', extractPlan cs net = .ok plan net' ∧
      (∀ i c k, plan.steps[i]? = some c → net.getConstraint? c = some k → ∀ v ∈ k.reads,
        plan.CurrentAt net i v ∨
          k.input ≠ some v ∧ (∃ x, net.getVariable? v = some x ∧ x.stay = false) ∧
            ∃ j > i, plan.ComputesAt net j v) ∧
      ∀ later final, later.constraints = net.constraints → net.vars.size ≤ later.vars.size →
        runPlan plan later = .ok () final →
        ∀ i c k, plan.steps[i]? = some c → net.getConstraint? c = some k →
          (∀ v ∈ k.kind.parameters, plan.CurrentAt net i v) → final.Holds c := by
  have hs : net.Settled := runInvariant_settled.holds h
  obtain ⟨plan, net', hok, hplan⟩ := extractPlan_returns h hcs
  refine ⟨plan, net', hok, ?_, ?_⟩
  · intro i c k hi hk v hv
    obtain ⟨hc, rfl⟩ := getConstraint?_eq_some.1 hk
    by_cases hcur : plan.CurrentAt net i v
    · exact .inl hcur
    have hlate : ∃ j, i ≤ j ∧ plan.ComputesAt net j v := by
      by_contra hnone
      exact hcur (Planning.current_of_not_computesAt fun j hij hj => hnone ⟨j, hij, hj⟩)
    obtain ⟨j, hij, hj⟩ := hlate
    have hne : i ≠ j := by
      rintro rfl
      exact hplan.not_computesAt_self hs hi hv hj
    have hknown := hs.coherent.known c hc v (Constraint.mem_operands_of_mem_reads hv)
    refine .inr ⟨fun hin => hcur (hplan.input_current hs hi hin), ?_, j, by omega, hj⟩
    exact ⟨_, getVariable?_eq_var hknown, hplan.stay_of_computesAt hj⟩
  · intro later final hcons hvars hrun i c k hi hk hparams
    obtain ⟨-, rfl⟩ := getConstraint?_eq_some.1 hk
    have hcur : ∀ v ∈ (net.con c).reads, plan.CurrentAt net i v := by
      intro v hv
      obtain hin | hparam := Constraint.mem_reads.1 hv
      · exact hplan.input_current hs hi hin
      · exact hparams v hparam
    exact (hplan.ends_executeAll_holds hs hi hcur hcons hvars).of_ok hrun

end Network

/-- The factor of a scaling is computed from the input of the scaling, and one step after it. -/
def lateRequests : List Request :=
  [.addVariable "a" 1, .addVariable "m" 1, .addVariable "d" 0, .addVariable "z" 0,
    .add (.edit ⟨0⟩) .preferred, .add (.scale ⟨0⟩ ⟨3⟩ ⟨1⟩ ⟨2⟩) .required,
    .add (.equal ⟨0⟩ ⟨1⟩) .required]

def lateNetwork : Network :=
  (Request.runAll (fun _ _ => true) lateRequests .empty).get (by decide +kernel)

theorem run_lateNetwork : Run (fun _ _ => True) lateNetwork :=
  Run.of_runAll (fun _ _ _ => trivial) lateRequests .empty (Option.some_get _).symm

/-- The network after `a` has been set by hand. -/
def assignedNetwork : Network := lateNetwork.alterVariable ⟨0⟩ fun x => { x with value := 3 }

namespace Network

theorem attached_lateNetwork : ∀ c ∈ ([⟨0⟩] : List ConstraintId),
    ∃ k, lateNetwork.getConstraint? c = some k ∧ k.attached = true := by
  have hall : ∀ c ∈ ([⟨0⟩] : List ConstraintId), (lateNetwork.con c).attached = true := by
    decide +kernel
  exact fun c hc => ⟨_, getConstraint?_eq_con (known_of_attached (hall c hc)), hall c hc⟩

theorem ends_extractPlan_lateNetwork :
    Ends (extractPlan [⟨0⟩]) lateNetwork (fun p _ => p = ⟨[⟨0⟩, ⟨1⟩, ⟨2⟩]⟩) (fun _ _ => False) := by
  decide +kernel

theorem plan_lateNetwork {plan : Plan} {net' : Network}
    (hok : extractPlan [⟨0⟩] lateNetwork = .ok plan net') : plan = ⟨[⟨0⟩, ⟨1⟩, ⟨2⟩]⟩ :=
  ends_extractPlan_lateNetwork.of_ok hok

/-- The scaling finds its input up to date, and once `a` has been set and the plan executed, the
equality that computes the factor holds. -/
theorem extractPlan_inputs_current_lateNetwork :
    ∃ plan net', extractPlan [⟨0⟩] lateNetwork = .ok plan net' ∧
      plan.CurrentAt lateNetwork 1 ⟨0⟩ ∧
      ∀ final, runPlan plan assignedNetwork = .ok () final → final.Holds ⟨2⟩ := by
  obtain ⟨plan, net', hok, hcur, hholds⟩ :=
    extractPlan_inputs_current run_lateNetwork attached_lateNetwork
  obtain rfl := plan_lateNetwork hok
  refine ⟨_, net', hok, ?_, fun final hrun => ?_⟩
  · have hinput : (lateNetwork.con ⟨1⟩).input = some ⟨0⟩ := by decide +kernel
    have hk : lateNetwork.getConstraint? ⟨1⟩ = some (lateNetwork.con ⟨1⟩) :=
      getConstraint?_eq_con (by decide +kernel)
    exact (hcur 1 ⟨1⟩ _ rfl hk ⟨0⟩ (by decide +kernel)).resolve_right fun hlate => hlate.1 hinput
  · have hparams : (lateNetwork.con ⟨2⟩).kind.parameters = [] := by decide +kernel
    have hk : lateNetwork.getConstraint? ⟨2⟩ = some (lateNetwork.con ⟨2⟩) :=
      getConstraint?_eq_con (by decide +kernel)
    refine hholds assignedNetwork final alterVariable_constraints alterVariable_size.ge hrun 2 ⟨2⟩ _
      rfl hk ?_
    rw [hparams]
    exact fun v hv => nomatch hv

theorem ends_runPlan_assignedNetwork :
    Ends (runPlan ⟨[⟨0⟩, ⟨1⟩, ⟨2⟩]⟩) assignedNetwork
      (fun _ final =>
        let result := final.value (final.con ⟨1⟩).output
        ((final.con ⟨1⟩).compute final.value).any (· == result) = false ∧ (result == result) = true)
      (fun _ _ => False) := by
  decide +kernel

/-- Executed after `a` has been set, the plan computes the result of the scaling with the old factor. -/
theorem not_holds_assignedNetwork :
    ∃ final, runPlan ⟨[⟨0⟩, ⟨1⟩, ⟨2⟩]⟩ assignedNetwork = .ok () final ∧ ¬ final.Holds ⟨1⟩ := by
  obtain ⟨_, final, hrun, hdiffers, hnumber⟩ := ends_runPlan_assignedNetwork.exists_ok
  refine ⟨final, hrun, fun hholds => ?_⟩
  rw [Holds] at hholds
  simp [hholds, hnumber] at hdiffers

/-- A plan can list a scaling before the constraint that computes its factor, and executing it leaves
the scaling with a result that does not belong to the factor. -/
theorem extractPlan_not_inOrder :
    ∃ net cs plan net', Run (fun _ _ => True) net ∧
      (∀ c ∈ cs, ∃ k, net.getConstraint? c = some k ∧ k.attached = true) ∧
      extractPlan cs net = .ok plan net' ∧ ¬ plan.InOrder net ∧
      ∃ later final, later.constraints = net.constraints ∧ later.vars.size = net.vars.size ∧
        runPlan plan later = .ok () final ∧ ∃ c ∈ plan.steps, ¬ final.Holds c := by
  obtain ⟨plan, net', hok, -⟩ := extractPlan_returns run_lateNetwork attached_lateNetwork
  obtain rfl := plan_lateNetwork hok
  obtain ⟨final, hrun, hwrong⟩ := not_holds_assignedNetwork
  refine ⟨lateNetwork, [⟨0⟩], _, net', run_lateNetwork, attached_lateNetwork, hok, ?_,
    assignedNetwork, final, alterVariable_constraints, alterVariable_size, hrun, ⟨1⟩, by simp, hwrong⟩
  intro hin
  have hfactor : (⟨1⟩ : VariableId) ∈ (lateNetwork.con ⟨1⟩).reads := by decide +kernel
  have hk : lateNetwork.getConstraint? ⟨1⟩ = some (lateNetwork.con ⟨1⟩) :=
    getConstraint?_eq_con (by decide +kernel)
  obtain ⟨j, hj, c, k, hc, hk, ho⟩ | hnone := hin 1 ⟨1⟩ _ rfl hk ⟨1⟩ hfactor
  · obtain ⟨-, rfl⟩ := getConstraint?_eq_some.1 hk
    obtain rfl : j = 0 := by omega
    cases hc
    revert ho
    decide +kernel
  · exact hnone 2 ⟨⟨2⟩, _, rfl, getConstraint?_eq_con (by decide +kernel), by decide +kernel⟩

/-- Let a plan be extracted after any run, none of whose steps computes a parameter of a step, and let
the variables be given any values afterwards. If the plan can be executed, it changes nothing but the
values of outputs of steps that have an input, every step holds in the end, and executing the plan again
changes nothing at all. -/
theorem runPlan_idempotent {net net₁ later final : Network} (h : Run (fun _ _ => True) net)
    {cs : List ConstraintId} {plan : Plan} (hplan : extractPlan cs net = .ok plan net₁)
    (hfixed : ∀ c ∈ plan.steps, ∀ d ∈ plan.steps, ∀ k l, net.getConstraint? c = some k →
      net.getConstraint? d = some l → l.output ∉ k.kind.parameters)
    (hcons : later.constraints = net₁.constraints) (hvars : net₁.vars.size ≤ later.vars.size)
    (hrun : runPlan plan later = .ok () final) :
    final.withoutValues = later.withoutValues ∧
      (∀ v, (∀ c ∈ plan.steps, ∀ k, net.getConstraint? c = some k → k.output = v →
        k.input = none) → final.value v = later.value v) ∧
      (∀ c ∈ plan.steps, final.Holds c) ∧
      runPlan plan final = .ok () final := by
  have hs : net.Settled := runInvariant_settled.holds h
  have hpast : net.MarksPast := (regular_of_run h).marksPast
  have hstate := (ends_extractPlan_planning hs hpast cs).of_ok hplan
  have hcons' : later.constraints = net.constraints :=
    hcons.trans (congrArg Network.constraints hstate.same :)
  have hvars' : net.vars.size ≤ later.vars.size := hstate.solution.variableCount ▸ hvars
  have hex : later.Executable plan.steps := (hstate.executable hs).mono hcons' hvars'
  obtain ⟨hsame, hframe⟩ := (ends_executeAll_frame plan.steps hex).of_ok hrun
  have hholds : ∀ c ∈ plan.steps, final.Holds c := by
    intro c hc
    obtain ⟨i, hi⟩ := List.mem_iff_getElem?.1 hc
    have hcur : ∀ v ∈ (net.con c).reads, plan.CurrentAt net i v := by
      intro v hv
      obtain hin | hparam := Constraint.mem_reads.1 hv
      · exact hstate.input_current hs hi hin
      · refine .inr ?_
        rintro j ⟨d, l, hd, hl, rfl⟩
        have hk := getConstraint?_eq_con (known_of_isSatisfied (hstate.satisfied hc))
        exact hfixed c hc d (List.mem_of_getElem? hd) _ l hk hl hparam
    exact (hstate.ends_executeAll_holds hs hi hcur hcons' hvars').of_ok hrun
  refine ⟨hsame, fun v hv => hframe v fun c hc ho => ?_, hholds, ?_⟩
  · rw [con_congr hcons'] at ho ⊢
    have hk := getConstraint?_eq_con (known_of_isSatisfied (hstate.satisfied hc))
    exact hv c hc _ hk ho.symm
  · exact executeAll_of_holds (hex.of_withoutValues hsame) hholds

end Network

/-- An edit, followed by an equality and a scaling whose factor and offset nothing computes. -/
def steadyRequests : List Request :=
  [.addVariable "a" 1, .addVariable "b" 0, .addVariable "z" 0, .addVariable "m" 2,
    .addVariable "d" 1, .add (.edit ⟨0⟩) .preferred, .add (.equal ⟨0⟩ ⟨1⟩) .required,
    .add (.scale ⟨1⟩ ⟨2⟩ ⟨3⟩ ⟨4⟩) .required, .add (.stay ⟨3⟩) .normal]

def steadyNetwork : Network :=
  (Request.runAll (fun _ _ => true) steadyRequests .empty).get (by decide +kernel)

/-- The network after an extraction and after `a` and `z` have been set by hand. -/
def resetNetwork : Network :=
  [Request.extractPlan [⟨0⟩], .assign ⟨0⟩ 5, .assign ⟨2⟩ 7].foldl (fun net r => r.after net)
    steadyNetwork

namespace Network

theorem ends_extractPlan_steadyNetwork :
    Ends (extractPlan [⟨0⟩]) steadyNetwork
      (fun p net' => p = ⟨[⟨0⟩, ⟨1⟩, ⟨2⟩]⟩ ∧ resetNetwork.constraints = net'.constraints ∧
        net'.vars.size ≤ resetNetwork.vars.size)
      (fun _ _ => False) := by
  decide +kernel

theorem ends_runPlan_resetNetwork :
    Ends (runPlan ⟨[⟨0⟩, ⟨1⟩, ⟨2⟩]⟩) resetNetwork (fun _ _ => True) (fun _ _ => False) := by
  decide +kernel

theorem runPlan_idempotent_resetNetwork :
    ∃ final, runPlan ⟨[⟨0⟩, ⟨1⟩, ⟨2⟩]⟩ resetNetwork = .ok () final ∧
      final.value ⟨3⟩ = resetNetwork.value ⟨3⟩ ∧ final.Holds ⟨2⟩ ∧
      runPlan ⟨[⟨0⟩, ⟨1⟩, ⟨2⟩]⟩ final = .ok () final := by
  have hrun : Run (fun _ _ => True) steadyNetwork :=
    Run.of_runAll (fun _ _ _ => trivial) steadyRequests .empty (Option.some_get _).symm
  obtain ⟨_, net', hok, rfl, hcons, hvars⟩ := ends_extractPlan_steadyNetwork.exists_ok
  obtain ⟨_, final, hfinal, -⟩ := ends_runPlan_resetNetwork.exists_ok
  have hfixed : ∀ c ∈ ([⟨0⟩, ⟨1⟩, ⟨2⟩] : List ConstraintId),
      ∀ d ∈ ([⟨0⟩, ⟨1⟩, ⟨2⟩] : List ConstraintId),
        (steadyNetwork.con d).output ∉ (steadyNetwork.con c).kind.parameters := by decide +kernel
  have hunread : ∀ c ∈ ([⟨0⟩, ⟨1⟩, ⟨2⟩] : List ConstraintId),
      (steadyNetwork.con c).output ≠ ⟨3⟩ := by decide +kernel
  obtain ⟨-, hframe, hholds, hagain⟩ := runPlan_idempotent hrun hok
    (fun c hc d hd k l hk hl => by
      obtain ⟨-, rfl⟩ := getConstraint?_eq_some.1 hk
      obtain ⟨-, rfl⟩ := getConstraint?_eq_some.1 hl
      exact hfixed c hc d hd) hcons hvars hfinal
  refine ⟨final, hfinal, hframe ⟨3⟩ fun c hc k hk ho => ?_, hholds ⟨2⟩ (by simp), hagain⟩
  obtain ⟨-, rfl⟩ := getConstraint?_eq_some.1 hk
  exact absurd ho (hunread c hc)

end Network

end ConstraintHierarchy
