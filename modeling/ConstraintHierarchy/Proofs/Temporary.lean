import ConstraintHierarchy.Proofs.Agreement
import ConstraintHierarchy.Proofs.Editing
import ConstraintHierarchy.Proofs.Scenarios

/-!
# A temporary edit, stage by stage

To change a variable is to add an edit, to feed a value in through its plan, and to retract the edit. In
a tree-shaped network an edit that is strong enough passes all three stages, provided that nothing is
divided by zero, and what is known of each of them is enough to say what has become of any value that
matters: the addition and the retraction lead somewhere by single changes, and feeding writes the outputs
of methods and nothing else.

## Main definitions

* `Network.Fed`: the values after a value has been fed in at a variable
* `Network.Changed`: the stages of a temporary edit

## Main results

* `Network.ends_replay_all`: what replaying a plan at least once comes to
* `Network.TreeState.exists_changed`: a temporary edit goes through all stages
-/

namespace ConstraintHierarchy

open Solve

/-- A step that is answered is gone through. -/
theorem Solve.ends_of_ok {α : Type} {act : Solve α} {net net' : Network} {a : α}
    {ok : α → Network → Prop} {fail : Failure SolveError → Network → Prop}
    (h : act net = .ok a net') : Ends act net ok fail ↔ ok a net' := by
  simp only [Ends, h]

theorem Solve.ends_always_of_ok {act cleanup : Solve Unit} {net net' : Network}
    {ok : Unit → Network → Prop} {fail : Failure SolveError → Network → Prop}
    (h : act net = .ok () net') :
    Ends (always act cleanup) net ok fail ↔ Ends cleanup net' ok fail := by
  simp only [Ends, always, h]

namespace Network

variable {net cur net' : Network} {v w : VariableId} {x : Float} {strength : Strength}
  {c e : ConstraintId} {plan : Plan}

/-! ## Feeding a value in -/

/-- The values of `net` after `x` has been fed in at `v`: those that no method writes are as before. -/
structure Fed (net : Network) (v : VariableId) (x : Float) (value : VariableId → Float) : Prop where
  new : value v = x
  steady : ∀ w, w ≠ v → net.Steady w → value w = net.value w

/-- The network differs from `net` in values only, and at most in `v` and in what the plan writes. -/
structure Replaying (net : Network) (plan : Plan) (v : VariableId) (cur : Network) : Prop where
  same : cur.withoutValues = net.withoutValues
  unwritten : ∀ w, w ≠ v → net.Unwritten plan.steps w → cur.value w = net.value w

/-- In one round of a replay `v` is set and the plan executed. -/
theorem Replaying.exists_round (h : Replaying net plan v cur) (hexec : net.Executable plan.steps)
    (hv : v.index < net.vars.size) (hself : net.Unwritten plan.steps v)
    (hdiv : ∀ cur, Replaying net plan v cur → cur.value v = x →
      ∀ d ∈ plan.steps, (cur.con d).compute cur.value ≠ none) :
    ∃ next, executeAll plan.steps (cur.alterVariable v fun y => { y with value := x }) = .ok () next ∧
      Replaying net plan v next ∧ next.value v = x := by
  let set := cur.alterVariable v fun y => { y with value := x }
  have hset : set.withoutValues = net.withoutValues := withoutValues_alterVariable.trans h.same
  have hcon : set.con = net.con := con_congr (constraints_of_withoutValues hset)
  have hnew : set.value v = x := by
    rw [value, alterVariable_var_self (by rwa [size_of_withoutValues h.same])]
  -- whatever execution leaves behind has the values that it does not write
  have hleft : ∀ next : Network, next.withoutValues = set.withoutValues →
      (∀ w, set.Unwritten plan.steps w → next.value w = set.value w) →
      Replaying net plan v next ∧ next.value v = x := by
    intro next hsame hvalue
    simp only [Unwritten, hcon] at hvalue
    refine ⟨⟨hsame.trans hset, fun w hne hw => ?_⟩, (hvalue v hself).trans hnew⟩
    rw [hvalue w hw, ← h.unwritten w hne hw, value, alterVariable_var_of_ne hne, value]
  have hends := ends_executeAll_frame plan.steps (hexec.of_withoutValues hset)
  cases hrun : executeAll plan.steps set with
  | ok _ next =>
    obtain ⟨hsame, hvalue⟩ := hends.of_ok hrun
    exact ⟨next, rfl, hleft next hsame hvalue⟩
  | error _ next =>
    obtain ⟨⟨d, hd, -, hnone⟩, hsame, hvalue⟩ := hends.of_error hrun
    obtain ⟨hnext, hx⟩ := hleft next hsame hvalue
    exact absurd hnone (hdiv next hnext hx d hd)

/-- A plan that is replayed at least once has been executed on some values, and `v` has the value that
is asked for. -/
theorem ends_replay_all (hexec : net.Executable plan.steps) (hv : v.index < net.vars.size)
    (hself : net.Unwritten plan.steps v)
    (hdiv : ∀ cur, Replaying net plan v cur → cur.value v = x →
      ∀ d ∈ plan.steps, (cur.con d).compute cur.value ≠ none) (n : Nat) :
    ∀ {cur : Network}, Replaying net plan v cur →
      Ends (replay plan v x (n + 1)) cur
        (fun _ net' => (Replaying net plan v net' ∧ net'.value v = x) ∧
          ∃ mid, mid.withoutValues = net.withoutValues ∧ executeAll plan.steps mid = .ok () net')
        (fun _ _ => False) := by
  induction n with
  | zero =>
    intro cur hcur
    obtain ⟨next, hrun, hnext⟩ := hcur.exists_round hexec hv hself hdiv
    rw [replay, ends_bind, ends_setValue (by rwa [size_of_withoutValues hcur.same]), ends_bind,
      runPlan, ends_of_ok hrun]
    exact ⟨hnext, _, withoutValues_alterVariable.trans hcur.same, hrun⟩
  | succ n ih =>
    intro cur hcur
    obtain ⟨next, hrun, hnext, -⟩ := hcur.exists_round hexec hv hself hdiv
    rw [replay, ends_bind, ends_setValue (by rwa [size_of_withoutValues hcur.same]), ends_bind,
      runPlan, ends_of_ok hrun]
    exact ih hnext

/-- A plan for the only edit has as its steps all that moves, and whatever values it is executed on, a
step whose parameters are computed by nothing holds afterwards. -/
theorem Planning.holds_of_moving {mark : Nat} {later mid : Network}
    (hplan : Planning net mark (net.inputsAmong [e]) later plan.steps []) (hset : net.Settled)
    (hacyclic : net.Acyclic)
    (honly : ∀ d, (net.con d).isSatisfied = true → (net.con d).isInput = true → d = e)
    (hc : net.Moving c)
    (hparams : ∀ p ∈ (net.con c).kind.parameters, (net.var p).determinedBy = none)
    (hcons : mid.constraints = net.constraints) (hvars : net.vars.size ≤ mid.vars.size)
    (hrun : executeAll plan.steps mid = .ok () cur) : cur.Holds c := by
  have hmem : c ∈ plan.steps := by
    refine hplan.mem_steps hset hacyclic (fun d hd hi => ?_) hc
    have hde := honly d hd hi
    exact mem_inputsAmong.2 ⟨by simp [hde], hi, hd⟩
  obtain ⟨i, hi⟩ := List.mem_iff_getElem?.1 hmem
  refine (hplan.ends_executeAll_holds hset hi (fun u hu => ?_) hcons hvars).of_ok hrun
  obtain hin | hparam := Constraint.mem_reads.1 hu
  · exact hplan.input_current hset hi hin
  · refine .inr ?_
    rintro j ⟨d, k, hd, hk, rfl⟩
    obtain ⟨-, rfl⟩ := getConstraint?_eq_some.1 hk
    have hdet := hset.coherent.determinedBy_output (hplan.satisfied (List.mem_of_getElem? hd))
    rw [hparams _ hparam] at hdet
    cases hdet

/-- An edit that computes its variable lets a value in. If there is no other edit, then every constraint
downstream of it whose parameters are computed by nothing holds afterwards. -/
theorem TreeSolution.exists_fed (h : net.TreeSolution) (hacyclic : net.Acyclic)
    (hdet : (net.var v).determinedBy = some e) (he : (net.con e).isInput = true)
    (hdiv : ∀ cur : Network, cur.con = net.con → net.Fed v x cur.value →
      ∀ d, (cur.con d).isSatisfied = true → (cur.con d).compute cur.value ≠ none) (n : Nat) :
    ∃ plan net₂ cur, extractPlan [e] net = .ok plan net₂ ∧
      replay plan v x (n + 1) net₂ = .ok () cur ∧ Quiet net cur ∧ net.Fed v x cur.value ∧
      (∀ w, (cur.var w).name = (net.var w).name) ∧
      ((∀ d, (net.con d).isSatisfied = true → (net.con d).isInput = true → d = e) →
        ∀ c, net.Moving c → (∀ p ∈ (net.con c).kind.parameters, (net.var p).determinedBy = none) →
          cur.Holds c) := by
  have hset := h.settled
  obtain ⟨hsat, hout⟩ := (hset.coherent.determines v e).1 hdet
  obtain ⟨plan, net₂, hextract, hquiet, hplan⟩ := h.exists_plan (hset.coherent.attached e hsat)
  have hcons : net₂.constraints = net.constraints := (congrArg Network.constraints hplan.same :)
  have hcon : net₂.con = net.con := con_congr hcons
  have hsize : net₂.vars.size = net.vars.size := hplan.solution.variableCount
  have hvalue : ∀ w, net₂.value w = net.value w := fun _ =>
    var_field_of_withoutMarks (p := Variable.value) (fun _ => rfl) hplan.same
  have hexec : net₂.Executable plan.steps := (hplan.executable hset).mono hcons hsize.ge
  have hv : v.index < net₂.vars.size := by
    rw [hsize, ← hout]
    exact hset.coherent.known_output (known_of_isSatisfied hsat)
  have hself : net₂.Unwritten plan.steps v := by
    intro c hc ho
    rw [hcon] at ho ⊢
    have hdet' := hset.coherent.determinedBy_output (hplan.satisfied hc)
    rw [← ho, hdet] at hdet'
    cases hdet'
    exact Constraint.input_of_isInput he
  have hfed : ∀ cur, Replaying net₂ plan v cur → cur.value v = x → net.Fed v x cur.value := by
    refine fun cur hcur hx => ⟨hx, fun w hne hw => ?_⟩
    rw [hcur.unwritten w hne fun c hc ho => ?_, hvalue]
    rw [hcon] at ho ⊢
    exact hw c (hplan.satisfied hc) ho.symm
  have hnone : ∀ cur, Replaying net₂ plan v cur → cur.value v = x →
      ∀ d ∈ plan.steps, (cur.con d).compute cur.value ≠ none := by
    intro cur hcur hx d hd
    have hcon' : cur.con = net.con := (con_congr (constraints_of_withoutValues hcur.same)).trans hcon
    refine hdiv cur hcon' (hfed cur hcur hx) d ?_
    rw [hcon']
    exact hplan.satisfied hd
  have hends := (ends_replay_all hexec hv hself hnone n ⟨rfl, fun _ _ _ => rfl⟩).and
    (quietly_replay plan v x (n + 1) net₂ (Nat.zero_le _))
  cases hreplay : replay plan v x (n + 1) net₂ with
  | error _ _ => exact (hends.of_error hreplay).1.elim
  | ok _ cur =>
    obtain ⟨⟨⟨hcur, hx⟩, mid, hmid, hrun⟩, hquiet'⟩ := hends.of_ok hreplay
    refine ⟨plan, net₂, cur, hextract, hreplay, hquiet.trans hquiet', hfed cur hcur hx, fun w => ?_,
      fun honly c hc hparams => ?_⟩
    · rw [name_of_withoutValues hcur.same]
      exact var_field_of_withoutMarks (p := Variable.name) (fun _ => rfl) hplan.same
    · exact hplan.holds_of_moving hset hacyclic honly hc hparams
        ((constraints_of_withoutValues hmid).trans hcons)
        (by rw [size_of_withoutValues hmid, hsize]) hrun

/-! ## The whole of it -/

/-- The stages of a temporary edit of `v`: the edit is added to `net` and rules its variable in `edited`,
`x` has been fed in in `cur`, and the rest leads from there, without the edit, to `net'`. -/
structure Changed (net : Network) (v : VariableId) (x : Float) (strength : Strength)
    (edited cur net' : Network) : Prop where
  added : Added net (.edit v) strength edited
  rules : (edited.var v).determinedBy = some ⟨net.constraints.size⟩
  quiet : Quiet edited cur
  fed : edited.Fed v x cur.value
  holds : (∀ d, (edited.con d).isSatisfied = true → (edited.con d).isInput = true →
      d = ⟨net.constraints.size⟩) →
    ∀ c, edited.Moving c →
      (∀ p ∈ (edited.con c).kind.parameters, (edited.var p).determinedBy = none) → cur.Holds c
  leads : Leads (fun _ => True) (cur.dismissed ⟨net.constraints.size⟩) net'
  state : net'.TreeState
  graph : net'.graph = net.graph
  variableCount : net'.vars.size = net.vars.size
  name : ∀ w, (net'.var w).name = (net.var w).name

/-- In a tree-shaped network a temporary edit that is stronger than what its variable carries goes through
all stages, unless something is divided by zero on the way. -/
theorem TreeState.exists_changed (h : net.TreeState) (hv : v.index < net.vars.size)
    (hstrong : strength.StrongerThan (net.var v).walkStrength)
    (hadd : ∀ {mid}, Leads (fun _ => True) (net.registered (.edit v) strength) mid →
      ∀ d, (mid.con d).isSatisfied = true → (mid.con d).compute mid.value ≠ none)
    (hfed : ∀ {edited cur : Network}, Added net (.edit v) strength edited → cur.con = edited.con →
      edited.Fed v x cur.value →
      ∀ d, (cur.con d).isSatisfied = true → (cur.con d).compute cur.value ≠ none)
    (hleft : ∀ {edited cur mid}, Added net (.edit v) strength edited → Quiet edited cur →
      edited.Fed v x cur.value → Leads (fun _ => True) cur mid →
      ∀ d, (mid.con d).isSatisfied = true → (mid.con d).compute mid.value ≠ none) (n : Nat) :
    ∃ edited cur net', change v x strength (n + 1) net = .ok () net' ∧
      Changed net v x strength edited cur net' := by
  have hk : ∀ w ∈ (Kind.edit v).operands, w.index < net.vars.size := by simpa [Kind.operands] using hv
  have hr : ¬ (net.registered (.edit v) strength).Refuses ⟨net.constraints.size⟩ := by
    rw [registered_refuses_iff hk]
    rintro ⟨-, hall⟩
    rw [hall v (by simp [Kind.outputs])] at hstrong
    cases strength <;> exact absurd hstrong (by decide)
  -- the edit is added
  obtain ⟨edited, hadded, hadd'⟩ :=
    h.exists_added hk (h.solution.tree.registered_anchor (.inr rfl)) hr hadd
  obtain ⟨hdet, hinput⟩ := (ends_addConstraint_edit h.regular fun _ => hstrong).of_ok hadded
  obtain ⟨hsat, -⟩ := (hadd'.state.coherent.determines v _).1 hdet
  -- the value is fed in
  obtain ⟨plan, net₂, cur, hplan, hreplay, hquiet, hcur, hname, hholds⟩ :=
    hadd'.state.solution.exists_fed hadd'.state.ordered.acyclic hdet hinput
      (fun cur hcon hvalues => hfed hadd' hcon hvalues) n
  have hsol : cur.TreeSolution := hadd'.state.solution.of_quiet hquiet
  have hcoh := hsol.settled.coherent
  have hsat' : (cur.con ⟨net.constraints.size⟩).isSatisfied = true := by rwa [hquiet.con]
  have ha' := hcoh.attached _ hsat'
  -- the edit is retracted
  have hreturns : Ends (destroy ⟨net.constraints.size⟩) cur (fun _ _ => True) (Halts False) :=
    (ends_perform_ordered (r := .destroy ⟨net.constraints.size⟩)
      (hadd'.state.ordered.of_sameGraph hquiet.toSameGraph) (by simp)).mono_ok fun _ _ _ => trivial
  obtain ⟨_, net', hdestroy, -⟩ := (ends_destroy_tree hsol ha').answered hreturns
    fun d net' herror => by
      obtain ⟨mid, hmid, hs, hzero⟩ :=
        ((leads_destroy hcoh region_true fun _ _ _ => trivial).of_error herror).2 d rfl
      exact hleft hadd' hquiet hcur hmid d hs hzero.2
  have hleads := (leads_destroy_dismissed hcoh region_true (fun _ _ => trivial) hsat').of_ok hdestroy
  have hchange : change v x strength (n + 1) net = .ok () net' := by
    apply Ends.eq_ok
    rw [change, ends_bind, ends_of_ok hadded, ends_bind, ends_of_ok hplan, ends_always_of_ok hreplay,
      ends_of_ok hdestroy]
    exact ⟨rfl, rfl⟩
  have hperform : (Request.change v x strength (n + 1)).perform net = .ok () net' := hchange
  have hleads' := (leads_destroy hcoh region_true fun _ _ _ => trivial).of_ok hdestroy
  refine ⟨edited, cur, net', hchange, hadd', hdet, hquiet, hcur, hholds, hleads,
    h.performed (fun later hopen => ?_) hperform, ?_, ?_, fun w => ?_⟩
  · have hopen : (Request.add (.edit v) strength).opening net = .ok () later := hopen
    rw [opening_add hk] at hopen
    cases hopen
    exact h.solution.tree.registered_anchor (.inr rfl)
  · exact (ends_change_spares h.regular h.solution.settled).of_ok hchange
  · rw [hleads'.variableCount, hquiet.variableCount, hadd'.variableCount]
  · rw [hleads'.name hcoh, hname, hadd'.name_eq h.coherent hk]

namespace Changed

variable {edited : Network}

theorem satisfied (h : Changed net v x strength edited cur net') :
    (cur.con ⟨net.constraints.size⟩).isSatisfied = true := by
  rw [h.quiet.con]
  exact ((h.added.state.coherent.determines v _).1 h.rules).1

theorem coherent (h : Changed net v x strength edited cur net') : cur.Coherent :=
  h.added.state.coherent.of_sameGraph h.quiet.toSameGraph

theorem coherent_dismissed (h : Changed net v x strength edited cur net') :
    (cur.dismissed ⟨net.constraints.size⟩).Coherent :=
  h.coherent.dismissed h.satisfied

/-- Once the edit is gone, what is left of the graph is as it was with the edit. -/
theorem con_dismissed (h : Changed net v x strength edited cur net')
    (ha : ((cur.dismissed ⟨net.constraints.size⟩).con c).attached = true) :
    c ≠ ⟨net.constraints.size⟩ ∧
      (cur.dismissed ⟨net.constraints.size⟩).con c = edited.con c := by
  have hne := ne_of_dismissed_attached (known_of_isSatisfied h.satisfied) ha
  exact ⟨hne, by rw [dismissed_con_of_ne hne, h.quiet.con]⟩

theorem value_dismissed (h : Changed net v x strength edited cur net') :
    (cur.dismissed ⟨net.constraints.size⟩).value = cur.value :=
  Network.value_dismissed h.coherent (known_of_isSatisfied h.satisfied)

/-- What is steady once the edit is gone has the value that it has been left with. -/
theorem value_left (h : Changed net v x strength edited cur net')
    (hleft : ∀ {mid}, Leads (fun _ => True) (cur.dismissed ⟨net.constraints.size⟩) mid →
      mid.Steady w) : net'.value w = cur.value w := by
  rw [h.leads.value_eq h.coherent_dismissed hleft, h.value_dismissed]

end Changed

end Network

end ConstraintHierarchy
