import ConstraintHierarchy.Proofs.Persistence

/-!
# Values that are held

A variable that nothing computes, or that a stay or an edit computes, keeps its value for as long as that is
so: the walks write only what a binary constraint computes. In between an operation may take the variable over
and write to it. Then it never comes back to where it was, if the operation is done. Nothing that is computed
becomes free again except by leaving the graph. A stay or an edit that has lost its variable looks for another
method while the variable is marked, so it finds none, and a retraction does not try it once more, because it
was satisfied when the candidates were collected.

## Main definitions

* `Network.Undisturbed`: a variable has its old value, or something else computes it
* `Network.Holding`: the same during a cascade, whose next constraint cannot take the variable back

## Main results

* `Network.Holding.ends_install`: one round of a cascade
* `Network.held_values_undisturbed`: operations leave values alone that are held before and after
-/

namespace ConstraintHierarchy

open Solve

namespace Network

variable {net net' net₀ : Network} {c d o s : ConstraintId} {v : VariableId} {mark n : Nat}

/-- Since `net₀` the constraints of the graph are the same, and `v` is computed by what computed it then and
has the value that it had then, or by another constraint. -/
structure Undisturbed (net₀ : Network) (v : VariableId) (net : Network) : Prop where
  coherent : net.Coherent
  keeps : Keeps net₀ net
  held : ((net.var v).determinedBy = (net₀.var v).determinedBy ∧ net.value v = net₀.value v) ∨
    ∃ d, (net.var v).determinedBy = some d ∧ (net₀.var v).determinedBy ≠ some d

/-- The state of a cascade in which `o` looks for a method next. If `o` is what computed `v` in `net₀`, the
walk has visited `v`. -/
structure Holding (net₀ : Network) (v : VariableId) (mark : Nat) (o : Option ConstraintId)
    (net : Network) : Prop extends Undisturbed net₀ v net where
  waits : ∀ d, o = some d → (net.con d).attached = true ∧ (net.con d).isSatisfied = false
  visited : ∀ d, o = some d → (net₀.var v).determinedBy = some d → (net.var v).mark = mark

/-! ## Steady variables -/

/-- What computes a steady variable can compute nothing else. -/
theorem Steady.output_eq (h : net₀.Steady v) (hcoh : net₀.Coherent)
    (hs : (net₀.var v).determinedBy = some s) (hkind : (net.con s).kind = (net₀.con s).kind) :
    (net.con s).output = v ∧ (net.con s).input = none := by
  obtain ⟨hsat, rfl⟩ := (hcoh.determines v s).1 hs
  obtain ⟨w, hk⟩ := Kind.input_eq_none_iff.1 (h s hsat rfl)
  rw [Constraint.output, Constraint.input, Constraint.output, hkind]
  rcases hk with hk | hk <;> rw [hk] <;> exact ⟨rfl, rfl⟩

/-- A variable is steady as long as the same constraint computes it. -/
theorem Steady.of_determinedBy (h : net₀.Steady v) (hcoh : net₀.Coherent) (hnet : net.Coherent)
    (hkeeps : Keeps net₀ net) (hdet : (net.var v).determinedBy = (net₀.var v).determinedBy) :
    net.Steady v := by
  intro d hd hout
  have hd' := (hnet.determines v d).2 ⟨hd, hout⟩
  rw [hdet] at hd'
  exact (h.output_eq hcoh hd' (hkeeps.kind d)).2

theorem Steady.value_recalculated (h : net.Steady v) (hcoh : net.Coherent)
    (hd : (net.con d).isSatisfied = true) : (net.recalculated d).value v = net.value v := by
  rcases Network.value_recalculated (hcoh.known_output (known_of_isSatisfied hd)) with
    hsame | ⟨x, hx, hwritten⟩
  · rw [hsame]
  · rw [hwritten]
    by_cases hout : (net.con d).output = v
    · -- the value that is written is the one that is there
      have hholds : net.Holds d := holds_of_input_none (h d hd hout)
      rw [Holds, hx, Option.some.injEq] at hholds
      rw [hout, Function.update_self, hholds, hout]
    · rw [Function.update_of_ne (Ne.symm hout)]

theorem Steady.of_sameGraph (h : net.Steady v) (hg : SameGraph net net') : net'.Steady v := by
  intro d
  rw [hg.con]
  exact h d

/-- The walk below a new method leaves a steady value alone. -/
theorem ends_walk_steady (hcoh : net.Coherent) (hc : (net.con c).isSatisfied = true) :
    Ends (walk mark n [c]) net
      (fun _ net' => (∃ q, Visiting net net' q) ∧ (net.Steady v → net'.value v = net.value v))
      (fun _ _ => True) := by
  let P : Network → List ConstraintId → Prop := fun net' _ => net.Steady v → net'.value v = net.value v
  have hvisiting : WalkInvariant mark (fun _ _ => True) (Visiting net) :=
    walkInvariant_visiting hcoh (fun _ => trivial) fun _ => trivial
  have hstep : ∀ {net' d q}, Visiting net net' (d :: q) → P net' (d :: q) →
      P (net'.recalculated d) (q ++ net'.consumersOf (net'.con d).output) := by
    intro net' d q hv hvalue hsteady
    rw [(hsteady.of_sameGraph hv.graph).value_recalculated (hvisiting.coherent hv)
      (hvisiting.satisfied hv d (by simp)), hvalue hsteady]
  have inv := hvisiting.and hstep
  refine (ends_walk inv n ⟨visiting_start hc, fun _ => rfl⟩).mono_ok ?_
  intro met net' hend
  cases met with
  | none => exact ⟨⟨_, hend.1⟩, hend.2⟩
  | some w =>
    obtain ⟨d, q, hmet, -, -⟩ := hend
    exact ⟨⟨_, hmet.1⟩, hmet.2⟩

/-- The walk below a lost method leaves a steady value alone, and no constraint that it finds has a method. -/
theorem ends_release_steady (hcoh : net.Coherent) (hc : (net.con c).isSatisfied = true)
    (hsteady : (net.released c).Steady v) :
    Ends (release (net.con c).output) (net.detached c)
      (fun found net' => SameGraph (net.released c) net' ∧ net'.value v = (net.released c).value v ∧
        ∀ u ∈ found, (net'.con u).attached = true ∧ (net'.con u).isSatisfied = false)
      (fun _ _ => True) := by
  have hk : c.index < net.constraints.size := known_of_isSatisfied hc
  have hdrop : (net.detached c).Coherent := hcoh.detached hk
  let P : Network → List ConstraintId → List VariableId → List ConstraintId → Prop :=
    fun net' found _ _ =>
      net'.value v = (net.released c).value v ∧ ∀ u ∈ found, (net'.con u).isSatisfied = false
  have hsame : ∀ {net' found q ds}, Freeing (net.detached c) net' found q ds →
      SameGraph (net.released c) net' := fun hf =>
    ⟨hf.graph.con, hf.graph.constraintCount, hf.graph.variableCount.trans alterVariable_size.symm,
      fun w => (hf.graph.listed w).trans ((sameGraph_released hcoh hc).listed w).symm,
      fun w => (hf.graph.determinedBy w).trans ((sameGraph_released hcoh hc).determinedBy w).symm⟩
  have hfreeing : ReleaseInvariant (fun _ _ => True) (Freeing (net.detached c)) :=
    releaseInvariant_freeing hdrop (fun _ => trivial) fun _ => trivial
  have hscan : ∀ {net' found w q}, Freeing (net.detached c) net' found (w :: q) [] →
      P net' found (w :: q) [] →
      P net' (net'.withUnsatisfied found (net'.var w).constraints) q (net'.consumersOf w) := by
    rintro net' found w q - ⟨hvalue, hfound⟩
    exact ⟨hvalue, fun u hu => (mem_withUnsatisfied.1 hu).elim (hfound u) fun hu => hu.2⟩
  have hstep : ∀ {net' found q d ds}, Freeing (net.detached c) net' found q (d :: ds) →
      P net' found q (d :: ds) →
      P (net'.recalculated d) found (q ++ [(net'.con d).output]) ds := by
    rintro net' found q d ds hf ⟨hvalue, hfound⟩
    refine ⟨?_, hfound⟩
    rw [(hsteady.of_sameGraph (hsame hf)).value_recalculated (hfreeing.coherent hf)
      (hfreeing.satisfied hf d (by simp)), hvalue]
  have inv := hfreeing.and hscan hstep
  have hout : (net.con c).output.index < (net.detached c).vars.size := by
    rw [detached_size]
    exact hcoh.known_output hk
  refine (ends_release inv hout ⟨freeing_released hcoh hc, rfl, by simp⟩).mono_ok ?_
  rintro found net' ⟨hf, hvalue, hfound⟩
  refine ⟨hsame hf, hvalue, fun u hu => ⟨?_, hfound u hu⟩⟩
  rw [hf.graph.con]
  exact hf.found u hu

/-! ## Satisfying -/

/-- When a constraint has found a method, it computes `v`, or what computed `v` so far still does. -/
theorem Holding.undisturbed {flow : Flow} (h : Holding net₀ v mark (some o) net) (hcoh : net₀.Coherent)
    (hsteady : net₀.Steady v) (hflow : net.flowFor mark o = some flow)
    (hgraph : SameGraph (net.takenOver mark o flow) net')
    (hvalue : (net.takenOver mark o flow).Steady v →
      net'.value v = (net.takenOver mark o flow).value v) : Undisturbed net₀ v net' := by
  obtain ⟨ha, hu⟩ := h.waits o rfl
  have htaken : (net.takenOver mark o flow).Coherent := h.coherent.takenOver ha hu
  have hkeeps : Keeps net₀ (net.takenOver mark o flow) := h.keeps.trans keeps_takenOver
  refine ⟨htaken.of_sameGraph hgraph, hkeeps.trans hgraph.keeps, ?_⟩
  rw [hgraph.determinedBy, takenOver_var h.coherent (known_of_attached ha)]
  by_cases hv : v = (net.directed o flow).output
  · refine .inr ⟨o, if_pos hv, fun ho => ?_⟩
    -- what held `v` before would have had to take over a variable that was visited
    obtain ⟨⟨hunmarked, -⟩, -⟩ := flowFor_some hflow
    rw [← hv] at hunmarked
    exact hunmarked (h.visited o rfl ho)
  · have hdet : ((net.takenOver mark o flow).var v).determinedBy = (net.var v).determinedBy := by
      rw [takenOver_var h.coherent (known_of_attached ha)]
      exact if_neg hv
    rcases h.held with ⟨hsame, hval⟩ | ⟨d, hd, hne⟩
    · refine .inl ⟨(if_neg hv).trans hsame, ?_⟩
      calc net'.value v
          = (net.takenOver mark o flow).value v :=
            hvalue (hsteady.of_determinedBy hcoh htaken hkeeps (hdet.trans hsame))
        _ = net.value v := takenOver_value
        _ = net₀.value v := hval
    · exact .inr ⟨d, (if_neg hv).trans hd, hne⟩

/-- The next constraint of a cascade takes `v` over, or leaves it to what computes it. -/
theorem Holding.ends_install {rollback : ConstraintId → Solve Unit} (h : Holding net₀ v mark (some o) net)
    (hcoh : net₀.Coherent) (hsteady : net₀.Steady v) :
    Ends (install rollback mark o) net (Holding net₀ v mark) (fun _ _ => True) := by
  obtain ⟨ha, hu⟩ := h.waits o rfl
  have hknown : o.index < net.constraints.size := known_of_attached ha
  refine Network.ends_install h.coherent ha hu (fun _ _ => trivial)
    (fun _ _ => ⟨h.toUndisturbed, nofun, nofun⟩) fun flow hflow => ?_
  have hs : ((net.takenOver mark o flow).con o).isSatisfied = true := by
    rw [takenOver_con_self h.coherent hknown hu]
    rfl
  apply ends_propagate
  refine (ends_walk_steady (v := v) (h.coherent.takenOver ha hu) hs).mono_ok ?_
  rintro met net' ⟨⟨q, hvisit⟩, hvalue⟩
  cases met with
  | some w => exact ends_true
  | none =>
    have hmark : SameGraph net' (net'.alterVariable (net.directed o flow).output
        fun x => { x with mark := mark }) := sameGraph_alterVariable (fun _ => rfl) fun _ => rfl
    have hgraph := hvisit.graph.trans hmark
    refine ⟨hvisit.graph.variableCount.trans takenOver_size,
      h.undisturbed hcoh hsteady hflow hgraph fun hst => ?_, fun d hd => ?_, fun d hd hd₀ => ?_⟩
    · rw [← hvalue hst]
      exact alterVariable_var_field fun _ => rfl
    · rw [hgraph.con, takenOver_con_displaced h.coherent hu hd]
      exact ⟨h.coherent.attached d ((h.coherent.determines _ d).1 hd).1, rfl⟩
    · -- what is displaced has lost `v`, which is the output that is marked now
      have hout := ((h.coherent.determines _ d).1 hd).2
      rw [(hsteady.output_eq hcoh hd₀ (h.keeps.kind d)).1] at hout
      rw [← hout, alterVariable_var_self]
      rw [hvisit.graph.variableCount, takenOver_size, hout]
      exact h.coherent.known_directed_output hknown

theorem Holding.journal {o : Option ConstraintId} {e : Event} (h : Holding net₀ v mark o net) :
    Holding net₀ v mark o { net with journal := net.journal.push e } :=
  ⟨⟨h.coherent.of_sameGraph quiet_note.toSameGraph, h.keeps.trans quiet_note.keeps, h.held⟩,
    h.waits, h.visited⟩

/-- A constraint that did not compute `v` in the first place is satisfied. -/
theorem Undisturbed.ends_establish (h : Undisturbed net₀ v net) (hcoh : net₀.Coherent)
    (hsteady : net₀.Steady v) (ha : (net.con c).attached = true)
    (hu : (net.con c).isSatisfied = false) (hne : (net₀.var v).determinedBy ≠ some c) (n : Nat) :
    Ends (establish n c) net (fun _ => Undisturbed net₀ v) (fun _ _ => True) := by
  cases n with
  | zero => trivial
  | succ n =>
    have hstart : Holding net₀ v (net.mark + 1) (some c) { net with mark := net.mark + 1 } :=
      { coherent := h.coherent.of_sameGraph quiet_freshMark.toSameGraph
        keeps := h.keeps.trans quiet_freshMark.keeps
        held := h.held
        waits := by
          rintro d ⟨⟩
          exact ⟨ha, hu⟩
        visited := by
          rintro d ⟨⟩ hd
          exact absurd hd hne }
    exact (ends_establishUsing hstart (fun hJ => hJ.ends_install hcoh hsteady) (fun hJ => hJ.journal)
      fun _ => trivial).mono_ok fun _ _ hJ => hJ.toUndisturbed

/-! ## Retracting -/

/-- Candidates that did not compute `v` in the first place are tried. -/
theorem Undisturbed.ends_retryLevels (h : Undisturbed net₀ v net) (hcoh : net₀.Coherent)
    (hsteady : net₀.Steady v) {candidates : List ConstraintId}
    (hcand : ∀ u ∈ candidates, (net₀.con u).attached = true ∧ (net₀.var v).determinedBy ≠ some u) :
    Ends (retryLevels (establish n) candidates Strength.all) net (fun _ => Undisturbed net₀ v)
      (fun _ _ => True) := by
  refine Network.ends_retryLevels (L := fun _ => Undisturbed net₀ v) ?_ _ h
  intro level levels net₁ h₁
  let J : List ConstraintId → Network → Prop := fun us net' =>
    Undisturbed net₀ v net' ∧
      ∀ u ∈ us, (net₀.con u).attached = true ∧ (net₀.var v).determinedBy ≠ some u
  refine (ends_retryLevel (J := J) ?_ ?_ ?_ _ ⟨h₁, hcand⟩).mono_ok fun _ _ hJ => hJ.1
  · rintro us net₂ ⟨h₂, hus⟩ u hu
    rw [h₂.keeps.constraintCount]
    exact known_of_attached (hus u hu).1
  · rintro u us net₂ ⟨h₂, hus⟩ - hu
    obtain ⟨ha, hne⟩ := hus u (by simp)
    refine (h₂.ends_establish hcoh hsteady ((h₂.keeps.attached u).trans ha) hu hne n).mono_ok ?_
    exact fun _ _ h₃ => ⟨h₃, fun w hw => hus w (List.mem_cons_of_mem u hw)⟩
  · rintro u us net₂ ⟨h₂, hus⟩ -
    exact ⟨h₂, fun w hw => hus w (List.mem_cons_of_mem u hw)⟩

/-- A constraint is retracted; everything after that counts from where it has left the graph. -/
theorem ends_withdraw_undisturbed (hcoh : net.Coherent) (hs : (net.con c).isSatisfied = true)
    (hsteady : (net.released c).Steady v) (n : Nat) :
    Ends (withdraw n c) net (fun _ => Undisturbed (net.released c) v) (fun _ _ => True) := by
  have hreleased : (net.released c).Coherent :=
    (hcoh.detached (known_of_isSatisfied hs)).of_sameGraph (sameGraph_released hcoh hs)
  apply Network.ends_withdrawUsing hcoh hs
  refine (ends_release_steady hcoh hs hsteady).mono_ok ?_
  rintro found net' ⟨hgraph, hvalue, hfound⟩ event
  have hstart : Undisturbed (net.released c) v { net' with journal := net'.journal.push event } :=
    ⟨hreleased.of_sameGraph (hgraph.trans quiet_note.toSameGraph), hgraph.keeps.trans quiet_note.keeps,
      .inl ⟨hgraph.determinedBy v, hvalue⟩⟩
  refine hstart.ends_retryLevels hreleased hsteady fun u hu => ?_
  have hu' := hfound u hu
  rw [hgraph.con] at hu'
  refine ⟨hu'.1, fun hdet => ?_⟩
  -- what computes a variable has a method
  have hsat := ((hreleased.determines v u).1 hdet).1
  rw [hu'.2] at hsat
  cases hsat

/-! ## Whole operations -/

/-- If `v` is computed in `net'` by what computes it in `net`, its value is the same. -/
structure Respects (net : Network) (v : VariableId) (net' : Network) : Prop where
  variableCount : net'.vars.size = net.vars.size
  value : (net'.var v).determinedBy = (net.var v).determinedBy → net'.value v = net.value v

theorem Undisturbed.respects (h : Undisturbed net₀ v net) : Respects net₀ v net := by
  refine ⟨h.keeps.variableCount, fun hdet => ?_⟩
  rcases h.held with ⟨-, hvalue⟩ | ⟨d, hd, hne⟩
  · exact hvalue
  · exact absurd (hdet.symm.trans hd) hne

theorem Undisturbed.refl (hcoh : net.Coherent) : Undisturbed net v net :=
  ⟨hcoh, .refl net, .inl ⟨rfl, rfl⟩⟩

/-- An unsatisfied constraint is satisfied. -/
theorem ends_establish_respects (hcoh : net.Coherent) (hsteady : net.Steady v)
    (ha : (net.con c).attached = true) (hu : (net.con c).isSatisfied = false) (n : Nat) :
    Ends (establish n c) net (fun _ => Respects net v) (fun _ _ => True) := by
  have hne : (net.var v).determinedBy ≠ some c := fun hdet => ne_of_determinedBy hcoh hu hdet rfl
  exact ((Undisturbed.refl hcoh).ends_establish hcoh hsteady ha hu hne n).mono_ok
    fun _ _ h => h.respects

/-- The satisfied constraint that is retracted computes nothing in the end, so it does not compute `v`. -/
theorem ends_withdraw_respects (hcoh : net.Coherent) (hsteady : net.Steady v)
    (hs : (net.con c).isSatisfied = true) (n : Nat) :
    Ends (withdraw n c) net (fun _ => Respects net v) (fun _ _ => True) := by
  have hc : c.index < net.constraints.size := known_of_isSatisfied hs
  have hreleased : (net.released c).Steady v := by
    intro d hd
    obtain ⟨hne, -⟩ := (detached_isSatisfied_iff hc).1 hd
    rw [released_con, detached_con_of_ne hne] at hd ⊢
    exact hsteady d hd
  refine (ends_withdraw_undisturbed hcoh hs hreleased n).mono_ok fun _ net' h => ?_
  have hleft : (net'.con c).attached = false := by
    rw [h.keeps.attached, released_con, detached_con_self hc]
  refine ⟨h.keeps.variableCount.trans (alterVariable_size.trans detached_size), fun hdet => ?_⟩
  have hother : (net.var v).determinedBy ≠ some c := by
    intro hdc
    have hsat := ((h.coherent.determines v c).1 (hdet.trans hdc)).1
    exact absurd ((h.coherent.attached c hsat).symm.trans hleft) nofun
  have hout : v ≠ (net.con c).output := by
    rintro rfl
    exact hother (hcoh.determinedBy_output hs)
  have hsame : ((net.released c).var v).determinedBy = (net.var v).determinedBy := by
    rw [released_var_of_ne hcoh hs hout, Variable.detach, if_neg hother]
  calc net'.value v
      = (net.released c).value v := h.respects.value (hdet.trans hsame.symm)
    _ = (net.detached c).value v := alterVariable_var_field fun _ => rfl
    _ = net.value v := congrFun (value_detached hcoh hc) v

theorem ends_enforce_respects (hcoh : net.Coherent) (hsteady : net.Steady v) :
    Ends (enforce c) net (fun _ => Respects net v) (fun _ _ => True) := by
  rw [enforce, ends_bind]
  refine ends_checkAttached (fun ha => ?_) fun _ _ _ => trivial
  rw [ends_bind, ends_readConstraint (known_of_attached ha)]
  split
  next => exact (Undisturbed.refl hcoh).respects
  next hu =>
    rw [ends_bind, ends_nesting]
    exact ends_establish_respects hcoh hsteady ha (by simpa using hu) _

theorem ends_retract_respects (hcoh : net.Coherent) (hsteady : net.Steady v) :
    Ends (retract c) net (fun _ => Respects net v) (fun _ _ => True) := by
  rw [retract, ends_bind]
  refine ends_checkAttached (fun ha => ?_) fun _ _ _ => trivial
  have hc := known_of_attached ha
  rw [ends_bind, ends_readConstraint hc]
  split
  next hs =>
    rw [ends_bind, ends_nesting]
    exact ends_withdraw_respects hcoh hsteady hs _
  next =>
    rw [ends_detach hc (hcoh.known c hc)]
    exact ⟨detached_size, fun _ => congrFun (value_detached hcoh hc) v⟩

theorem ends_destroy_respects (hcoh : net.Coherent) (hsteady : net.Steady v) :
    Ends (destroy c) net (fun _ => Respects net v) (fun _ _ => True) := by
  rw [destroy, ends_bind, ends_note]
  exact (ends_retract_respects (hcoh.of_sameGraph quiet_note.toSameGraph) hsteady).mono_ok
    fun _ _ h => ⟨h.variableCount, h.value⟩

/-- A new constraint is registered first, which changes neither methods nor values. -/
theorem ends_addConstraint_respects {kind : Kind} {strength : Strength} (hcoh : net.Coherent)
    (hsteady : net.Steady v) :
    Ends (addConstraint kind strength) net (fun _ => Respects net v) (fun _ _ => True) := by
  rw [addConstraint, ends_bind]
  refine ends_checkVariables _ (fun _ _ => trivial) fun hk => ?_
  rw [ends_bind, ends_register hk, ends_bind, ends_nesting, ends_bind]
  have hvar : ((net.registered kind strength).var v).determinedBy = (net.var v).determinedBy ∧
      (net.registered kind strength).value v = net.value v := by
    rw [value, registered_var hk]
    exact ⟨rfl, rfl⟩
  have hreg : (net.registered kind strength).Steady v := by
    intro d hd
    have hne : d ≠ ⟨net.constraints.size⟩ := by
      rintro rfl
      rw [registered_new_unsatisfied] at hd
      cases hd
    rw [registered_con_of_ne hne] at hd ⊢
    exact hsteady d hd
  refine (ends_orDetach (ends_establish_respects (hcoh.registered hk) hreg registered_new_attached
    registered_new_unsatisfied _) (fun _ _ _ _ => trivial) fun _ _ => ends_true).mono_ok ?_
  intro _ net' h
  exact ⟨h.variableCount.trans registered_size,
    fun hdet => (h.value (hdet.trans hvar.1.symm)).trans hvar.2⟩

/-- In every network that requests lead to, let a constraint be added, satisfied, retracted or destroyed,
and let a variable be computed by nothing, or by a stay or an edit. If the operation is answered and the same
holds the variable after it, then the variable has the value that it had before. -/
theorem held_values_undisturbed {patience : Nat} {r : Request} {x : Variable}
    (h : Reaches (.empty patience) net)
    (hr : (∃ kind strength, r = .add kind strength) ∨
      ∃ c, r = .enforce c ∨ r = .retract c ∨ r = .destroy c)
    (hok : r.perform net = .ok () net') (hx : net.getVariable? v = some x)
    (hheld : x.determinedBy = none ∨ ∃ c k w, x.determinedBy = some c ∧
      net.getConstraint? c = some k ∧ (k.kind = .stay w ∨ k.kind = .edit w)) :
    ∃ x', net'.getVariable? v = some x' ∧
      (x'.determinedBy = x.determinedBy → x'.value = x.value) := by
  have hcoh : net.Coherent := h.regular.coherent
  obtain ⟨hv, rfl⟩ := getVariable?_eq_some.1 hx
  have hsteady : net.Steady v := by
    intro d hd hout
    have hdet := (hcoh.determines v d).2 ⟨hd, hout⟩
    rcases hheld with hnone | ⟨c, k, w, hc, hk, hkind⟩
    · rw [hnone] at hdet
      cases hdet
    · obtain rfl : c = d := Option.some.inj (hc.symm.trans hdet)
      obtain ⟨-, rfl⟩ := getConstraint?_eq_some.1 hk
      exact Kind.input_eq_none_iff.2 ⟨w, hkind⟩
  have hend : Ends r.perform net (fun _ => Respects net v) (fun _ _ => True) := by
    rcases hr with ⟨kind, strength, rfl⟩ | ⟨c, rfl | rfl | rfl⟩
    · exact ends_discard.2 (ends_addConstraint_respects hcoh hsteady)
    · exact ends_enforce_respects hcoh hsteady
    · exact ends_retract_respects hcoh hsteady
    · exact ends_destroy_respects hcoh hsteady
  have hrespects := hend.of_ok hok
  exact ⟨net'.var v, getVariable?_eq_var (by rwa [hrespects.variableCount]), hrespects.value⟩

theorem ends_destroy_dividedNetwork :
    Ends (Request.destroy ⟨0⟩).perform dividedNetwork
      (fun _ net' => (net'.var ⟨1⟩).determinedBy = some ⟨1⟩) (fun _ _ => False) := by
  decide +kernel

/-- The scaling that could not be computed is destroyed; the stay at its other end holds its variable. -/
theorem held_values_undisturbed_dividedNetwork :
    ∃ net' x x', (Request.destroy ⟨0⟩).perform dividedNetwork = .ok () net' ∧
      dividedNetwork.getVariable? ⟨1⟩ = some x ∧ x.determinedBy = some ⟨1⟩ ∧
      net'.getVariable? ⟨1⟩ = some x' ∧ x'.determinedBy = some ⟨1⟩ ∧ x'.value = x.value := by
  have hx : dividedNetwork.getVariable? ⟨1⟩ = some (dividedNetwork.var ⟨1⟩) :=
    getVariable?_eq_var (by decide +kernel)
  have hdet : (dividedNetwork.var ⟨1⟩).determinedBy = some ⟨1⟩ := by decide +kernel
  have hk : dividedNetwork.getConstraint? ⟨1⟩ =
      some { kind := .stay ⟨1⟩, strength := .preferred, flow := some .forward, attached := true } := by
    decide +kernel
  obtain ⟨_, net', hok, hdet'⟩ := ends_destroy_dividedNetwork.exists_ok
  obtain ⟨x', hx', hvalue⟩ := held_values_undisturbed (.foldl dividedRequests .refl)
    (.inr ⟨_, .inr (.inr rfl)⟩) hok hx (.inr ⟨_, _, _, hdet, hk, .inl rfl⟩)
  obtain ⟨-, rfl⟩ := getVariable?_eq_some.1 hx'
  exact ⟨net', _, _, hok, hx, hdet, hx', hdet', hvalue (hdet'.trans hdet.symm)⟩

end Network

end ConstraintHierarchy
