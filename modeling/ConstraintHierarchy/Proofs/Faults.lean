import ConstraintHierarchy.Proofs.Locality
import ConstraintHierarchy.Proofs.Persistence
import ConstraintHierarchy.Proofs.Termination

/-!
# Operations on known variables

Who asks for nothing but constraints on variables that exist, and for edits of such variables, is never
told that an id names nothing. The operations are refused for what the constraints say: because one of
them is required and cannot be satisfied, because it would close a cycle, or because something would be
divided by zero. This is so in every coherent network, with cyclic dataflow or without. The variables
are the same afterwards, and have the names that they had.

## Main definitions

* `Failure.OnSolving`: a failure that is due to the constraints and not to the ids
* `Network.SameNames`: the variables are the same, by name
* `Solve.Faultless`: an action fails only in such a way, and only for a cycle in the dataflow without end

## Main results

* `Network.faultless_addConstraint`, `Network.faultless_change`
-/

namespace ConstraintHierarchy

open Solve Network

/-- The refusals that are due to what the constraints say. -/
def SolveError.OnSolving : SolveError → Prop
  | unsatisfiable _ => True
  | cycle _ => True
  | divisionByZero _ => True
  | _ => False

/-- The failures that are due to what the constraints say. -/
def Failure.OnSolving : Failure SolveError → Prop
  | refused e => e.OnSolving
  | outOfRange => False
  | endless => True

namespace Network

/-- The network `net'` is coherent, and its variables are those of `net`, by name. -/
structure SameNames (net net' : Network) : Prop where
  coherent : net'.Coherent
  variableCount : net'.vars.size = net.vars.size
  name : ∀ v, (net'.var v).name = (net.var v).name

section SameNames

variable {net net' net'' : Network}

theorem SameNames.refl (h : net.Coherent) : SameNames net net := ⟨h, rfl, fun _ => rfl⟩

theorem SameNames.trans (h : SameNames net net') (h' : SameNames net' net'') :
    SameNames net net'' :=
  ⟨h'.coherent, h'.variableCount.trans h.variableCount, fun v => (h'.name v).trans (h.name v)⟩

theorem Leads.sameNames {R : VariableId → Prop} (h : Leads R net net') (hcoh : net.Coherent) :
    SameNames net net' :=
  ⟨h.coherent hcoh, h.variableCount, fun _ => h.name hcoh⟩

theorem sameNames_registered {kind : Kind} {strength : Strength} (h : net.Coherent)
    (hk : ∀ v ∈ kind.operands, v.index < net.vars.size) :
    SameNames net (net.registered kind strength) :=
  ⟨h.registered hk, registered_size, fun v => by rw [registered_var hk]⟩

theorem sameGraph_of_withoutValues (h : net'.withoutValues = net.withoutValues) :
    SameGraph net net' := by
  have hcons := constraints_of_withoutValues h
  have hvar : ∀ v, (net'.var v).withoutValue = (net.var v).withoutValue := by
    intro v
    rw [← var_withoutValues, h, var_withoutValues]
  refine ⟨con_congr hcons, by rw [hcons], size_of_withoutValues h, fun v => ?_, fun v => ?_⟩
  · exact (congrArg Variable.constraints (hvar v) :)
  · exact (congrArg Variable.determinedBy (hvar v) :)

theorem sameNames_of_withoutValues (h : net.Coherent)
    (hsame : net'.withoutValues = net.withoutValues) : SameNames net net' :=
  ⟨h.of_sameGraph (sameGraph_of_withoutValues hsame), size_of_withoutValues hsame,
    fun _ => name_of_withoutValues hsame⟩

end SameNames

/-! ## Satisfying and retracting -/

/-- In a coherent network all ids name something, and so the solver fails for what the constraints say. -/
theorem solvingInvariant_onSolving :
    SolvingInvariant Coherent (fun net c => net.Coherent ∧ (net.con c).isSatisfied = true)
      (fun _ _ e _ => e.OnSolving) where
  coherent h := h
  keep h hq := h.of_sameGraph hq.toSameGraph
  coherent_but h := h.1
  satisfied_but h := h.2
  keep_but h hq := ⟨h.1.of_sameGraph hq.toSameGraph, by rw [hq.con]; exact h.2⟩
  walk {net c flow} n mark h ha hu hm hflow := by
    have hcoh : (net.takenOver mark c flow).Coherent := h.takenOver ha hu
    have hsat : ((net.takenOver mark c flow).con c).isSatisfied = true :=
      (takenOver_isSatisfied_iff h (known_of_attached ha) hu).2 (.inl rfl)
    have inv : WalkInvariant mark (fun e _ => e.OnSolving) (Visiting (net.takenOver mark c flow)) :=
      walkInvariant_visiting hcoh (fun _ => trivial) fun _ => trivial
    refine (ends_walk inv _ (visiting_start hsat)).mono_ok ?_
    intro met net' hend
    cases met with
    | none => exact ⟨⟨_, hend⟩, fun _ => hcoh.of_sameGraph hend.graph, nofun⟩
    | some v =>
      obtain ⟨d, q, hmet, -, -⟩ := hend
      refine ⟨⟨_, hmet⟩, nofun, fun _ _ => ⟨hcoh.of_sameGraph hmet.graph, ?_⟩⟩
      rw [hmet.graph.con]
      exact hsat
  release {net c} n h := by
    have hc : c.index < net.constraints.size := known_of_isSatisfied h.2
    have hcoh : (net.detached c).Coherent := h.1.detached hc
    have hout : (net.con c).output.index < (net.detached c).vars.size := by
      rw [detached_size]
      exact h.1.known_output hc
    have inv : ReleaseInvariant (fun e _ => e.OnSolving) (Freeing (net.detached c)) :=
      releaseInvariant_freeing hcoh (fun _ => trivial) fun _ => trivial
    refine (ends_release inv hout (freeing_released h.1 h.2)).mono_ok ?_
    intro found net' hend
    refine ⟨hcoh.of_sameGraph hend.graph, hend.graph, ?_⟩
    rw [hend.graph.con]
    exact hend.found
  unsatisfiable _ _ _ _ := trivial
  cycle _ _ _ _ := trivial
  spent _ _ := trivial
  keeps _ hf := hf
  nested _ hf := hf

end Network

/-! ## Operations -/

/-- After the action the variables are the same, by name. It fails for what the constraints say, and
without end only if there is a cycle in the dataflow already; otherwise none is there afterwards. -/
def Solve.Faultless {α : Type} (act : Solve α) (net : Network) : Prop :=
  Ends act net (fun _ net' => SameNames net net' ∧ (net.Ordered → net'.Ordered))
    (fun e net' => SameNames net net' ∧ e.OnSolving ∧ (net.Ordered → e ≠ .endless))

namespace Network

section Operations

variable {α : Type} {net : Network} {c : ConstraintId} {v : VariableId} {kind : Kind}
  {strength : Strength}

theorem faultless_of_ends {act : Solve α}
    (h : Ends act net (fun _ => SameNames net) (fun e net' => SameNames net net' ∧ e.OnSolving))
    (hordered : net.Ordered → Ends act net (fun _ => Ordered) (Halts False)) :
    act.Faultless net := by
  unfold Solve.Faultless Ends at *
  cases hact : act net with
  | ok a net' =>
    rw [hact] at h hordered
    exact ⟨h, hordered⟩
  | error e net' =>
    rw [hact] at h hordered
    refine ⟨h.1, h.2, ?_⟩
    rintro ho rfl
    exact hordered ho

theorem ends_addConstraint_onSolving (h : net.Coherent)
    (hk : ∀ v ∈ kind.operands, v.index < net.vars.size) :
    Ends (addConstraint kind strength) net
      (fun c net' => SameNames net net' ∧ (net'.con c).attached = true)
      (fun e net' => SameNames net net' ∧ e.OnSolving) := by
  have hregistered : SameNames net (net.registered kind strength) := sameNames_registered h hk
  have hfail : Ends (addConstraint kind strength) net
      (fun c net' => (net'.con c).attached = true) (fun e _ => e.OnSolving) := by
    rw [addConstraint, ends_bind, ends_checkVariables_known hk, ends_bind, ends_register hk, ends_bind,
      ends_nesting, ends_bind]
    refine (ends_orDetach ((solvingInvariant_onSolving.ends_establish _ hregistered.coherent
      registered_new_attached registered_new_unsatisfied).and
      (leads_establish hregistered.coherent region_true _ _ _ .refl
        ⟨fun _ _ => trivial, registered_new_attached, registered_new_unsatisfied⟩)) ?_ ?_).mono_ok ?_
    · exact fun _ _ hf _ => hf.1
    · intro net' hf
      have hc := known_of_attached (hf.2.waits _ rfl).attached
      rw [ends_detach hc ((hf.2.leads.coherent hregistered.coherent).known _ hc)]
      trivial
    · intro _ net' hend
      rw [ends_pure, hend.1.2.attached]
      exact registered_new_attached
  refine (hfail.and (leads_addConstraint h region_true fun _ _ => trivial)).mono ?_ ?_
  · rintro c net' ⟨ha, -, -, hl⟩
    exact ⟨hregistered.trans (hl.sameNames hregistered.coherent), ha⟩
  · rintro e net' ⟨he, ⟨rfl, -⟩ | ⟨-, hl, -⟩⟩
    · exact ⟨.refl h, he⟩
    · exact ⟨hregistered.trans (hl.sameNames hregistered.coherent), he⟩

theorem faultless_addConstraint (h : net.Coherent)
    (hk : ∀ v ∈ kind.operands, v.index < net.vars.size) :
    (addConstraint kind strength).Faultless net := by
  refine faultless_of_ends ((ends_addConstraint_onSolving h hk).mono_ok fun _ _ hend => hend.1)
    fun ho => ?_
  have hperform := ends_perform_ordered ho (r := .add kind strength) nofun
  exact ends_discard.1 hperform

theorem ends_destroy_onSolving (h : net.Coherent) (ha : (net.con c).attached = true) :
    Ends (destroy c) net (fun _ => SameNames net)
      (fun e net' => SameNames net net' ∧ e.OnSolving) := by
  have hfail : Ends (destroy c) net (fun _ _ => True) (fun e _ => e.OnSolving) := by
    let noted : Network := { net with journal := net.journal.push (.destroying c) }
    have hnoted : noted.Coherent := h.of_sameGraph (sameGraph_of_eq rfl rfl)
    rw [destroy, ends_bind, ends_note, retract, ends_bind]
    refine ends_checkAttached (fun _ => ?_) fun hna => absurd (hna.symm.trans ha) Bool.false_ne_true
    have hc : c.index < noted.constraints.size := known_of_attached ha
    rw [ends_bind, ends_readConstraint hc]
    split
    next hs =>
      rw [ends_bind, ends_nesting]
      exact (solvingInvariant_onSolving.ends_withdraw _ ⟨hnoted, hs⟩).mono_ok fun _ _ _ => trivial
    · rw [ends_detach hc (hnoted.known c hc)]
      trivial
  refine (hfail.and (leads_destroy h region_true fun _ _ _ => trivial)).mono ?_ ?_
  · exact fun _ _ hend => hend.2.sameNames h
  · exact fun _ _ hf => ⟨hf.2.1.sameNames h, hf.1⟩

/-- The edit that has been added is there to be planned for and to be retracted. -/
theorem ends_change_onSolving {value : Float} {n : Nat} (h : net.Coherent)
    (hv : v.index < net.vars.size) :
    Ends (change v value strength n) net (fun _ => SameNames net)
      (fun e net' => SameNames net net' ∧ e.OnSolving) := by
  have hk : ∀ w ∈ (Kind.edit v).operands, w.index < net.vars.size := by simpa [Kind.operands] using hv
  rw [change, ends_bind]
  refine (ends_addConstraint_onSolving h hk).mono_ok ?_
  rintro edit net₁ ⟨hsame₁, ha⟩
  have hplan := ends_extractPlan_inside hsame₁.coherent region_true [edit] fun _ _ _ _ => trivial
  have hreturns : Ends (extractPlan [edit]) net₁ (fun _ _ => True) (fun _ _ => False) := by
    refine (ends_extractPlan hsame₁.coherent [edit] fun c hc hna => ?_).mono_ok fun _ _ _ => trivial
    rw [List.mem_singleton.1 hc, ha] at hna
    cases hna
  rw [ends_bind]
  refine (hplan.and hreturns).mono ?_ fun _ _ hf => hf.2.elim
  rintro plan net₂ ⟨hplan, -⟩
  have hsame₂ : SameNames net net₂ := hsame₁.trans (hplan.leads.sameNames hsame₁.coherent)
  have hexec : net₂.Executable plan.steps := by
    intro c hc
    have hs := (hplan.inside c (by simpa using hc)).1
    rw [← hplan.graph.con] at hs
    exact ⟨known_of_isSatisfied hs, hsame₂.coherent.known c (known_of_isSatisfied hs)⟩
  have hv₂ : v.index < net₂.vars.size := by
    rw [hsame₂.variableCount]
    exact hv
  have hleft : ∀ {net₃ : Network}, net₃.withoutValues = net₂.withoutValues →
      SameNames net net₃ ∧ (net₃.con edit).attached = true := by
    intro net₃ hsame
    refine ⟨hsame₂.trans (sameNames_of_withoutValues hsame₂.coherent hsame), ?_⟩
    rw [(sameGraph_of_withoutValues hsame).con, hplan.graph.con]
    exact ha
  have hreplay : Ends (replay plan v value n) net₂
      (fun _ net₃ => SameNames net net₃ ∧ (net₃.con edit).attached = true)
      (fun e net₃ => (∃ d, e = .refused (.divisionByZero d)) ∧
        SameNames net net₃ ∧ (net₃.con edit).attached = true) :=
    (ends_replay_frame n hexec hv₂).mono (fun _ _ hsame => hleft hsame)
      fun _ _ hf => ⟨hf.1, hleft hf.2⟩
  refine ends_always hreplay ?_ ?_ ?_
  · rintro net₃ ⟨hsame₃, ha₃⟩
    exact (ends_destroy_onSolving hsame₃.coherent ha₃).mono (fun _ _ hend => hsame₃.trans hend)
      fun _ _ hf => ⟨hsame₃.trans hf.1, hf.2⟩
  · rintro e net₃ ⟨d, rfl⟩ (⟨hne, -⟩ | hsame₃)
    · exact absurd rfl (hne _)
    · exact ⟨hsame₃, trivial⟩
  · rintro e e' net₃ ⟨d, hd⟩ hf
    cases hd
    exact ⟨hf.1, trivial⟩

theorem faultless_change {value : Float} {n : Nat} (h : net.Coherent) (hv : v.index < net.vars.size) :
    (change v value strength n).Faultless net :=
  faultless_of_ends (ends_change_onSolving h hv) fun ho => ends_change_ordered ho

end Operations

end Network

end ConstraintHierarchy
