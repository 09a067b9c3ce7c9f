import ConstraintHierarchy.Proofs.Annotations
import ConstraintHierarchy.Proofs.Patience
import ConstraintHierarchy.Proofs.Termination

/-!
# Walks that a division by zero interrupts

A walk does two things at a time: it brings annotations up to date, and it looks for the cycle that a
new method may close. A division by zero stops it half-way, so that annotations may be left out of
date and a cycle may be left unnoticed. The loss is confined to what lies downstream of the variable
where the walk began, and a constraint that computes this variable lies on every cycle. To retract it
is to begin again, with a network that is intact in its absence. To retract another one can mean to follow
a cycle for ever, whatever the patience.

## Main definitions

* `Network.Intact`: the annotations are exact and the dataflow is acyclic
* `Network.Interrupted`: what a division by zero leaves of a walk
* `Network.Circling`: a release that is on a cycle

## Main results

* `Network.solvingInvariant_intact`: a network stays intact unless a walk is interrupted
* `Network.division_confined`: what is left after a division by zero, and the way back
* `Network.ends_retract_endless`: a removal that does not come to an end
* `Network.division_not_harmless`: it can be a cycle, and an annotation that is out of date
-/

namespace ConstraintHierarchy

open Solve Relation

namespace Network

/-- Every annotation is exact and no variable is computed from itself. -/
structure Intact (net : Network) : Prop where
  settled : net.Settled
  acyclic : net.Acyclic

/-- The network is intact but for the constraint `c` and what lies downstream of it. -/
structure IntactBut (net : Network) (c : ConstraintId) : Prop where
  unsettled : net.Unsettled c
  acyclic : (net.detached c).Acyclic

/-- A division by zero has interrupted the walk below `w`. The division lies downstream of `w` and so
does whatever is not up to date, and every cycle of the dataflow leads through `w`. -/
structure Interrupted (net : Network) (w : VariableId) : Prop where
  coherent : net.Coherent
  exact : ∀ v, net.Exact v ∨ net.Downstream w v
  acyclic : ∀ v, ¬ TransGen (fun u u' => net.Feeds u u' ∧ u' ≠ w) v v
  division : ∃ d, (net.con d).isSatisfied = true ∧ net.Downstream w (net.con d).output ∧
    net.DividesByZero d

/-- What a failing operation leaves of an intact network. -/
def LeavesIntact : Failure SolveError → Network → Prop
  | .refused (.divisionByZero _), net => net.Intact ∨ ∃ w, net.Interrupted w
  | .refused _, net => net.Intact
  | .outOfRange, _ => True
  | .endless, _ => True

section Intact

variable {net net' : Network} {c : ConstraintId}

theorem intact_of_exact (hcoh : net.Coherent) (hexact : ∀ v, net.Exact v)
    (hacyclic : net.Acyclic) : net.Intact :=
  ⟨⟨hcoh, hexact, fun _ hc => hacyclic.output_notMem_reads hc⟩, hacyclic⟩

theorem Intact.ordered (h : net.Intact) : net.Ordered := ⟨h.settled.coherent, h.acyclic⟩

theorem Intact.of_sameSolution (h : net.Intact) (hs : SameSolution net net') : net'.Intact :=
  ⟨h.settled.of_sameSolution hs, h.acyclic.of_con hs.con⟩

theorem Intact.detached (h : net.Intact) (ha : (net.con c).attached = true)
    (hu : (net.con c).isSatisfied = false) : (net.detached c).Intact :=
  ⟨h.settled.detached ha hu, h.acyclic.detached (known_of_attached ha)⟩

theorem Intact.registered (h : net.Intact) {kind : Kind} {strength : Strength}
    (hk : ∀ v ∈ kind.operands, v.index < net.vars.size) : (net.registered kind strength).Intact :=
  ⟨h.settled.registered hk, (h.ordered.registered hk).acyclic⟩

theorem Intact.withVariable (h : net.Intact) {name : String} {value : Float} :
    (net.withVariable name value).Intact :=
  ⟨h.settled.withVariable, h.acyclic.of_con rfl⟩

theorem Intact.leavesIntact (h : net.Intact) (e : Failure SolveError) : LeavesIntact e net := by
  cases e with
  | refused reason =>
    cases reason with
    | divisionByZero d => exact .inl h
    | _ => exact h
  | outOfRange => trivial
  | endless => trivial

theorem IntactBut.orderedBut (h : net.IntactBut c) : net.OrderedBut c :=
  ⟨h.unsettled.coherent, h.unsettled.satisfied, h.acyclic⟩

theorem IntactBut.of_sameSolution (h : net.IntactBut c) (hs : SameSolution net net') :
    net'.IntactBut c :=
  ⟨h.unsettled.of_sameSolution hs, (h.orderedBut.of_sameGraph hs.toSameGraph).acyclic⟩

theorem Intact.intactBut (h : net.Intact) (hc : (net.con c).isSatisfied = true) :
    net.IntactBut c :=
  ⟨h.settled.unsettled hc, h.acyclic.detached (known_of_isSatisfied hc)⟩

end Intact

/-! ## Interrupted networks -/

section Interrupted

variable {start net : Network} {c d : ConstraintId} {w : VariableId}

/-- Where nothing computes `w` there is no cycle through it. -/
theorem Interrupted.acyclic_of_undetermined (h : net.Interrupted w)
    (hw : (net.var w).determinedBy = none) : net.Acyclic := by
  intro v hv
  refine h.acyclic v (TransGen.mono ?_ v v hv)
  intro u u' hf
  refine ⟨hf, ?_⟩
  rintro rfl
  obtain ⟨d, hd, -, rfl⟩ := hf
  exact nomatch hw.symm.trans (h.coherent.determinedBy_output hd)

/-- The constraint that computes `w` is the only one that stands in the way. -/
theorem Interrupted.intactBut (h : net.Interrupted w) (hw : (net.var w).determinedBy = some c) :
    net.IntactBut c := by
  obtain ⟨hsat, hout⟩ := (h.coherent.determines w c).1 hw
  have hc : c.index < net.constraints.size := known_of_isSatisfied hsat
  have hacyclic : (net.detached c).Acyclic := by
    intro v hv
    refine h.acyclic v (TransGen.mono ?_ v v hv)
    intro u u' hf
    obtain ⟨d, hd, hr, ho⟩ := hf
    obtain ⟨hne, hds⟩ := (detached_isSatisfied_iff hc).1 hd
    rw [detached_con_of_ne hne] at hr ho
    refine ⟨⟨d, hds, hr, ho⟩, fun huw => hne ?_⟩
    -- two constraints that compute `w` are the same
    have hdet := h.coherent.determinedBy_output hds
    rw [ho, huw, hw] at hdet
    exact (Option.some.inj hdet).symm
  refine ⟨⟨h.coherent, hsat, fun v => hout ▸ h.exact v, fun d hdc hd hr => ?_⟩, hacyclic⟩
  apply hacyclic.output_notMem_reads ((detached_isSatisfied_iff hc).2 ⟨hdc, hd⟩)
  rwa [detached_con_of_ne hdc]

/-- A constraint that closes a cycle is on all of them if there were none without it. -/
theorem OrderedBut.acyclic_without_output (h : net.OrderedBut c) (v : VariableId) :
    ¬ TransGen (fun u u' => net.Feeds u u' ∧ u' ≠ (net.con c).output) v v := by
  intro hv
  refine h.acyclic v (TransGen.mono ?_ v v hv)
  intro u u' hf
  obtain ⟨⟨d, hd, hr, rfl⟩, hne⟩ := hf
  have hdc : d ≠ c := fun hdc => hne (by rw [hdc])
  refine ⟨d, (detached_isSatisfied_iff (known_of_isSatisfied h.satisfied)).2 ⟨hdc, hd⟩, ?_⟩
  rw [detached_con_of_ne hdc]
  exact ⟨hr, rfl⟩

/-- A division by zero writes no value, so it is still one. -/
theorem DividesByZero.recalculated (hz : net.DividesByZero d) (hcoh : net.Coherent)
    (hd : (net.con d).isSatisfied = true) (hself : (net.con d).output ∉ (net.con d).reads) :
    (net.recalculated d).DividesByZero d := by
  have hvalue : (net.recalculated d).value = net.value := by
    funext v
    show ((net.recalculated d).var v).value = (net.var v).value
    by_cases hv : v = (net.con d).output
    · rw [hv, recalculated_var_output (hcoh.known_output (known_of_isSatisfied hd))]
      simp [refreshed, hz.2]
    · rw [recalculated_var_of_ne hv]
  refine ⟨?_, ?_⟩
  · rw [recalculated_annotationFor hself]
    exact hz.1
  · rw [recalculated_con, hvalue]
    exact hz.2

/-- A walk that started on `start` comes to a division by zero downstream of `w`. -/
theorem interrupted_recalculated (hcoh : start.Coherent) (hgraph : SameGraph start net)
    (hsat : (start.con d).isSatisfied = true) (hself : (start.con d).output ∉ (start.con d).reads)
    (hdown : start.Downstream w (start.con d).output) (hz : net.DividesByZero d)
    (hexact : ∀ v, (net.recalculated d).Exact v ∨ start.Downstream w v)
    (hacyclic : ∀ v, ¬ TransGen (fun u u' => start.Feeds u u' ∧ u' ≠ w) v v) :
    (net.recalculated d).Interrupted w := by
  have hfeeds : (net.recalculated d).Feeds = start.Feeds :=
    (hgraph.trans sameGraph_recalculated).feeds
  refine ⟨hcoh.of_sameGraph (hgraph.trans sameGraph_recalculated), ?_, ?_, d, ?_, ?_, ?_⟩
  · rw [Downstream, hfeeds]
    exact hexact
  · rw [hfeeds]
    exact hacyclic
  · rw [recalculated_con, hgraph.con]
    exact hsat
  · rw [Downstream, hfeeds, recalculated_con, hgraph.con]
    exact hdown
  · rw [← hgraph.con] at hsat hself
    exact hz.recalculated (hcoh.of_sameGraph hgraph) hsat hself

end Interrupted

/-! ## Downstream of a new method -/

section Walk

variable {start net : Network} {mark n : Nat} {c d : ConstraintId} {flow : Flow}
  {q : List ConstraintId}

theorem Refreshing.interrupted (hs : start.OrderedBut c)
    (hself : ∀ d, (start.con d).isSatisfied = true →
      (start.var (start.con d).output).mark ≠ mark → (start.con d).output ∉ (start.con d).reads)
    (h : Refreshing start mark c net (d :: q)) (hm : (net.var (net.con d).output).mark ≠ mark)
    (hz : net.DividesByZero d) : (net.recalculated d).Interrupted (start.con c).output := by
  have hstep := h.step hs.coherent hself hm
  obtain ⟨hsat, hdown⟩ := h.queued d (by simp)
  rw [h.graph.con, h.marks] at hm
  refine interrupted_recalculated hs.coherent h.graph hsat (hself d hsat hm) hdown hz ?_
    hs.acyclic_without_output
  intro w
  obtain hex | ⟨e, he, hpath⟩ := hstep.exact w
  · exact .inl hex
  · exact .inr ((hstep.queued e he).2.trans hpath)

theorem walkInvariant_interrupted (hs : start.OrderedBut c)
    (hself : ∀ d, (start.con d).isSatisfied = true →
      (start.var (start.con d).output).mark ≠ mark → (start.con d).output ∉ (start.con d).reads) :
    WalkInvariant mark LeavesIntact (Refreshing start mark c) where
  coherent h := hs.coherent.of_sameGraph h.graph
  satisfied h d hd := by rw [h.graph.con]; exact (h.queued d hd).1
  step h hm _ := h.step hs.coherent hself hm
  refused h hm hz := .inr ⟨_, h.interrupted hs hself hm hz⟩
  endless _ := trivial

/-- The walk below a method that has just been chosen. -/
theorem Intact.ends_walk (h : net.Intact) (ha : (net.con c).attached = true)
    (hu : (net.con c).isSatisfied = false) :
    Ends (walk mark n [c]) (net.takenOver mark c flow) (fun _ _ => True) LeavesIntact := by
  have hbut : (net.takenOver mark c flow).OrderedBut c := h.ordered.orderedBut_takenOver ha hu
  exact (Network.ends_walk (walkInvariant_interrupted hbut
    fun d hd hm => h.settled.takenOver_irreflexive ha hu hd hm) n
    (h.settled.refreshing_takenOver ha hu)).mono_ok fun _ _ _ => trivial

end Walk

/-! ## Downstream of a lost method -/

/-- The state of a release of `out`: whatever is still to be done lies downstream of it. -/
structure Retreating (start : Network) (out : VariableId) (net : Network)
    (found : List ConstraintId) (q : List VariableId) (ds : List ConstraintId) : Prop
    extends Releasing start net found q ds where
  below : ∀ v ∈ q, start.Downstream out v
  next : ∀ d ∈ ds, start.Downstream out (start.con d).output

section Release

variable {start net : Network} {out : VariableId} {c d : ConstraintId} {found ds : List ConstraintId}
  {q : List VariableId}

theorem Retreating.step (hs : start.Ordered) (h : Retreating start out net found q (d :: ds)) :
    Retreating start out (net.recalculated d) found (q ++ [(net.con d).output]) ds := by
  refine ⟨h.toReleasing.step hs.coherent fun _ hd => hs.acyclic.output_notMem_reads hd, ?_,
    fun e he => h.next e (List.mem_cons_of_mem d he)⟩
  intro v hv
  obtain hv | hv := List.mem_append.1 hv
  · exact h.below v hv
  · rw [List.mem_singleton.1 hv, h.graph.con]
    exact h.next d (by simp)

theorem Retreating.interrupted (hs : start.Ordered)
    (h : Retreating start out net found q (d :: ds)) (hz : net.DividesByZero d) :
    (net.recalculated d).Interrupted out := by
  have hstep := h.step hs
  have hsat := h.satisfied d (by simp)
  refine interrupted_recalculated hs.coherent h.graph hsat (hs.acyclic.output_notMem_reads hsat)
    (h.next d (by simp)) hz ?_ ?_
  · intro w
    obtain hex | ⟨e, he, hpath⟩ | ⟨v, hv, hpath⟩ := hstep.exact w
    · exact .inl hex
    · exact .inr ((hstep.next e he).trans hpath)
    · exact .inr ((hstep.below v hv).trans hpath.to_reflTransGen)
  · intro v hv
    exact hs.acyclic v (TransGen.mono (fun _ _ hf => hf.1) v v hv)

theorem releaseInvariant_retreating (hs : start.Ordered) :
    ReleaseInvariant LeavesIntact (Retreating start out) where
  coherent h := hs.coherent.of_sameGraph h.graph
  known h v hv := by rw [h.graph.variableCount]; exact h.known v hv
  satisfied h d hd := by rw [h.graph.con]; exact h.satisfied d hd
  scan {net found v q} h := by
    refine ⟨h.toReleasing.scan hs.coherent fun _ hd => hs.acyclic.output_notMem_reads hd,
      fun w hw => h.below w (List.mem_cons_of_mem v hw), ?_⟩
    intro d hd
    rw [(hs.coherent.of_sameGraph h.graph).mem_consumersOf, h.graph.con] at hd
    exact (h.below v (by simp)).tail ⟨d, hd.1, hd.2.1, rfl⟩
  step h _ := h.step hs
  refused h hz := .inr ⟨_, h.interrupted hs hz⟩
  endless _ := trivial

theorem IntactBut.ends_release (h : net.IntactBut c) :
    Ends (release (net.con c).output) (net.detached c) (fun _ _ => True) LeavesIntact := by
  have hs : (net.detached c).Ordered :=
    ⟨h.unsettled.coherent.detached (known_of_isSatisfied h.unsettled.satisfied), h.acyclic⟩
  have hinit : Retreating (net.detached c) (net.con c).output (net.released c) []
      [(net.con c).output] [] := by
    refine ⟨h.unsettled.releasing, fun v hv => ?_, by simp⟩
    rw [List.mem_singleton.1 hv]
  exact (Network.ends_release (releaseInvariant_retreating hs) h.unsettled.known_output
    hinit).mono_ok fun _ _ _ => trivial

end Release

/-! ## Satisfying and retracting -/

theorem solvingInvariant_intact :
    SolvingInvariant Intact IntactBut (fun _ _ => LeavesIntact) where
  coherent h := h.settled.coherent
  keep h hq := h.of_sameSolution hq.toSameSolution
  coherent_but h := h.unsettled.coherent
  satisfied_but h := h.unsettled.satisfied
  keep_but h hq := h.of_sameSolution hq.toSameSolution
  walk {net c flow} n mark h ha hu hm hflow := by
    refine ((solvingInvariant_ordered.walk n mark h.ordered ha hu hm hflow).and
      ((h.settled.ends_walk ha hu).and (h.ends_walk ha hu))).mono ?_ fun _ _ hf => hf.2.2
    intro met net' hend
    obtain ⟨⟨hvisit, hnone, hsome⟩, ⟨-, hsettled, hunsettled⟩, -⟩ := hend
    exact ⟨hvisit, fun hmet => ⟨hsettled hmet, (hnone hmet).acyclic⟩,
      fun v hmet => ⟨hunsettled v hmet, (hsome v hmet).acyclic⟩⟩
  release {net c} n h := by
    refine ((solvingInvariant_ordered.release n h.orderedBut).and
      ((ends_release_settled h.unsettled).and h.ends_release)).mono ?_ fun _ _ hf => hf.2.2
    intro found net' hend
    obtain ⟨⟨hordered, hgraph, hfound⟩, ⟨hsettled, -, -⟩, -⟩ := hend
    exact ⟨⟨hsettled, hordered.acyclic⟩, hgraph, hfound⟩
  unsatisfiable _ h _ _ := h
  cycle _ _ h _ := h
  spent _ _ := trivial
  keeps _ hf := hf
  nested _ hf := hf

theorem operationInvariant_intact : OperationInvariant (fun _ _ => True) Intact LeavesIntact where
  coherent h := h.settled.coherent
  note _ h := h.of_sameSolution quiet_note.toSameSolution
  refused e h := h.leavesIntact (.refused e)
  edit _ := trivial
  add {net kind strength} h _ hk := by
    have hreg : (net.registered kind strength).Intact := h.registered hk
    refine (ends_orDetach ((solvingInvariant_intact.ends_establish _ hreg registered_new_attached
      registered_new_unsatisfied).and (establishes_establish _ _ _ hreg.settled
        registered_new_attached registered_new_unsatisfied)) (fun _ _ hf _ => hf.1) ?_).mono_ok
      fun _ _ hend => hend.1.1
    intro net' hf
    obtain ⟨hintact, hsettled⟩ := hf
    obtain ⟨ha, hu⟩ := (hsettled.resolve_left id).2 _ rfl
    have hintact : net'.Intact := hintact
    have hc := known_of_attached ha
    rw [ends_detach hc (hintact.settled.coherent.known _ hc)]
    exact hintact.detached ha hu
  establish h ha hu := (solvingInvariant_intact.ends_establish _ h ha hu).mono_ok
    fun _ _ hend => hend.1
  withdraw h hs := (solvingInvariant_intact.ends_withdraw _ (h.intactBut hs)).mono_ok
    fun _ _ hend => hend.1
  drop h ha hu := h.detached ha hu

section Requests

variable {net : Network} {c : ConstraintId}

theorem Intact.ends_perform (h : net.Intact) (r : Request) :
    Ends r.perform net (fun _ => Intact) LeavesIntact := by
  refine operationInvariant_intact.ends_perform (fun h hq => h.of_sameSolution hq.toSameSolution)
    (fun e _ h => h.leavesIntact e) (fun h => h.withVariable) ?_ h trivial
  -- if a plan and then the removal of its edit fail, the first failure is reported
  intro e e' net' habrupt hleft
  cases e with
  | divisionByZero d =>
    cases e' with
    | divisionByZero d' => exact hleft
    | _ => exact .inl hleft
  | _ => exact habrupt.elim

/-- The way back: what stands in the way is retracted. -/
theorem IntactBut.ends_retract (h : net.IntactBut c) :
    Ends (retract c) net (fun _ => Intact) (Halts False) := by
  have hsat := h.unsettled.satisfied
  rw [retract, ends_bind]
  refine ends_checkAttached (fun _ => ?_) fun ha => ?_
  · rw [ends_bind, ends_readConstraint (known_of_isSatisfied hsat), if_pos hsat, ends_bind,
      ends_nesting]
    exact ((solvingInvariant_intact.ends_withdraw _ h).and h.orderedBut.ends_withdraw).mono
      (fun _ _ hend => hend.1.1) fun _ _ hf => hf.2
  · rw [h.unsettled.coherent.attached c hsat] at ha
    cases ha

end Requests

/-- A request that is refused because of a division by zero, in a network without cyclic dataflow and
with exact annotations, may leave a network that is neither. But then there is one variable such that
the division and whatever is out of date lies downstream of it and every cycle leads through it. If no
constraint computes it there is no cycle; if one does, this constraint can be retracted, and when that
is answered the dataflow is acyclic and the annotations are exact again. And as long as there is no
cycle, every later request returns. -/
theorem division_confined {patience : Nat} {net net' : Network} {r : Request} {d : ConstraintId}
    (h : Reaches (.empty patience) net) (hacyclic : net.Acyclic) (hexact : ∀ v, net.Exact v)
    (hr : r.perform net = .error (.refused (.divisionByZero d)) net') :
    (net'.Acyclic → ∀ r' : Request, (∀ p, r' ≠ .runPlan p) → r'.Returns net') ∧
    ((net'.Acyclic ∧ ∀ v, net'.Exact v) ∨
      ∃ w, net'.Interrupted w ∧ ((net'.var w).determinedBy = none → net'.Acyclic) ∧
        ∀ c, (net'.var w).determinedBy = some c → (Request.retract c).Returns net' ∧
          ∀ net'', (Request.retract c).perform net' = .ok () net'' →
            net''.Acyclic ∧ ∀ v, net''.Exact v) := by
  have hcoh : net.Coherent := h.regular.coherent
  have hleft : net'.Intact ∨ ∃ w, net'.Interrupted w :=
    ((intact_of_exact hcoh hexact hacyclic).ends_perform r).of_error hr
  have hcoh' : net'.Coherent :=
    hleft.elim (fun hintact => hintact.settled.coherent) fun ⟨_, hw⟩ => hw.coherent
  refine ⟨fun hnet' r' hr' => returns_of_ends (ends_perform_ordered ⟨hcoh', hnet'⟩ hr'), ?_⟩
  obtain hintact | ⟨w, hw⟩ := hleft
  · exact .inl ⟨hintact.acyclic, hintact.settled.exact⟩
  · refine .inr ⟨w, hw, hw.acyclic_of_undetermined, fun c hc => ?_⟩
    have hends := (hw.intactBut hc).ends_retract
    refine ⟨returns_of_ends (r := .retract c) hends, fun net'' hok => ?_⟩
    have hintact := hends.of_ok hok
    exact ⟨hintact.acyclic, hintact.settled.exact⟩

/-! ## Cycles that are left -/

/-- Whatever its constraints compute, none of them has to divide by zero. -/
def NeverDivides (net : Network) : Prop :=
  ∀ d, (net.con d).isSatisfied = true → ∀ value : VariableId → Float,
    (∀ v, (net.var v).determinedBy = none → value v = net.value v) → (net.con d).compute value ≠ none

/-- A release that was started on `start` has come to a variable of the set `S`, or is about to. -/
structure Circling (start : Network) (S : VariableId → Prop) (net : Network)
    (found : List ConstraintId) (q : List VariableId) (ds : List ConstraintId) : Prop
    extends Freeing start net found q ds where
  value : ∀ v, (start.var v).determinedBy = none → net.value v = start.value v
  ahead : (∃ v ∈ q, S v) ∨ ∃ d ∈ ds, S (start.con d).output

section Circling

variable {start net : Network} {S : VariableId → Prop} {c d : ConstraintId} {v : VariableId}
  {found ds : List ConstraintId} {q : List VariableId}

theorem Circling.scan (hcoh : start.Coherent)
    (hS : ∀ u, S u → ∃ w, S w ∧ w ≠ u ∧ start.Feeds u w) (h : Circling start S net found (v :: q) []) :
    Circling start S net (net.withUnsatisfied found (net.var v).constraints) q (net.consumersOf v) := by
  refine ⟨h.toFreeing.scan hcoh, h.value, ?_⟩
  obtain ⟨u, hu, hin⟩ | ⟨d, hd, -⟩ := h.ahead
  · rcases List.mem_cons.1 hu with rfl | hu
    · -- what reads `u` leads on to another variable of the set
      obtain ⟨w, hw, hne, d, hsat, hreads, rfl⟩ := hS u hin
      refine .inr ⟨d, ?_, hw⟩
      rw [(hcoh.of_sameGraph h.graph).mem_consumersOf, h.graph.con]
      exact ⟨hsat, hreads, hne⟩
    · exact .inl ⟨u, hu, hin⟩
  · cases hd

theorem Circling.step (hcoh : start.Coherent) (h : Circling start S net found q (d :: ds)) :
    Circling start S (net.recalculated d) found (q ++ [(net.con d).output]) ds := by
  refine ⟨h.toFreeing.step hcoh, fun v hv => ?_, ?_⟩
  · have hne : v ≠ (net.con d).output := by
      rintro rfl
      rw [h.graph.con, hcoh.determinedBy_output (h.satisfied d (by simp))] at hv
      cases hv
    show ((net.recalculated d).var v).value = start.value v
    rw [recalculated_var_of_ne hne]
    exact h.value v hv
  · obtain ⟨u, hu, hin⟩ | ⟨e, he, hin⟩ := h.ahead
    · exact .inl ⟨u, List.mem_append_left _ hu, hin⟩
    · rcases List.mem_cons.1 he with rfl | he
      · refine .inl ⟨(start.con e).output, ?_, hin⟩
        rw [h.graph.con]
        simp
      · exact .inr ⟨e, he, hin⟩

theorem releaseInvariant_circling (hcoh : start.Coherent)
    (hS : ∀ u, S u → ∃ w, S w ∧ w ≠ u ∧ start.Feeds u w) (hdiv : start.NeverDivides) :
    ReleaseInvariant (fun e _ => e = .endless) (Circling start S) where
  coherent h := hcoh.of_sameGraph h.graph
  known h v hv := by rw [h.graph.variableCount]; exact h.known v hv
  satisfied h d hd := by rw [h.graph.con]; exact h.satisfied d hd
  scan h := h.scan hcoh hS
  step h _ := h.step hcoh
  refused {net _ _ d _} h hz := by
    have hnone := hz.2
    rw [h.graph.con] at hnone
    exact absurd hnone (hdiv d (h.satisfied d (by simp)) net.value h.value)
  endless _ := rfl

theorem NeverDivides.detached (h : net.NeverDivides) (hcoh : net.Coherent)
    (hc : c.index < net.constraints.size) : (net.detached c).NeverDivides := by
  intro d hd value hvalue
  obtain ⟨hne, hsat⟩ := (detached_isSatisfied_iff hc).1 hd
  rw [detached_con_of_ne hne]
  refine h d hsat value fun v hv => ?_
  have hvar : (net.detached c).var v = (net.var v).detach c := detached_var hcoh hc
  rw [hvalue v (by rw [hvar, Variable.detach, hv]; rfl), Network.value, hvar]
  rfl

/-- Every variable of a set is read by a constraint that computes another variable of the set. If the
output of `c` is one of them and nothing divides by zero, then the removal of `c` goes round among them for
ever. -/
theorem ends_retract_endless (hcoh : net.Coherent) (hc : (net.con c).isSatisfied = true)
    (hout : S (net.con c).output)
    (hS : ∀ u, S u → ∃ d, d ≠ c ∧ (net.con d).isSatisfied = true ∧ u ∈ (net.con d).reads ∧
      (net.con d).output ≠ u ∧ S (net.con d).output)
    (hdiv : net.NeverDivides) :
    Ends (retract c) net (fun _ _ => False) (fun e _ => e = .endless) := by
  have hk := known_of_isSatisfied hc
  have hnext : ∀ u, S u → ∃ w, S w ∧ w ≠ u ∧ (net.detached c).Feeds u w := by
    intro u hu
    obtain ⟨d, hne, hsat, hreads, hother, hin⟩ := hS u hu
    refine ⟨_, hin, hother, d, ?_⟩
    rw [detached_con_of_ne hne]
    exact ⟨hsat, hreads, rfl⟩
  rw [retract, ends_bind]
  refine ends_checkAttached (fun _ => ?_) fun ha => ?_
  · rw [ends_bind, ends_readConstraint hk, if_pos hc, ends_bind, ends_nesting]
    refine ends_withdrawUsing hcoh hc ?_
    refine (ends_release (releaseInvariant_circling (hcoh.detached hk) hnext (hdiv.detached hcoh hk))
      (by rw [detached_size]; exact hcoh.known_output hk) ?_).mono_ok ?_
    · refine ⟨freeing_released hcoh hc, fun v _ => ?_, .inl ⟨_, by simp, hout⟩⟩
      exact alterVariable_var_field fun _ => rfl
    · rintro found net' ⟨-, -, ⟨_, hmem, -⟩ | ⟨_, hmem, -⟩⟩
      · cases hmem
      · cases hmem
  · rw [hcoh.attached c hc] at ha
    cases ha

end Circling

end Network

/-- The stay makes `b` stronger than `a`, so the scaling that is going to be added computes `a`, from
an offset that is computed from `a` and by a factor that is zero. -/
def loopRequests : List Request :=
  [.addVariable "a" 0, .addVariable "b" 0, .addVariable "m" 0, .addVariable "d" 0,
    .add (.stay ⟨1⟩) .preferred, .add (.equal ⟨0⟩ ⟨3⟩) .required]

def loopNetwork : Network :=
  (Request.runAll (fun _ _ => true) loopRequests (.empty 0)).get (by decide +kernel)

def loopRequest : Request := .add (.scale ⟨0⟩ ⟨1⟩ ⟨2⟩ ⟨3⟩) .required

/-- The factor is no longer zero. -/
def closedLoop : Network :=
  ((Request.assign ⟨2⟩ 1).outcome? (loopRequest.after loopNetwork)).get (by decide +kernel)

/-- Both constraints on `x` read it, and the older one will have to divide by zero once the edit is
gone. -/
def staleRequests : List Request :=
  [.addVariable "x" 0, .addVariable "u" 0, .addVariable "m" 0, .addVariable "o" 0,
    .addVariable "z" 0, .add (.edit ⟨0⟩) .preferred,
    .add (.scale ⟨1⟩ ⟨0⟩ ⟨2⟩ ⟨3⟩) .required, .add (.equal ⟨0⟩ ⟨4⟩) .required]

def staleNetwork : Network :=
  (Request.runAll (fun _ _ => true) staleRequests (.empty 0)).get (by decide +kernel)

namespace Network

/-- What is found with the least patience is found with more. -/
theorem intact_withPatience {rs : List Request} {net : Network} (patience : Nat)
    (h : Request.runAll (fun _ _ => true) rs (.empty 0) = some net) :
    net.patience ≤ patience ∧ Reaches (.empty patience) (net.withPatience patience) ∧
      (net.withPatience patience).Acyclic ∧ ∀ v, (net.withPatience patience).Exact v := by
  obtain ⟨hp, hmore⟩ := Request.runAll_withPatience (fun _ _ _ => rfl) rs (Nat.zero_le patience) h
  have hrun : Run (fun _ _ => True) (net.withPatience patience) :=
    Run.of_runAll (fun _ _ _ => trivial) rs .empty hmore
  exact ⟨hp ▸ Nat.zero_le patience, Reaches.refl.of_runAll rs hmore,
    (runInvariant_ordered.holds hrun).acyclic, (runInvariant_settled.holds hrun).exact⟩

theorem runAll_loopRequests :
    Request.runAll (fun _ _ => true) loopRequests (.empty 0) = some loopNetwork :=
  (Option.some_get _).symm

theorem runAll_staleRequests :
    Request.runAll (fun _ _ => true) staleRequests (.empty 0) = some staleNetwork :=
  (Option.some_get _).symm

theorem refusal?_loopRequest : loopRequest.refusal? loopNetwork = some (.divisionByZero ⟨2⟩) := by
  decide +kernel

theorem outcome?_assign :
    (Request.assign ⟨2⟩ 1).outcome? (loopRequest.after loopNetwork) = some closedLoop :=
  (Option.some_get _).symm

theorem loopNetwork_cyclic : ¬ (loopRequest.after loopNetwork).Acyclic := by
  intro hacyclic
  have hback : (loopRequest.after loopNetwork).Feeds ⟨3⟩ ⟨0⟩ :=
    ⟨⟨2⟩, by decide +kernel, by decide +kernel, by decide +kernel⟩
  have hforth : (loopRequest.after loopNetwork).Feeds ⟨0⟩ ⟨3⟩ :=
    ⟨⟨1⟩, by decide +kernel, by decide +kernel, by decide +kernel⟩
  exact hacyclic ⟨0⟩ (.tail (.single hforth) hback)

/-- The scaling closes a cycle and divides by zero before the walk comes back to it. -/
theorem division_confined_loopNetwork :
    (Reaches (.empty 0) loopNetwork ∧ loopNetwork.Acyclic ∧ ∀ v, loopNetwork.Exact v) ∧
    loopRequest.perform loopNetwork =
      .error (.refused (.divisionByZero ⟨2⟩)) (loopRequest.after loopNetwork) ∧
    ∃ w c, (loopRequest.after loopNetwork).Interrupted w ∧
      ((loopRequest.after loopNetwork).var w).determinedBy = some c ∧
      (Request.retract c).Returns (loopRequest.after loopNetwork) ∧
      ∀ net', (Request.retract c).perform (loopRequest.after loopNetwork) = .ok () net' →
        net'.Acyclic ∧ ∀ v, net'.Exact v := by
  have hrun : Run (fun _ _ => True) loopNetwork :=
    Run.of_runAll (fun _ _ _ => trivial) loopRequests .empty runAll_loopRequests
  have hreach : Reaches (.empty 0) loopNetwork :=
    Reaches.refl.of_runAll loopRequests runAll_loopRequests
  have hacyclic := (runInvariant_ordered.holds hrun).acyclic
  have hexact := (runInvariant_settled.holds hrun).exact
  have hr := Request.perform_of_refusal? refusal?_loopRequest
  refine ⟨⟨hreach, hacyclic, hexact⟩, hr, ?_⟩
  obtain hintact | ⟨w, hw, hnone, hsome⟩ := (division_confined hreach hacyclic hexact hr).2
  · exact absurd hintact.1 loopNetwork_cyclic
  · cases hdet : ((loopRequest.after loopNetwork).var w).determinedBy with
    | none => exact absurd (hnone hdet) loopNetwork_cyclic
    | some c => exact ⟨w, c, hw, hdet, hsome c hdet⟩

theorem refusal?_destroy_staleNetwork :
    (Request.destroy ⟨0⟩).refusal? staleNetwork = some (.divisionByZero ⟨1⟩) := by
  decide +kernel

/-- The variable `z` still carries the strength of the edit. -/
theorem staleNetwork_outdated : ¬ ((Request.destroy ⟨0⟩).after staleNetwork).Exact ⟨4⟩ := by
  intro hexact
  have hdet : (((Request.destroy ⟨0⟩).after staleNetwork).var ⟨4⟩).determinedBy = some ⟨2⟩ := by
    decide +kernel
  have hcurrent := hexact.trans (due_of_some hdet)
  exact absurd (congrArg Annotation.walkStrength hcurrent) (by decide +kernel)

/-- In the closed loop `a` is computed from `b` and `d`, and `d` from `a`. -/
theorem closedLoop_circles (u : VariableId) (hu : u = ⟨0⟩ ∨ u = ⟨1⟩ ∨ u = ⟨3⟩) :
    ∃ d, d ≠ ⟨0⟩ ∧ (closedLoop.con d).isSatisfied = true ∧ u ∈ (closedLoop.con d).reads ∧
      (closedLoop.con d).output ≠ u ∧
      ((closedLoop.con d).output = ⟨0⟩ ∨ (closedLoop.con d).output = ⟨1⟩ ∨
        (closedLoop.con d).output = ⟨3⟩) := by
  obtain rfl | rfl | rfl := hu
  · exact ⟨⟨1⟩, by decide +kernel⟩
  · exact ⟨⟨2⟩, by decide +kernel⟩
  · exact ⟨⟨2⟩, by decide +kernel⟩

/-- The only division is by the factor, which nothing computes. -/
theorem closedLoop_neverDivides : closedLoop.NeverDivides := by
  intro d hd value hvalue
  have hfactor : value ⟨2⟩ = 1 := (hvalue ⟨2⟩ (by decide +kernel)).trans (by decide +kernel)
  have hstay : (closedLoop.con ⟨0⟩).kind = .stay ⟨1⟩ := by decide +kernel
  have hequal : (closedLoop.con ⟨1⟩).kind = .equal ⟨0⟩ ⟨3⟩ := by decide +kernel
  have hscale : (closedLoop.con ⟨2⟩).kind = .scale ⟨0⟩ ⟨1⟩ ⟨2⟩ ⟨3⟩ := by decide +kernel
  have hcount : closedLoop.constraints.size = 3 := by decide +kernel
  have hlt : d.index < 3 := hcount ▸ known_of_isSatisfied hd
  obtain ⟨i⟩ := d
  obtain rfl | rfl | rfl : i = 0 ∨ i = 1 ∨ i = 2 := by
    change i < 3 at hlt
    omega
  · rw [Constraint.compute, hstay]
    exact Option.some_ne_none _
  · rw [Constraint.compute, hequal]
    exact Option.some_ne_none _
  · have hone : (value ⟨2⟩ == 0.0) = false := by
      rw [hfactor]
      decide +kernel
    rw [Constraint.compute, hscale]
    simp only [hone]
    split
    · exact Option.some_ne_none _
    · exact Option.some_ne_none _

/-- With a factor other than zero the walk goes round for ever. -/
theorem not_returns_closedLoop (patience : Nat) :
    ¬ (Request.retract ⟨0⟩).Returns (closedLoop.withPatience patience) := by
  have hreach : Reaches (.empty 0) closedLoop :=
    ((Reaches.refl.of_runAll loopRequests runAll_loopRequests).step loopRequest).of_outcome?
      outcome?_assign
  have hsat : (closedLoop.con ⟨0⟩).isSatisfied = true := by decide +kernel
  have hout : (closedLoop.con ⟨0⟩).output = ⟨1⟩ := by decide +kernel
  have hcircle := closedLoop_circles
  have hdiv := closedLoop_neverDivides
  generalize closedLoop = net at hreach hsat hout hcircle hdiv ⊢
  have hcoh : (net.withPatience patience).Coherent :=
    hreach.regular.coherent.of_sameGraph (sameGraph_of_eq rfl rfl)
  have hends := ends_retract_endless (c := ⟨0⟩) (S := fun u => u = ⟨0⟩ ∨ u = ⟨1⟩ ∨ u = ⟨3⟩) hcoh hsat
    (.inr (.inl hout)) hcircle hdiv
  rintro ⟨net', hok | ⟨e, hrefused⟩⟩
  · exact hends.of_ok hok
  · cases hends.of_error hrefused

/-- Whatever the patience, a division by zero can leave a cycle of computations, and then a later request
need not return; and it can leave an annotation that is out of date. -/
theorem division_not_harmless :
    (∀ patience, ∃ net r d, Reaches (.empty patience) net ∧ net.Acyclic ∧ (∀ v, net.Exact v) ∧
      Request.refusal? r net = some (.divisionByZero d) ∧ ¬ (r.after net).Acyclic ∧
      ∃ later r', Reaches (r.after net) later ∧ (∀ p, r' ≠ .runPlan p) ∧ ¬ Request.Returns r' later) ∧
    ∀ patience, ∃ net r d, Reaches (.empty patience) net ∧ net.Acyclic ∧ (∀ v, net.Exact v) ∧
      Request.refusal? r net = some (.divisionByZero d) ∧ ∃ v, ¬ (r.after net).Exact v := by
  refine ⟨fun patience => ?_, fun patience => ?_⟩
  · have hrun := runAll_loopRequests
    have hleast := refusal?_loopRequest
    have hassign := outcome?_assign
    have hcyclic := loopNetwork_cyclic
    have hgone := not_returns_closedLoop patience
    generalize loopNetwork = net at hrun hleast hassign hcyclic
    generalize closedLoop = later at hassign hgone
    obtain ⟨hq, hreach, hacyclic, hexact⟩ := intact_withPatience patience hrun
    obtain ⟨hp, hrefusal, hafter⟩ := Request.refusal?_withPatience hq hleast
    obtain ⟨-, hlater⟩ := Request.outcome?_withPatience (hp.trans_le hq) hassign
    refine ⟨net.withPatience patience, loopRequest, ⟨2⟩, hreach, hacyclic, hexact, hrefusal, ?_,
      later.withPatience patience, .retract ⟨0⟩, ?_, nofun, hgone⟩
    · rw [hafter]
      exact hcyclic
    · rw [hafter]
      exact Reaches.refl.of_outcome? hlater
  · have hrun := runAll_staleRequests
    have hleast := refusal?_destroy_staleNetwork
    have hout := staleNetwork_outdated
    generalize staleNetwork = net at hrun hleast hout
    obtain ⟨hq, hreach, hacyclic, hexact⟩ := intact_withPatience patience hrun
    obtain ⟨-, hrefusal, hafter⟩ := Request.refusal?_withPatience hq hleast
    refine ⟨net.withPatience patience, .destroy ⟨0⟩, ⟨1⟩, hreach, hacyclic, hexact, hrefusal, ⟨4⟩, ?_⟩
    rw [hafter]
    exact hout

end Network

end ConstraintHierarchy
