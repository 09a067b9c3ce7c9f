import ConstraintHierarchy.Proofs.Structure

/-!
# Satisfying and retracting, one change at a time

Whatever loops, walks and roll-backs an operation goes through, it changes the network in a few ways
only: a constraint takes over its output, brings it up to date or marks it, values are put back,
constraints leave the graph. `Network.Leads` is the relation between two networks that such changes
generate, and satisfying and retracting constraints stay within it, also when they fail. What every
single change keeps is therefore kept by every operation, by one induction that knows nothing of the
algorithm.

The relation says in addition where the changes happen. A region is a set of variables whose border no
constraint of the graph crosses; an operation on a constraint inside of a region never leaves it.

## Main definitions

* `Network.Region`: a set of variables whose border no constraint crosses
* `Network.Leads`: what changes inside of a region can make of a network
* `Network.Stops`: the same for a failure, with the reason for a division by zero

## Main results

* `Network.leads_establish`, `Network.leads_withdraw`: satisfying and retracting make such changes only
* `Network.leads_addConstraint`, `Network.leads_enforce`, `Network.leads_destroy`: so do the operations
* `Network.leads_establish_taken`, `Network.leads_destroy_dismissed`: the same, counted from the moment
  when the constraint has its method, or is out of the graph
-/

namespace ConstraintHierarchy.Network

open Solve

/-! ## Regions -/

/-- Everything that `c` mentions lies in `R`. -/
def Inside (net : Network) (R : VariableId → Prop) (c : ConstraintId) : Prop :=
  ∀ v ∈ (net.con c).kind.operands, R v

/-- A constraint of the graph that mentions a variable in `R` lies in `R` altogether. -/
def Region (net : Network) (R : VariableId → Prop) : Prop :=
  ∀ c, (net.con c).attached = true → ∀ v ∈ (net.con c).kind.operands, R v → net.Inside R c

section Region

variable {net net' : Network} {R : VariableId → Prop} {c : ConstraintId} {v : VariableId}

theorem region_true : net.Region fun _ => True := fun _ _ _ _ _ _ _ => trivial

theorem Inside.output (h : net.Inside R c) : R (net.con c).output :=
  h _ Constraint.output_mem_operands

theorem Inside.of_kind (h : net.Inside R c) (hk : (net'.con c).kind = (net.con c).kind) :
    net'.Inside R c := by
  rw [Inside, hk]
  exact h

/-- A region is one as long as no constraint comes into the graph. -/
theorem Region.anti (h : net.Region R)
    (ha : ∀ d, (net'.con d).attached = true →
      (net.con d).attached = true ∧ (net'.con d).kind = (net.con d).kind) : net'.Region R := by
  intro d hd v hv hR
  obtain ⟨hd', hk⟩ := ha d hd
  rw [hk] at hv
  exact (h d hd' v hv hR).of_kind hk

theorem Region.inside_of_listed (h : net.Region R) (hcoh : net.Coherent) (hv : R v)
    (hc : c ∈ (net.var v).constraints) : net.Inside R c := by
  obtain ⟨ha, hmem⟩ := hcoh.mem_listed.1 hc
  exact h c ha v hmem hv

theorem Region.inside_of_consumer (h : net.Region R) (hcoh : net.Coherent) (hv : R v)
    (hc : c ∈ net.consumersOf v) : net.Inside R c := by
  obtain ⟨hs, hr, -⟩ := hcoh.mem_consumersOf.1 hc
  exact h c (hcoh.attached c hs) v (Constraint.mem_operands_of_mem_reads hr) hv

theorem Region.inside_of_determinedBy (h : net.Region R) (hcoh : net.Coherent) (hv : R v)
    (hc : (net.var v).determinedBy = some c) : net.Inside R c := by
  obtain ⟨hs, rfl⟩ := (hcoh.determines v c).1 hc
  exact h c (hcoh.attached c hs) _ Constraint.output_mem_operands hv

end Region

/-! ## Changes -/

/-- The networks that changes inside of `R` lead to from `start`. -/
inductive Leads (R : VariableId → Prop) (start : Network) : Network → Prop
  | refl : Leads R start start
  /-- a walk begins, or something is written to the journal -/
  | aside {net net' : Network} (h : Leads R start net) (hvars : net'.vars = net.vars)
    (hcons : net'.constraints = net.constraints) : Leads R start net'
  /-- a constraint takes over the output that it has chosen -/
  | takeOver {net : Network} {mark : Nat} {c : ConstraintId} {flow : Flow} (h : Leads R start net)
    (hin : net.Inside R c) (ha : (net.con c).attached = true)
    (hu : (net.con c).isSatisfied = false) (hflow : net.flowFor mark c = some flow) :
    Leads R start (net.takenOver mark c flow)
  /-- a satisfied constraint brings its output up to date -/
  | recalculate {net : Network} {c : ConstraintId} (h : Leads R start net) (hin : net.Inside R c)
    (hs : (net.con c).isSatisfied = true) : Leads R start (net.recalculated c)
  /-- the output of a satisfied constraint is marked -/
  | visit {net : Network} {mark : Nat} {c : ConstraintId} (h : Leads R start net)
    (hin : net.Inside R c) (hs : (net.con c).isSatisfied = true) :
    Leads R start (net.alterVariable (net.con c).output fun x => { x with mark := mark })
  /-- the values of an earlier network with the same graph are put back -/
  | unwind {before net : Network} {c : ConstraintId} {v : VariableId} (hb : Leads R start before)
    (h : Leads R start net) (hgraph : SameGraph before net) :
    Leads R start (net.unwound before.vars c v)
  /-- a satisfied constraint leaves the graph -/
  | release {net : Network} {c : ConstraintId} (h : Leads R start net) (hin : net.Inside R c)
    (hs : (net.con c).isSatisfied = true) : Leads R start (net.released c)
  /-- an unsatisfied constraint leaves the graph -/
  | drop {net : Network} {c : ConstraintId} (h : Leads R start net) (hin : net.Inside R c)
    (ha : (net.con c).attached = true) (hu : (net.con c).isSatisfied = false) :
    Leads R start (net.detached c)

/-- The constraint `c` of the network is inside of `R`, in the graph and without a method. -/
structure Waiting (R : VariableId → Prop) (net : Network) (c : ConstraintId) : Prop where
  inside : net.Inside R c
  attached : (net.con c).attached = true
  unsatisfied : (net.con c).isSatisfied = false

/-- A division by zero is refused because changes inside of `R` lead to a network in which the constraint
that is named cannot be computed. -/
def Blames (R : VariableId → Prop) (start : Network) (e : Failure SolveError) : Prop :=
  ∀ d, e = .refused (.divisionByZero d) → ∃ net, Leads R start net ∧
    (net.con d).isSatisfied = true ∧ net.DividesByZero d

/-- A failure that changes inside of `R` lead to; a constraint that is unsatisfiable still waits for a
method. -/
structure Stops (R : VariableId → Prop) (start : Network) (e : Failure SolveError) (net : Network) :
    Prop where
  leads : Leads R start net
  waits : ∀ d, e = .refused (.unsatisfiable d) → Waiting R net d
  blames : Blames R start e

namespace Leads

variable {R : VariableId → Prop} {start net net' : Network} {c : ConstraintId}

theorem trans (h : Leads R start net) (h' : Leads R net net') : Leads R start net' := by
  induction h' with
  | refl => exact h
  | aside _ hvars hcons ih => exact ih.aside hvars hcons
  | takeOver _ hin ha hu hflow ih => exact ih.takeOver hin ha hu hflow
  | recalculate _ hin hs ih => exact ih.recalculate hin hs
  | visit _ hin hs ih => exact ih.visit hin hs
  | unwind _ _ hgraph ihb ih => exact ihb.unwind ih hgraph
  | release _ hin hs ih => exact ih.release hin hs
  | drop _ hin ha hu ih => exact ih.drop hin ha hu

theorem note {e : Event} (h : Leads R start net) :
    Leads R start { net with journal := net.journal.push e } :=
  h.aside rfl rfl

theorem coherent (h : Leads R start net) (hcoh : start.Coherent) : net.Coherent := by
  induction h with
  | refl => exact hcoh
  | aside _ hvars hcons ih => exact ih.of_sameGraph (sameGraph_of_eq hvars hcons)
  | takeOver _ _ ha hu _ ih => exact ih.takenOver ha hu
  | recalculate _ _ _ ih => exact ih.of_sameGraph sameGraph_recalculated
  | visit _ _ _ ih => exact ih.of_sameGraph (sameGraph_alterVariable (fun _ => rfl) fun _ => rfl)
  | unwind _ _ hgraph _ ih => exact ih.of_sameGraph (sameGraph_unwound hgraph.variableCount.symm)
  | release _ _ hs ih =>
    exact (ih.detached (known_of_isSatisfied hs)).of_sameGraph (sameGraph_released ih hs)
  | drop _ _ ha _ ih => exact ih.detached (known_of_attached ha)

theorem constraintCount (h : Leads R start net) :
    net.constraints.size = start.constraints.size := by
  induction h with
  | refl => rfl
  | aside _ _ hcons ih => rw [hcons, ih]
  | takeOver _ _ _ _ _ ih => rw [takenOver_count, ih]
  | recalculate _ _ _ ih => exact ih
  | visit _ _ _ ih => exact ih
  | unwind _ _ _ _ ih => exact ih
  | release _ _ _ ih => exact detached_count.trans ih
  | drop _ _ _ _ ih => exact detached_count.trans ih

theorem variableCount (h : Leads R start net) : net.vars.size = start.vars.size := by
  induction h with
  | refl => rfl
  | aside _ hvars _ ih => rw [hvars, ih]
  | takeOver _ _ _ _ _ ih => rw [takenOver_size, ih]
  | recalculate _ _ _ ih => rw [recalculated_size, ih]
  | visit _ _ _ ih => rw [alterVariable_size, ih]
  | unwind _ _ hgraph _ ih =>
    rw [(sameGraph_unwound hgraph.variableCount.symm).variableCount, ih]
  | release _ _ _ ih => rw [released, alterVariable_size, detached_size, ih]
  | drop _ _ _ _ ih => rw [detached_size, ih]

/-- No constraint changes what it says or comes into the graph. -/
theorem evolves (h : Leads R start net) : Evolves start net := by
  have hsame : ∀ {net net' : Network}, SameGraph net net' → Evolves start net → Evolves start net' :=
    fun hg he => he.trans hg.keeps.evolves
  induction h with
  | refl => exact (Keeps.refl start).evolves
  | aside _ hvars hcons ih => exact hsame (sameGraph_of_eq hvars hcons) ih
  | takeOver _ _ _ _ _ ih => exact ih.trans keeps_takenOver.evolves
  | recalculate _ _ _ ih => exact hsame sameGraph_recalculated ih
  | visit _ _ _ ih => exact hsame (sameGraph_alterVariable (fun _ => rfl) fun _ => rfl) ih
  | unwind _ _ hgraph _ ih => exact hsame (sameGraph_unwound hgraph.variableCount.symm) ih
  | release _ _ hs ih =>
    have hdrop := ih.trans (evolves_detached (known_of_isSatisfied hs))
    exact ⟨hdrop.constraintCount, hdrop.kind, hdrop.strength, hdrop.attached⟩
  | drop _ _ ha _ ih => exact ih.trans (evolves_detached (known_of_attached ha))

theorem kind (h : Leads R start net) : (net.con c).kind = (start.con c).kind := by
  by_cases hc : c.index < start.constraints.size
  · exact h.evolves.kind c hc
  · rw [con_of_unknown hc, con_of_unknown (by rwa [h.constraintCount])]

theorem attached (h : Leads R start net) (ha : (net.con c).attached = true) :
    (start.con c).attached = true :=
  h.evolves.attached c (h.constraintCount ▸ known_of_attached ha) ha

theorem region (h : Leads R start net) (hreg : start.Region R) : net.Region R :=
  hreg.anti fun _ hd => ⟨h.attached hd, h.kind⟩

end Leads

/-! ## The walks -/

section Walks

variable {R : VariableId → Prop} {start net : Network} {c d : ConstraintId} {mark n : Nat}
  {flow : Flow}

theorem Stops.of_leads {e : Failure SolveError} (h : Leads R start net)
    (hu : ∀ d, e ≠ .refused (.unsatisfiable d)) (hz : ∀ d, e ≠ .refused (.divisionByZero d)) :
    Stops R start e net :=
  ⟨h, fun d hd => absurd hd (hu d), fun d hd => absurd hd (hz d)⟩

/-- A walk and a release stop where an output cannot be computed. -/
theorem Stops.of_divides (h : Leads R start net) (hin : net.Inside R d)
    (hs : (net.con d).isSatisfied = true) (hz : net.DividesByZero d) :
    Stops R start (.refused (.divisionByZero d)) (net.recalculated d) := by
  refine ⟨h.recalculate hin hs, nofun, fun e he => ⟨net, h, ?_⟩⟩
  cases he
  exact ⟨hs, hz⟩

/-- The walk below a satisfied constraint stays inside of its region. -/
theorem leads_walk (hcoh : start.Coherent) (hreg : start.Region R) (h : Leads R start net)
    (hin : net.Inside R c) (hs : (net.con c).isSatisfied = true) :
    Ends (walk mark n [c]) net
      (fun _ net' => Leads R start net' ∧ ∃ q, Visiting net net' q) (Stops R start) := by
  have hnet := h.coherent hcoh
  let I : Network → List ConstraintId → Prop := fun net' q =>
    Leads R start net' ∧ Visiting net net' q ∧ ∀ d ∈ q, net'.Inside R d
  have inv : WalkInvariant mark (Stops R start) I :=
    { coherent := fun h => h.1.coherent hcoh
      satisfied := fun h d hd => by rw [h.2.1.graph.con]; exact h.2.1.queued d hd
      step := by
        rintro net' d q ⟨hl, hv, hq⟩ - -
        have hd : (net'.con d).isSatisfied = true := by
          rw [hv.graph.con]
          exact hv.queued d (by simp)
        refine ⟨hl.recalculate (hq d (by simp)) hd, hv.step hnet, fun e he => ?_⟩
        have hein : net'.Inside R e := by
          rcases List.mem_append.1 he with he | he
          · exact hq e (List.mem_cons_of_mem d he)
          · exact (hl.region hreg).inside_of_consumer (hl.coherent hcoh) (hq d (by simp)).output he
        exact hein.of_kind (by rw [recalculated_con])
      refused := by
        rintro net' d q ⟨hl, hv, hq⟩ - hz
        refine Stops.of_divides hl (hq d (by simp)) ?_ hz
        rw [hv.graph.con]
        exact hv.queued d (by simp)
      endless := fun h => Stops.of_leads h.1 nofun nofun }
  refine (ends_walk inv n ⟨h, visiting_start hs, by simpa using hin⟩).mono_ok ?_
  intro met net' hend
  cases met with
  | none => exact ⟨hend.1, _, hend.2.1⟩
  | some v =>
    obtain ⟨d, q, hmet, -, -⟩ := hend
    exact ⟨hmet.1, _, hmet.2.1⟩

/-- The release of the output of a satisfied constraint stays inside of its region, and so do the
candidates that it finds. -/
theorem leads_release (hcoh : start.Coherent) (hreg : start.Region R) (hnet : net.Coherent)
    (h : Leads R start (net.released c)) (hin : net.Inside R c)
    (hs : (net.con c).isSatisfied = true) :
    Ends (release (net.con c).output) (net.detached c)
      (fun found net' => Leads R start net' ∧
        ∀ u ∈ found, (net'.con u).attached = true ∧ net'.Inside R u) (Stops R start) := by
  have hc : c.index < net.constraints.size := known_of_isSatisfied hs
  have hdrop : (net.detached c).Coherent := hnet.detached hc
  let K : Network → List ConstraintId → List VariableId → List ConstraintId → Prop :=
    fun net' found q ds => Leads R start net' ∧ Freeing (net.detached c) net' found q ds ∧
      (∀ u ∈ found, net'.Inside R u) ∧ (∀ v ∈ q, R v) ∧ ∀ d ∈ ds, net'.Inside R d
  have hsat : ∀ {net' found q ds}, K net' found q ds →
      ∀ d ∈ ds, (net'.con d).isSatisfied = true := by
    rintro net' found q ds ⟨-, hf, -⟩ d hd
    rw [hf.graph.con]
    exact hf.satisfied d hd
  have inv : ReleaseInvariant (Stops R start) K :=
    { coherent := fun h => h.1.coherent hcoh
      known := fun h v hv => by rw [h.2.1.graph.variableCount]; exact h.2.1.known v hv
      satisfied := hsat
      scan := by
        rintro net' found v q ⟨hl, hf, hfound, hq, -⟩
        have hv : R v := hq v (by simp)
        refine ⟨hl, hf.scan hdrop, fun u hu => ?_, fun w hw => hq w (List.mem_cons_of_mem v hw),
          fun d hd => (hl.region hreg).inside_of_consumer (hl.coherent hcoh) hv hd⟩
        rcases mem_withUnsatisfied.1 hu with hu | ⟨hu, -⟩
        · exact hfound u hu
        · exact (hl.region hreg).inside_of_listed (hl.coherent hcoh) hv hu
      step := by
        rintro net' found q d ds hK -
        have hd := hsat hK d (by simp)
        obtain ⟨hl, hf, hfound, hq, hds⟩ := hK
        have hdin := hds d (by simp)
        refine ⟨hl.recalculate hdin hd, hf.step hdrop, hfound, fun w hw => ?_,
          fun e he => hds e (List.mem_cons_of_mem d he)⟩
        rcases List.mem_append.1 hw with hw | hw
        · exact hq w hw
        · rw [List.mem_singleton.1 hw]
          exact hdin.output
      refused := by
        rintro net' found q d ds hK hz
        exact Stops.of_divides hK.1 (hK.2.2.2.2 d (by simp)) (hsat hK d (by simp)) hz
      endless := fun h => Stops.of_leads h.1 nofun nofun }
  have hinit : K (net.released c) [] [(net.con c).output] [] :=
    ⟨h, freeing_released hnet hs, by simp, by simpa using hin.output, by simp⟩
  have hout : (net.con c).output.index < (net.detached c).vars.size := by
    rw [detached_size]
    exact hnet.known_output hc
  refine (ends_release inv hout hinit).mono_ok ?_
  rintro found net' ⟨hl, hf, hfound, -, -⟩
  refine ⟨hl, fun u hu => ⟨?_, hfound u hu⟩⟩
  rw [hf.graph.con]
  exact hf.found u hu

end Walks

/-! ## Satisfying and retracting -/

section Operations

variable {R : VariableId → Prop} {start net : Network} {c o : ConstraintId} {mark : Nat}
  {rollback retry : ConstraintId → Solve Unit}

/-- To satisfy a constraint makes only changes inside of its region, and if it is done the constraints
of the graph are the same. -/
def LeadsRetrying (R : VariableId → Prop) (start : Network) (retry : ConstraintId → Solve Unit) :
    Prop :=
  ∀ net c, Leads R start net → Waiting R net c →
    Ends (retry c) net (fun _ net' => Leads R start net' ∧ Keeps net net') (Stops R start)

/-- To retract a constraint makes only changes inside of its region. -/
def LeadsRetracting (R : VariableId → Prop) (start : Network) (retract : ConstraintId → Solve Unit) :
    Prop :=
  ∀ net c, Leads R start net → net.Inside R c → (net.con c).isSatisfied = true →
    Ends (retract c) net (fun _ => Leads R start) (Stops R start)

theorem Waiting.of_con (h : Waiting R net c) {net' : Network} (hcon : net'.con c = net.con c) :
    Waiting R net' c :=
  ⟨h.inside.of_kind (by rw [hcon]), by rw [hcon]; exact h.attached,
    by rw [hcon]; exact h.unsatisfied⟩

/-- What is installed leads on from `start` if `start` leads to the network in which the constraint has
taken over its output, or to the present one if it finds no method. -/
theorem LeadsRetracting.ends_install_from (hroll : LeadsRetracting R start rollback)
    (hcoh : start.Coherent) (hreg : start.Region R) (hnet : net.Coherent) (hnetreg : net.Region R)
    (ho : Waiting R net o) (hstuck : net.flowFor mark o = none → Leads R start net)
    (htaken : ∀ flow, net.flowFor mark o = some flow → Leads R start (net.takenOver mark o flow)) :
    Ends (install rollback mark o) net
      (fun d net' => Leads R start net' ∧ Keeps net net' ∧ ∀ e, d = some e → Waiting R net' e)
      (Stops R start) := by
  obtain ⟨hin, ha, hu⟩ := ho
  refine Network.ends_install hnet ha hu (fun hnone _ => ⟨hstuck hnone, ?_, nofun⟩)
    (fun hnone _ => ⟨hstuck hnone, .refl net, nofun⟩) fun flow hflow => ?_
  · rintro d ⟨⟩
    exact ⟨hin, ha, hu⟩
  have hself : (net.takenOver mark o flow).con o = net.directed o flow :=
    takenOver_con_self hnet (known_of_attached ha) hu
  have htaken : Leads R start (net.takenOver mark o flow) := htaken flow hflow
  have hin' : (net.takenOver mark o flow).Inside R o := hin.of_kind (by rw [hself])
  have hs : ((net.takenOver mark o flow).con o).isSatisfied = true := by
    rw [hself]
    rfl
  apply ends_propagate
  refine (leads_walk hcoh hreg htaken hin' hs).mono_ok ?_
  rintro met net' ⟨hl, q, hvisit⟩
  have hcon : net'.con o = net.directed o flow := by rw [hvisit.graph.con, hself]
  have hkeeps : Keeps net net' := keeps_takenOver.trans hvisit.graph.keeps
  cases met with
  | some v =>
    have hun := sameGraph_unwound (c := o) (v := v) hvisit.graph.variableCount.symm
    refine (hroll _ o (htaken.unwind hl hvisit.graph) ?_ ?_).mono
      (fun _ _ hend => Stops.of_leads hend nofun nofun) fun _ _ hf => hf
    · exact hin.of_kind (by rw [hun.con, hcon])
    · rw [hun.con, hcon]
      rfl
  | none =>
    have hmarked : SameGraph net' (net'.alterVariable (net.directed o flow).output
        fun x => { x with mark := mark }) := sameGraph_alterVariable (fun _ => rfl) fun _ => rfl
    refine ⟨hkeeps.variableCount, ?_, hkeeps.trans hmarked.keeps, fun d hd => ?_⟩
    · have hmark : Leads R start
          (net'.alterVariable (net'.con o).output fun x => { x with mark := mark }) :=
        hl.visit (hin.of_kind (by rw [hcon])) (by rw [hcon]; rfl)
      rwa [hcon] at hmark
    · -- the displaced constraint had its output in the region
      have hd' : net'.con d = { net.con d with flow := none } := by
        rw [hvisit.graph.con, takenOver_con_displaced hnet hu hd]
      have hout : R (net.directed o flow).output :=
        hin _ (Constraint.output_mem_operands (k := net.directed o flow))
      have hdin := hnetreg.inside_of_determinedBy hnet hout hd
      refine ⟨hdin.of_kind (by rw [alterVariable_con, hd']), ?_, ?_⟩
      · rw [alterVariable_con, hd']
        exact hnet.attached d ((hnet.determines _ d).1 hd).1
      · rw [alterVariable_con, hd']
        rfl

theorem LeadsRetracting.ends_install (hroll : LeadsRetracting R start rollback)
    (hcoh : start.Coherent) (hreg : start.Region R) (h : Leads R start net) (ho : Waiting R net o) :
    Ends (install rollback mark o) net
      (fun d net' => Leads R start net' ∧ Keeps net net' ∧ ∀ e, d = some e → Waiting R net' e)
      (Stops R start) :=
  hroll.ends_install_from hcoh hreg (h.coherent hcoh) (h.region hreg) ho (fun _ => h)
    fun _ hflow => h.takeOver ho.inside ho.attached ho.unsatisfied hflow

theorem LeadsRetracting.establishUsing (hroll : LeadsRetracting R start rollback)
    (hcoh : start.Coherent) (hreg : start.Region R) :
    LeadsRetrying R start (establishUsing rollback) := by
  intro net c h hc
  refine (ends_establishUsing (J := fun d net' => Leads R start net' ∧ Keeps net net' ∧
    ∀ e, d = some e → Waiting R net' e) ?_ ?_ ?_ ?_).mono_ok fun _ _ hend => ⟨hend.1, hend.2.1⟩
  · refine ⟨h.aside rfl rfl, quiet_freshMark.keeps, ?_⟩
    rintro e ⟨⟩
    exact hc.of_con rfl
  · rintro o net' ⟨hl, hkeeps, hwait⟩
    refine (hroll.ends_install hcoh hreg hl (hwait o rfl)).mono_ok ?_
    rintro d net'' ⟨hl', hkeeps', hwait'⟩
    exact ⟨hl', hkeeps.trans hkeeps', hwait'⟩
  · rintro o net' e ⟨hl, hkeeps, hwait⟩
    exact ⟨hl.note, hkeeps.trans quiet_note.keeps, fun d hd => (hwait d hd).of_con rfl⟩
  · exact fun hJ => Stops.of_leads hJ.1 nofun nofun

theorem LeadsRetrying.retryLevels (hretry : LeadsRetrying R start retry)
    {candidates : List ConstraintId} (h : Leads R start net)
    (hcand : ∀ u ∈ candidates, (net.con u).attached = true ∧ net.Inside R u) :
    Ends (retryLevels retry candidates Strength.all) net (fun _ => Leads R start)
      (Stops R start) := by
  let L : List Strength → Network → Prop := fun _ net' => Leads R start net' ∧ Keeps net net'
  refine (ends_retryLevels (L := L) ?_ _ ⟨h, .refl net⟩).mono_ok fun _ _ hend => hend.1
  rintro level levels net₁ ⟨h₁, hkeeps₁⟩
  let J : List ConstraintId → Network → Prop := fun us net' =>
    Leads R start net' ∧ Keeps net net' ∧ ∀ u ∈ us, (net'.con u).attached = true ∧ net'.Inside R u
  have hstill : ∀ {us : List ConstraintId} {net₁ net₂},
      (∀ u ∈ us, (net₁.con u).attached = true ∧ net₁.Inside R u) → Keeps net₁ net₂ →
      ∀ u ∈ us, (net₂.con u).attached = true ∧ net₂.Inside R u :=
    fun hus hk u hu => ⟨(hk.attached u).trans (hus u hu).1, (hus u hu).2.of_kind (hk.kind u)⟩
  have hlevel : Ends (retryLevel retry level candidates) net₁ (fun _ net' => J [] net')
      (Stops R start) := by
    refine ends_retryLevel (J := J) ?_ ?_ ?_ _ ⟨h₁, hkeeps₁, hstill hcand hkeeps₁⟩
    · exact fun hJ u hu => known_of_attached (hJ.2.2 u hu).1
    · rintro u us net₂ ⟨h₂, hkeeps₂, hus⟩ - hu
      obtain ⟨ha, hin⟩ := hus u (by simp)
      refine (hretry net₂ u h₂ ⟨hin, ha, hu⟩).mono_ok ?_
      rintro - net₃ ⟨h₃, hkeeps₃⟩
      exact ⟨h₃, hkeeps₂.trans hkeeps₃,
        hstill (fun w hw => hus w (List.mem_cons_of_mem u hw)) hkeeps₃⟩
    · rintro u us net₂ ⟨h₂, hkeeps₂, hus⟩ -
      exact ⟨h₂, hkeeps₂, fun w hw => hus w (List.mem_cons_of_mem u hw)⟩
  exact hlevel.mono_ok fun _ _ hJ => ⟨hJ.1, hJ.2.1⟩

theorem LeadsRetrying.ends_withdrawUsing (hretry : LeadsRetrying R start retry)
    (hcoh : start.Coherent) (hreg : start.Region R) (hnet : net.Coherent)
    (h : Leads R start (net.released c)) (hin : net.Inside R c)
    (hs : (net.con c).isSatisfied = true) :
    Ends (withdrawUsing retry c) net (fun _ => Leads R start) (Stops R start) := by
  apply Network.ends_withdrawUsing hnet hs
  refine (leads_release hcoh hreg hnet h hin hs).mono_ok ?_
  rintro found net' ⟨hl, hfound⟩ event
  exact hretry.retryLevels hl.note fun u hu => ⟨(hfound u hu).1, (hfound u hu).2.of_kind rfl⟩

theorem LeadsRetrying.withdrawUsing (hretry : LeadsRetrying R start retry)
    (hcoh : start.Coherent) (hreg : start.Region R) :
    LeadsRetracting R start (withdrawUsing retry) := fun _ _ h hin hs =>
  hretry.ends_withdrawUsing hcoh hreg (h.coherent hcoh) (h.release hin hs) hin hs

theorem leads_establish (hcoh : start.Coherent) (hreg : start.Region R) (n : Nat) :
    LeadsRetrying R start (establish n) := by
  induction n with
  | zero => exact fun net c h _ => Stops.of_leads h nofun nofun
  | succ n ih => exact (ih.withdrawUsing hcoh hreg).establishUsing hcoh hreg

theorem leads_withdraw (hcoh : start.Coherent) (hreg : start.Region R) (n : Nat) :
    LeadsRetracting R start (withdraw n) :=
  (leads_establish hcoh hreg n).withdrawUsing hcoh hreg

/-- If a constraint has a method to begin with, all the rest comes after it has taken over its output. -/
theorem leads_establish_taken (n : Nat) (hcoh : net.Coherent) (hreg : net.Region R)
    (hc : Waiting R net c) {flow : Flow}
    (hflow : { net with mark := net.mark + 1 }.flowFor (net.mark + 1) c = some flow) :
    Ends (establish n c) net
      (fun _ => Leads R ({ net with mark := net.mark + 1 }.takenOver (net.mark + 1) c flow))
      (fun _ _ => True) := by
  cases n with
  | zero => trivial
  | succ n =>
    let walking : Network := { net with mark := net.mark + 1 }
    have hwalking : Leads R net walking := Leads.refl.aside rfl rfl
    have htaken : Leads R net (walking.takenOver (net.mark + 1) c flow) :=
      hwalking.takeOver hc.inside hc.attached hc.unsatisfied hflow
    have hroll : LeadsRetracting R (walking.takenOver (net.mark + 1) c flow) (withdraw n) :=
      leads_withdraw (htaken.coherent hcoh) (htaken.region hreg) n
    rw [establish, establishUsing, ends_bind, ends_freshMark, ends_bind]
    refine (hroll.ends_install_from (htaken.coherent hcoh) (htaken.region hreg)
      (hwalking.coherent hcoh) (hwalking.region hreg) (hc.of_con rfl) (fun hnone => ?_)
      fun flow' hflow' => ?_).mono ?_ fun _ _ _ => trivial
    · cases hflow.symm.trans hnone
    · cases hflow.symm.trans hflow'
      exact .refl
    rintro o net' ⟨hl, -, hwait⟩
    rw [ends_bind, ends_get]
    let J : Option ConstraintId → Network → Prop := fun o net' =>
      Leads R (walking.takenOver (net.mark + 1) c flow) net' ∧ ∀ e, o = some e → Waiting R net' e
    refine (ends_resatisfy (J := J) ?_ ?_ (fun _ => trivial) _ ⟨hl, hwait⟩).mono_ok
      fun _ _ hend => hend.1
    · rintro o net' ⟨hl, hwait⟩
      exact (hroll.ends_install (htaken.coherent hcoh) (htaken.region hreg) hl (hwait o rfl)).mono
        (fun _ _ hend => ⟨hend.1, hend.2.2⟩) fun _ _ _ => trivial
    · rintro o net' e ⟨hl, hwait⟩
      exact ⟨hl.note, fun d hd => (hwait d hd).of_con rfl⟩

end Operations

/-! ## Whole operations -/

section Requests

variable {R : VariableId → Prop} {net : Network} {c : ConstraintId} {kind : Kind}
  {strength : Strength}

/-- A new constraint is refused for a variable that is not known, or it is registered, and what happens
then happens inside of its region. -/
theorem leads_addConstraint (hcoh : net.Coherent)
    (hreg : (net.registered kind strength).Region R) (hin : ∀ v ∈ kind.operands, R v) :
    Ends (addConstraint kind strength) net
      (fun c net' => c = ⟨net.constraints.size⟩ ∧ (∀ v ∈ kind.operands, v.index < net.vars.size) ∧
        Leads R (net.registered kind strength) net')
      (fun e net' => (net' = net ∧ ∀ d, e ≠ .refused (.divisionByZero d)) ∨
        (∀ v ∈ kind.operands, v.index < net.vars.size) ∧
        Leads R (net.registered kind strength) net' ∧
        Blames R (net.registered kind strength) e) := by
  rw [addConstraint, ends_bind]
  have hlookup : ∀ e : SolveError, e.OnLookup →
      ∀ d, Failure.refused e ≠ .refused (.divisionByZero d) := by
    rintro e he d ⟨⟩
    exact he
  refine ends_checkVariables _ (fun e he => .inl ⟨rfl, hlookup e he⟩) fun hk => ?_
  rw [ends_bind, ends_register hk, ends_bind, ends_nesting, ends_bind]
  have hcoh' : (net.registered kind strength).Coherent := hcoh.registered hk
  have hwait : Waiting R (net.registered kind strength) ⟨net.constraints.size⟩ :=
    ⟨by rw [Inside, registered_con_new]; exact hin, registered_new_attached,
      registered_new_unsatisfied⟩
  refine (ends_orDetach (leads_establish hcoh' hreg _ _ _ .refl hwait) ?_ ?_).mono_ok ?_
  · exact fun _ _ hf _ => .inr ⟨hk, hf.leads, hf.blames⟩
  · intro net' hf
    obtain ⟨hin', ha, hu⟩ := hf.waits _ rfl
    have hc := known_of_attached ha
    rw [ends_detach hc ((hf.leads.coherent hcoh').known _ hc)]
    exact .inr ⟨hk, hf.leads.drop hin' ha hu, by simp [Blames]⟩
  · exact fun _ _ hend => ⟨rfl, hk, hend.1⟩

theorem leads_enforce (hcoh : net.Coherent) (hreg : net.Region R)
    (hin : (net.con c).attached = true → net.Inside R c) :
    Ends (enforce c) net (fun _ => Leads R net)
      (fun e net' => Leads R net net' ∧ Blames R net e) := by
  rw [enforce, ends_bind]
  refine ends_checkAttached (fun ha => ?_) ?_
  · rw [ends_bind, ends_readConstraint (known_of_attached ha)]
    split
    · exact .refl
    next hu =>
      rw [ends_bind, ends_nesting]
      exact (leads_establish hcoh hreg _ net c .refl ⟨hin ha, ha, by simpa using hu⟩).mono
        (fun _ _ hend => hend.1) fun _ _ hf => ⟨hf.leads, hf.blames⟩
  · rintro - e he
    refine ⟨.refl, ?_⟩
    rintro d ⟨⟩
    exact he.elim

theorem leads_retract (hcoh : net.Coherent) (hreg : net.Region R)
    (hin : (net.con c).attached = true → net.Inside R c) :
    Ends (retract c) net (fun _ => Leads R net)
      (fun e net' => Leads R net net' ∧ Blames R net e) := by
  rw [retract, ends_bind]
  refine ends_checkAttached (fun ha => ?_) ?_
  · have hc := known_of_attached ha
    rw [ends_bind, ends_readConstraint hc]
    split
    next hs =>
      rw [ends_bind, ends_nesting]
      exact (leads_withdraw hcoh hreg _ net c .refl (hin ha) hs).mono (fun _ _ hend => hend)
        fun _ _ hf => ⟨hf.leads, hf.blames⟩
    next hu =>
      rw [ends_detach hc (hcoh.known c hc)]
      exact Leads.refl.drop (hin ha) ha (by simpa using hu)
  · rintro - e he
    refine ⟨.refl, ?_⟩
    rintro d ⟨⟩
    exact he.elim

theorem leads_destroy (hcoh : net.Coherent) (hreg : net.Region R)
    (hin : (net.con c).attached = true → net.Inside R c) :
    Ends (destroy c) net (fun _ => Leads R net)
      (fun e net' => Leads R net net' ∧ Blames R net e) := by
  have hnote : Leads R net { net with journal := net.journal.push (.destroying c) } := Leads.refl.note
  rw [destroy, ends_bind, ends_note]
  refine (leads_retract (hnote.coherent hcoh) (hnote.region hreg) hin).mono
    (fun _ _ hend => hnote.trans hend) fun _ _ hf => ⟨hnote.trans hf.1, fun d hd => ?_⟩
  obtain ⟨net', hl, hdiv⟩ := hf.2 d hd
  exact ⟨net', hnote.trans hl, hdiv⟩

/-- If a satisfied constraint is retracted, all the rest comes after it has left the graph. -/
theorem leads_retract_released (hcoh : net.Coherent) (hreg : net.Region R) (hin : net.Inside R c)
    (hs : (net.con c).isSatisfied = true) :
    Ends (retract c) net (fun _ => Leads R (net.released c)) (fun _ _ => True) := by
  have hreleased : Leads R net (net.released c) := Leads.refl.release hin hs
  have hretry := leads_establish (hreleased.coherent hcoh) (hreleased.region hreg)
    net.generations
  rw [retract, ends_bind]
  refine ends_checkAttached (fun _ => ?_) fun _ _ _ => trivial
  rw [ends_bind, ends_readConstraint (known_of_isSatisfied hs), if_pos hs, ends_bind,
    ends_nesting]
  exact (hretry.ends_withdrawUsing (hreleased.coherent hcoh) (hreleased.region hreg) hcoh .refl hin
    hs).mono (fun _ _ hend => hend) fun _ _ _ => trivial

/-- The network at the moment when a satisfied constraint that is destroyed has left the graph. -/
def dismissed (net : Network) (c : ConstraintId) : Network :=
  { net with journal := net.journal.push (.destroying c) }.released c

theorem dismissed_con_of_ne {d : ConstraintId} (h : d ≠ c) : (net.dismissed c).con d = net.con d :=
  detached_con_of_ne h

theorem ne_of_dismissed_attached {d : ConstraintId} (hc : c.index < net.constraints.size)
    (ha : ((net.dismissed c).con d).attached = true) : d ≠ c := by
  let noted : Network := { net with journal := net.journal.push (.destroying c) }
  have ha' : ((noted.detached c).con d).attached = true := ha
  exact ne_of_detached_attached (show c.index < noted.constraints.size from hc) ha'

theorem Coherent.dismissed (h : net.Coherent) (hs : (net.con c).isSatisfied = true) :
    (net.dismissed c).Coherent :=
  ((Leads.refl (R := fun _ => True)).note.release (fun _ _ => trivial) hs).coherent h

/-- If a satisfied constraint is destroyed, all the rest comes after it has left the graph. -/
theorem leads_destroy_dismissed (hcoh : net.Coherent) (hreg : net.Region R) (hin : net.Inside R c)
    (hs : (net.con c).isSatisfied = true) :
    Ends (destroy c) net (fun _ => Leads R (net.dismissed c)) (fun _ _ => True) := by
  have hnote : Leads R net { net with journal := net.journal.push (.destroying c) } := Leads.refl.note
  rw [destroy, ends_bind, ends_note]
  exact leads_retract_released (hnote.coherent hcoh) (hnote.region hreg) hin hs

end Requests

end ConstraintHierarchy.Network
