import ConstraintHierarchy.Proofs.Changes
import ConstraintHierarchy.Proofs.Extraction

/-!
# Locality

An operation names a constraint or a variable. What it can reach from there it reaches through
constraints of the graph, from one variable of a constraint to another; everything else is left alone,
down to the marks. The variables connected with those that are named make up a region, and inside of it
the single changes of an operation happen. Planning and replaying a temporary edit are no such changes,
and for them it is seen directly that they follow constraints.

## Main definitions

* `Network.Connected`: a chain of constraints of the graph leads from one variable to another
* `Network.Frame`: two networks are the same outside of a set of variables
* `Request.targets`: the variables that an operation names

## Main results

* `Network.Leads.frame`: changes inside of a region leave everything outside alone
* `Network.operations_local`: what is not connected with the targets of an operation is left alone
-/

namespace ConstraintHierarchy

open Solve Network

namespace Network

/-- A constraint of the graph mentions both variables. -/
def Touches (net : Network) (v w : VariableId) : Prop :=
  ∃ c k, net.getConstraint? c = some k ∧ k.attached = true ∧ v ∈ k.kind.operands ∧
    w ∈ k.kind.operands

/-- A chain of constraints of the graph leads from one variable to the other. -/
def Connected (net : Network) : VariableId → VariableId → Prop := Relation.ReflTransGen net.Touches

/-- Outside of `R` nothing has changed: no variable there, and no constraint that mentions only
variables there. -/
structure Frame (R : VariableId → Prop) (net net' : Network) : Prop where
  variableCount : net'.vars.size = net.vars.size
  constraintCount : net.constraints.size ≤ net'.constraints.size
  var : ∀ v, ¬ R v → net'.var v = net.var v
  con : ∀ c, c.index < net.constraints.size →
    (∀ v ∈ (net.con c).kind.operands, ¬ R v) → net'.con c = net.con c

section Connected

variable {net : Network} {R : VariableId → Prop} {t v : VariableId}

/-- What is connected with given variables makes up a region. -/
theorem region_connected {ts : List VariableId} :
    net.Region fun v => ∃ t ∈ ts, net.Connected t v := by
  rintro c ha v hv ⟨t, ht, hconn⟩ w hw
  exact ⟨t, ht, hconn.tail ⟨c, _, getConstraint?_eq_con (known_of_attached ha), ha, hv, hw⟩⟩

/-- No chain of constraints leads out of a region. -/
theorem Region.of_connected (h : net.Region R) (hconn : net.Connected t v) (ht : R t) : R v := by
  induction hconn with
  | refl => exact ht
  | tail _ hstep ih =>
    obtain ⟨c, k, hk, ha, hv, hw⟩ := hstep
    obtain ⟨-, rfl⟩ := getConstraint?_eq_some.1 hk
    exact h c ha _ hv ih _ hw

end Connected

section Frame

variable {net net' net'' : Network} {R : VariableId → Prop} {c d : ConstraintId}

theorem Frame.refl (net : Network) : Frame R net net :=
  ⟨rfl, Nat.le_refl _, fun _ _ => rfl, fun _ _ _ => rfl⟩

theorem Frame.trans (h : Frame R net net') (h' : Frame R net' net'') : Frame R net net'' := by
  refine ⟨h'.variableCount.trans h.variableCount,
    Nat.le_trans h.constraintCount h'.constraintCount, fun v hv => ?_, fun c hc hout => ?_⟩
  · rw [h'.var v hv, h.var v hv]
  · have hcon := h.con c hc hout
    rw [h'.con c (Nat.lt_of_lt_of_le hc h.constraintCount) (by rwa [hcon]), hcon]

theorem Frame.of_sameGraph (hg : SameGraph net net')
    (hv : ∀ v, ¬ R v → net'.var v = net.var v) : Frame R net net' :=
  ⟨hg.variableCount, Nat.le_of_eq hg.constraintCount.symm, hv, fun _ _ _ => by rw [hg.con]⟩

/-- What a constraint inside of `R` does to its output is not seen from outside. -/
theorem frame_alterVariable {f : Variable → Variable} (hin : net.Inside R c) :
    Frame R net (net.alterVariable (net.con c).output f) := by
  refine ⟨alterVariable_size, Nat.le_refl _, fun v hv => alterVariable_var_of_ne ?_,
    fun _ _ _ => rfl⟩
  rintro rfl
  exact hv hin.output

theorem ne_of_inside (hin : net.Inside R c) (hd : ∀ v ∈ (net.con d).kind.operands, ¬ R v) :
    d ≠ c := by
  rintro rfl
  exact hd _ Constraint.output_mem_operands hin.output

/-- A method that is chosen inside of `R` displaces one that was chosen there. -/
theorem frame_takenOver {mark : Nat} {flow : Flow} (hcoh : net.Coherent) (hin : net.Inside R c)
    (ha : (net.con c).attached = true) : Frame R net (net.takenOver mark c flow) := by
  have hout : R (net.directed c flow).output :=
    hin _ (Constraint.output_mem_operands (k := net.directed c flow))
  refine ⟨takenOver_size, Nat.le_of_eq takenOver_count.symm, fun v hv => ?_, fun d _ hd => ?_⟩
  · have hread : v ∉ (net.directed c flow).reads := fun hr =>
      hv (hin v (Constraint.mem_operands_of_mem_reads (k := net.directed c flow) hr))
    have hne : v ≠ (net.directed c flow).output := fun heq => hv (heq ▸ hout)
    rw [takenOver_var hcoh (known_of_attached ha), if_neg hread, if_neg hne]
  · refine takenOver_con_of_ne (ne_of_inside hin hd) fun hdet => ?_
    obtain ⟨-, ho⟩ := (hcoh.determines _ d).1 hdet
    exact hd _ Constraint.output_mem_operands (ho ▸ hout)

theorem frame_detached (hcoh : net.Coherent) (hin : net.Inside R c)
    (hc : c.index < net.constraints.size) : Frame R net (net.detached c) := by
  refine ⟨detached_size, Nat.le_of_eq detached_count.symm, fun v hv => ?_, fun d _ hd => ?_⟩
  · rw [detached_var hcoh hc]
    exact hcoh.detach_eq_self fun hmem => hv (hin v hmem)
  · exact detached_con_of_ne (ne_of_inside hin hd)

theorem frame_registered {kind : Kind} {strength : Strength}
    (hk : ∀ v ∈ kind.operands, v.index < net.vars.size) (hin : ∀ v ∈ kind.operands, R v) :
    Frame R net (net.registered kind strength) := by
  refine ⟨registered_size, by simp, fun v hv => ?_, fun d hd _ => ?_⟩
  · have hcount : kind.operands.count v = 0 :=
      List.count_eq_zero.2 fun hmem => hv (hin v hmem)
    rw [registered_var hk, hcount, List.replicate_zero, List.append_nil]
  · apply registered_con_of_ne
    rintro rfl
    exact Nat.lt_irrefl _ hd

/-- Changes inside of `R` are not seen from outside. -/
theorem Leads.frame {start : Network} (h : Leads R start net) (hcoh : start.Coherent) :
    Frame R start net := by
  induction h with
  | refl => exact .refl start
  | aside _ hvars hcons ih =>
    exact ih.trans (.of_sameGraph (sameGraph_of_eq hvars hcons) fun v _ => by rw [var_congr hvars])
  | takeOver h hin ha _ _ ih => exact ih.trans (frame_takenOver (h.coherent hcoh) hin ha)
  | recalculate _ hin _ ih => exact ih.trans (frame_alterVariable hin)
  | visit _ hin _ ih => exact ih.trans (frame_alterVariable hin)
  | @unwind before net c w hb h hgraph ihb ih =>
    -- outside of `R` the values that are put back are those of the start, and so are those there
    have hsize : before.vars.size = net.vars.size := hgraph.variableCount.symm
    refine ih.trans (.of_sameGraph (sameGraph_unwound hsize) fun v hv => ?_)
    by_cases hk : v.index < before.vars.size
    · have hx : before.vars[v.index]? = some (before.var v) := getVariable?_eq_var hk
      rw [Array.getElem?_eq_getElem hk, Option.some.injEq] at hx
      rw [unwound_var hk (hsize ▸ hk), hx, ihb.var v hv, ih.var v hv]
    · have hn : ¬ v.index < net.vars.size := hsize ▸ hk
      rw [var_of_unknown hn, var_of_unknown ((sameGraph_unwound hsize).variableCount.symm ▸ hn)]
  | @release net c h hin hs ih =>
    have hdrop := frame_detached (h.coherent hcoh) hin (known_of_isSatisfied hs)
    refine ih.trans ⟨alterVariable_size.trans hdrop.variableCount, hdrop.constraintCount,
      fun v hv => ?_, hdrop.con⟩
    have hne : v ≠ (net.con c).output := fun heq => hv (heq ▸ hin.output)
    rw [released, alterVariable_var_of_ne hne, hdrop.var v hv]
  | drop h hin ha _ ih =>
    exact ih.trans (frame_detached (h.coherent hcoh) hin (known_of_attached ha))

end Frame

/-! ## Plans -/

section Plans

variable {net start : Network} {R : VariableId → Prop} {mark : Nat} {c : ConstraintId}
  {v : VariableId}

/-- The state of an extraction inside of `R`: what is planned or queued is satisfied and lies there. -/
structure PlanningInside (R : VariableId → Prop) (start net : Network)
    (steps queue : List ConstraintId) : Prop where
  leads : Leads R start net
  graph : SameGraph start net
  inside : ∀ c ∈ steps ++ queue, (start.con c).isSatisfied = true ∧ start.Inside R c

/-- What reads a variable of a region lies in the region, so an extraction does not leave it. -/
theorem planInvariant_inside (hcoh : start.Coherent) (hreg : start.Region R) :
    PlanInvariant mark (PlanningInside R start) where
  coherent h := hcoh.of_sameGraph h.graph
  known h c hc := by
    rw [h.graph.constraintCount]
    exact known_of_isSatisfied (h.inside c (List.mem_append_right _ hc)).1
  take {net steps q c} h _ _ := by
    obtain ⟨hs, hin⟩ := h.inside c (by simp)
    have hnet := hcoh.of_sameGraph h.graph
    have hcon : net.con = start.con := h.graph.con
    refine ⟨h.leads.visit (by rwa [Inside, hcon]) (by rwa [hcon]),
      h.graph.trans (sameGraph_alterVariable (fun _ => rfl) fun _ => rfl), fun d hd => ?_⟩
    simp only [List.append_assoc, List.mem_append, List.mem_singleton] at hd
    obtain hd | rfl | hd | hd := hd
    · exact h.inside d (by simp [hd])
    · exact ⟨hs, hin⟩
    · exact h.inside d (by simp [hd])
    · obtain ⟨hsd, hread, -⟩ := hnet.mem_consumersOf.1 hd
      rw [hcon] at hsd hread
      exact ⟨hsd, hreg d (hcoh.attached d hsd) _ (Constraint.mem_operands_of_mem_reads hread)
        hin.output⟩
  pass h _ := ⟨h.leads, h.graph, fun d hd => h.inside d (by simp at hd ⊢; tauto)⟩

theorem ends_extractPlan_inside (hcoh : net.Coherent) (hreg : net.Region R) (cs : List ConstraintId)
    (hcs : ∀ c ∈ cs, net.Inside R c) :
    Ends (extractPlan cs) net (fun plan net' => PlanningInside R net net' plan.steps [])
      (fun _ net' => net' = net) := by
  refine ((planInvariant_inside hcoh hreg).ends_extractPlan hcoh cs
    ⟨Leads.refl.aside rfl rfl, sameGraph_of_eq rfl rfl, fun c hc => ?_⟩).mono
    (fun _ _ h => h) fun _ _ h => h.1
  obtain ⟨hmem, -, hs⟩ := mem_inputsAmong.1 hc
  exact ⟨hs, hcs c hmem⟩

/-- Executing constraints inside of `R` is not seen from outside, wherever it stops. -/
theorem ends_executeAll_inside (cs : List ConstraintId) :
    ∀ {net : Network}, net.Coherent →
      (∀ c ∈ cs, c.index < net.constraints.size ∧ net.Inside R c) →
      Ends (executeAll cs) net (fun _ net' => SameGraph net net' ∧ Frame R net net')
        (fun _ net' => SameGraph net net' ∧ Frame R net net') := by
  induction cs with
  | nil => exact fun _ _ => ⟨.refl _, .refl _⟩
  | cons c cs ih =>
    intro net hcoh hcs
    obtain ⟨hc, hin⟩ := hcs c (by simp)
    rw [executeAll, ends_bind, ends_execute hc (hcoh.known c hc)]
    refine ⟨fun value _ => ?_, fun _ => ⟨.refl _, .refl _⟩⟩
    have hgraph : SameGraph net
        (net.alterVariable (net.con c).output fun x => { x with value := value }) :=
      sameGraph_alterVariable (fun _ => rfl) fun _ => rfl
    have hframe := frame_alterVariable (f := fun x => { x with value := value }) hin
    exact (ih (hcoh.of_sameGraph hgraph) fun d hd => hcs d (by simp [hd])).mono
      (fun _ _ hend => ⟨hgraph.trans hend.1, hframe.trans hend.2⟩)
      fun _ _ hend => ⟨hgraph.trans hend.1, hframe.trans hend.2⟩

theorem ends_replay_inside {p : Plan} {value : Float} (hv : R v) (n : Nat) :
    ∀ {net : Network}, net.Coherent → v.index < net.vars.size →
      (∀ c ∈ p.steps, c.index < net.constraints.size ∧ net.Inside R c) →
      Ends (replay p v value n) net (fun _ net' => SameGraph net net' ∧ Frame R net net')
        (fun _ net' => SameGraph net net' ∧ Frame R net net') := by
  induction n with
  | zero => exact fun _ _ _ => ⟨.refl _, .refl _⟩
  | succ n ih =>
    intro net hcoh hk hp
    let written := net.alterVariable v fun x => { x with value := value }
    have hgraph : SameGraph net written := sameGraph_alterVariable (fun _ => rfl) fun _ => rfl
    have hframe : Frame R net written := .of_sameGraph hgraph fun w hw =>
      alterVariable_var_of_ne fun heq => hw (heq ▸ hv)
    rw [replay, ends_bind, ends_setValue hk, ends_bind, runPlan]
    refine (ends_executeAll_inside p.steps (hcoh.of_sameGraph hgraph) hp).mono ?_
      fun _ _ hend => ⟨hgraph.trans hend.1, hframe.trans hend.2⟩
    rintro _ net' ⟨hg, hf⟩
    have hg' := hgraph.trans hg
    have hp' : ∀ c ∈ p.steps, c.index < net'.constraints.size ∧ net'.Inside R c := by
      intro c hc
      rw [Inside, hg'.con, hg'.constraintCount]
      exact hp c hc
    exact (ih (hcoh.of_sameGraph hg') (by rwa [hg'.variableCount]) hp').mono
      (fun _ _ hend => ⟨hg'.trans hend.1, (hframe.trans hf).trans hend.2⟩)
      fun _ _ hend => ⟨hg'.trans hend.1, (hframe.trans hf).trans hend.2⟩

end Plans

/-! ## Operations -/

section Operations

variable {net : Network} {R : VariableId → Prop} {v : VariableId} {kind : Kind} {strength : Strength}

/-- A region takes in a new constraint that mentions only its variables. -/
theorem Region.registered (h : net.Region R) (hin : ∀ v ∈ kind.operands, R v) :
    (net.registered kind strength).Region R := by
  intro d ha w hw hR
  by_cases hd : d = ⟨net.constraints.size⟩
  · subst hd
    rw [Inside, registered_con_new]
    exact hin
  · rw [Inside, registered_con_of_ne hd] at *
    exact h d ha w hw hR

theorem frame_addConstraint (hcoh : net.Coherent) (hreg : net.Region R)
    (hin : ∀ v ∈ kind.operands, R v) :
    Ends (addConstraint kind strength) net (fun _ => Frame R net) (fun _ => Frame R net) := by
  have hframe : ∀ {net'}, (∀ v ∈ kind.operands, v.index < net.vars.size) →
      Leads R (net.registered kind strength) net' → Frame R net net' := fun hk hl =>
    (frame_registered hk hin).trans (hl.frame (hcoh.registered hk))
  refine (leads_addConstraint hcoh (hreg.registered hin) hin).mono ?_ ?_
  · rintro _ _ ⟨-, hk, hl⟩
    exact hframe hk hl
  · rintro _ _ (⟨rfl, -⟩ | ⟨hk, hl, -⟩)
    · exact .refl _
    · exact hframe hk hl

/-- A temporary edit, its plan and what replaying it writes stay inside of a region. -/
theorem frame_change {value : Float} {n : Nat} (hcoh : net.Coherent) (hreg : net.Region R)
    (hv : R v) :
    Ends (change v value strength n) net (fun _ => Frame R net) (fun _ => Frame R net) := by
  have hin : ∀ w ∈ (Kind.edit v).operands, R w := by simpa [Kind.operands] using hv
  rw [change, ends_bind]
  refine ((leads_addConstraint hcoh (hreg.registered hin) hin).and
    (frame_addConstraint hcoh hreg hin)).mono ?_ fun _ _ h => h.2
  rintro _ net₁ ⟨⟨rfl, hk, hl⟩, hframe₁⟩
  have hcoh₁ := hl.coherent (hcoh.registered hk)
  have hreg₁ := hl.region (hreg.registered hin)
  have hedit : net₁.Inside R ⟨net.constraints.size⟩ := by
    rw [Inside, hl.kind, registered_con_new]
    exact hin
  rw [ends_bind]
  refine (ends_extractPlan_inside hcoh₁ hreg₁ [⟨net.constraints.size⟩]
    (by simpa using hedit)).mono ?_ fun _ _ h => h ▸ hframe₁
  intro plan net₂ hplan
  have hcoh₂ := hcoh₁.of_sameGraph hplan.graph
  have hframe₂ := hframe₁.trans (hplan.leads.frame hcoh₁)
  have hsteps : ∀ c ∈ plan.steps, c.index < net₂.constraints.size ∧ net₂.Inside R c := by
    intro c hc
    obtain ⟨hs, hinc⟩ := hplan.inside c (by simpa using hc)
    rw [Inside, hplan.graph.con, hplan.graph.constraintCount]
    exact ⟨known_of_isSatisfied hs, hinc⟩
  have hv₂ : v.index < net₂.vars.size := by
    rw [hframe₂.variableCount]
    exact hk v (by simp [Kind.operands])
  have hreplay : Ends (replay plan v value n) net₂
      (fun _ net' => SameGraph net₂ net' ∧ Frame R net₂ net')
      (fun _ net' => True ∧ SameGraph net₂ net' ∧ Frame R net₂ net') :=
    (ends_replay_inside hv n hcoh₂ hv₂ hsteps).mono (fun _ _ h => h) fun _ _ h => ⟨trivial, h⟩
  refine ends_always hreplay (fun net₃ h => ?_) ?_ fun _ _ _ _ h => h
  · obtain ⟨hg, hframe⟩ := h
    have hcoh₃ := hcoh₂.of_sameGraph hg
    have hcon : net₃.con = net₁.con := hg.con.trans hplan.graph.con
    have hreg₃ : net₃.Region R := hreg₁.anti fun d hd => by rw [← hcon]; exact ⟨hd, rfl⟩
    have hframe₃ := hframe₂.trans hframe
    exact (leads_destroy hcoh₃ hreg₃ fun _ => by rwa [Inside, hcon]).mono
      (fun _ _ hl => hframe₃.trans (hl.frame hcoh₃))
      fun _ _ hl => hframe₃.trans (hl.1.frame hcoh₃)
  · rintro _ _ - (⟨-, -, hframe⟩ | hframe)
    · exact hframe₂.trans hframe
    · exact hframe

end Operations

end Network

/-- The variables that an operation names: those of its constraint, or the one that is edited. The
other requests are no operations on the graph. -/
def Request.targets? (r : Request) (net : Network) : Option (List VariableId) :=
  match r with
  | .add kind _ => some kind.operands
  | .enforce c | .retract c | .destroy c =>
    some ((net.getConstraint? c).elim [] (·.kind.operands))
  | .change v _ _ _ => some [v]
  | _ => none

namespace Network

theorem inside_of_targets {net : Network} {R : VariableId → Prop} {c : ConstraintId}
    (h : ∀ t ∈ (net.getConstraint? c).elim [] (·.kind.operands), R t)
    (ha : (net.con c).attached = true) : net.Inside R c := by
  rw [getConstraint?_eq_con (known_of_attached ha)] at h
  exact h

/-- An operation is not seen from outside of a region that has all its targets. -/
theorem frame_perform {net : Network} {R : VariableId → Prop} {r : Request} {ts : List VariableId}
    (hcoh : net.Coherent) (hreg : net.Region R) (hr : r.targets? net = some ts)
    (hts : ∀ t ∈ ts, R t) : Frame R net (r.after net) := by
  apply Request.after_of_ends
  cases r with
  | add kind strength =>
    cases hr
    exact ends_discard.2 (frame_addConstraint hcoh hreg hts)
  | enforce c =>
    cases hr
    exact (leads_enforce hcoh hreg (inside_of_targets hts)).mono (fun _ _ h => h.frame hcoh)
      fun _ _ h => h.1.frame hcoh
  | retract c =>
    cases hr
    exact (leads_retract hcoh hreg (inside_of_targets hts)).mono (fun _ _ h => h.frame hcoh)
      fun _ _ h => h.1.frame hcoh
  | destroy c =>
    cases hr
    exact (leads_destroy hcoh hreg (inside_of_targets hts)).mono (fun _ _ h => h.frame hcoh)
      fun _ _ h => h.1.frame hcoh
  | change v value strength n =>
    cases hr
    exact frame_change hcoh hreg (hts v (by simp))
  | _ => cases hr

/-- In every network that requests lead to, an operation leaves alone every variable with which no chain
of constraints of the graph connects a variable that it names, and every constraint that mentions only
such variables. This is so whether the operation is answered, refused or breaks down. -/
theorem operations_local {patience : Nat} {net : Network} (h : Reaches (.empty patience) net)
    {r : Request} {ts : List VariableId} (hr : r.targets? net = some ts) :
    (∀ v, (∀ t ∈ ts, ¬ net.Connected t v) →
      (r.after net).getVariable? v = net.getVariable? v) ∧
    ∀ c k, net.getConstraint? c = some k →
      (∀ v ∈ k.kind.operands, ∀ t ∈ ts, ¬ net.Connected t v) →
      (r.after net).getConstraint? c = some k := by
  have hcoh : net.Coherent := h.regular.coherent
  have hframe : Frame (fun v => ∃ t ∈ ts, net.Connected t v) net (r.after net) :=
    frame_perform hcoh region_connected hr fun t ht => ⟨t, ht, .refl⟩
  constructor
  · intro v hv
    exact getVariable?_congr hframe.variableCount (hframe.var v fun ⟨t, ht, hc⟩ => hv t ht hc)
  · intro c k hk hout
    obtain ⟨hc, rfl⟩ := getConstraint?_eq_some.1 hk
    have hcon := hframe.con c hc fun v hv ⟨t, ht, hconn⟩ => hout v hv t ht hconn
    rw [getConstraint?_eq_con (Nat.lt_of_lt_of_le hc hframe.constraintCount), hcon]

end Network

/-- A scaling by zero and, apart from it, an equality. -/
def apartRequests : List Request :=
  [.addVariable "a" 1, .addVariable "b" 2, .addVariable "m" 0, .addVariable "d" 0,
    .addVariable "x" 3, .addVariable "y" 4, .add (.scale ⟨0⟩ ⟨1⟩ ⟨2⟩ ⟨3⟩) .required,
    .add (.equal ⟨4⟩ ⟨5⟩) .required]

def apartNetwork : Network := apartRequests.foldl (fun net r => r.after net) .empty

namespace Network

theorem region_apartNetwork : apartNetwork.Region fun v => v.index < 4 := by
  intro c ha
  have hc : c.index < 2 := known_of_attached ha
  have hregion : ∀ i < 2, ∀ v ∈ (apartNetwork.con ⟨i⟩).kind.operands, v.index < 4 →
      ∀ w ∈ (apartNetwork.con ⟨i⟩).kind.operands, w.index < 4 := by decide +kernel
  exact hregion c.index hc

/-- The stay turns the scaling round and is refused for the division by zero; the equality and its
variables do not notice. -/
theorem operations_local_apartNetwork :
    (Request.add (.stay ⟨1⟩) .preferred).refusal? apartNetwork = some (.divisionByZero ⟨0⟩) ∧
    ((Request.add (.stay ⟨1⟩) .preferred).after apartNetwork).getConstraint? ⟨0⟩ ≠
      apartNetwork.getConstraint? ⟨0⟩ ∧
    ((Request.add (.stay ⟨1⟩) .preferred).after apartNetwork).getVariable? ⟨5⟩ =
      apartNetwork.getVariable? ⟨5⟩ ∧
    ∃ k, apartNetwork.getConstraint? ⟨1⟩ = some k ∧ k.kind.operands = [⟨4⟩, ⟨5⟩] ∧
      ((Request.add (.stay ⟨1⟩) .preferred).after apartNetwork).getConstraint? ⟨1⟩ = some k := by
  have hreach : Reaches .empty apartNetwork := .foldl apartRequests .refl
  have htargets : (Request.add (.stay ⟨1⟩) .preferred).targets? apartNetwork = some [⟨1⟩] := rfl
  have hlocal := operations_local hreach htargets
  have hapart : ∀ v : VariableId, 4 ≤ v.index →
      ∀ t ∈ [(⟨1⟩ : VariableId)], ¬ apartNetwork.Connected t v := by
    intro v hv t ht hconn
    rw [List.mem_singleton] at ht
    exact Nat.not_lt.2 hv (region_apartNetwork.of_connected hconn (ht ▸ by decide))
  have hk : apartNetwork.getConstraint? ⟨1⟩ = some (apartNetwork.con ⟨1⟩) :=
    getConstraint?_eq_con (by decide +kernel)
  have hoperands : (apartNetwork.con ⟨1⟩).kind.operands = [⟨4⟩, ⟨5⟩] := by decide +kernel
  refine ⟨by decide +kernel, by decide +kernel, hlocal.1 ⟨5⟩ (hapart ⟨5⟩ (by decide)), _, hk, hoperands,
    hlocal.2 ⟨1⟩ _ hk fun v hv => hapart v ?_⟩
  rw [hoperands] at hv
  revert v
  decide

end Network

end ConstraintHierarchy
