import ConstraintHierarchy.Proofs.Annotations
import ConstraintHierarchy.Proofs.Structure
import ConstraintHierarchy.Proofs.Termination

/-!
# The content of a plan

A plan is to bring up to date what an edit can change, and that is what does not stay. The extraction
starts from the edits and follows what reads an output that it has planned. A constraint whose input is
not known when its turn comes is dropped, and comes back when the input is planned. That nothing is
dropped for good is an induction over the dataflow, which is acyclic; that the steps come in a usable
order is seen from the marks.

## Main definitions

* `Network.withoutMarks`: a network up to what walks and extractions note in it
* `Network.Moving`: a satisfied constraint whose output does not stay
* `Network.PlanInvariant`: what an extraction has to keep
* `Network.Planning`: the state of an extraction

## Main results

* `Network.ends_extractPlan_planning`: the state in which an extraction ends
* `Network.extractPlan_exact`: the plan for all edits has exactly the moving constraints as its steps
-/

namespace ConstraintHierarchy

open Solve Network

/-- The variable as if no walk had visited it. -/
def Variable.withoutMark (x : Variable) : Variable := { x with mark := 0 }

namespace Network

/-- The network as if no walk had been made. -/
def withoutMarks (net : Network) : Network :=
  { net with mark := 0, vars := net.vars.map Variable.withoutMark }

section Marks

variable {net net' : Network} {v : VariableId}

theorem var_withoutMarks : net.withoutMarks.var v = (net.var v).withoutMark := by
  by_cases hv : v.index < net.vars.size
  · have hx : net.vars[v.index]? = some (net.var v) := getVariable?_eq_var hv
    rw [var, getVariable?, withoutMarks, Array.getElem?_map, hx]
    rfl
  · rw [var_of_unknown hv, var_of_unknown (by simpa [withoutMarks] using hv)]
    rfl

/-- Marking a variable is forgotten with the marks. -/
theorem withoutMarks_alterVariable {mark : Nat} :
    (net.alterVariable v fun x => { x with mark := mark }).withoutMarks = net.withoutMarks := by
  have hvars : (net.vars.modify v.index fun x => { x with mark := mark }).map Variable.withoutMark =
      net.vars.map Variable.withoutMark := by
    ext i hi hi'
    · simp
    · simp only [Array.getElem_map, Array.getElem_modify]
      split
      · rfl
      · rfl
  simp only [withoutMarks, alterVariable, hvars]

/-- Networks that differ in marks only agree on everything else that variables record. -/
theorem var_field_of_withoutMarks {γ : Type} {p : Variable → γ} (hp : ∀ x, p x.withoutMark = p x)
    (h : net'.withoutMarks = net.withoutMarks) : p (net'.var v) = p (net.var v) := by
  rw [← hp (net'.var v), ← hp (net.var v), ← var_withoutMarks, ← var_withoutMarks, h]

theorem sameSolution_of_withoutMarks (h : net'.withoutMarks = net.withoutMarks) :
    SameSolution net net' where
  con := con_congr (congrArg Network.constraints h :)
  constraintCount := congrArg (fun n => n.constraints.size) h
  variableCount := by simpa [withoutMarks] using congrArg (fun n => n.vars.size) h
  listed _ := var_field_of_withoutMarks (fun _ => rfl) h
  determinedBy _ := var_field_of_withoutMarks (fun _ => rfl) h
  current _ := var_field_of_withoutMarks (fun _ => rfl) h

end Marks

/-! ## Stay flags -/

/-- The constraint is satisfied and its output does not stay. -/
def Moving (net : Network) (c : ConstraintId) : Prop :=
  (net.con c).isSatisfied = true ∧ (net.var (net.con c).output).stay = false

section Stay

variable {net : Network} {c : ConstraintId} {v : VariableId}

theorem annotationFor_stay_iff : (net.annotationFor c).stay = true ↔
    (net.con c).isInput = false ∧ ∀ v ∈ (net.con c).reads, (net.var v).stay = true := by
  rw [annotationFor]
  cases hi : (net.con c).input with
  | none => simp [Constraint.annotation, Constraint.reads_eq_nil hi]
  | some u =>
    have hin : (net.con c).isInput = false := by
      rw [← Bool.not_eq_true]
      intro hin
      rw [Constraint.input_of_isInput hin] at hi
      cases hi
    simp [Constraint.annotation, Constraint.reads, hi, hin]

/-- An output stays if the constraint depends on nothing outside the network and everything that it
reads stays. -/
theorem Settled.stay_output_iff (h : net.Settled) (hc : (net.con c).isSatisfied = true) :
    (net.var (net.con c).output).stay = true ↔
      (net.con c).isInput = false ∧ ∀ v ∈ (net.con c).reads, (net.var v).stay = true := by
  have hex := (h.exact _).trans (due_of_some (h.coherent.determinedBy_output hc))
  rw [← annotationFor_stay_iff, ← hex]
  rfl

/-- What nothing computes stays. -/
theorem Settled.exists_moving (h : net.Settled) (hv : (net.var v).stay = false) :
    ∃ d, net.Moving d ∧ (net.con d).output = v := by
  cases hd : (net.var v).determinedBy with
  | none =>
    have hex := (h.exact v).trans (due_of_none hd)
    have hstay : (net.var v).stay = true := congrArg Annotation.stay hex
    exact Bool.noConfusion (hv.symm.trans hstay)
  | some d =>
    obtain ⟨hs, ho⟩ := (h.coherent.determines v d).1 hd
    exact ⟨d, ⟨hs, by rwa [ho]⟩, ho⟩

theorem Settled.moving_of_isInput (h : net.Settled) (hc : (net.con c).isSatisfied = true)
    (hi : (net.con c).isInput = true) : net.Moving c := by
  refine ⟨hc, ?_⟩
  rw [← Bool.not_eq_true, h.stay_output_iff hc, hi]
  exact fun hstay => Bool.noConfusion hstay.1

/-- What reads a moving output has a moving output. -/
theorem Settled.moving_of_reads (h : net.Settled) (hc : (net.con c).isSatisfied = true)
    (hv : v ∈ (net.con c).reads) (hm : (net.var v).stay = false) : net.Moving c := by
  refine ⟨hc, ?_⟩
  rw [← Bool.not_eq_true, h.stay_output_iff hc]
  exact fun hstay => Bool.noConfusion (hm.symm.trans (hstay.2 v hv))

/-- Without a satisfied edit everything stays. -/
theorem Settled.stay_of_no_inputs (h : net.Settled) (hacyclic : net.Acyclic)
    (hno : ∀ c, (net.con c).isSatisfied = true → (net.con c).isInput = false) :
    (net.var v).stay = true := by
  by_contra hstay
  obtain ⟨c, hc, -⟩ := h.exists_moving (by simpa using hstay)
  -- a constraint whose output moves would read one that moves, and so on for ever
  induction hn : net.height c using Nat.strong_induction_on generalizing c with
  | _ n ih =>
    subst hn
    have hread : ∃ u ∈ (net.con c).reads, (net.var u).stay = false := by
      by_contra hall
      have hout := (h.stay_output_iff hc.1).2 ⟨hno c hc.1, by simpa using hall⟩
      exact Bool.noConfusion (hc.2.symm.trans hout)
    obtain ⟨u, hu, hmoves⟩ := hread
    obtain ⟨d, hd, rfl⟩ := h.exists_moving hmoves
    exact ih _ (hacyclic.height_lt_height hd.1 ⟨c, hc.1, hu, rfl⟩) d hd rfl

end Stay

/-! ## Rules for an extraction -/

/-- The input of `c`, if it has one, is computed by the plan already, or stays, or is computed by
nothing. -/
def InputKnown (net : Network) (mark : Nat) (c : ConstraintId) : Prop :=
  ∀ v, (net.con c).input = some v →
    (net.var v).mark = mark ∨ (net.var v).stay = true ∨ (net.var v).determinedBy = none

section InputKnown

variable {net : Network} {mark : Nat} {d : ConstraintId} {v : VariableId}

/-- An input that is known stays known while outputs are marked. -/
theorem InputKnown.alterVariable (h : net.InputKnown mark d) :
    (net.alterVariable v fun x => { x with mark := mark }).InputKnown mark d := by
  intro w hw
  by_cases hwv : w = v
  · subst hwv
    by_cases hk : w.index < net.vars.size
    · rw [alterVariable_var_self hk]
      exact .inl rfl
    · rw [var_of_unknown (by simpa using hk)]
      exact .inr (.inl rfl)
  · rw [alterVariable_var_of_ne hwv]
    exact h w hw

/-- Marking an output makes no other input known. -/
theorem InputKnown.of_alterVariable (hv : (net.con d).input ≠ some v)
    (h : (net.alterVariable v fun x => { x with mark := mark }).InputKnown mark d) :
    net.InputKnown mark d := by
  intro w hw
  have hwv : w ≠ v := fun hwv => hv (hwv ▸ hw)
  have hknown := h w hw
  rwa [alterVariable_var_of_ne hwv] at hknown

theorem Settled.mem_consumersOf (h : net.Settled) :
    d ∈ net.consumersOf v ↔ (net.con d).isSatisfied = true ∧ v ∈ (net.con d).reads := by
  rw [h.coherent.mem_consumersOf]
  refine ⟨fun hd => ⟨hd.1, hd.2.1⟩, fun hd => ⟨hd.1, hd.2, fun ho => ?_⟩⟩
  exact h.irreflexive d hd.1 (ho ▸ hd.2)

end InputKnown

/-- The satisfied input constraints among `cs`. -/
def inputsAmong (net : Network) (cs : List ConstraintId) : List ConstraintId :=
  cs.filter fun c => (net.con c).isInput && (net.con c).isSatisfied

theorem mem_inputsAmong {net : Network} {cs : List ConstraintId} {c : ConstraintId} :
    c ∈ net.inputsAmong cs ↔
      c ∈ cs ∧ (net.con c).isInput = true ∧ (net.con c).isSatisfied = true := by
  simp [inputsAmong]

/-- A property of the network, of the steps planned so far and of the queue that an extraction keeps. -/
structure PlanInvariant (mark : Nat)
    (I : Network → List ConstraintId → List ConstraintId → Prop) : Prop where
  coherent : ∀ {net steps q}, I net steps q → net.Coherent
  known : ∀ {net steps q}, I net steps q → ∀ c ∈ q, c.index < net.constraints.size
  take : ∀ {net steps q c}, I net steps (c :: q) → (net.var (net.con c).output).mark ≠ mark →
    net.InputKnown mark c →
    I (net.alterVariable (net.con c).output fun x => { x with mark := mark }) (steps ++ [c])
      (q ++ net.consumersOf (net.con c).output)
  pass : ∀ {net steps q c}, I net steps (c :: q) →
    ((net.var (net.con c).output).mark = mark ∨ ¬ net.InputKnown mark c) → I net steps q

section Rules

variable {net : Network} {mark : Nat} {c : ConstraintId}
  {I : Network → List ConstraintId → List ConstraintId → Prop}
  {fail : Failure SolveError → Network → Prop}

theorem ends_inputKnown_iff {ok : Bool → Network → Prop} (h : net.Coherent)
    (hc : c.index < net.constraints.size)
    (hok : ∀ known, (known = true ↔ net.InputKnown mark c) → ok known net) :
    Ends (inputKnown mark (net.con c)) net ok fail := by
  unfold inputKnown
  split
  next hi => exact hok true (by simp [InputKnown, hi])
  next v hv =>
    have hmem : v ∈ (net.con c).kind.operands :=
      Constraint.mem_operands_of_mem_reads (Constraint.mem_reads.2 (.inl hv))
    rw [ends_bind, ends_readVariable (h.known c hc v hmem)]
    exact hok _ (by simp [InputKnown, hv, or_assoc])

/-- One generation, with what is queued for the next one. -/
theorem PlanInvariant.ends_planAll (inv : PlanInvariant mark I) (cs : List ConstraintId) :
    ∀ {net : Network} {steps next : List ConstraintId}, I net steps (cs ++ next) →
      Ends (planAll mark cs) net (fun r net' => I net' (steps ++ r.1) (next ++ r.2)) fail := by
  induction cs with
  | nil =>
    intro net steps next h
    rw [planAll, ends_pure]
    simpa using h
  | cons c cs ih =>
    intro net steps next h
    rw [List.cons_append] at h
    have hcoh := inv.coherent h
    have hc : c.index < net.constraints.size := inv.known h c (by simp)
    have hout : (net.con c).output.index < net.vars.size := hcoh.known_output hc
    rw [planAll, ends_bind, ends_readConstraint hc, ends_bind, ends_readVariable hout, ends_bind]
    refine ends_inputKnown_iff hcoh hc fun known hknown => ?_
    split
    next htaken =>
      let marked := net.alterVariable (net.con c).output fun x => { x with mark := mark }
      have hgraph : SameGraph net marked := sameGraph_alterVariable (fun _ => rfl) fun _ => rfl
      have hlist : ∀ d ∈ (marked.var (net.con c).output).constraints,
          d.index < marked.constraints.size :=
        fun d hd => (hcoh.of_sameGraph hgraph).known_listed hd
      have hnext : marked.consumersOf (net.con c).output = net.consumersOf (net.con c).output := by
        rw [consumersOf, hgraph.listed, hgraph.determinedBy, hgraph.con]
        rfl
      have htake := inv.take h htaken.1 (hknown.1 htaken.2)
      rw [List.append_assoc] at htake
      rw [ends_bind, ends_updateVariable hout, ends_bind,
        ends_consumers (by rwa [hgraph.variableCount]) hlist, ends_bind, hnext]
      refine (ih htake).mono_ok fun r net' hend => ?_
      rw [ends_pure]
      simpa [List.append_assoc] using hend
    next hpass =>
      refine ih (inv.pass h ?_)
      rw [← hknown]
      tauto

theorem PlanInvariant.ends_planFrom (inv : PlanInvariant mark I) (n : Nat) :
    ∀ {net : Network} {steps cs : List ConstraintId}, I net steps cs →
      Ends (planFrom mark n cs) net (fun later net' => I net' (steps ++ later) [])
        (fun _ _ => True) := by
  induction n with
  | zero =>
    intro net steps cs h
    cases cs with
    | nil => simpa [planFrom] using h
    | cons c cs => trivial
  | succ n ih =>
    intro net steps cs h
    cases cs with
    | nil => simpa [planFrom] using h
    | cons c cs =>
      have hstart : I net steps (c :: cs ++ []) := by simpa using h
      rw [planFrom, ends_bind]
      refine (inv.ends_planAll (c :: cs) hstart).mono_ok fun r net' hgen => ?_
      rw [ends_bind]
      refine (ih (by simpa using hgen)).mono_ok fun later net'' hend => ?_
      rw [ends_pure, ← List.append_assoc]
      exact hend

theorem ends_satisfiedInputs_among (cs : List ConstraintId) :
    ∀ {ok : List ConstraintId → Network → Prop}, ok (net.inputsAmong cs) net →
      Ends (satisfiedInputs cs) net ok (fun _ _ => True) := by
  induction cs with
  | nil => exact fun hok => hok
  | cons c cs ih =>
    intro ok hok
    rw [satisfiedInputs, ends_bind]
    refine ends_checkAttached (fun hc => ?_) fun _ _ _ => trivial
    rw [ends_bind, ends_readConstraint (known_of_attached hc), ends_bind]
    refine ih ?_
    rw [ends_pure]
    simpa only [inputsAmong, List.filter_cons] using hok

/-- An extraction from a coherent network ends with what every step of it keeps, or an id is refused
before anything is done. -/
theorem PlanInvariant.ends_extractPlan (inv : PlanInvariant (net.mark + 1) I) (hcoh : net.Coherent)
    (cs : List ConstraintId)
    (hstart : I { net with mark := net.mark + 1 } [] (net.inputsAmong cs)) :
    Ends (extractPlan cs) net (fun plan net' => I net' plan.steps [])
      (fun _ net' => net' = net ∧ ∃ c ∈ cs, (net.con c).attached = false) := by
  have hreturns : Ends (extractPlan cs) net (fun _ _ => True)
      (fun _ net' => net' = net ∧ ∃ c ∈ cs, (net.con c).attached = false) :=
    (Network.ends_extractPlan hcoh cs fun c hc ha _ _ => ⟨rfl, c, hc, ha⟩).mono_ok
      fun _ _ _ => trivial
  have hplan : Ends (extractPlan cs) net (fun plan net' => I net' plan.steps [])
      (fun _ _ => True) := by
    rw [extractPlan, ends_bind]
    refine ends_satisfiedInputs_among cs ?_
    rw [makePlan, ends_bind]
    refine ends_checkAllAttached _ (fun _ _ _ _ _ => trivial) fun _ => ?_
    rw [ends_bind, ends_freshMark, ends_bind, ends_get, ends_bind]
    exact inv.ends_planFrom _ hstart
  exact (hreturns.and hplan).mono (fun _ _ hend => hend.2) fun _ _ hf => hf.1

end Rules

/-! ## The state of an extraction -/

/-- The state of an extraction that has started in `start` from the given sources. -/
structure Planning (start : Network) (mark : Nat) (sources : List ConstraintId) (net : Network)
    (steps q : List ConstraintId) : Prop where
  same : net.withoutMarks = start.withoutMarks
  marked : ∀ v, (net.var v).mark = mark ↔ ∃ c ∈ steps, (start.con c).output = v
  moving : ∀ c ∈ steps ++ q, start.Moving c
  nodup : steps.Nodup
  ready : ∀ c ∈ steps, net.InputKnown mark c
  ordered : steps.Pairwise fun c d => (start.con c).input ≠ some (start.con d).output
  started : ∀ c ∈ sources, c ∈ steps ++ q
  /-- what reads a planned output is planned or queued, or comes back with its input -/
  followed : ∀ c ∈ steps, ∀ d, (start.con d).isSatisfied = true →
    (start.con c).output ∈ (start.con d).reads → d ∈ steps ++ q ∨ ¬ net.InputKnown mark d

namespace Planning

variable {start net : Network} {mark : Nat} {sources steps q : List ConstraintId}
  {c d : ConstraintId}

theorem solution (h : Planning start mark sources net steps q) : SameSolution start net :=
  sameSolution_of_withoutMarks h.same

/-- An output is marked by the step that computes it. -/
theorem mem_steps_of_marked (h : Planning start mark sources net steps q) (hs : start.Settled)
    (hc : (start.con c).isSatisfied = true) (hm : (net.var (start.con c).output).mark = mark) :
    c ∈ steps := by
  obtain ⟨d, hd, ho⟩ := (h.marked _).1 hm
  have hdet := hs.coherent.determinedBy_output hc
  have hdet' := hs.coherent.determinedBy_output (h.moving d (by simp [hd])).1
  rw [ho, hdet] at hdet'
  cases hdet'
  exact hd

/-- A planned output is not known before. -/
theorem input_ne_output (h : Planning start mark sources net steps q) (hs : start.Settled)
    (hd : d ∈ steps) (hc : start.Moving c) (hm : (net.var (start.con c).output).mark ≠ mark) :
    (start.con d).input ≠ some (start.con c).output := by
  intro hi
  have hsol := h.solution
  have hi' : (net.con d).input = some (start.con c).output := by rw [hsol.con]; exact hi
  have hstay : (net.var (start.con c).output).stay = (start.var (start.con c).output).stay :=
    congrArg Annotation.stay (hsol.current _)
  obtain hmark | hknown | hnone := h.ready d hd _ hi'
  · exact hm hmark
  · exact Bool.noConfusion (hc.2.symm.trans (hstay.symm.trans hknown))
  · rw [hsol.determinedBy, hs.coherent.determinedBy_output hc.1] at hnone
    cases hnone

/-- A constraint whose output is open and whose input is known is planned. -/
theorem take (h : Planning start mark sources net steps (c :: q)) (hs : start.Settled)
    (hopen : (net.var (net.con c).output).mark ≠ mark) (hknown : net.InputKnown mark c) :
    Planning start mark sources
      (net.alterVariable (net.con c).output fun x => { x with mark := mark }) (steps ++ [c])
      (q ++ net.consumersOf (net.con c).output) := by
  have hsol := h.solution
  have hreader := fun d => (hs.of_sameSolution hsol).mem_consumersOf (d := d) (v := (start.con c).output)
  simp only [hsol.con] at hreader hopen ⊢
  have hc : start.Moving c := h.moving c (by simp)
  have hout : (start.con c).output.index < net.vars.size := by
    rw [hsol.variableCount]
    exact hs.coherent.known_output (known_of_isSatisfied hc.1)
  have hstill : ∀ d ∈ steps ++ c :: q,
      d ∈ steps ++ [c] ++ (q ++ net.consumersOf (start.con c).output) := by
    intro d hd
    simp only [List.mem_append, List.mem_cons] at hd ⊢
    tauto
  refine ⟨?_, fun v => ?_, fun d hd => ?_, ?_, fun d hd => ?_, ?_, ?_, fun d hd e hes her => ?_⟩
  · rw [withoutMarks_alterVariable]
    exact h.same
  · by_cases hv : v = (start.con c).output
    · subst hv
      rw [alterVariable_var_self hout]
      exact ⟨fun _ => ⟨c, by simp, rfl⟩, fun _ => rfl⟩
    · rw [alterVariable_var_of_ne hv, h.marked v]
      simp [Ne.symm hv]
  · by_cases hread : d ∈ net.consumersOf (start.con c).output
    · obtain ⟨hds, hdr⟩ := (hreader d).1 hread
      exact hs.moving_of_reads hds hdr hc.2
    · refine h.moving d ?_
      simp only [List.mem_append, List.mem_cons] at hd ⊢
      tauto
  · refine List.nodup_append.2 ⟨h.nodup, by simp, fun d hd e he hde => ?_⟩
    rw [List.mem_singleton.1 he] at hde
    exact hopen ((h.marked _).2 ⟨d, hd, by rw [hde]⟩)
  · obtain hd | hd := List.mem_append.1 hd
    · exact (h.ready d hd).alterVariable
    · rw [List.mem_singleton.1 hd]
      exact hknown.alterVariable
  · refine List.pairwise_append.2 ⟨h.ordered, by simp, fun d hd e he => ?_⟩
    rw [List.mem_singleton.1 he]
    exact h.input_ne_output hs hd hc hopen
  · exact fun d hd => hstill d (h.started d hd)
  · by_cases hce : (start.con c).output ∈ (start.con e).reads
    · exact .inl (by simp [(hreader e).2 ⟨hes, hce⟩])
    · -- the input of `e` is another variable, so it is not known if it was not
      have hne : (net.con e).input ≠ some (start.con c).output := by
        rw [hsol.con]
        exact fun hi => hce (Constraint.mem_reads.2 (.inl hi))
      have hd' : d ∈ steps := by
        obtain hd | hd := List.mem_append.1 hd
        · exact hd
        · exact absurd (List.mem_singleton.1 hd ▸ her) hce
      exact (h.followed d hd' e hes her).imp (hstill e) fun hun hk => hun (hk.of_alterVariable hne)

/-- A constraint that is dropped is planned already, or its input is not known. -/
theorem pass (h : Planning start mark sources net steps (c :: q)) (hs : start.Settled)
    (hsources : ∀ c ∈ sources, (start.con c).input = none)
    (hpass : (net.var (net.con c).output).mark = mark ∨ ¬ net.InputKnown mark c) :
    Planning start mark sources net steps q := by
  have hsol := h.solution
  have hc : start.Moving c := h.moving c (by simp)
  have hplanned : c ∈ steps ∨ ¬ net.InputKnown mark c := by
    refine hpass.imp_left fun hm => h.mem_steps_of_marked hs hc.1 ?_
    rwa [hsol.con] at hm
  have hstill : ∀ d ∈ steps ++ c :: q, d ≠ c → d ∈ steps ++ q := by
    intro d hd hdc
    simp only [List.mem_append, List.mem_cons] at hd ⊢
    tauto
  refine ⟨h.same, h.marked, fun d hd => ?_, h.nodup, h.ready, h.ordered, fun d hd => ?_,
    fun d hd e hes her => ?_⟩
  · refine h.moving d ?_
    simp only [List.mem_append, List.mem_cons] at hd ⊢
    tauto
  · by_cases hdc : d = c
    · -- a source has no input, so it is dropped only if it is planned
      subst hdc
      refine List.mem_append_left q (hplanned.resolve_right fun hun => hun fun v hv => ?_)
      rw [hsol.con, hsources d hd] at hv
      cases hv
    · exact hstill d (h.started d hd) hdc
  · by_cases hec : e = c
    · subst hec
      exact hplanned.imp_left fun he => List.mem_append_left q he
    · exact (h.followed d hd e hes her).imp_left fun he => hstill e he hec

/-- Once the queue is empty everything that moves is planned. -/
theorem mem_steps (h : Planning start mark sources net steps []) (hs : start.Settled)
    (hacyclic : start.Acyclic)
    (hsources : ∀ d, (start.con d).isSatisfied = true → (start.con d).isInput = true →
      d ∈ sources)
    (hc : start.Moving c) : c ∈ steps := by
  have hsol := h.solution
  induction hn : start.height c using Nat.strong_induction_on generalizing c with
  | _ n ih =>
    subst hn
    by_cases hi : (start.con c).isInput = true
    · simpa using h.started c (hsources c hc.1 hi)
    -- what `c` reads is planned by induction, unless it stays
    have hread : ∀ v ∈ (start.con c).reads, (start.var v).stay = false →
        ∃ d ∈ steps, (start.con d).output = v := by
      intro v hv hstay
      obtain ⟨d, hd, rfl⟩ := hs.exists_moving hstay
      have hlt := hacyclic.height_lt_height hd.1 ⟨c, hc.1, hv, rfl⟩
      exact ⟨d, ih _ hlt hd rfl, rfl⟩
    have hknown : net.InputKnown mark c := by
      intro v hv
      rw [hsol.con] at hv
      cases hstay : (start.var v).stay with
      | true => exact .inr (.inl ((congrArg Annotation.stay (hsol.current v)).trans hstay))
      | false => exact .inl ((h.marked v).2 (hread v (Constraint.mem_reads.2 (.inl hv)) hstay))
    have hmoves : ∃ v ∈ (start.con c).reads, (start.var v).stay = false := by
      by_contra hall
      have hstay := (hs.stay_output_iff hc.1).2 ⟨by simpa using hi, by simpa using hall⟩
      exact Bool.noConfusion (hc.2.symm.trans hstay)
    obtain ⟨v, hv, hstay⟩ := hmoves
    obtain ⟨d, hd, rfl⟩ := hread v hv hstay
    simpa using (h.followed d hd c hc.1 hv).resolve_right (not_not_intro hknown)

end Planning

section Extract

variable {net : Network} {sources cs : List ConstraintId}

theorem planInvariant_planning {start : Network} {mark : Nat} (hs : start.Settled)
    (hsources : ∀ c ∈ sources, (start.con c).input = none) :
    PlanInvariant mark (Planning start mark sources) where
  coherent h := hs.coherent.of_sameGraph h.solution.toSameGraph
  known h c hc := by
    rw [h.solution.constraintCount]
    exact known_of_isSatisfied (h.moving c (List.mem_append_right _ hc)).1
  take h hopen hknown := h.take hs hopen hknown
  pass h hpass := h.pass hs hsources hpass

/-- An extraction starts with the sources queued and nothing marked. -/
theorem planning_start (hpast : net.MarksPast) (hmoving : ∀ c ∈ sources, net.Moving c) :
    Planning net (net.mark + 1) sources { net with mark := net.mark + 1 } [] sources := by
  refine ⟨rfl, fun v => ?_, hmoving, .nil, by simp, .nil, fun c hc => hc, by simp⟩
  have hle : (net.var v).mark ≤ net.mark := hpast v
  show (net.var v).mark = net.mark + 1 ↔ _
  constructor
  · omega
  · rintro ⟨c, hc, -⟩
    cases hc

/-- An extraction ends with a plan, or an id is refused before anything is done. -/
theorem ends_extractPlan_planning (hs : net.Settled) (hpast : net.MarksPast)
    (cs : List ConstraintId) :
    Ends (extractPlan cs) net
      (fun plan net' =>
        Planning net (net.mark + 1) (net.inputsAmong cs) net' plan.steps [])
      (fun _ net' => net' = net ∧ ∃ c ∈ cs, (net.con c).attached = false) := by
  have inv : PlanInvariant (net.mark + 1) (Planning net (net.mark + 1) (net.inputsAmong cs)) :=
    planInvariant_planning hs fun c hc => Constraint.input_of_isInput (mem_inputsAmong.1 hc).2.1
  refine inv.ends_extractPlan hs.coherent cs (planning_start hpast fun c hc => ?_)
  obtain ⟨-, hi, hc⟩ := mem_inputsAmong.1 hc
  exact hs.moving_of_isInput hc hi

end Extract

/-- After every run the extraction for constraints of the graph that include all satisfied edits
returns a plan. Its steps are the satisfied constraints whose output does not stay, each once; the
input of a step is not the output of that step or of a later one; and the network is left as it was
but for its marks. -/
theorem extractPlan_exact {net : Network} (h : Run (fun _ _ => True) net) {cs : List ConstraintId}
    (hcs : ∀ c ∈ cs, ∃ k, net.getConstraint? c = some k ∧ k.attached = true)
    (hedits : ∀ c k v, net.getConstraint? c = some k → k.kind = .edit v → k.isSatisfied = true →
      c ∈ cs) :
    ∃ plan net', extractPlan cs net = .ok plan net' ∧
      plan.steps.Nodup ∧
      (∀ c, c ∈ plan.steps ↔ ∃ k x, net.getConstraint? c = some k ∧ k.isSatisfied = true ∧
        net.getVariable? k.output = some x ∧ x.stay = false) ∧
      (∀ (i j : Nat) (c d : ConstraintId) (k l : Constraint), i ≤ j →
        plan.steps[i]? = some c → plan.steps[j]? = some d →
        net.getConstraint? c = some k → net.getConstraint? d = some l →
        k.input ≠ some l.output) ∧
      net'.withoutMarks = net.withoutMarks := by
  have hs : net.Settled := runInvariant_settled.holds h
  have hacyclic : net.Acyclic := (runInvariant_ordered.holds h).acyclic
  have hpast : net.MarksPast := (regular_of_run h).marksPast
  have hattached : ¬ ∃ c ∈ cs, (net.con c).attached = false := by
    rintro ⟨c, hc, ha⟩
    obtain ⟨k, hk, hka⟩ := hcs c hc
    obtain ⟨-, rfl⟩ := getConstraint?_eq_some.1 hk
    exact Bool.noConfusion (ha.symm.trans hka)
  have hsources : ∀ d, (net.con d).isSatisfied = true → (net.con d).isInput = true →
      d ∈ net.inputsAmong cs := by
    intro d hd hi
    refine mem_inputsAmong.2 ⟨?_, hi, hd⟩
    cases hk : (net.con d).kind with
    | edit v => exact hedits d _ v (getConstraint?_eq_con (known_of_isSatisfied hd)) hk hd
    | _ => simp [Constraint.isInput, hk, Kind.isInput] at hi
  have hends := ends_extractPlan_planning hs hpast cs
  cases hrun : extractPlan cs net with
  | error e net' => exact absurd (hends.of_error hrun).2 hattached
  | ok plan net' =>
    have hplan := hends.of_ok hrun
    refine ⟨plan, net', rfl, hplan.nodup, fun c => ?_, ?_, hplan.same⟩
    · constructor
      · intro hc
        obtain ⟨hsat, hstay⟩ := hplan.moving c (by simpa using hc)
        have hc := known_of_isSatisfied hsat
        exact ⟨_, _, getConstraint?_eq_con hc, hsat,
          getVariable?_eq_var (hs.coherent.known_output hc), hstay⟩
      · rintro ⟨k, x, hk, hsat, hx, hstay⟩
        obtain ⟨-, rfl⟩ := getConstraint?_eq_some.1 hk
        obtain ⟨-, rfl⟩ := getVariable?_eq_some.1 hx
        exact hplan.mem_steps hs hacyclic hsources ⟨hsat, hstay⟩
    · intro i j c d k l hij hi hj hk hl
      obtain ⟨-, rfl⟩ := getConstraint?_eq_some.1 hk
      obtain ⟨-, rfl⟩ := getConstraint?_eq_some.1 hl
      obtain ⟨hi', rfl⟩ := List.getElem?_eq_some_iff.1 hi
      obtain ⟨hj', rfl⟩ := List.getElem?_eq_some_iff.1 hj
      obtain hlt | rfl := Nat.lt_or_eq_of_le hij
      · exact List.pairwise_iff_getElem.1 hplan.ordered i j hi' hj' hlt
      · intro hself
        exact hs.irreflexive _ (hplan.moving _ (by simp)).1 (Constraint.mem_reads.2 (.inl hself))

end Network

/-- The edit of `a` is read by a scaling as its factor before it reaches the input of the scaling. -/
def plannedRequests : List Request :=
  [.addVariable "a" 2, .addVariable "b" 3, .addVariable "d" 4, .addVariable "z" 0,
    .add (.edit ⟨0⟩) .strongPreferred, .add (.scale ⟨1⟩ ⟨3⟩ ⟨0⟩ ⟨2⟩) .required,
    .add (.equal ⟨0⟩ ⟨1⟩) .required, .add (.stay ⟨2⟩) .normal]

def plannedNetwork : Network :=
  (Request.runAll (fun _ _ => true) plannedRequests .empty).get (by decide +kernel)

namespace Network

theorem extractPlan_exact_plannedNetwork :
    ∃ plan net', extractPlan [⟨3⟩, ⟨0⟩] plannedNetwork = .ok plan net' ∧ plan.steps.Nodup ∧
      ⟨1⟩ ∈ plan.steps ∧ ⟨3⟩ ∉ plan.steps ∧ net'.withoutMarks = plannedNetwork.withoutMarks := by
  have hrun : Run (fun _ _ => True) plannedNetwork :=
    Run.of_runAll (fun _ _ _ => trivial) plannedRequests .empty (Option.some_get _).symm
  have hattached : ∀ c ∈ ([⟨3⟩, ⟨0⟩] : List ConstraintId),
      ∃ k, plannedNetwork.getConstraint? c = some k ∧ k.attached = true := by
    have hall : ∀ c ∈ ([⟨3⟩, ⟨0⟩] : List ConstraintId),
        (plannedNetwork.con c).attached = true := by decide +kernel
    exact fun c hc => ⟨_, getConstraint?_eq_con (known_of_attached (hall c hc)), hall c hc⟩
  have hedits : ∀ c k v, plannedNetwork.getConstraint? c = some k → k.kind = .edit v →
      k.isSatisfied = true → c ∈ ([⟨3⟩, ⟨0⟩] : List ConstraintId) := by
    intro c k v hk hedit _
    obtain ⟨hc, rfl⟩ := getConstraint?_eq_some.1 hk
    have hall : ∀ i < plannedNetwork.constraints.size,
        (plannedNetwork.con ⟨i⟩).isInput = true →
          (⟨i⟩ : ConstraintId) ∈ ([⟨3⟩, ⟨0⟩] : List ConstraintId) := by decide +kernel
    exact hall c.index hc (by rw [Constraint.isInput, hedit, Kind.isInput])
  obtain ⟨plan, net', hok, hnodup, hsteps, -, hsame⟩ := extractPlan_exact hrun hattached hedits
  refine ⟨plan, net', hok, hnodup, (hsteps ⟨1⟩).2 ?_, fun hstay => ?_, hsame⟩
  · exact ⟨_, _, getConstraint?_eq_con (by decide +kernel), by decide +kernel,
      getVariable?_eq_var (by decide +kernel), by decide +kernel⟩
  · obtain ⟨k, x, hk, -, hx, hmoves⟩ := (hsteps ⟨3⟩).1 hstay
    obtain ⟨-, rfl⟩ := getConstraint?_eq_some.1 hk
    obtain ⟨-, rfl⟩ := getVariable?_eq_some.1 hx
    revert hmoves
    decide +kernel

end Network

end ConstraintHierarchy
