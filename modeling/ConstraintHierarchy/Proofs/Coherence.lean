import Mathlib.Data.List.Basic
import ConstraintHierarchy.Proofs.Method

/-!
# Coherence of the method graph

Which constraints touch a variable, which one computes it, and which constraints are satisfied is
recorded several times over. `Network.Coherent` says that the records agree. The network is taken
apart and put together again in three ways only: a constraint is registered, a constraint is taken
out of the graph, and a constraint takes over its output. Each keeps coherence.

## Main definitions

* `Network.mentions`: the list that a variable should keep of the constraints on it
* `Network.Coherent`: the redundant records agree
* `Network.SameGraph`: two networks differ in marks, annotations, values and journal only
* `Network.SameSolution`: they do not differ in annotations either
* `Network.Keeps`: two networks have the same constraints, up to the methods chosen
* `Network.takenOver`: a constraint becomes the one that computes its output
-/

namespace ConstraintHierarchy

/-- The annotation that a variable carries. -/
def Variable.current (x : Variable) : Annotation := ⟨x.walkStrength, x.stay⟩

namespace Network

open Solve

/-! ## Networks with the same graph -/

/-- Two networks have the same constraints, methods and adjacency; they may differ in marks,
annotations, values and the journal. -/
structure SameGraph (net net' : Network) : Prop where
  con : net'.con = net.con
  constraintCount : net'.constraints.size = net.constraints.size
  variableCount : net'.vars.size = net.vars.size
  listed : ∀ v, (net'.var v).constraints = (net.var v).constraints
  determinedBy : ∀ v, (net'.var v).determinedBy = (net.var v).determinedBy

/-- Two networks have the same graph and the same annotations; they may differ in marks, values and
the journal. -/
structure SameSolution (net net' : Network) : Prop extends SameGraph net net' where
  current : ∀ v, (net'.var v).current = (net.var v).current

/-- Two networks have the same constraints in the graph, whichever methods are chosen. -/
structure Keeps (net net' : Network) : Prop where
  constraintCount : net'.constraints.size = net.constraints.size
  variableCount : net'.vars.size = net.vars.size
  kind : ∀ c, (net'.con c).kind = (net.con c).kind
  strength : ∀ c, (net'.con c).strength = (net.con c).strength
  attached : ∀ c, (net'.con c).attached = (net.con c).attached

section Relations

variable {net net' net'' : Network}

theorem SameGraph.refl (net : Network) : SameGraph net net := by
  constructor <;> intros <;> rfl

theorem SameGraph.trans (h : SameGraph net net') (h' : SameGraph net' net'') :
    SameGraph net net'' where
  con := h'.con.trans h.con
  constraintCount := h'.constraintCount.trans h.constraintCount
  variableCount := h'.variableCount.trans h.variableCount
  listed v := (h'.listed v).trans (h.listed v)
  determinedBy v := (h'.determinedBy v).trans (h.determinedBy v)

theorem Keeps.refl (net : Network) : Keeps net net := by
  constructor <;> intros <;> rfl

theorem Keeps.trans (h : Keeps net net') (h' : Keeps net' net'') : Keeps net net'' where
  constraintCount := h'.constraintCount.trans h.constraintCount
  variableCount := h'.variableCount.trans h.variableCount
  kind c := (h'.kind c).trans (h.kind c)
  strength c := (h'.strength c).trans (h.strength c)
  attached c := (h'.attached c).trans (h.attached c)

theorem SameGraph.keeps (h : SameGraph net net') : Keeps net net' where
  constraintCount := h.constraintCount
  variableCount := h.variableCount
  kind c := by rw [h.con]
  strength c := by rw [h.con]
  attached c := by rw [h.con]

/-- Rewriting marks, annotations or values of a variable keeps the graph. -/
theorem sameGraph_alterVariable {v : VariableId} {f : Variable → Variable}
    (hl : ∀ x, (f x).constraints = x.constraints)
    (hd : ∀ x, (f x).determinedBy = x.determinedBy) : SameGraph net (net.alterVariable v f) where
  con := rfl
  constraintCount := rfl
  variableCount := alterVariable_size
  listed _ := alterVariable_var_field hl
  determinedBy _ := alterVariable_var_field hd

theorem sameGraph_recalculated {c : ConstraintId} : SameGraph net (net.recalculated c) :=
  sameGraph_alterVariable (fun _ => rfl) fun _ => rfl

/-- The journal and the number of the latest walk are no part of the graph. -/
theorem sameGraph_of_eq (hv : net'.vars = net.vars) (hc : net'.constraints = net.constraints) :
    SameGraph net net' where
  con := con_congr hc
  constraintCount := by rw [hc]
  variableCount := by rw [hv]
  listed v := by rw [var_congr hv]
  determinedBy v := by rw [var_congr hv]

theorem SameSolution.refl (net : Network) : SameSolution net net :=
  ⟨.refl net, fun _ => rfl⟩

theorem SameSolution.trans (h : SameSolution net net')
    (h' : SameSolution net' net'') : SameSolution net net'' :=
  ⟨h.toSameGraph.trans h'.toSameGraph, fun v => (h'.current v).trans (h.current v)⟩

/-- The number of the latest walk and the journal are no part of the solution. -/
theorem sameSolution_of_eq (hv : net'.vars = net.vars) (hc : net'.constraints = net.constraints) :
    SameSolution net net' :=
  ⟨sameGraph_of_eq hv hc, fun v => by rw [var_congr hv]⟩

theorem sameSolution_alterVariable {v : VariableId} {f : Variable → Variable}
    (hl : ∀ x, (f x).constraints = x.constraints)
    (hd : ∀ x, (f x).determinedBy = x.determinedBy) (hc : ∀ x, (f x).current = x.current) :
    SameSolution net (net.alterVariable v f) :=
  ⟨sameGraph_alterVariable hl hd, fun _ => alterVariable_var_field hc⟩

end Relations

/-! ## Coherence -/

/-- The constraints of the graph that mention `v`, oldest first, each as often as it mentions it. -/
def mentions (net : Network) (v : VariableId) : List ConstraintId :=
  (List.range net.constraints.size).flatMap fun i =>
    List.replicate (if (net.con ⟨i⟩).attached then (net.con ⟨i⟩).kind.operands.count v else 0) ⟨i⟩

/-- The records of variables and constraints about the method graph agree. -/
structure Coherent (net : Network) : Prop where
  /-- a variable lists the constraints of the graph that mention it -/
  listed : ∀ v, (net.var v).constraints = net.mentions v
  /-- a variable is computed by the satisfied constraint whose output it is -/
  determines : ∀ v c, (net.var v).determinedBy = some c ↔
    (net.con c).isSatisfied = true ∧ (net.con c).output = v
  /-- a satisfied constraint is part of the graph -/
  attached : ∀ c, (net.con c).isSatisfied = true → (net.con c).attached = true
  /-- every variable mentioned exists -/
  known : ∀ c, c.index < net.constraints.size →
    ∀ v ∈ (net.con c).kind.operands, v.index < net.vars.size

section Mentions

variable {net net' : Network} {v : VariableId} {c : ConstraintId}

theorem mem_mentions :
    c ∈ net.mentions v ↔ (net.con c).attached = true ∧ v ∈ (net.con c).kind.operands := by
  simp only [mentions, List.mem_flatMap, List.mem_range, List.mem_replicate]
  constructor
  · rintro ⟨i, -, hn, rfl⟩
    by_cases ha : (net.con ⟨i⟩).attached = true
    · rw [if_pos ha] at hn
      exact ⟨ha, List.count_pos_iff.1 (Nat.pos_of_ne_zero hn)⟩
    · simp [ha] at hn
  · rintro ⟨ha, hv⟩
    refine ⟨c.index, known_of_attached ha, ?_, rfl⟩
    rw [if_pos ha]
    exact Nat.ne_of_gt (List.count_pos_iff.2 hv)

theorem Keeps.mentions (h : Keeps net net') : net'.mentions v = net.mentions v := by
  simp only [Network.mentions, h.constraintCount, h.attached, h.kind]

end Mentions

namespace Coherent

variable {net net' : Network} {v : VariableId} {c d : ConstraintId}

theorem of_sameGraph (h : net.Coherent) (hs : SameGraph net net') : net'.Coherent where
  listed v := by rw [hs.listed, h.listed, hs.keeps.mentions]
  determines v c := by rw [hs.determinedBy, h.determines, hs.con]
  attached c := by rw [hs.con]; exact h.attached c
  known c hc := by
    rw [hs.con, hs.variableCount]
    exact h.known c (hs.constraintCount ▸ hc)

theorem mem_listed (h : net.Coherent) :
    c ∈ (net.var v).constraints ↔
      (net.con c).attached = true ∧ v ∈ (net.con c).kind.operands := by
  rw [h.listed, mem_mentions]

theorem known_listed (h : net.Coherent) (hc : c ∈ (net.var v).constraints) :
    c.index < net.constraints.size :=
  known_of_attached (h.mem_listed.1 hc).1

theorem known_output (h : net.Coherent) (hc : c.index < net.constraints.size) :
    (net.con c).output.index < net.vars.size :=
  h.known c hc _ Constraint.output_mem_operands

theorem determinedBy_output (h : net.Coherent) (hc : (net.con c).isSatisfied = true) :
    (net.var (net.con c).output).determinedBy = some c :=
  (h.determines _ c).2 ⟨hc, rfl⟩

/-- What is visited after `v`: the satisfied constraints that read it and compute something else. -/
theorem mem_consumersOf (h : net.Coherent) :
    d ∈ net.consumersOf v ↔ (net.con d).isSatisfied = true ∧ v ∈ (net.con d).reads ∧
      (net.con d).output ≠ v := by
  simp only [consumersOf, List.mem_filter, h.mem_listed, decide_eq_true_eq, ne_eq, h.determines,
    Constraint.mem_operands_iff]
  constructor
  · rintro ⟨⟨⟨-, hv⟩, hn⟩, hs⟩
    have ho : (net.con d).output ≠ v := fun ho => hn ⟨hs, ho⟩
    exact ⟨hs, hv.resolve_left (Ne.symm ho), ho⟩
  · rintro ⟨hs, hr, ho⟩
    exact ⟨⟨⟨h.attached d hs, .inr hr⟩, fun hd => ho hd.2⟩, hs⟩

end Coherent

/-! ## Taking over an output -/

/-- The constraint `c` with the method `flow` chosen. -/
abbrev directed (net : Network) (c : ConstraintId) (flow : Flow) : Constraint :=
  { net.con c with flow := some flow }

/-- The network in which an overridden constraint has no method. -/
def withoutMethod (net : Network) : Option ConstraintId → Network
  | none => net
  | some o => net.alterConstraint o fun k => { k with flow := none }

/-- The constraint `c` becomes the one that computes its output under `flow`: what it reads is
marked and the constraint that computed the output so far becomes unsatisfied. -/
def takenOver (net : Network) (mark : Nat) (c : ConstraintId) (flow : Flow) : Network :=
  let k := net.directed c flow
  let marked := (net.alterConstraint c fun k => { k with flow := some flow }).alterVariables k.reads
    fun x => { x with mark := mark }
  (marked.withoutMethod (net.var k.output).determinedBy).alterVariable k.output
    fun x => { x with determinedBy := some c }

@[simp] theorem withoutMethod_vars {net : Network} {o : Option ConstraintId} :
    (net.withoutMethod o).vars = net.vars := by
  cases o <;> rfl

section TakenOver

variable {net : Network} {mark : Nat} {c d : ConstraintId} {flow : Flow} {v : VariableId}

theorem Coherent.known_directed_reads (h : net.Coherent) (hc : c.index < net.constraints.size) :
    ∀ u ∈ (net.directed c flow).reads, u.index < net.vars.size :=
  fun u hu => h.known c hc u (Constraint.mem_operands_of_mem_reads (k := net.directed c flow) hu)

theorem Coherent.known_directed_output (h : net.Coherent) (hc : c.index < net.constraints.size) :
    (net.directed c flow).output.index < net.vars.size :=
  h.known c hc _ (Constraint.output_mem_operands (k := net.directed c flow))

@[simp] theorem takenOver_size : (net.takenOver mark c flow).vars.size = net.vars.size := by
  simp only [takenOver, withoutMethod]
  split <;> simp

@[simp] theorem takenOver_count :
    (net.takenOver mark c flow).constraints.size = net.constraints.size := by
  simp only [takenOver, withoutMethod]
  split <;> simp

@[simp] theorem takenOver_mark : (net.takenOver mark c flow).mark = net.mark := by
  simp only [takenOver, withoutMethod]
  split <;> simp

theorem keeps_takenOver : Keeps net (net.takenOver mark c flow) where
  constraintCount := takenOver_count
  variableCount := takenOver_size
  kind d := by
    simp only [takenOver, withoutMethod]
    split
    · simp [alterConstraint_con_field]
    · simp [alterConstraint_con_field]
  strength d := by
    simp only [takenOver, withoutMethod]
    split
    · simp [alterConstraint_con_field]
    · simp [alterConstraint_con_field]
  attached d := by
    simp only [takenOver, withoutMethod]
    split
    · simp [alterConstraint_con_field]
    · simp [alterConstraint_con_field]

theorem ne_of_isSatisfied (hu : (net.con c).isSatisfied = false)
    (hd : (net.con d).isSatisfied = true) : c ≠ d := by
  rintro rfl
  exact Bool.noConfusion (hu.symm.trans hd)

theorem ne_of_determinedBy (h : net.Coherent) (hu : (net.con c).isSatisfied = false)
    (hd : (net.var v).determinedBy = some d) : c ≠ d :=
  ne_of_isSatisfied hu ((h.determines v d).1 hd).1

theorem takenOver_con_self (h : net.Coherent) (hc : c.index < net.constraints.size)
    (hu : (net.con c).isSatisfied = false) :
    (net.takenOver mark c flow).con c = net.directed c flow := by
  simp only [takenOver, withoutMethod]
  split
  next => simp [alterConstraint_con_self hc]
  next o ho =>
    rw [alterVariable_con, alterConstraint_con_of_ne (ne_of_determinedBy h hu ho),
      alterVariables_con, alterConstraint_con_self hc]

theorem takenOver_con_displaced (h : net.Coherent) (hu : (net.con c).isSatisfied = false)
    (hd : (net.var (net.directed c flow).output).determinedBy = some d) :
    (net.takenOver mark c flow).con d = { net.con d with flow := none } := by
  have hk : d.index < net.constraints.size := known_of_isSatisfied ((h.determines _ d).1 hd).1
  have hne : d ≠ c := Ne.symm (ne_of_determinedBy h hu hd)
  simp only [takenOver, withoutMethod, hd]
  rw [alterVariable_con, alterConstraint_con_self (by simpa using hk), alterVariables_con,
    alterConstraint_con_of_ne hne]

theorem takenOver_con_of_ne (hc : d ≠ c)
    (hd : (net.var (net.directed c flow).output).determinedBy ≠ some d) :
    (net.takenOver mark c flow).con d = net.con d := by
  simp only [takenOver, withoutMethod]
  split
  next => simp [alterConstraint_con_of_ne hc]
  next o ho =>
    have hne : d ≠ o := by
      rintro rfl
      exact hd ho
    rw [alterVariable_con, alterConstraint_con_of_ne hne, alterVariables_con,
      alterConstraint_con_of_ne hc]

/-- After `c` has taken over its output, `c` is satisfied, and so is every other satisfied
constraint that computes something else. -/
theorem takenOver_isSatisfied_iff (h : net.Coherent) (hc : c.index < net.constraints.size)
    (hu : (net.con c).isSatisfied = false) :
    ((net.takenOver mark c flow).con d).isSatisfied = true ↔
      d = c ∨ ((net.con d).isSatisfied = true ∧
        (net.con d).output ≠ (net.directed c flow).output) := by
  by_cases hd : d = c
  · subst hd
    simp [takenOver_con_self h hc hu, Constraint.isSatisfied]
  · by_cases ho : (net.var (net.directed c flow).output).determinedBy = some d
    · have hout := ((h.determines _ _).1 ho).2
      simp [takenOver_con_displaced h hu ho, Constraint.isSatisfied, hd, hout]
    · rw [takenOver_con_of_ne hd ho]
      rw [h.determines] at ho
      grind

/-- A constraint that keeps its method while `c` takes over an output is left as it is. -/
theorem takenOver_con_of_satisfied (h : net.Coherent) (hu : (net.con c).isSatisfied = false)
    (hd : (net.con d).isSatisfied = true)
    (ho : (net.con d).output ≠ (net.directed c flow).output) :
    (net.takenOver mark c flow).con d = net.con d := by
  apply takenOver_con_of_ne (ne_of_isSatisfied hu hd).symm
  intro hdet
  exact ho ((h.determines _ _).1 hdet).2

/-- Marking what is read and recording the new method is all that happens to the variables. -/
theorem takenOver_var (h : net.Coherent) (hc : c.index < net.constraints.size) :
    (net.takenOver mark c flow).var v =
      { net.var v with
        mark := if v ∈ (net.directed c flow).reads then mark else (net.var v).mark
        determinedBy :=
          if v = (net.directed c flow).output then some c else (net.var v).determinedBy } := by
  have hmem : ∀ u ∈ (net.directed c flow).reads, u.index < net.vars.size :=
    h.known_directed_reads hc
  have hout : (net.directed c flow).output.index < net.vars.size := h.known_directed_output hc
  -- a variable that is read twice is marked twice, to the same effect as once
  have hmark : ∀ n x, (fun x : Variable => { x with mark := mark })^[n] x =
      { x with mark := if 0 < n then mark else x.mark } := by
    intro n x
    induction n with
    | zero => rfl
    | succ n ih => rw [Function.iterate_succ_apply', ih]; simp
  have hmarked : ((net.alterConstraint c fun k => { k with flow := some flow }).alterVariables
      (net.directed c flow).reads fun x => { x with mark := mark }).var v =
      { net.var v with
        mark := if v ∈ (net.directed c flow).reads then mark else (net.var v).mark } := by
    rw [alterVariables_var (by simpa using hmem), hmark]
    simp only [alterConstraint_var, List.count_pos_iff]
  -- the displaced constraint, if there is one, does not touch the variables
  have hfinal : ∀ net' : Network, net'.vars.size = net.vars.size →
      net'.var v = { net.var v with
        mark := if v ∈ (net.directed c flow).reads then mark else (net.var v).mark } →
      (net'.alterVariable (net.directed c flow).output
        fun x => { x with determinedBy := some c }).var v =
      { net.var v with
        mark := if v ∈ (net.directed c flow).reads then mark else (net.var v).mark
        determinedBy :=
          if v = (net.directed c flow).output then some c else (net.var v).determinedBy } := by
    intro net' hsize hvar
    by_cases hv : v = (net.directed c flow).output
    · subst hv
      rw [alterVariable_var_self (by rw [hsize]; exact hout), hvar]
      simp
    · rw [alterVariable_var_of_ne hv, hvar]
      simp [hv]
  simp only [takenOver, withoutMethod]
  split
  · exact hfinal _ (by simp) hmarked
  · exact hfinal _ (by simp) hmarked

theorem takenOver_current_fields :
    ((net.takenOver mark c flow).var v).constraints = (net.var v).constraints ∧
    ((net.takenOver mark c flow).var v).walkStrength = (net.var v).walkStrength ∧
    ((net.takenOver mark c flow).var v).stay = (net.var v).stay := by
  simp only [takenOver, withoutMethod]
  split <;> simp [alterVariable_var_field, alterVariables_var_field]

/-- Taking over an output keeps the network coherent. -/
theorem Coherent.takenOver (h : net.Coherent) (ha : (net.con c).attached = true)
    (hu : (net.con c).isSatisfied = false) : (net.takenOver mark c flow).Coherent := by
  have hc : c.index < net.constraints.size := known_of_attached ha
  have hself : (net.takenOver mark c flow).con c = net.directed c flow :=
    takenOver_con_self h hc hu
  refine ⟨?_, ?_, ?_, ?_⟩
  · intro v
    rw [keeps_takenOver.mentions, takenOver_current_fields.1, h.listed]
  · intro v d
    rw [takenOver_var h hc, takenOver_isSatisfied_iff h hc hu]
    constructor
    · intro hdet
      by_cases hv : v = (net.directed c flow).output
      · simp only [hv, if_true, Option.some.injEq] at hdet
        subst hdet
        exact ⟨.inl rfl, by rw [hself, hv]⟩
      · simp only [hv, if_false, h.determines] at hdet
        obtain ⟨hs, rfl⟩ := hdet
        exact ⟨.inr ⟨hs, hv⟩, by rw [takenOver_con_of_satisfied h hu hs hv]⟩
    · rintro ⟨rfl | ⟨hs, hne⟩, hout⟩
      · rw [hself] at hout
        simp [← hout]
      · rw [takenOver_con_of_satisfied h hu hs hne] at hout
        subst hout
        simp only [hne, if_false]
        exact h.determinedBy_output hs
  · intro d hd
    rw [keeps_takenOver.attached]
    rcases (takenOver_isSatisfied_iff h hc hu).1 hd with rfl | ⟨hs, -⟩
    · exact ha
    · exact h.attached d hs
  · intro d hd u hmem
    rw [keeps_takenOver.kind] at hmem
    rw [takenOver_size]
    exact h.known d (by simpa using hd) u hmem

end TakenOver

/-! ## Leaving and entering the graph -/

section Detached

variable {net : Network} {c d : ConstraintId} {v : VariableId}

@[simp] theorem detached_count : (net.detached c).constraints.size = net.constraints.size := by
  simp [detached]

@[simp] theorem detached_size : (net.detached c).vars.size = net.vars.size := by
  simp [detached]

@[simp] theorem detached_mark : (net.detached c).mark = net.mark := by
  simp [detached]

theorem detached_con_self (hc : c.index < net.constraints.size) :
    (net.detached c).con c = { net.con c with flow := none, attached := false } := by
  rw [detached, alterConstraint_con_self (by simpa using hc), alterVariables_con]

theorem detached_con_of_ne (h : d ≠ c) : (net.detached c).con d = net.con d := by
  rw [detached, alterConstraint_con_of_ne h, alterVariables_con]

theorem detached_isSatisfied_iff (hc : c.index < net.constraints.size) :
    ((net.detached c).con d).isSatisfied = true ↔ d ≠ c ∧ (net.con d).isSatisfied = true := by
  by_cases hd : d = c
  · subst hd
    simp [detached_con_self hc, Constraint.isSatisfied]
  · simp [detached_con_of_ne hd, hd]

theorem ne_of_detached_attached (hc : c.index < net.constraints.size)
    (hd : ((net.detached c).con d).attached = true) : d ≠ c := by
  rintro rfl
  rw [detached_con_self hc] at hd
  cases hd

theorem detach_detach (x : Variable) : (x.detach c).detach c = x.detach c := by
  simp only [Variable.detach]
  split <;> simp_all

/-- In a coherent network a variable that does not mention `c` has no trace of it. -/
theorem Coherent.detach_eq_self (h : net.Coherent) (hv : v ∉ (net.con c).kind.operands) :
    (net.var v).detach c = net.var v := by
  have hl : (net.var v).constraints.filter (· ≠ c) = (net.var v).constraints := by
    rw [List.filter_eq_self]
    intro d hd
    have : d ≠ c := by
      rintro rfl
      exact hv (h.mem_listed.1 hd).2
    simpa using this
  have hdet : (net.var v).determinedBy ≠ some c := by
    intro hdet
    obtain ⟨-, rfl⟩ := (h.determines v c).1 hdet
    exact hv Constraint.output_mem_operands
  simp only [Variable.detach, hl, if_neg hdet]

theorem detached_var (h : net.Coherent) (hc : c.index < net.constraints.size) :
    (net.detached c).var v = (net.var v).detach c := by
  -- detaching is idempotent, so it does not matter how often `c` mentions the variable
  have hiter : ∀ n x, 0 < n → (fun x : Variable => x.detach c)^[n] x = x.detach c := by
    intro n x hn
    induction n with
    | zero => omega
    | succ n ih =>
      rw [Function.iterate_succ_apply']
      rcases Nat.eq_zero_or_pos n with rfl | hpos
      · rfl
      · rw [ih hpos, detach_detach]
  rw [detached, alterConstraint_var, alterVariables_var (h.known c hc)]
  by_cases hv : v ∈ (net.con c).kind.operands
  · exact hiter _ _ (List.count_pos_iff.2 hv)
  · rw [List.count_eq_zero.2 hv, h.detach_eq_self hv]
    rfl

theorem mentions_detached (hc : c.index < net.constraints.size) :
    (net.detached c).mentions v = (net.mentions v).filter (· ≠ c) := by
  simp only [mentions, detached_count, List.filter_flatMap]
  congr 1
  funext i
  by_cases hi : (⟨i⟩ : ConstraintId) = c
  · subst hi
    simp [detached_con_self hc]
  · simp [detached_con_of_ne hi, hi]

/-- Taking a constraint out of the graph keeps the network coherent. -/
theorem Coherent.detached (h : net.Coherent) (hc : c.index < net.constraints.size) :
    (net.detached c).Coherent := by
  refine ⟨?_, ?_, ?_, ?_⟩
  · intro v
    rw [detached_var h hc, mentions_detached hc, ← h.listed]
    rfl
  · intro v d
    rw [detached_var h hc, detached_isSatisfied_iff hc]
    by_cases hd : d = c
    · subst hd
      simp only [Variable.detach]
      split <;> simp_all
    · -- only the record of `c` is cleared
      have hdet : ((net.var v).detach c).determinedBy = some d ↔
          (net.var v).determinedBy = some d := by
        simp only [Variable.detach]
        split
        next hx =>
          have hcd : c ≠ d := Ne.symm hd
          simp [hx, hcd]
        next => rfl
      rw [hdet, h.determines, detached_con_of_ne hd]
      simp [hd]
  · intro d hd
    obtain ⟨hne, hs⟩ := (detached_isSatisfied_iff hc).1 hd
    rw [detached_con_of_ne hne]
    exact h.attached d hs
  · intro d hd u hu
    rw [detached_size]
    apply h.known d (by simpa using hd)
    by_cases hne : d = c
    · subst hne
      rwa [detached_con_self hc] at hu
    · rwa [detached_con_of_ne hne] at hu

end Detached

/-- The network in which a new constraint, unsatisfied, is part of the graph. -/
def registered (net : Network) (kind : Kind) (strength : Strength) : Network :=
  let attached := net.alterVariables kind.operands (·.attach ⟨net.constraints.size⟩)
  { attached with
    constraints := net.constraints.push { kind, strength, attached := true }
    journal := net.journal.push (.adding ⟨net.constraints.size⟩ kind strength) }

section Registered

variable {net : Network} {kind : Kind} {strength : Strength} {c : ConstraintId} {v : VariableId}

theorem alterVariables_journal {vs : List VariableId} {f : Variable → Variable} :
    (net.alterVariables vs f).journal = net.journal := by
  unfold alterVariables
  induction vs generalizing net with
  | nil => rfl
  | cons v vs ih => rw [List.foldl_cons, ih, alterVariable]

theorem ends_register {ok : ConstraintId → Network → Prop}
    {fail : Failure SolveError → Network → Prop}
    (h : ∀ v ∈ kind.operands, v.index < net.vars.size) :
    Ends (register kind strength) net ok fail ↔
      ok ⟨net.constraints.size⟩ (net.registered kind strength) := by
  simp only [register, ends_bind, ends_get, ends_attachTo h, ends_modify, ends_note, ends_pure,
    alterVariables_constraints, alterVariables_journal]
  rfl

@[simp] theorem registered_count :
    (net.registered kind strength).constraints.size = net.constraints.size + 1 := by
  simp [registered]

@[simp] theorem registered_size :
    (net.registered kind strength).vars.size = net.vars.size := by
  simp [registered]

@[simp] theorem registered_mark : (net.registered kind strength).mark = net.mark := by
  simp [registered]

theorem registered_con_new :
    (net.registered kind strength).con ⟨net.constraints.size⟩ =
      { kind, strength, attached := true } := by
  simp [registered, con, getConstraint?]

theorem registered_new_attached :
    ((net.registered kind strength).con ⟨net.constraints.size⟩).attached = true := by
  rw [registered_con_new]

theorem registered_con_of_ne (h : c ≠ ⟨net.constraints.size⟩) :
    (net.registered kind strength).con c = net.con c := by
  have hi : c.index ≠ net.constraints.size := by
    intro hi
    apply h
    cases c
    simp_all
  simp [registered, con, getConstraint?, Array.getElem?_push, hi]

theorem registered_isSatisfied :
    ((net.registered kind strength).con c).isSatisfied = (net.con c).isSatisfied := by
  by_cases hc : c = ⟨net.constraints.size⟩
  · subst hc
    rw [registered_con_new, con_of_unknown (by simp)]
    rfl
  · rw [registered_con_of_ne hc]

theorem registered_new_unsatisfied :
    ((net.registered kind strength).con ⟨net.constraints.size⟩).isSatisfied = false := by
  rw [registered_con_new]
  rfl

/-- Registering appends the new id once per mention, and does nothing else to a variable. -/
theorem registered_var (h : ∀ v ∈ kind.operands, v.index < net.vars.size) :
    (net.registered kind strength).var v =
      { net.var v with
        constraints := (net.var v).constraints ++
          List.replicate (kind.operands.count v) ⟨net.constraints.size⟩ } := by
  have hiter : ∀ (c : ConstraintId) n x, (fun x : Variable => x.attach c)^[n] x =
      { x with constraints := x.constraints ++ List.replicate n c } := by
    intro c n x
    induction n with
    | zero => simp
    | succ n ih => rw [Function.iterate_succ_apply', ih]; simp [Variable.attach, List.replicate_succ']
  change (net.alterVariables kind.operands (·.attach ⟨net.constraints.size⟩)).var v = _
  rw [alterVariables_var h, hiter]

theorem mentions_registered :
    (net.registered kind strength).mentions v =
      net.mentions v ++ List.replicate (kind.operands.count v) ⟨net.constraints.size⟩ := by
  have hold : ∀ i ∈ List.range net.constraints.size,
      (net.registered kind strength).con ⟨i⟩ = net.con ⟨i⟩ := by
    intro i hi
    apply registered_con_of_ne
    simp only [ne_eq, ConstraintId.mk.injEq]
    exact Nat.ne_of_lt (List.mem_range.1 hi)
  simp only [mentions, registered_count, List.range_succ, List.flatMap_append,
    List.flatMap_cons, List.flatMap_nil, List.append_nil, registered_con_new, if_true]
  congr 1
  apply List.flatMap_congr
  intro i hi
  rw [hold i hi]

/-- A new constraint on known variables keeps the network coherent. -/
theorem Coherent.registered (h : net.Coherent)
    (hk : ∀ v ∈ kind.operands, v.index < net.vars.size) :
    (net.registered kind strength).Coherent := by
  refine ⟨?_, ?_, ?_, ?_⟩
  · intro v
    rw [registered_var hk, mentions_registered, ← h.listed]
  · intro v c
    rw [registered_var hk, registered_isSatisfied]
    by_cases hc : c = ⟨net.constraints.size⟩
    · subst hc
      rw [h.determines, con_of_unknown (by simp)]
      simp [Constraint.isSatisfied]
    · rw [registered_con_of_ne hc]
      exact h.determines v c
  · intro c hc
    rw [registered_isSatisfied] at hc
    by_cases hnew : c = ⟨net.constraints.size⟩
    · subst hnew
      exact registered_new_attached
    · rw [registered_con_of_ne hnew]
      exact h.attached c hc
  · intro c hc v hv
    rw [registered_size]
    by_cases hnew : c = ⟨net.constraints.size⟩
    · subst hnew
      rw [registered_con_new] at hv
      exact hk v hv
    · rw [registered_con_of_ne hnew] at hv
      apply h.known c _ v hv
      rw [registered_count] at hc
      have : c.index ≠ net.constraints.size := fun hi => hnew (by cases c; simp_all)
      omega

end Registered

/-- The network with one more variable, which no constraint mentions. -/
def withVariable (net : Network) (name : String) (value : Float) : Network :=
  { net with vars := net.vars.push { name, value } }

section WithVariable

variable {net : Network} {name : String} {value : Float} {v : VariableId}

@[simp] theorem withVariable_size :
    (net.withVariable name value).vars.size = net.vars.size + 1 := by
  simp [withVariable]

theorem withVariable_var_new :
    (net.withVariable name value).var ⟨net.vars.size⟩ = { name, value } := by
  simp [withVariable, var, getVariable?]

theorem withVariable_var_of_ne (h : v ≠ ⟨net.vars.size⟩) :
    (net.withVariable name value).var v = net.var v := by
  have hi : v.index ≠ net.vars.size := by
    intro hi
    apply h
    cases v
    simp_all
  simp [withVariable, var, getVariable?, Array.getElem?_push, hi]

/-- What a new variable records is what an unknown one stands for, its name and value apart. -/
theorem withVariable_var_field {γ : Type} {p : Variable → γ}
    (hp : ∀ (name : String) (value : Float), p { name, value } = p { name := "", value := 0 }) :
    p ((net.withVariable name value).var v) = p (net.var v) := by
  by_cases hv : v = ⟨net.vars.size⟩
  · subst hv
    rw [withVariable_var_new, hp, var_of_unknown (by simp)]
  · rw [withVariable_var_of_ne hv]

theorem Coherent.withVariable (h : net.Coherent) : (net.withVariable name value).Coherent := by
  refine ⟨?_, ?_, h.attached, ?_⟩
  · intro v
    rw [withVariable_var_field (p := Variable.constraints) fun _ _ => rfl, h.listed]
    rfl
  · intro v c
    rw [withVariable_var_field (p := Variable.determinedBy) fun _ _ => rfl]
    exact h.determines v c
  · intro c hc v hv
    rw [withVariable_size]
    exact Nat.lt_succ_of_lt (h.known c hc v hv)

end WithVariable

theorem coherent_empty {patience : Nat} : (Network.empty patience).Coherent := by
  have hvar : ∀ v, (Network.empty patience).var v = { name := "", value := 0 } :=
    fun v => var_of_unknown (by simp [Network.empty])
  have hcon : ∀ c, (Network.empty patience).con c = { kind := .stay ⟨0⟩, strength := .weakest } :=
    fun c => con_of_unknown (by simp [Network.empty])
  refine ⟨?_, ?_, ?_, ?_⟩
  · intro v
    rw [hvar]
    rfl
  · intro v c
    simp [hvar, hcon, Constraint.isSatisfied]
  · intro c hc
    simp [hcon, Constraint.isSatisfied] at hc
  · intro c hc
    simp [Network.empty] at hc

end Network

end ConstraintHierarchy
