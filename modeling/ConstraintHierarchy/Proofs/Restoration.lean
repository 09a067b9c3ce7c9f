import ConstraintHierarchy.Proofs.Annotations
import ConstraintHierarchy.Proofs.Dataflow

/-!
# Where a roll-back leads

A constraint that closes a cycle is rolled back by putting the values back and retracting it. To
retract it is to choose methods anew for what it has displaced, and to recalculate everything
downstream, so this need not lead back to where the addition started from. It does if the displaced
constraint is the only one that looks for a method there, if it is given the method it had, and if
recalculating finds every value up to date.

That the annotations come back is not a matter of how they were recalculated: in an acyclic network
there is only one way for all of them to be exact.

## Main definitions

* `Network.Holds`: the output of a constraint has the value that its method gives it
* `Network.Suspended`: the network but for one constraint that has lost its method
* `Network.Restores`: the network again, but for marks and for constraints outside the graph

## Main results

* `Network.current_eq_of_exact`: exact annotations are unique
* `Network.Suspended.restores`: what has its methods back has everything back
* `Network.Suspended.ends_retryLevels`: how the method comes back
-/

namespace ConstraintHierarchy.Network

open Solve Relation

/-! ## Exact annotations are unique -/

/-- Two networks whose annotations are exact agree on them wherever they agree on the methods, as long
as the dataflow of one of them is acyclic. -/
theorem current_eq_of_exact {net net' : Network} {p : VariableId → Prop} (h : net.Ordered)
    (hex : ∀ v, net.Exact v) (hex' : ∀ v, net'.Exact v)
    (hdet : ∀ v, p v → (net'.var v).determinedBy = (net.var v).determinedBy)
    (hcon : ∀ v d, p v → (net.var v).determinedBy = some d →
      net'.con d = net.con d ∧ ∀ u ∈ (net.con d).reads, p u)
    {v : VariableId} (hv : p v) : (net'.var v).current = (net.var v).current := by
  -- by induction on a bound for the height of the constraint that computes the variable
  have hbound : ∀ n v, p v → (∀ d, (net.var v).determinedBy = some d → net.height d < n) →
      (net'.var v).current = (net.var v).current := by
    intro n
    induction n with
    | zero =>
      intro v hv hn
      rw [show (net'.var v).current = net'.due v from hex' v, hex v]
      exact due_congr (hdet v hv) fun d hd => absurd (hn d hd) (Nat.not_lt_zero _)
    | succ n ih =>
      intro v hv hn
      rw [show (net'.var v).current = net'.due v from hex' v, hex v]
      refine due_congr (hdet v hv) fun d hd => ?_
      obtain ⟨hsame, hreads⟩ := hcon v d hv hd
      refine annotationFor_congr hsame fun u hu => ih u (hreads u hu) fun e he => ?_
      obtain ⟨hes, rfl⟩ := (h.coherent.determines u e).1 he
      have hds := ((h.coherent.determines v d).1 hd).1
      have hlt := h.acyclic.height_lt_height hes ⟨d, hds, hu, rfl⟩
      have hle := hn d hd
      omega
  refine hbound net.constraints.size v hv fun d hd => ?_
  exact h.acyclic.height_lt ((h.coherent.determines v d).1 hd).1

/-! ## Values that are up to date -/

/-- The output of `d` has the value that its method gives it. -/
def Holds (net : Network) (d : ConstraintId) : Prop :=
  (net.con d).compute net.value = some (net.value (net.con d).output)

section Holds

variable {net net' start : Network} {c d : ConstraintId} {v : VariableId} {mark n : Nat}

theorem Holds.congr (h : net.Holds d) (hc : net'.con d = net.con d)
    (hv : ∀ v, net'.value v = net.value v) : net'.Holds d := by
  rw [Holds, hc, hv, funext hv]
  exact h

/-- Recalculating what holds changes no value. -/
theorem Holds.recalculated_value (h : net.Holds d) : (net.recalculated d).value v = net.value v := by
  by_cases hv : v = (net.con d).output
  · subst hv
    by_cases hk : (net.con d).output.index < net.vars.size
    · rw [value, recalculated_var_output hk, refreshed, h]
      show (if (net.annotationFor d).stay then net.value (net.con d).output
        else (net.var (net.con d).output).value) = _
      split <;> rfl
    · rw [value, value, var_of_unknown (by simpa using hk), var_of_unknown hk]
  · rw [value, recalculated_var_of_ne hv, value]

/-- The invariant of a walk below `c` that changes no value. -/
structure Confirming (start : Network) (c : ConstraintId) (net : Network)
    (q : List ConstraintId) : Prop extends Visiting start net q where
  values : ∀ v, net.value v = start.value v
  below : ∀ d ∈ q, start.Downstream (start.con c).output (start.con d).output

theorem ends_walk_values (hcoh : start.Coherent) (hsat : (start.con c).isSatisfied = true)
    (hholds : ∀ d, (start.con d).isSatisfied = true →
      start.Downstream (start.con c).output (start.con d).output → start.Holds d) :
    Ends (walk mark n [c]) start
      (fun _ net' => SameGraph start net' ∧ ∀ v, net'.value v = start.value v)
      (fun _ _ => True) := by
  have inv : WalkInvariant mark (fun _ _ => True) (Confirming start c) :=
    { coherent := fun h => hcoh.of_sameGraph h.graph
      satisfied := fun h d hd => by rw [h.graph.con]; exact h.queued d hd
      step := by
        intro net d q h _ _
        have hd : start.Downstream (start.con c).output (start.con d).output := h.below d (by simp)
        have hholds' : net.Holds d :=
          (hholds d (h.queued d (by simp)) hd).congr (congrFun h.graph.con d) h.values
        refine ⟨h.toVisiting.step hcoh, fun v => ?_, fun e he => ?_⟩
        · rw [hholds'.recalculated_value, h.values]
        · rcases List.mem_append.1 he with he | he
          · exact h.below e (List.mem_cons_of_mem d he)
          · rw [(hcoh.of_sameGraph h.graph).mem_consumersOf, h.graph.con] at he
            exact hd.tail ⟨e, he.1, he.2.1, rfl⟩
      refused := fun _ _ _ => trivial
      endless := fun _ => trivial }
  have hinit : Confirming start c start [c] := by
    refine ⟨visiting_start hsat, fun _ => rfl, fun d hd => ?_⟩
    rw [List.mem_singleton.1 hd]
  refine (ends_walk inv n hinit).mono_ok ?_
  intro met net' hend
  cases met with
  | none => exact ⟨hend.graph, hend.values⟩
  | some v =>
    obtain ⟨d, q, hmet, -, -⟩ := hend
    exact ⟨hmet.graph, hmet.values⟩

/-- The invariant of a release of `out` that changes no value: candidates are unsatisfied constraints
on variables downstream, and those on `out` itself are found. -/
structure Retracing (start : Network) (out : VariableId) (net : Network)
    (us : List ConstraintId) (vs : List VariableId) (ds : List ConstraintId) : Prop
    extends Freeing start net us vs ds where
  values : ∀ v, net.value v = start.value v
  below : ∀ v ∈ vs, start.Downstream out v
  next : ∀ d ∈ ds, start.Downstream out (start.con d).output
  candidates : ∀ u ∈ us, (start.con u).isSatisfied = false ∧
    ∃ v ∈ (start.con u).kind.operands, start.Downstream out v
  scanned : out ∈ vs ∨ ∀ u, (start.con u).attached = true → (start.con u).isSatisfied = false →
    out ∈ (start.con u).kind.operands → u ∈ us

theorem releaseInvariant_retracing {out : VariableId} (hcoh : start.Coherent)
    (hholds : ∀ d, (start.con d).isSatisfied = true →
      start.Downstream out (start.con d).output → start.Holds d) :
    ReleaseInvariant (fun _ _ => True) (Retracing start out) where
  coherent h := hcoh.of_sameGraph h.graph
  known h v hv := by rw [h.graph.variableCount]; exact h.known v hv
  satisfied h d hd := by rw [h.graph.con]; exact h.satisfied d hd
  scan {net found v q} h := by
    have hnet : net.Coherent := hcoh.of_sameGraph h.graph
    have hv : start.Downstream out v := h.below v (by simp)
    refine ⟨h.toFreeing.scan hcoh, h.values, fun w hw => h.below w (List.mem_cons_of_mem v hw), ?_, ?_,
      ?_⟩
    · intro d hd
      rw [hnet.mem_consumersOf, h.graph.con] at hd
      exact hv.tail ⟨d, hd.1, hd.2.1, rfl⟩
    · intro u hu
      rcases mem_withUnsatisfied.1 hu with hu | ⟨hu, hun⟩
      · exact h.candidates u hu
      · rw [hnet.mem_listed, h.graph.con] at hu
        rw [h.graph.con] at hun
        exact ⟨hun, v, hu.2, hv⟩
    · by_cases hvo : v = out
      · refine .inr fun u ha hu ho => mem_withUnsatisfied.2 (.inr ?_)
        rw [hnet.mem_listed, h.graph.con, hvo]
        exact ⟨⟨ha, ho⟩, hu⟩
      · rcases h.scanned with hout | hall
        · exact .inl ((List.mem_cons.1 hout).resolve_left (Ne.symm hvo))
        · exact .inr fun u ha hu ho => mem_withUnsatisfied.2 (.inl (hall u ha hu ho))
  step {net found q d ds} h _ := by
    have hd : start.Downstream out (start.con d).output := h.next d (by simp)
    have hholds' : net.Holds d :=
      (hholds d (h.satisfied d (by simp)) hd).congr (congrFun h.graph.con d) h.values
    refine ⟨h.toFreeing.step hcoh, fun v => ?_, fun v hv => ?_,
      fun e he => h.next e (List.mem_cons_of_mem d he), h.candidates, ?_⟩
    · rw [hholds'.recalculated_value, h.values]
    · rcases List.mem_append.1 hv with hv | hv
      · exact h.below v hv
      · rw [List.mem_singleton.1 hv, h.graph.con]
        exact hd
    · exact h.scanned.imp_left fun hout => List.mem_append_left _ hout
  refused _ _ := trivial
  endless _ := trivial

theorem ends_release_values (h : net.Coherent) (hsat : (net.con c).isSatisfied = true)
    (hholds : ∀ d, ((net.detached c).con d).isSatisfied = true →
      (net.detached c).Downstream (net.con c).output ((net.detached c).con d).output →
      (net.detached c).Holds d) :
    Ends (release (net.con c).output) (net.detached c)
      (fun found net' => Retracing (net.detached c) (net.con c).output net' found [] [])
      (fun _ _ => True) := by
  have hc : c.index < net.constraints.size := known_of_isSatisfied hsat
  have hout : (net.con c).output.index < (net.detached c).vars.size := by
    rw [detached_size]
    exact h.known_output hc
  refine ends_release (releaseInvariant_retracing (h.detached hc) hholds) hout ?_
  refine ⟨freeing_released h hsat, fun v => alterVariable_var_field fun _ => rfl, fun v hv => ?_,
    by simp, by simp, .inl (by simp)⟩
  rw [List.mem_singleton.1 hv]

end Holds

/-! ## A network that waits for one method -/

/-- The graph and the values of `cur` are those of `net`, but `o`, if there is one, has lost its
method; and there is one more constraint, which is not in the graph. -/
structure SameBut (net : Network) (o : Option ConstraintId) (cur : Network) : Prop where
  coherent : cur.Coherent
  variableCount : cur.vars.size = net.vars.size
  constraintCount : cur.constraints.size = net.constraints.size + 1
  value : ∀ v, cur.value v = net.value v
  con : ∀ d, d.index < net.constraints.size →
    cur.con d = if o = some d then { net.con d with flow := none } else net.con d
  added : ∀ d, net.constraints.size ≤ d.index → (cur.con d).attached = false

/-- The same of a network whose annotations are up to date. -/
structure Suspended (net : Network) (o : Option ConstraintId) (cur : Network) : Prop
    extends SameBut net o cur where
  regular : cur.Regular
  settled : cur.Settled

/-- The network `cur` is `net`, apart from marks and constraints that are not in the graph. -/
structure Restores (net cur : Network) : Prop where
  variableCount : cur.vars.size = net.vars.size
  value : ∀ v, cur.value v = net.value v
  current : ∀ v, (cur.var v).current = (net.var v).current
  determinedBy : ∀ v, (cur.var v).determinedBy = (net.var v).determinedBy
  listed : ∀ v, (cur.var v).constraints = (net.var v).constraints
  con : ∀ d, d.index < net.constraints.size → cur.con d = net.con d
  added : ∀ d, net.constraints.size ≤ d.index → (cur.con d).attached = false

section SameBut

variable {net cur cur' : Network} {o : Option ConstraintId} {d : ConstraintId} {v w : VariableId}

theorem SameBut.of_sameGraph (h : SameBut net o cur) (hs : SameGraph cur cur')
    (hv : ∀ v, cur'.value v = cur.value v) : SameBut net o cur' where
  coherent := h.coherent.of_sameGraph hs
  variableCount := hs.variableCount.trans h.variableCount
  constraintCount := hs.constraintCount.trans h.constraintCount
  value v := (hv v).trans (h.value v)
  con d hd := by rw [hs.con]; exact h.con d hd
  added d hd := by rw [hs.con]; exact h.added d hd

theorem SameBut.isSatisfied_iff (h : SameBut net o cur) :
    (cur.con d).isSatisfied = true ↔ (net.con d).isSatisfied = true ∧ o ≠ some d := by
  by_cases hd : d.index < net.constraints.size
  · rw [h.con d hd]
    split
    next ho => simp [ho, Constraint.isSatisfied]
    next ho => simp [ho]
  · have hna : (cur.con d).attached ≠ true := by simp [h.added d (Nat.le_of_not_lt hd)]
    constructor
    · exact fun hs => absurd (h.coherent.attached d hs) hna
    · exact fun hs => absurd (known_of_isSatisfied hs.1) hd

theorem SameBut.con_of_satisfied (h : SameBut net o cur)
    (hd : (cur.con d).isSatisfied = true) : cur.con d = net.con d := by
  obtain ⟨hs, ho⟩ := h.isSatisfied_iff.1 hd
  rw [h.con d (known_of_isSatisfied hs), if_neg ho]

theorem SameBut.downstream (h : SameBut net o cur) (hp : cur.Downstream v w) :
    net.Downstream v w := by
  refine ReflTransGen.mono ?_ v w hp
  rintro u x ⟨d, hd, hr, ho⟩
  rw [h.con_of_satisfied hd] at hr ho
  exact ⟨d, (h.isSatisfied_iff.1 hd).1, hr, ho⟩

/-- Whatever `o` has not computed is computed as before. -/
theorem SameBut.determinedBy_of_ne (h : SameBut net o cur) (hnet : net.Coherent)
    (hv : ∀ d, o = some d → (net.con d).output ≠ v) :
    (cur.var v).determinedBy = (net.var v).determinedBy := by
  apply Option.ext
  intro d
  rw [h.coherent.determines, hnet.determines]
  constructor
  · rintro ⟨hs, ho⟩
    rw [h.con_of_satisfied hs] at ho
    exact ⟨(h.isSatisfied_iff.1 hs).1, ho⟩
  · rintro ⟨hs, ho⟩
    have hs' : (cur.con d).isSatisfied = true := h.isSatisfied_iff.2 ⟨hs, fun he => hv d he ho⟩
    rw [h.con_of_satisfied hs']
    exact ⟨hs, ho⟩

theorem SameBut.mentions (h : SameBut net o cur) : cur.mentions v = net.mentions v := by
  have hold : ∀ i ∈ List.range net.constraints.size,
      (cur.con ⟨i⟩).attached = (net.con ⟨i⟩).attached ∧ (cur.con ⟨i⟩).kind = (net.con ⟨i⟩).kind := by
    intro i hi
    rw [h.con ⟨i⟩ (List.mem_range.1 hi)]
    split <;> exact ⟨rfl, rfl⟩
  have hnew : (cur.con ⟨net.constraints.size⟩).attached = false := h.added _ (Nat.le_refl _)
  rw [Network.mentions, h.constraintCount, List.range_succ, List.flatMap_append, Network.mentions]
  have hlast : [net.constraints.size].flatMap (fun i => List.replicate
      (if (cur.con ⟨i⟩).attached then (cur.con ⟨i⟩).kind.operands.count v else 0)
      (⟨i⟩ : ConstraintId)) = [] := by
    simp [hnew]
  rw [hlast, List.append_nil]
  apply List.flatMap_congr
  intro i hi
  rw [(hold i hi).1, (hold i hi).2]

end SameBut

section Suspended

variable {net cur : Network} {v w : VariableId}

/-- What has its methods back has everything back. -/
theorem Suspended.restores (h : Suspended net none cur) (hnet : net.Ordered)
    (hset : net.Settled) : Restores net cur := by
  have hcon : ∀ d, d.index < net.constraints.size → cur.con d = net.con d :=
    fun d hd => by simpa using h.con d hd
  have hdet : ∀ v, (cur.var v).determinedBy = (net.var v).determinedBy :=
    fun v => h.determinedBy_of_ne hnet.coherent nofun
  refine ⟨h.variableCount, h.value, fun v => ?_, hdet, fun v => ?_, hcon, h.added⟩
  · refine current_eq_of_exact (p := fun _ => True) hnet hset.exact h.settled.exact
      (fun v _ => hdet v) (fun v d _ hd => ⟨hcon d ?_, fun _ _ => trivial⟩) trivial
    exact known_of_isSatisfied ((hnet.coherent.determines v d).1 hd).1
  · rw [h.coherent.listed, hnet.coherent.listed, h.mentions]

/-! ### Giving the method back -/

section Method

variable {c : ConstraintId} {flow : Flow}

/-- The method that `c` had. -/
theorem Suspended.directed (h : Suspended net (some c) cur) (hf : (net.con c).flow = some flow) :
    cur.directed c flow = net.con c := by
  have hc : c.index < net.constraints.size :=
    known_of_isSatisfied (Constraint.isSatisfied_iff.2 ⟨flow, hf⟩)
  show { cur.con c with flow := some flow } = net.con c
  rw [h.con c hc, if_pos rfl, ← hf]

theorem Suspended.undetermined (h : Suspended net (some c) cur) (hnet : net.Coherent)
    (hs : (net.con c).isSatisfied = true) :
    (cur.var (net.con c).output).determinedBy = none := by
  rw [Option.eq_none_iff_forall_ne_some]
  intro d hd
  obtain ⟨hds, hdo⟩ := (h.coherent.determines _ d).1 hd
  rw [h.con_of_satisfied hds] at hdo
  obtain ⟨hds, hdc⟩ := h.isSatisfied_iff.1 hds
  have hboth : (net.var (net.con c).output).determinedBy = some d :=
    (hnet.determines _ d).2 ⟨hds, hdo⟩
  rw [hnet.determinedBy_output hs] at hboth
  exact hdc hboth

/-- What `c` has read does not depend on its output, so it is annotated as before. -/
theorem Suspended.current_of_reads (h : Suspended net (some c) cur) (hnet : net.Ordered)
    (hset : net.Settled) (hs : (net.con c).isSatisfied = true) (hw : w ∈ (net.con c).reads) :
    (cur.var w).current = (net.var w).current := by
  have hbelow : ¬ net.Downstream (net.con c).output w :=
    fun hp => hnet.acyclic w (.head' ⟨c, hs, hw, rfl⟩ hp)
  refine current_eq_of_exact (p := fun v => ¬ net.Downstream (net.con c).output v) hnet
    hset.exact h.settled.exact ?_ ?_ hbelow
  · intro v hv
    refine h.determinedBy_of_ne hnet.coherent ?_
    rintro d ⟨⟩ rfl
    exact hv .refl
  · intro v d hv hd
    obtain ⟨hds, rfl⟩ := (hnet.coherent.determines v d).1 hd
    refine ⟨h.con_of_satisfied (h.isSatisfied_iff.2 ⟨hds, ?_⟩), fun u hu hp => ?_⟩
    · rintro ⟨⟩
      exact hv .refl
    · exact hv (hp.tail ⟨d, hds, hu, rfl⟩)

/-- The output that was lost is free now, so `c` is given the method it had, unless on a tie. -/
theorem Suspended.flowFor (h : Suspended net (some c) cur) (hnet : net.Ordered)
    (hset : net.Settled) (hchosen : (net.con c).Chosen) (hf : (net.con c).flow = some flow)
    (hback : flow = .backward → ∀ w, (net.con c).input = some w →
      (net.var w).walkStrength ≠ .weakest) :
    cur.flowFor (cur.mark + 1) c = some flow := by
  have hs : (net.con c).isSatisfied = true := Constraint.isSatisfied_iff.2 ⟨flow, hf⟩
  have hc : c.index < net.constraints.size := known_of_isSatisfied hs
  have hfresh : ∀ v, (cur.var v).mark ≠ cur.mark + 1 :=
    fun v => Nat.ne_of_lt (Nat.lt_succ_of_le (h.regular.marksPast v))
  have hfree : (cur.var (net.con c).output).walkStrength = .weakest :=
    congrArg Annotation.walkStrength
      ((h.settled.exact _).trans (due_of_none (h.undetermined hnet.coherent hs)))
  have hstrength : (cur.con c).strength = (net.con c).strength := by
    rw [h.con c hc, if_pos rfl]
  have hweak : ∀ {s : Strength}, s ≠ .weakest → s.rank < Strength.weakest.rank :=
    fun {s} hne => Nat.lt_of_le_of_ne s.rank_le_six fun heq => hne (Strength.rank_injective heq)
  apply flowFor_eq_some
  · rw [h.directed hf, hstrength]
    refine ⟨hfresh _, ?_⟩
    rw [hfree]
    exact hweak hchosen.strength
  · rw [h.directed hf]
    exact fun hin => Option.some.inj (hf.symm.trans (hchosen.forward hin))
  · rw [h.directed hf, hfree]
    intro w hw
    refine ⟨hfresh w, fun _ => Nat.not_lt.2 (Strength.rank_le_six _), fun hflow => ?_⟩
    have hsame : (cur.var w).walkStrength = (net.var w).walkStrength :=
      congrArg Annotation.walkStrength
        (h.current_of_reads hnet hset hs (Constraint.mem_reads.2 (.inl hw)))
    rw [hsame]
    exact hweak (hback hflow w hw)

/-- The network at the moment when `c` has its method back. -/
def reinstated (cur : Network) (c : ConstraintId) (flow : Flow) : Network :=
  ({ cur with mark := cur.mark + 1 } : Network).takenOver (cur.mark + 1) c flow

theorem Suspended.attached (h : Suspended net (some c) cur) (hnet : net.Coherent)
    (hs : (net.con c).isSatisfied = true) : (cur.con c).attached = true := by
  rw [h.con c (known_of_isSatisfied hs), if_pos rfl]
  exact hnet.attached c hs

theorem Suspended.unsatisfied (h : Suspended net (some c) cur) :
    (cur.con c).isSatisfied = false := by
  rw [Bool.eq_false_iff]
  exact fun hs => (h.isSatisfied_iff.1 hs).2 rfl

/-- Everything has the method it had in `net`. -/
theorem Suspended.reinstated_con (h : Suspended net (some c) cur) (hnet : net.Coherent)
    (hf : (net.con c).flow = some flow) :
    (∀ d, d.index < net.constraints.size → (cur.reinstated c flow).con d = net.con d) ∧
    ∀ d, net.constraints.size ≤ d.index → (cur.reinstated c flow).con d = cur.con d := by
  have hs : (net.con c).isSatisfied = true := Constraint.isSatisfied_iff.2 ⟨flow, hf⟩
  have hc : c.index < net.constraints.size := known_of_isSatisfied hs
  have hfresh : SameGraph cur { cur with mark := cur.mark + 1 } := sameGraph_of_eq rfl rfl
  have hcoh := h.coherent.of_sameGraph hfresh
  have hne : ∀ d, d ≠ c → (cur.reinstated c flow).con d = cur.con d := by
    intro d hd
    refine takenOver_con_of_ne hd ?_
    show (cur.var (cur.directed c flow).output).determinedBy ≠ some d
    rw [h.directed hf, h.undetermined hnet hs]
    nofun
  refine ⟨fun d hd => ?_, fun d hd => hne d ?_⟩
  · by_cases hdc : d = c
    · subst hdc
      refine (takenOver_con_self hcoh ?_ h.unsatisfied).trans (h.directed hf)
      exact known_of_attached (h.attached hnet hs)
    · rw [hne d hdc, h.con d hd, if_neg fun he => hdc (Option.some.inj he).symm]
  · rintro rfl
    exact Nat.not_le_of_lt hc hd

theorem Suspended.reinstated_value (h : Suspended net (some c) cur) (hnet : net.Coherent)
    (hs : (net.con c).isSatisfied = true) :
    (cur.reinstated c flow).value v = net.value v := by
  have hfresh : SameGraph cur { cur with mark := cur.mark + 1 } := sameGraph_of_eq rfl rfl
  have hcoh := h.coherent.of_sameGraph hfresh
  rw [← h.value v]
  unfold reinstated Network.value
  rw [takenOver_var hcoh (known_of_attached (h.attached hnet hs))]
  rfl

/-- If everything downstream of `c` holds, `c` finds its method again and no value changes. -/
theorem Suspended.ends_reinstall (h : Suspended net (some c) cur) (hnet : net.Ordered)
    (hset : net.Settled) (hchosen : (net.con c).Chosen) (hf : (net.con c).flow = some flow)
    (hback : flow = .backward → ∀ w, (net.con c).input = some w →
      (net.var w).walkStrength ≠ .weakest)
    (hholds : ∀ d, (net.con d).isSatisfied = true →
      net.Downstream (net.con c).output (net.con d).output → net.Holds d) (n : Nat) :
    Ends (establish n c) cur
      (fun _ cur' => SameGraph (cur.reinstated c flow) cur' ∧ ∀ v, cur'.value v = net.value v)
      (fun _ _ => True) := by
  have hs : (net.con c).isSatisfied = true := Constraint.isSatisfied_iff.2 ⟨flow, hf⟩
  have ha := h.attached hnet.coherent hs
  have hfresh : SameGraph cur { cur with mark := cur.mark + 1 } := sameGraph_of_eq rfl rfl
  have hcoh := h.coherent.of_sameGraph hfresh
  obtain ⟨hold, hnew⟩ := h.reinstated_con hnet.coherent hf
  have hvalue : ∀ v, (cur.reinstated c flow).value v = net.value v :=
    fun v => h.reinstated_value hnet.coherent hs
  -- a satisfied constraint is one of `net`
  have hsat : ∀ d, ((cur.reinstated c flow).con d).isSatisfied = true →
      d.index < net.constraints.size := by
    intro d hd
    by_contra hlt
    rw [hnew d (Nat.le_of_not_lt hlt)] at hd
    exact hlt (known_of_isSatisfied (h.isSatisfied_iff.1 hd).1)
  have hdown : ∀ {v w}, (cur.reinstated c flow).Downstream v w → net.Downstream v w := by
    intro v w hp
    refine ReflTransGen.mono ?_ v w hp
    rintro u x ⟨d, hd, hr, ho⟩
    have hk := hsat d hd
    rw [hold d hk] at hd hr ho
    exact ⟨d, hd, hr, ho⟩
  cases n with
  | zero => exact trivial
  | succ n =>
    have hinstall : Ends (install (withdrawUsing (establish n)) (cur.mark + 1) c)
        { cur with mark := cur.mark + 1 }
        (fun o cur' => o = none ∧ SameGraph (cur.reinstated c flow) cur' ∧
          ∀ v, cur'.value v = net.value v) (fun _ _ => True) := by
      have hflow := h.flowFor hnet hset hchosen hf hback
      refine Network.ends_install hcoh ha h.unsatisfied (fun _ _ => trivial) ?_ ?_
      · intro hnone
        cases hflow.symm.trans hnone
      · intro flow' hflow'
        obtain rfl : flow = flow' := Option.some.inj (hflow.symm.trans hflow')
        apply ends_propagate
        have hwalk : Ends (walk (cur.mark + 1) (cur.reinstated c flow).generations [c])
            (cur.reinstated c flow) (fun _ cur' => SameGraph (cur.reinstated c flow) cur' ∧
              ∀ v, cur'.value v = (cur.reinstated c flow).value v) (fun _ _ => True) := by
          refine ends_walk_values (hcoh.takenOver ha h.unsatisfied) ?_ ?_
          · rw [hold c (known_of_isSatisfied hs)]
            exact hs
          · intro d hd hp
            have hk := hsat d hd
            rw [hold d hk] at hd hp
            rw [hold c (known_of_isSatisfied hs)] at hp
            exact (hholds d hd (hdown hp)).congr (hold d hk) hvalue
        refine hwalk.mono_ok ?_
        rintro met cur' ⟨hgraph, hvalues⟩
        cases met with
        | none =>
          have hmark : SameGraph cur' (cur'.alterVariable (cur.directed c flow).output
              fun x => { x with mark := cur.mark + 1 }) :=
            sameGraph_alterVariable (fun _ => rfl) fun _ => rfl
          refine ⟨hgraph.variableCount.trans takenOver_size, ?_, hgraph.trans hmark, fun v => ?_⟩
          · show (cur.var (cur.directed c flow).output).determinedBy = none
            rw [h.directed hf, h.undetermined hnet.coherent hs]
          · rw [← hvalue v, ← hvalues v]
            exact alterVariable_var_field fun _ => rfl
        | some v => exact ends_true
    rw [establish, establishUsing, ends_bind, ends_freshMark, ends_bind]
    refine hinstall.mono_ok ?_
    rintro _ cur' ⟨rfl, hend⟩
    rw [ends_bind, ends_get, resatisfy]
    exact hend

/-- A constraint that has lost its method is retried: everything is as in `net` again. -/
theorem Suspended.ends_establish (h : Suspended net (some c) cur) (hnet : net.Ordered)
    (hset : net.Settled) (hchosen : (net.con c).Chosen) (hf : (net.con c).flow = some flow)
    (hback : flow = .backward → ∀ w, (net.con c).input = some w →
      (net.var w).walkStrength ≠ .weakest)
    (hholds : ∀ d, (net.con d).isSatisfied = true →
      net.Downstream (net.con c).output (net.con d).output → net.Holds d) (n : Nat) :
    Ends (establish n c) cur (fun _ cur' => Suspended net none cur') (fun _ _ => True) := by
  have hs : (net.con c).isSatisfied = true := Constraint.isSatisfied_iff.2 ⟨flow, hf⟩
  have ha := h.attached hnet.coherent hs
  obtain ⟨hold, hnew⟩ := h.reinstated_con hnet.coherent hf
  refine (((solvingInvariant_regular.ends_establish n h.regular ha h.unsatisfied).and
    (establishes_establish n cur c h.settled ha h.unsatisfied)).and
    (h.ends_reinstall hnet hset hchosen hf hback hholds n)).mono ?_ fun _ _ _ => trivial
  rintro - cur' ⟨⟨⟨hreg, hkeeps⟩, hset', -⟩, hgraph, hvalue⟩
  refine ⟨⟨hset'.coherent, hkeeps.variableCount.trans h.variableCount,
    hkeeps.constraintCount.trans h.constraintCount, hvalue, fun d hd => ?_, fun d hd => ?_⟩, hreg,
    hset'⟩
  · rw [hgraph.con, hold d hd]
    rfl
  · rw [hgraph.con, hnew d hd]
    exact h.added d hd

end Method

theorem Suspended.journal {o : Option ConstraintId} (h : Suspended net o cur) {e : Event} :
    Suspended net o { cur with journal := cur.journal.push e } :=
  ⟨h.toSameBut.of_sameGraph quiet_note.toSameGraph fun _ => rfl, h.regular.of_quiet quiet_note,
    h.settled.of_sameSolution quiet_note.toSameSolution⟩

/-- If the only candidate is the constraint that has lost its method, then to retry the candidates is
to give it back. -/
theorem Suspended.ends_retryLevels {o : Option ConstraintId} {retry : ConstraintId → Solve Unit}
    {found : List ConstraintId} (h : Suspended net o cur)
    (hsat : ∀ d, o = some d → (net.con d).isSatisfied = true)
    (hretry : ∀ d cur, o = some d → Suspended net (some d) cur →
      Ends (retry d) cur (fun _ => Suspended net none) (fun _ _ => True))
    (hfound : ∀ u, u ∈ found ↔ o = some u) :
    Ends (retryLevels retry found Strength.all) cur (fun _ => Suspended net none)
      (fun _ _ => True) := by
  -- either the method is back, or its level is still to come
  let L : List Strength → Network → Prop := fun levels cur =>
    Suspended net none cur ∨
      ∃ d, o = some d ∧ Suspended net (some d) cur ∧ (net.con d).strength ∈ levels
  have hstart : L Strength.all cur := by
    cases o with
    | none => exact .inl h
    | some d => exact .inr ⟨d, rfl, h, Strength.mem_all _⟩
  have hlevels : Ends (retryLevels retry found Strength.all) cur (fun _ cur' => L [] cur')
      (fun _ _ => True) := by
    refine Network.ends_retryLevels (L := L) ?_ _ hstart
    intro level levels cur hcur
    let J : List ConstraintId → Network → Prop := fun us cur =>
      (∀ u ∈ us, o = some u) ∧ (Suspended net none cur ∨
        ∃ d, o = some d ∧ Suspended net (some d) cur ∧
          ((net.con d).strength = level ∧ d ∈ us ∨ (net.con d).strength ∈ levels))
    have hJ : J found cur := by
      refine ⟨fun u hu => (hfound u).1 hu, hcur.imp_right ?_⟩
      rintro ⟨d, hd, hsusp, hmem⟩
      refine ⟨d, hd, hsusp, ?_⟩
      rcases List.mem_cons.1 hmem with heq | hmem
      · exact .inl ⟨heq, (hfound d).2 hd⟩
      · exact .inr hmem
    have hlevel : Ends (retryLevel retry level found) cur (fun _ cur' => J [] cur')
        (fun _ _ => True) := by
      refine ends_retryLevel (J := J) ?_ ?_ ?_ _ hJ
      · rintro us cur ⟨hus, hcur⟩ u hu
        have hk := known_of_isSatisfied (hsat u (hus u hu))
        rcases hcur with hsusp | ⟨d, -, hsusp, -⟩
        · rw [hsusp.constraintCount]
          exact Nat.lt_succ_of_lt hk
        · rw [hsusp.constraintCount]
          exact Nat.lt_succ_of_lt hk
      · rintro u us cur ⟨hus, hcur⟩ - hun
        have hu := hus u (by simp)
        rcases hcur with hsusp | ⟨d, hd, hsusp, -⟩
        · -- the method that is back is not lost again
          have hs := hsusp.isSatisfied_iff.2 ⟨hsat u hu, nofun⟩
          exact Bool.noConfusion (hun.symm.trans hs)
        · obtain rfl : u = d := Option.some.inj (hu.symm.trans hd)
          refine (hretry u cur hu hsusp).mono_ok fun _ _ hback => ?_
          exact ⟨fun w hw => hus w (List.mem_cons_of_mem u hw), .inl hback⟩
      · rintro u us cur ⟨hus, hcur⟩ hpass
        have hu := hus u (by simp)
        refine ⟨fun w hw => hus w (List.mem_cons_of_mem u hw), hcur.imp_right ?_⟩
        rintro ⟨d, hd, hsusp, hlevel⟩
        obtain rfl : u = d := Option.some.inj (hu.symm.trans hd)
        refine ⟨u, hu, hsusp, .inr (hlevel.resolve_left fun hnow => hpass ⟨?_, hsusp.unsatisfied⟩)⟩
        rw [hsusp.con u (known_of_isSatisfied (hsat u hu)), if_pos rfl]
        exact hnow.1
    refine hlevel.mono_ok ?_
    rintro - cur' ⟨-, hcur'⟩
    simpa using hcur'
  refine hlevels.mono_ok ?_
  rintro - cur' (hsusp | ⟨d, -, -, hmem⟩)
  · exact hsusp
  · cases hmem

end Suspended

end ConstraintHierarchy.Network
