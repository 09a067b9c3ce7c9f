import ConstraintHierarchy.Proofs.Offers

/-!
# Walks in a tree-shaped network

In a tree-shaped network a new method makes walkabout strengths only rise. The walk that spreads it
leaves the new output along satisfied edges, so it never comes back to what the method reads, and
everything on the far side of an unsatisfied edge keeps its strength.

## Main definitions

* `Network.Near`: the variables that a take-over can affect
* `Network.TakesOver`: a constraint takes over a variable that is no stronger than what it offers
* `Network.Rising`: the invariant of the walk

## Main results

* `Network.TakesOver.ends_propagate`: the walk ends with an empty queue
-/

namespace ConstraintHierarchy.Network

open Solve Relation

variable {net : Network} {mark : Nat} {c d : ConstraintId} {flow : Flow} {v w x : VariableId}

/-- The variables that are affected if `x` is taken over: anything if `x` is a parameter, and what
satisfied edges reach from `x` otherwise. -/
def Near (net : Network) (x w : VariableId) : Prop :=
  net.IsParameter x ∨
    net.Linked (fun d => (net.con d).isSatisfied = true ∧ (net.con d).output ≠ x) x w

theorem near_self : net.Near x x := .inr .refl

/-- A satisfied constraint carries a change from a variable it reads to its output. -/
theorem Near.step (htree : net.TreeShaped) (h : net.Near x w)
    (ha : (net.con d).attached = true) (hd : (net.con d).isSatisfied = true)
    (hx : (net.con d).output ≠ x) (hw : w ∈ (net.con d).reads) : net.Near x (net.con d).output := by
  rcases h with hparam | hlink
  · exact .inl hparam
  rcases Constraint.mem_reads.1 hw with hi | hp
  · exact .inr (hlink.tail ⟨d, ⟨hd, hx⟩, ha, Constraint.joins_of_input hi⟩)
  · -- a parameter is not the end of an edge, so the chain has not left `x`
    have hparam : net.IsParameter w := ⟨d, ha, hp⟩
    rcases Linked.eq_or_edge hlink with rfl | ⟨e, u, hedge⟩
    · exact .inl hparam
    · exact absurd hedge (htree.parameters w hparam e u)

/-- An unsatisfied edge at `x`, or the one that computes `x`, shields what lies behind it. -/
theorem TreeShaped.not_near (htree : net.TreeShaped) (hedge : net.Edge d x w)
    (hd : (net.con d).isSatisfied = true → (net.con d).output = x) : ¬ net.Near x w := by
  rintro (hparam | hlink)
  · exact htree.parameters x hparam d w hedge
  · exact htree.not_linked hedge (fun hp => hp.2 (hd hp.1)) hlink

/-- The unsatisfied constraint `c` can take over an output that is weaker than itself and no stronger
than what the method reads. -/
structure TakesOver (net : Network) (c : ConstraintId) (flow : Flow) : Prop where
  settled : net.Settled
  tree : net.TreeShaped
  attached : (net.con c).attached = true
  unsatisfied : (net.con c).isSatisfied = false
  weaker : (net.con c).strength.rank < (net.var (net.directed c flow).output).walkStrength.rank
  input : ∀ v, (net.directed c flow).input = some v →
    (net.var v).walkStrength.rank ≤ (net.var (net.directed c flow).output).walkStrength.rank

/-- The invariant of the walk after `c` took over its output: walkabout strengths have only risen,
and only near that output. -/
structure Rising (net : Network) (mark : Nat) (c : ConstraintId) (flow : Flow) (cur : Network)
    (q : List ConstraintId) : Prop where
  graph : SameGraph (net.takenOver mark c flow) cur
  marks : ∀ v, (cur.var v).mark = ((net.takenOver mark c flow).var v).mark
  counter : cur.mark = net.mark
  queued : ∀ d ∈ q, ((net.takenOver mark c flow).con d).isSatisfied = true ∧
    net.Near (net.directed c flow).output ((net.takenOver mark c flow).con d).output
  rising : ∀ v, (cur.var v).walkStrength.rank ≤ (net.var v).walkStrength.rank
  elsewhere : ∀ v, ¬ net.Near (net.directed c flow).output v →
    (cur.var v).walkStrength = (net.var v).walkStrength

theorem rank_annotationFor_le {cur : Network} (hcon : cur.con d = net.con d)
    (hle : ∀ v, (cur.var v).walkStrength.rank ≤ (net.var v).walkStrength.rank) :
    (cur.annotationFor d).walkStrength.rank ≤ (net.annotationFor d).walkStrength.rank := by
  cases hd : (net.con d).input with
  | none =>
    rw [annotationFor_walkStrength_of_none hd, annotationFor_walkStrength_of_none (hcon ▸ hd), hcon]
  | some v =>
    rw [annotationFor_walkStrength_of_some hd, annotationFor_walkStrength_of_some (hcon ▸ hd), hcon,
      Strength.rank_weakerOf, Strength.rank_weakerOf]
    have := hle v
    omega

namespace TakesOver

theorem known (h : net.TakesOver c flow) : c.index < net.constraints.size :=
  known_of_attached h.attached

theorem coherent (h : net.TakesOver c flow) : (net.takenOver mark c flow).Coherent :=
  h.settled.coherent.takenOver h.attached h.unsatisfied

theorem con_self (h : net.TakesOver c flow) :
    (net.takenOver mark c flow).con c = net.directed c flow :=
  takenOver_con_self h.settled.coherent h.known h.unsatisfied

theorem isSatisfied_iff (h : net.TakesOver c flow) :
    ((net.takenOver mark c flow).con d).isSatisfied = true ↔
      d = c ∨ ((net.con d).isSatisfied = true ∧
        (net.con d).output ≠ (net.directed c flow).output) :=
  takenOver_isSatisfied_iff h.settled.coherent h.known h.unsatisfied

theorem con_of_satisfied (h : net.TakesOver c flow) (hd : (net.con d).isSatisfied = true)
    (hx : (net.con d).output ≠ (net.directed c flow).output) :
    (net.takenOver mark c flow).con d = net.con d :=
  takenOver_con_of_satisfied h.settled.coherent h.unsatisfied hd hx

/-- A recalculation gives its output no more than it carried before the take-over. -/
theorem rank_le (h : net.TakesOver c flow) {cur : Network} {q : List ConstraintId}
    (hcur : Rising net mark c flow cur (d :: q)) :
    (cur.annotationFor d).walkStrength.rank ≤ (net.var (cur.con d).output).walkStrength.rank := by
  rcases h.isSatisfied_iff.1 (hcur.queued d (by simp)).1 with rfl | ⟨hd, hx⟩
  · -- the new method: both its strength and its input were strong enough for the output
    have hcon : cur.con d = net.directed d flow := by rw [hcur.graph.con, h.con_self]
    have hw : (net.directed d flow).strength.rank <
        (net.var (net.directed d flow).output).walkStrength.rank := h.weaker
    rw [hcon]
    cases hi : (net.directed d flow).input with
    | none =>
      rw [annotationFor_walkStrength_of_none (by rw [hcon, hi]), hcon]
      omega
    | some v =>
      have hv := h.input v hi
      have hle := hcur.rising v
      rw [annotationFor_walkStrength_of_some (by rw [hcon, hi]), hcon, Strength.rank_weakerOf]
      omega
  · -- a method that was there before reads nothing that has become weaker
    have hcon : cur.con d = net.con d := by rw [hcur.graph.con, h.con_of_satisfied hd hx]
    rw [hcon, h.settled.walkStrength_eq_annotation hd]
    exact rank_annotationFor_le hcon hcur.rising

theorem step (h : net.TakesOver c flow) {cur : Network} {q : List ConstraintId}
    (hcur : Rising net mark c flow cur (d :: q)) :
    Rising net mark c flow (cur.recalculated d) (q ++ cur.consumersOf (cur.con d).output) := by
  have hcoh : cur.Coherent := h.coherent.of_sameGraph hcur.graph
  obtain ⟨hsat, hnear⟩ := hcur.queued d (by simp)
  rw [← hcur.graph.con] at hsat hnear
  have hout : (cur.con d).output.index < cur.vars.size :=
    hcoh.known_output (known_of_isSatisfied hsat)
  refine ⟨hcur.graph.trans sameGraph_recalculated, ?_, hcur.counter, ?_, ?_, ?_⟩
  · intro v
    rw [recalculated_marks, hcur.marks]
  · intro e he
    rcases List.mem_append.1 he with he | he
    · exact hcur.queued e (List.mem_cons_of_mem d he)
    · obtain ⟨hes, her, -⟩ := hcoh.mem_consumersOf.1 he
      rw [hcur.graph.con] at hes
      refine ⟨hes, ?_⟩
      rcases h.isSatisfied_iff.1 hes with rfl | ⟨hen, hex⟩
      · rw [h.con_self]
        exact near_self
      · have hcon : (net.takenOver mark c flow).con e = net.con e := h.con_of_satisfied hen hex
        rw [congrFun hcur.graph.con e, hcon] at her
        rw [hcon]
        exact hnear.step h.tree (h.settled.coherent.attached e hen) hen hex her
  · intro v
    by_cases hv : v = (cur.con d).output
    · subst hv
      rw [recalculated_var_output hout]
      exact h.rank_le hcur
    · rw [recalculated_var_of_ne hv]
      exact hcur.rising v
  · intro v hv
    have hne : v ≠ (cur.con d).output := by
      rintro rfl
      exact hv hnear
    rw [recalculated_var_of_ne hne]
    exact hcur.elsewhere v hv

theorem walkInvariant (h : net.TakesOver c flow) :
    WalkInvariant mark (fun e _ => e.Abrupt) (Rising net mark c flow) where
  coherent hcur := h.coherent.of_sameGraph hcur.graph
  satisfied hcur d hd := by rw [hcur.graph.con]; exact (hcur.queued d hd).1
  step hcur _ _ := h.step hcur
  refused _ _ _ := trivial
  endless _ := trivial

theorem rising_start (h : net.TakesOver c flow) :
    Rising net mark c flow (net.takenOver mark c flow) [c] := by
  have hws : ∀ v, ((net.takenOver mark c flow).var v).walkStrength = (net.var v).walkStrength :=
    fun _ => takenOver_current_fields.2.1
  refine ⟨.refl _, fun _ => rfl, takenOver_mark, ?_, fun v => by rw [hws], fun v _ => hws v⟩
  intro d hd
  rw [List.mem_singleton.1 hd, h.con_self]
  exact ⟨rfl, near_self⟩

/-- Unless something near the new output carries the mark of the walk, the walk ends with an empty
queue; nothing has to be rolled back. -/
theorem ends_propagate (h : net.TakesOver c flow) {rollback : ConstraintId → Solve Unit}
    (hsafe : ∀ w, net.Near (net.directed c flow).output w →
      ((net.takenOver mark c flow).var w).mark ≠ mark) :
    Ends (propagate rollback mark c) (net.takenOver mark c flow)
      (fun _ net' => Rising net mark c flow net' []) (fun e _ => e.Abrupt) := by
  apply Network.ends_propagate
  refine (ends_walk h.walkInvariant _ h.rising_start).mono_ok ?_
  intro met net' hend
  cases met with
  | none => exact hend
  | some v =>
    obtain ⟨d, q, hcur, rfl, hmark⟩ := hend
    rw [hcur.marks, hcur.graph.con] at hmark
    exact absurd hmark (hsafe _ (hcur.queued d (by simp)).2)

end TakesOver

end ConstraintHierarchy.Network
