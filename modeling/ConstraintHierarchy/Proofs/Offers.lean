import ConstraintHierarchy.Proofs.Choice
import ConstraintHierarchy.Proofs.Forest

/-!
# What a constraint offers its outputs

A constraint that computes one of its possible outputs gives it a walkabout strength: its own, or
the weaker of its own and that of its other end. Such an offer can be compared with what the output
carries whether or not the constraint is satisfied. A constraint is blocked if it is unsatisfied
though stronger than one of its outputs; the annotations of a settled network say how offers and
walkabout strengths are related.

## Main definitions

* `Network.offer`: the walkabout strength that a constraint would give a variable
* `Network.Blocked`: an unsatisfied constraint that could take over one of its outputs

## Main results

* `Network.Settled.walkStrength_eq_offer`: a variable carries what its constraint offers
-/

namespace ConstraintHierarchy

namespace Network

open Solve

variable {net : Network} {mark : Nat} {c d : ConstraintId} {v w : VariableId}

/-- The walkabout strength that `d` would give `v`, one of its possible outputs. -/
def offer (net : Network) (d : ConstraintId) (v : VariableId) : Strength :=
  match (net.con d).kind with
  | .stay _ | .edit _ => (net.con d).strength
  | .equal a b | .scale a b _ _ =>
    (net.con d).strength.weakerOf (net.var (if v = a then b else a)).walkStrength

/-- The constraint `c` is in the graph and unsatisfied, though stronger than what one of its possible
outputs carries. -/
def Blocked (net : Network) (c : ConstraintId) : Prop :=
  (net.con c).attached = true ∧ (net.con c).isSatisfied = false ∧
    ∃ v ∈ (net.con c).kind.outputs, (net.con c).strength.StrongerThan (net.var v).walkStrength

theorem SameSolution.blocked_iff {net' : Network} (h : SameSolution net net') :
    net'.Blocked c ↔ net.Blocked c := by
  have hws : ∀ v, (net'.var v).walkStrength = (net.var v).walkStrength :=
    fun v => congrArg Annotation.walkStrength (h.current v)
  simp only [Blocked, h.con, hws]

theorem offer_of_anchors (h : (net.con d).kind.Anchors w) :
    net.offer d v = (net.con d).strength := by
  rcases h with h | h <;> simp only [offer, h]

theorem offer_of_joins (h : (net.con d).kind.Joins v w) (hne : v ≠ w) :
    net.offer d v = (net.con d).strength.weakerOf (net.var w).walkStrength := by
  cases hk : (net.con d).kind with
  | stay u => simp [hk, Kind.Joins] at h
  | edit u => simp [hk, Kind.Joins] at h
  | equal a b =>
    rw [hk] at h
    rcases h with ⟨rfl, rfl⟩ | ⟨rfl, rfl⟩ <;> simp [offer, hk, hne]
  | scale a b factor offset =>
    rw [hk] at h
    rcases h with ⟨rfl, rfl⟩ | ⟨rfl, rfl⟩ <;> simp [offer, hk, hne]

/-! ## Annotations as offers -/

theorem annotationFor_walkStrength_of_none (h : (net.con d).input = none) :
    (net.annotationFor d).walkStrength = (net.con d).strength := by
  rw [annotationFor, h]
  rfl

theorem annotationFor_walkStrength_of_some (h : (net.con d).input = some w) :
    (net.annotationFor d).walkStrength =
      (net.con d).strength.weakerOf (net.var w).walkStrength := by
  rw [annotationFor, h]
  rfl

theorem Settled.walkStrength_eq_annotation (h : net.Settled)
    (hd : (net.con d).isSatisfied = true) :
    (net.var (net.con d).output).walkStrength = (net.annotationFor d).walkStrength :=
  congrArg Annotation.walkStrength
    ((h.exact _).trans (due_of_some (h.coherent.determinedBy_output hd)))

theorem Settled.strength_le (h : net.Settled) (hd : (net.con d).isSatisfied = true) :
    (net.con d).strength.rank ≤ (net.var (net.con d).output).walkStrength.rank := by
  rw [h.walkStrength_eq_annotation hd]
  cases hi : (net.con d).input with
  | none => rw [annotationFor_walkStrength_of_none hi]
  | some v =>
    rw [annotationFor_walkStrength_of_some hi, Strength.rank_weakerOf]
    exact Nat.le_max_left _ _

/-- Of the two ends of a satisfied constraint, the output is the weaker one. -/
theorem Settled.rank_le_output (h : net.Settled) (hd : (net.con d).isSatisfied = true)
    (hw : w ∈ (net.con d).kind.outputs) :
    (net.var w).walkStrength.rank ≤ (net.var (net.con d).output).walkStrength.rank := by
  rcases Constraint.mem_outputs_iff.1 hw with rfl | hi
  · exact Nat.le_refl _
  · rw [h.walkStrength_eq_annotation hd, annotationFor_walkStrength_of_some hi,
      Strength.rank_weakerOf]
    exact Nat.le_max_right _ _

/-- A variable that is not free is computed by some constraint. -/
theorem Settled.exists_determiner (h : net.Settled)
    (hv : (net.var v).walkStrength.rank < Strength.weakest.rank) :
    ∃ d, (net.con d).isSatisfied = true ∧ (net.con d).output = v := by
  cases hd : (net.var v).determinedBy with
  | none =>
    have hws : (net.var v).walkStrength = .weakest :=
      congrArg Annotation.walkStrength ((h.exact v).trans (due_of_none hd))
    rw [hws] at hv
    exact absurd hv (Nat.lt_irrefl _)
  | some d => exact ⟨d, (h.coherent.determines v d).1 hd⟩

/-- In a settled network a variable carries what the constraint that computes it offers. -/
theorem Settled.walkStrength_eq_offer (h : net.Settled) (hd : (net.con d).isSatisfied = true) :
    (net.var (net.con d).output).walkStrength = net.offer d (net.con d).output := by
  rw [h.walkStrength_eq_annotation hd]
  cases hi : (net.con d).input with
  | none =>
    obtain ⟨u, hk⟩ := Kind.input_eq_none_iff.1 hi
    rw [annotationFor_walkStrength_of_none hi, offer_of_anchors hk]
  | some u =>
    have hne : (net.con d).output ≠ u := by
      rintro heq
      exact h.irreflexive d hd (heq ▸ Constraint.mem_reads.2 (.inl hi))
    rw [annotationFor_walkStrength_of_some hi, offer_of_joins (Constraint.joins_of_input hi).symm hne]

end Network

end ConstraintHierarchy
