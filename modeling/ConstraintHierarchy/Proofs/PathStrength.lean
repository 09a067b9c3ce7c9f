import Mathlib.Data.Fintype.Order
import Mathlib.Data.Multiset.Filter
import ConstraintHierarchy.Proofs.Unblocked

/-!
# Walkabout strengths are path strengths

In a tree-shaped network the walkabout strength of a variable is determined by the graph alone. No
path from the variable to a stay or an edit is stronger than it, because no constraint offers more
than its outputs carry; and the chain of constraints that compute the variable is a path that is
exactly as strong. Methods and determiners depend on the order in which constraints came and went;
walkabout strengths do not.

## Main definitions

* `Network.Path`, `Network.pathStrength`: paths that end in a stay or an edit, and their strength
* `Network.inGraph`: the constraints of the graph, without their place in the solution

## Main results

* `Network.walkStrength_eq_pathStrength`: walkabout strengths as path strengths, and what follows
-/

namespace ConstraintHierarchy

namespace Network

open Solve Relation

variable {net net' : Network} {c d : ConstraintId} {v w : VariableId} {cs : List ConstraintId}

/-- The constraints `cs` lead from `v` along edges of the graph to a stay or an edit, which is the
last of them. -/
inductive Path (net : Network) : VariableId → List ConstraintId → Prop
  | stop {c : ConstraintId} {v : VariableId} (ha : (net.con c).attached = true)
    (hk : (net.con c).kind.Anchors v) : Path net v [c]
  | step {d : ConstraintId} {v w : VariableId} {cs : List ConstraintId} (hd : net.Edge d v w)
    (hp : Path net w cs) : Path net v (d :: cs)

/-- The weakest strength among the given constraints. -/
def pathStrength (net : Network) : List ConstraintId → Strength
  | [] => .required
  | c :: cs => (net.con c).strength.weakerOf (net.pathStrength cs)

theorem pathStrength_singleton : net.pathStrength [c] = (net.con c).strength := by
  rw [pathStrength, pathStrength]
  cases (net.con c).strength <;> rfl

/-- What the constraints of the graph say and how much they are wanted. -/
def inGraph (net : Network) : Multiset (Kind × Strength) :=
  (net.constraints.toList.filter (·.attached)).map fun k => (k.kind, k.strength)

/-! ## No path is stronger -/

theorem strength_le_offer : (net.con d).strength.rank ≤ (net.offer d v).rank := by
  unfold offer
  split
  · exact Nat.le_refl _
  · exact Nat.le_refl _
  · rw [Strength.rank_weakerOf]
    exact Nat.le_max_left _ _
  · rw [Strength.rank_weakerOf]
    exact Nat.le_max_left _ _

/-- No constraint offers more than its outputs carry. -/
theorem TreeSolution.rank_le_offer (h : net.TreeSolution) (ha : (net.con d).attached = true)
    (hv : v ∈ (net.con d).kind.outputs) :
    (net.var v).walkStrength.rank ≤ (net.offer d v).rank := by
  by_cases hd : (net.con d).isSatisfied = true
  · rcases Constraint.mem_outputs_iff.1 hv with rfl | hi
    · rw [h.settled.walkStrength_eq_offer hd]
    · have hj := Constraint.joins_of_input hi
      have hle := h.settled.rank_le_output hd hv
      rw [offer_of_joins hj (h.tree.ne ⟨ha, hj⟩), Strength.rank_weakerOf]
      omega
  · have hle : (net.var v).walkStrength.rank ≤ (net.con d).strength.rank :=
      Nat.not_lt.1 fun hlt => h.unblocked d ⟨ha, by simpa using hd, v, hv, hlt⟩
    exact Nat.le_trans hle strength_le_offer

theorem TreeSolution.rank_le_pathStrength (h : net.TreeSolution) (hp : net.Path v cs) :
    (net.var v).walkStrength.rank ≤ (net.pathStrength cs).rank := by
  induction hp with
  | stop ha hk =>
    have hle := h.rank_le_offer ha hk.mem_outputs
    rwa [offer_of_anchors hk, ← pathStrength_singleton] at hle
  | step hd _ ih =>
    have hle := h.rank_le_offer hd.1 hd.2.mem_outputs
    rw [offer_of_joins hd.2 (h.tree.ne hd), Strength.rank_weakerOf] at hle
    rw [pathStrength, Strength.rank_weakerOf]
    omega

/-! ## A path that is as strong -/

/-- The constraint that computes `w` has `v` as its input. -/
def Draws (net : Network) (v w : VariableId) : Prop :=
  ∃ d, (net.con d).isSatisfied = true ∧ (net.con d).input = some v ∧ (net.con d).output = w

/-- In a tree-shaped network the inputs of a variable never lead back to it. -/
theorem TreeShaped.not_transGen_draws (h : net.TreeShaped) (hcoh : net.Coherent) :
    ¬ TransGen net.Draws v v := by
  intro hcycle
  obtain ⟨x, ⟨d, hd, hi, rfl⟩, hrest⟩ := TransGen.head'_iff.1 hcycle
  have hedge : net.Edge d (net.con d).output v :=
    ⟨hcoh.attached d hd, (Constraint.joins_of_input hi).symm⟩
  -- as long as `v` is not reached, the chain does not use `d`
  have hlink : ∀ w, ReflTransGen net.Draws (net.con d).output w →
      net.Linked (· ≠ d) (net.con d).output w := by
    intro w hw
    induction hw with
    | refl => exact .refl
    | tail _ hstep ih =>
      obtain ⟨e, he, hie, rfl⟩ := hstep
      refine ih.tail ⟨e, ?_, hcoh.attached e he, Constraint.joins_of_input hie⟩
      rintro rfl
      rw [hi] at hie
      cases hie
      exact h.not_linked hedge (by simp) ih
  exact h.not_linked hedge (by simp) (hlink v hrest)

theorem TreeShaped.wellFounded_draws (h : net.TreeShaped) (hcoh : net.Coherent) :
    WellFounded fun i j : Fin net.vars.size => TransGen net.Draws ⟨i⟩ ⟨j⟩ := by
  have : IsTrans (Fin net.vars.size) fun i j => TransGen net.Draws ⟨i⟩ ⟨j⟩ :=
    ⟨fun _ _ _ hij hjk => hij.trans hjk⟩
  have : Std.Irrefl fun i j : Fin net.vars.size => TransGen net.Draws ⟨i⟩ ⟨j⟩ :=
    ⟨fun _ hii => h.not_transGen_draws hcoh hii⟩
  exact Finite.wellFounded_of_trans_of_irrefl _

/-- Following the inputs of a variable, one finds a path as strong as the variable, or a free
variable. -/
theorem TreeSolution.exists_path (h : net.TreeSolution) (hv : v.index < net.vars.size) :
    (∃ cs, net.Path v cs ∧ net.pathStrength cs = (net.var v).walkStrength) ∨
      (net.var v).walkStrength = .weakest := by
  have hwf := h.tree.wellFounded_draws h.settled.coherent
  suffices hall : ∀ i : Fin net.vars.size,
      (∃ cs, net.Path ⟨i⟩ cs ∧ net.pathStrength cs = (net.var ⟨i⟩).walkStrength) ∨
        (net.var ⟨i⟩).walkStrength = .weakest from hall ⟨v.index, hv⟩
  intro i
  induction i using hwf.induction with
  | h i ih =>
    by_cases hfree : (net.var ⟨i⟩).walkStrength = .weakest
    · exact .inr hfree
    left
    have hlt : (net.var ⟨i⟩).walkStrength.rank < Strength.weakest.rank :=
      Nat.lt_of_le_of_ne (Strength.rank_le_six _) fun heq => hfree (Strength.rank_injective heq)
    obtain ⟨d, hd, hout⟩ := h.settled.exists_determiner hlt
    have ha := h.settled.coherent.attached d hd
    have hws := h.settled.walkStrength_eq_annotation hd
    rw [hout] at hws
    cases hi : (net.con d).input with
    | none =>
      -- the path ends here
      obtain ⟨u, hk⟩ := Kind.input_eq_none_iff.1 hi
      have hu : (net.con d).output = u :=
        Kind.Anchors.eq_of_mem hk (Constraint.mem_outputs_iff.2 (.inl rfl))
      refine ⟨[d], .stop ha ?_, ?_⟩
      · rw [← hout, hu]
        exact hk
      · rw [pathStrength_singleton, hws, annotationFor_walkStrength_of_none hi]
    | some w =>
      have hj : (net.con d).kind.Joins w ⟨i⟩ := hout ▸ Constraint.joins_of_input hi
      have hw : w.index < net.vars.size :=
        h.settled.coherent.known d (known_of_isSatisfied hd) w
          (Kind.mem_operands_of_mem_outputs hj.mem_outputs)
      rw [annotationFor_walkStrength_of_some hi] at hws
      rcases ih ⟨w.index, hw⟩ (.single ⟨d, hd, hi, hout⟩) with ⟨cs, hp, hcs⟩ | hweak
      · exact ⟨d :: cs, .step ⟨ha, hj.symm⟩ hp, by rw [pathStrength, hcs, hws]⟩
      · -- a free input would make the variable free
        refine absurd (Strength.rank_injective ?_) hfree
        rw [hws, Strength.rank_weakerOf, hweak]
        exact Nat.max_eq_right (Strength.rank_le_six _)

/-- The walkabout strength of a known variable is that of its strongest paths. -/
theorem TreeSolution.path_of_exists (h : net.TreeSolution) (hv : v.index < net.vars.size)
    (hex : ∃ cs, net.Path v cs) :
    ∃ cs, net.Path v cs ∧ net.pathStrength cs = (net.var v).walkStrength := by
  rcases h.exists_path hv with hpath | hweak
  · exact hpath
  · -- every path is as weak as can be, so any will do
    obtain ⟨cs, hp⟩ := hex
    have hle := h.rank_le_pathStrength hp
    refine ⟨cs, hp, Strength.rank_injective ?_⟩
    rw [hweak] at hle ⊢
    exact Nat.le_antisymm (Strength.rank_le_six _) hle

/-- A path is no stronger than the stay or the edit in which it ends. -/
theorem Path.rank_le (hp : net.Path v cs) {s : Strength}
    (hs : ∀ c w, (net.con c).attached = true → (net.con c).kind.Anchors w →
      s.rank ≤ (net.con c).strength.rank) : s.rank ≤ (net.pathStrength cs).rank := by
  induction hp with
  | stop ha hk =>
    rw [pathStrength_singleton]
    exact hs _ _ ha hk
  | step _ _ ih =>
    rw [pathStrength, Strength.rank_weakerOf]
    exact Nat.le_trans ih (Nat.le_max_right _ _)

/-- No variable carries more than the strongest stay or edit. -/
theorem TreeSolution.rank_le_walkStrength (h : net.TreeSolution) {s : Strength}
    (hs : ∀ c w, (net.con c).attached = true → (net.con c).kind.Anchors w →
      s.rank ≤ (net.con c).strength.rank) : s.rank ≤ (net.var v).walkStrength.rank := by
  by_cases hv : v.index < net.vars.size
  · rcases h.exists_path hv with ⟨cs, hp, hcs⟩ | hweak
    · exact hcs ▸ hp.rank_le hs
    · rw [hweak]
      exact Strength.rank_le_six s
  · rw [var_of_unknown hv]
    exact Strength.rank_le_six s

/-! ## Walkabout strengths depend on the graph alone -/

/-- Every constraint of the graph of `net` has one that says the same in the graph of `net'`. -/
def Covers (net net' : Network) : Prop :=
  ∀ c, (net.con c).attached = true → ∃ c', (net'.con c').attached = true ∧
    (net'.con c').kind = (net.con c).kind ∧ (net'.con c').strength = (net.con c).strength

theorem Covers.path (h : Covers net net') (hp : net.Path v cs) :
    ∃ cs', net'.Path v cs' ∧ net'.pathStrength cs' = net.pathStrength cs := by
  induction hp with
  | @stop c v ha hk =>
    obtain ⟨c', ha', hk', hs'⟩ := h c ha
    exact ⟨[c'], .stop ha' (hk' ▸ hk), by simp only [pathStrength_singleton, hs']⟩
  | @step d v w cs hd _ ih =>
    obtain ⟨cs', hp', hcs'⟩ := ih
    obtain ⟨d', ha', hk', hs'⟩ := h d hd.1
    exact ⟨d' :: cs', .step ⟨ha', hk' ▸ hd.2⟩ hp', by rw [pathStrength, pathStrength, hs', hcs']⟩

/-- If one graph covers the other, its walkabout strengths are at least as strong. -/
theorem Covers.rank_le (h : Covers net net') (hsol : net.TreeSolution) (hsol' : net'.TreeSolution)
    (hv : v.index < net.vars.size) :
    (net'.var v).walkStrength.rank ≤ (net.var v).walkStrength.rank := by
  rcases hsol.exists_path hv with ⟨cs, hp, hcs⟩ | hweak
  · obtain ⟨cs', hp', hcs'⟩ := h.path hp
    rw [← hcs, ← hcs']
    exact hsol'.rank_le_pathStrength hp'
  · rw [hweak]
    exact Strength.rank_le_six _

theorem walkStrength_eq_of_covers (h : Covers net net') (h' : Covers net' net)
    (hsol : net.TreeSolution) (hsol' : net'.TreeSolution) (hv : v.index < net.vars.size)
    (hv' : v.index < net'.vars.size) :
    (net.var v).walkStrength = (net'.var v).walkStrength :=
  Strength.rank_injective
    (Nat.le_antisymm (h'.rank_le hsol' hsol hv') (h.rank_le hsol hsol' hv))

theorem mem_inGraph {k : Kind} {s : Strength} :
    (k, s) ∈ net.inGraph ↔
      ∃ c, (net.con c).attached = true ∧ (net.con c).kind = k ∧ (net.con c).strength = s := by
  rw [inGraph, Multiset.mem_coe, List.mem_map]
  constructor
  · rintro ⟨k', hk', heq⟩
    obtain ⟨hmem, ha⟩ := List.mem_filter.1 hk'
    obtain ⟨i, hi⟩ := Array.mem_iff_getElem?.1 (Array.mem_toList_iff.1 hmem)
    obtain ⟨-, hcon⟩ := getConstraint?_eq_some.1 (show net.getConstraint? ⟨i⟩ = some k' from hi)
    cases heq
    exact ⟨⟨i⟩, by rw [hcon]; exact ha, by rw [hcon], by rw [hcon]⟩
  · rintro ⟨c, ha, rfl, rfl⟩
    have hc : net.getConstraint? c = some (net.con c) :=
      getConstraint?_eq_con (known_of_attached ha)
    refine ⟨net.con c, List.mem_filter.2 ⟨Array.mem_toList_iff.2 ?_, ha⟩, rfl⟩
    exact Array.mem_iff_getElem?.2 ⟨c.index, hc⟩

theorem covers_of_inGraph_eq (h : net.inGraph = net'.inGraph) : Covers net net' := by
  intro c ha
  exact mem_inGraph.1 (h ▸ mem_inGraph.2 ⟨c, ha, rfl, rfl⟩)

/-! ## Adding and destroying -/

section AddDestroy

variable {kind : Kind} {strength : Strength}

theorem ends_addConstraint_keeps (h : net.Settled) :
    Ends (addConstraint kind strength) net
      (fun c net' => c = ⟨net.constraints.size⟩ ∧ Keeps (net.registered kind strength) net')
      (fun _ _ => True) := by
  rw [addConstraint, ends_bind]
  apply ends_checkVariables _ fun _ _ => trivial
  intro hk
  rw [ends_bind, ends_register hk, ends_bind, ends_nesting, ends_bind]
  have hest : ∀ n, Ends (establish n ⟨net.constraints.size⟩) (net.registered kind strength)
      (fun _ net' => Keeps (net.registered kind strength) net') (fun _ _ => True) := by
    intro n
    exact (establishes_establish n _ _ (h.registered hk) registered_new_attached
      registered_new_unsatisfied).mono (fun _ _ hend => hend.2) fun _ _ _ => trivial
  refine (ends_orDetach (hest _) (fun _ _ _ _ => trivial) fun _ _ => ends_true).mono_ok ?_
  exact fun _ _ hkeeps => ⟨rfl, hkeeps⟩

theorem ends_destroy_keeps (h : net.Settled) :
    Ends (destroy c) net
      (fun _ net' => Keeps (({ net with journal := net.journal.push (.destroying c) } :
        Network).detached c) net')
      (fun _ _ => True) := by
  rw [destroy, ends_bind, ends_note, retract, ends_bind]
  refine ends_checkAttached ?_ fun _ _ _ => trivial
  intro ha
  have hset := h.of_sameSolution (quiet_note (e := .destroying c)).toSameSolution
  have hk := known_of_attached ha
  rw [ends_bind, ends_readConstraint hk]
  split
  next hs =>
    rw [ends_bind, ends_nesting]
    exact (withdraws_withdraw _ _ _ (hset.unsettled hs)).mono (fun _ _ hend => hend.2)
      fun _ _ _ => trivial
  next =>
    rw [ends_detach hk (hset.coherent.known c hk)]
    exact Keeps.refl _

/-- A constraint that is added and destroyed again leaves the graph as it was. -/
theorem covers_of_destroyed {net₁ net₂ : Network} (h : net.Settled) (h₁ : net₁.Settled)
    (hadd : addConstraint kind strength net = .ok c net₁) (hdestroy : destroy c net₁ = .ok () net₂) :
    Covers net net₂ ∧ Covers net₂ net ∧ net₂.vars.size = net.vars.size := by
  obtain ⟨rfl, hkeeps₁⟩ := (ends_addConstraint_keeps h).of_ok hadd
  have hkeeps₂ := (ends_destroy_keeps h₁).of_ok hdestroy
  have hknown : net.constraints.size < net₁.constraints.size := by
    rw [hkeeps₁.constraintCount, registered_count]
    exact Nat.lt_succ_self _
  -- the other constraints are what they were before the addition
  have hsame : ∀ d, d ≠ ⟨net.constraints.size⟩ → (net₂.con d).kind = (net.con d).kind ∧
      (net₂.con d).strength = (net.con d).strength ∧
      (net₂.con d).attached = (net.con d).attached := by
    intro d hd
    have hcon : (net.registered kind strength).con d = net.con d := registered_con_of_ne hd
    rw [hkeeps₂.kind, hkeeps₂.strength, hkeeps₂.attached, detached_con_of_ne hd, ← hcon]
    exact ⟨hkeeps₁.kind d, hkeeps₁.strength d, hkeeps₁.attached d⟩
  refine ⟨fun d hd => ?_, fun d hd => ?_, ?_⟩
  · have hne : d ≠ ⟨net.constraints.size⟩ := by
      rintro rfl
      exact Nat.lt_irrefl _ (known_of_attached hd)
    obtain ⟨hk, hs, ha⟩ := hsame d hne
    exact ⟨d, ha.trans hd, hk, hs⟩
  · have hne : d ≠ ⟨net.constraints.size⟩ := by
      refine ne_of_detached_attached ?_ ((hkeeps₂.attached d).symm.trans hd)
      exact hknown
    obtain ⟨hk, hs, ha⟩ := hsame d hne
    exact ⟨d, ha.symm.trans hd, hk.symm, hs.symm⟩
  · rw [hkeeps₂.variableCount, detached_size]
    exact hkeeps₁.variableCount.trans registered_size

end AddDestroy

/-- After every tree-shaped run the walkabout strength of a variable is that of the strongest path
from it to a stay or an edit, and the weakest if there is none. So it is the same after any two
tree-shaped runs that end with the same constraints in the graph, and a constraint that is added and
destroyed again leaves it as it was. -/
theorem walkStrength_eq_pathStrength (h : net.TreeRun) :
    (∀ v x, net.getVariable? v = some x →
      (∀ cs, net.Path v cs → ¬ (net.pathStrength cs).StrongerThan x.walkStrength) ∧
      ((∃ cs, net.Path v cs) → ∃ cs, net.Path v cs ∧ net.pathStrength cs = x.walkStrength) ∧
      ((¬ ∃ cs, net.Path v cs) → x.walkStrength = .weakest)) ∧
    (∀ net' : Network, net'.TreeRun → net'.inGraph = net.inGraph →
      ∀ v x x', net.getVariable? v = some x → net'.getVariable? v = some x' →
        x'.walkStrength = x.walkStrength) ∧
    ∀ kind strength c net₁ net₂,
      (∀ net', (Request.add kind strength).opening net = .ok () net' → net'.TreeShaped) →
      addConstraint kind strength net = .ok c net₁ → destroy c net₁ = .ok () net₂ →
      ∀ v x, net.getVariable? v = some x →
        ∃ x₂, net₂.getVariable? v = some x₂ ∧ x₂.walkStrength = x.walkStrength := by
  have hsol := runInvariant_treeSolution.holds h
  refine ⟨?_, ?_, ?_⟩
  · intro v x hx
    obtain ⟨hv, rfl⟩ := getVariable?_eq_some.1 hx
    refine ⟨fun cs hp => Nat.not_lt.2 (hsol.rank_le_pathStrength hp), hsol.path_of_exists hv, ?_⟩
    intro hnone
    exact (hsol.exists_path hv).resolve_left fun ⟨cs, hp, _⟩ => hnone ⟨cs, hp⟩
  · intro net' h' hgraph v x x' hx hx'
    have hsol' := runInvariant_treeSolution.holds h'
    obtain ⟨hv, rfl⟩ := getVariable?_eq_some.1 hx
    obtain ⟨hv', rfl⟩ := getVariable?_eq_some.1 hx'
    exact walkStrength_eq_of_covers (covers_of_inGraph_eq hgraph)
      (covers_of_inGraph_eq hgraph.symm) hsol' hsol hv' hv
  · intro kind strength c net₁ net₂ hopen hadd hdestroy v x hx
    have hsol₁ := (runInvariant_treeSolution.ends_addConstraint hsol hopen).of_ok hadd
    have hsol₂ := (runInvariant_treeSolution.ends_destroy hsol₁).of_ok hdestroy
    obtain ⟨hv, rfl⟩ := getVariable?_eq_some.1 hx
    obtain ⟨hcov, hcov', hsize⟩ := covers_of_destroyed hsol.settled hsol₁.settled hadd hdestroy
    have hv₂ : v.index < net₂.vars.size := hsize ▸ hv
    exact ⟨net₂.var v, getVariable?_eq_var hv₂,
      walkStrength_eq_of_covers hcov' hcov hsol₂ hsol hv₂ hv⟩

end Network

/-- The constraints of `chainedRequests` in another order, without the detour. -/
def reorderedRequests : List Request :=
  [.addVariable "a" 1, .addVariable "b" 2, .addVariable "c" 3, .addVariable "m" 4,
    .addVariable "d" 5, .add (.edit ⟨2⟩) .strongPreferred,
    .add (.scale ⟨1⟩ ⟨2⟩ ⟨3⟩ ⟨4⟩) .strongDefault, .add (.equal ⟨0⟩ ⟨1⟩) .required,
    .add (.stay ⟨3⟩) .normal, .add (.stay ⟨1⟩) .preferred, .add (.stay ⟨0⟩) .weakDefault]

def reorderedNetwork : Network :=
  (Request.runAll Request.growsForest reorderedRequests .empty).get (by decide +kernel)

namespace Network

theorem walkStrength_eq_pathStrength_chainedNetwork :
    (∃ x, chainedNetwork.getVariable? ⟨0⟩ = some x ∧
      ∃ cs, chainedNetwork.Path ⟨0⟩ cs ∧ chainedNetwork.pathStrength cs = x.walkStrength) ∧
    ∀ v x x', chainedNetwork.getVariable? v = some x → reorderedNetwork.getVariable? v = some x' →
      x'.walkStrength = x.walkStrength := by
  obtain ⟨hpath, hsame, -⟩ := walkStrength_eq_pathStrength treeRun_chainedNetwork
  have hx : chainedNetwork.getVariable? ⟨0⟩ = some (chainedNetwork.var ⟨0⟩) :=
    getVariable?_eq_var (by decide +kernel)
  have hstay : chainedNetwork.Path ⟨1⟩ [⟨1⟩] :=
    .stop (by decide +kernel) (.inl (by decide +kernel))
  have hequal : chainedNetwork.Edge ⟨2⟩ ⟨0⟩ ⟨1⟩ := ⟨by decide +kernel, by decide +kernel⟩
  refine ⟨⟨_, hx, (hpath _ _ hx).2.1 ⟨_, .step hequal hstay⟩⟩, hsame reorderedNetwork ?_ ?_⟩
  · exact TreeRun.of_runAll (Option.some_get _).symm
  · decide +kernel

end Network

end ConstraintHierarchy
