import Mathlib.Data.Finset.Card
import ConstraintHierarchy.Proofs.Unblocked

/-!
# Optimality of the solution

Take the variables that carry at least some strength. Each of them is computed by a constraint of
that strength at least, and all possible outputs of this constraint are among them again; so the
constraints that compute them cannot make room for another one. In a network without blocked
constraints this rules out every way to satisfy one more constraint at that level.

## Main definitions

* `Network.Demanded`: the constraints that a better solution would have to satisfy

## Main results

* `Network.no_better_choice`: there is no such solution
-/

namespace ConstraintHierarchy.Network

variable {net : Network} {s : Strength} {u c : ConstraintId} {v w : VariableId}

/-- The constraint `u`, and every satisfied constraint of strength `s` or stronger. -/
def Demanded (net : Network) (s : Strength) (u : ConstraintId) : Set ConstraintId :=
  { c | c = u ∨ ∃ k, net.getConstraint? c = some k ∧ k.isSatisfied = true ∧
    ¬ s.StrongerThan k.strength }

/-- The variables that carry strength `s` or stronger. -/
def held (net : Network) (s : Strength) : Finset VariableId :=
  ((Finset.range net.vars.size).image VariableId.mk).filter
    fun v => (net.var v).walkStrength.rank ≤ s.rank

theorem mem_held (hs : s.StrongerThan .weakest) :
    v ∈ net.held s ↔ (net.var v).walkStrength.rank ≤ s.rank := by
  rw [held, Finset.mem_filter, and_iff_right_iff_imp]
  intro hv
  have hknown : v.index < net.vars.size := by
    by_contra hv'
    rw [var_of_unknown hv'] at hv
    exact absurd hs (Nat.not_lt.2 hv)
  exact Finset.mem_image.2 ⟨v.index, Finset.mem_range.2 hknown, rfl⟩

/-- A held variable is computed by a demanded constraint all of whose outputs are held. -/
theorem Settled.exists_demanded (h : net.Settled) (hs : s.StrongerThan .weakest)
    (hv : v ∈ net.held s) :
    ∃ d, (net.con d).isSatisfied = true ∧ (net.con d).output = v ∧ d ∈ net.Demanded s u ∧
      ∀ w ∈ (net.con d).kind.outputs, w ∈ net.held s := by
  rw [mem_held hs] at hv
  obtain ⟨d, hd, rfl⟩ := h.exists_determiner (Nat.lt_of_le_of_lt hv hs)
  refine ⟨d, hd, rfl, .inr ⟨net.con d, getConstraint?_eq_con (known_of_isSatisfied hd), hd, ?_⟩, ?_⟩
  · exact Nat.not_lt.2 (Nat.le_trans (h.strength_le hd) hv)
  · intro w hw
    exact (mem_held hs).2 (Nat.le_trans (h.rank_le_output hd hw) hv)

/-- After every tree-shaped run, for an unsatisfied constraint `u` of strength `s` or stronger, no
choice of outputs satisfies `u` together with all satisfied constraints of strength `s` or
stronger. -/
theorem no_better_choice (h : net.TreeRun) (hs : s.StrongerThan .weakest) {k : Constraint}
    (hk : net.getConstraint? u = some k) (ha : k.attached = true) (hu : k.isSatisfied = false)
    (hus : ¬ s.StrongerThan k.strength) :
    ¬ ∃ choice : ConstraintId → VariableId,
      (∀ c ∈ net.Demanded s u, ∀ k, net.getConstraint? c = some k → choice c ∈ k.kind.outputs) ∧
      Set.InjOn choice (net.Demanded s u) := by
  rintro ⟨choice, houtputs, hinj⟩
  have hsol := runInvariant_treeSolution.holds h
  obtain ⟨hc, rfl⟩ := getConstraint?_eq_some.1 hk
  -- `u` is too weak for its outputs, so all of them are held
  have huheld : choice u ∈ net.held s := by
    rw [mem_held hs]
    have hmem := houtputs u (.inl rfl) _ hk
    have hle : (net.var (choice u)).walkStrength.rank ≤ (net.con u).strength.rank :=
      Nat.not_lt.1 fun hlt => hsol.unblocked u ⟨ha, hu, _, hmem, hlt⟩
    exact Nat.le_trans hle (Nat.not_lt.1 hus)
  choose! determiner hsat hout hdem houts using
    fun v (hv : v ∈ net.held s) => hsol.settled.exists_demanded (u := u) hs hv
  -- the choice sends the determiners of the held variables to the held variables, one to one
  have hmaps : Set.MapsTo (fun v => choice (determiner v)) (net.held s) (net.held s) := by
    intro v hv
    have hknown := getConstraint?_eq_con (known_of_isSatisfied (hsat v hv))
    exact houts v hv _ (houtputs _ (hdem v hv) _ hknown)
  have hinj' : Set.InjOn (fun v => choice (determiner v)) (net.held s) := by
    intro v hv w hw heq
    have hvw := hinj (hdem v hv) (hdem w hw) heq
    rw [← hout v hv, ← hout w hw, hvw]
  obtain ⟨v, hv, heq⟩ := Finset.surjOn_of_injOn_of_card_le _ hmaps hinj' (Nat.le_refl _) huheld
  -- so the output chosen for `u` is taken already
  have hvu : determiner v = u := hinj (hdem v hv) (.inl rfl) heq
  have hsatu := hsat v hv
  rw [hvu, hu] at hsatu
  cases hsatu

theorem no_better_choice_chainedNetwork :
    chainedNetwork.getConstraint? ⟨4⟩ =
      some { kind := .scale ⟨1⟩ ⟨2⟩ ⟨3⟩ ⟨4⟩, strength := .strongDefault, attached := true } ∧
    ¬ ∃ choice : ConstraintId → VariableId,
      (∀ c ∈ chainedNetwork.Demanded .normal ⟨4⟩, ∀ k, chainedNetwork.getConstraint? c = some k →
        choice c ∈ k.kind.outputs) ∧
      Set.InjOn choice (chainedNetwork.Demanded .normal ⟨4⟩) :=
  ⟨chainedNetwork_scale,
    no_better_choice treeRun_chainedNetwork (by decide) chainedNetwork_scale rfl rfl (by decide)⟩

end ConstraintHierarchy.Network
