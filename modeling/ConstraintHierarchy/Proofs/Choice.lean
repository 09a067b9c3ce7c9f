import ConstraintHierarchy.Proofs.Coherence

/-!
# The choice of a method

A constraint can take over a variable that the current walk has not visited and that is weaker than
the constraint. Of two such variables it takes the weaker one.

## Main definitions

* `Constraint.Chosen`: what the choice of a method says about its constraint

## Main results

* `Network.flowFor_some`: what a chosen method says about its variables
* `Network.flowFor_none`: what the lack of a method says about them
-/

namespace ConstraintHierarchy

/-! ## The choice rule -/

section Choice

variable {s : Strength} {mark : Nat} {x y : Variable}

theorem yields_of_unaryFlow {flow : Flow} (h : unaryFlow s mark x = some flow) :
    x.Yields mark s := by
  by_contra hy
  simp [unaryFlow, hy] at h

theorem yields_of_binaryFlow_forward (h : binaryFlow s mark x y = some .forward) :
    y.Yields mark s ∧ (x.mark = mark ∨ x.walkStrength.rank ≤ y.walkStrength.rank) := by
  unfold binaryFlow at h
  split_ifs at h with hx hy hym hxs hs hxs hys
  · exact ⟨hy, .inl hx⟩
  · cases h
  · cases h
  · exact ⟨hys, .inr (Nat.le_of_not_lt hs)⟩

theorem yields_of_binaryFlow_backward (h : binaryFlow s mark x y = some .backward) :
    x.Yields mark s ∧ (y.mark = mark ∨ y.walkStrength.rank ≤ x.walkStrength.rank) := by
  unfold binaryFlow at h
  split_ifs at h with hx hy hym hxs hs hxs hys
  · cases h
  · exact ⟨hxs, .inl hym⟩
  · exact ⟨hxs, .inr (Nat.le_of_lt hs)⟩
  · cases h

theorem Variable.rank_le_of_not_yields (h : ¬ x.Yields mark s) (hm : x.mark ≠ mark) :
    x.walkStrength.rank ≤ s.rank :=
  Nat.le_of_not_lt fun hs => h ⟨hm, hs⟩

theorem binaryFlow_eq_forward (hx : x.mark ≠ mark) (hy : y.Yields mark s)
    (h : ¬ y.walkStrength.StrongerThan x.walkStrength) :
    binaryFlow s mark x y = some .forward := by
  rw [binaryFlow, if_neg hx, if_neg hy.1, if_neg h, if_pos hy]

theorem binaryFlow_eq_backward (hx : x.Yields mark s) (hy : y.mark ≠ mark)
    (h : y.walkStrength.StrongerThan x.walkStrength) :
    binaryFlow s mark x y = some .backward := by
  rw [binaryFlow, if_neg hx.1, if_neg hy, if_pos h, if_pos hx]

/-- Without a method, a binary constraint is too weak for either end that was not visited. -/
theorem rank_le_of_binaryFlow_none (h : binaryFlow s mark x y = none) :
    (x.mark ≠ mark → x.walkStrength.rank ≤ s.rank) ∧
    (y.mark ≠ mark → y.walkStrength.rank ≤ s.rank) := by
  unfold binaryFlow at h
  split_ifs at h with hx hy hym hxs hs hxs hys
  · exact ⟨fun hm => absurd hx hm, Variable.rank_le_of_not_yields hy⟩
  · exact ⟨Variable.rank_le_of_not_yields hxs, fun hm => absurd hym hm⟩
  · -- `x` is the weaker end and yet too strong, so `y` is too strong as well
    have hle := Variable.rank_le_of_not_yields hxs hx
    exact ⟨fun _ => hle, fun _ => Nat.le_trans (Nat.le_of_lt hs) hle⟩
  · have hle := Variable.rank_le_of_not_yields hys hym
    exact ⟨fun _ => Nat.le_trans (Nat.le_of_not_lt hs) hle, fun _ => hle⟩

/-- A constraint whose method was chosen at some time: it is not of the weakest strength, and a unary
one flows into its variable. -/
structure Constraint.Chosen (k : Constraint) : Prop where
  strength : k.strength ≠ .weakest
  forward : k.input = none → k.flow = some .forward

end Choice

namespace Network

variable {net : Network} {mark : Nat} {c : ConstraintId} {v : VariableId}

/-- A chosen method computes a variable that the walk has not visited and that is weaker than the
constraint; what it reads was visited, or is at least as strong. -/
theorem flowFor_some {flow : Flow} (h : net.flowFor mark c = some flow) :
    (net.var (net.directed c flow).output).Yields mark (net.con c).strength ∧
    ∀ v, (net.directed c flow).input = some v → (net.var v).mark = mark ∨
      (net.var v).walkStrength.rank ≤
        (net.var (net.directed c flow).output).walkStrength.rank := by
  unfold flowFor at h
  unfold Constraint.output Constraint.input
  cases hk : (net.con c).kind with
  | stay u =>
    simp only [hk] at h
    exact ⟨yields_of_unaryFlow h, fun v hv => by cases hv⟩
  | edit u =>
    simp only [hk] at h
    exact ⟨yields_of_unaryFlow h, fun v hv => by cases hv⟩
  | equal a b =>
    simp only [hk] at h
    cases flow with
    | forward => exact (yields_of_binaryFlow_forward h).imp_right fun h v hv => by cases hv; exact h
    | backward => exact (yields_of_binaryFlow_backward h).imp_right fun h v hv => by cases hv; exact h
  | scale a b factor offset =>
    simp only [hk] at h
    cases flow with
    | forward => exact (yields_of_binaryFlow_forward h).imp_right fun h v hv => by cases hv; exact h
    | backward => exact (yields_of_binaryFlow_backward h).imp_right fun h v hv => by cases hv; exact h

theorem chosen_directed {flow : Flow} (h : net.flowFor mark c = some flow) :
    (net.directed c flow).Chosen := by
  constructor
  · intro hs
    have hlt : (net.con c).strength.rank < _ := (flowFor_some h).1.2
    rw [show (net.con c).strength = .weakest from hs] at hlt
    exact absurd hlt (Nat.not_lt.2 (Strength.rank_le_six _))
  · intro hinput
    have hunary : ∀ u, unaryFlow (net.con c).strength mark (net.var u) = some flow →
        flow = .forward := by
      intro u hu
      unfold unaryFlow at hu
      split at hu
      · exact (Option.some.inj hu).symm
      · cases hu
    unfold flowFor at h
    obtain ⟨u, hk | hk⟩ := Kind.input_eq_none_iff.1 hinput
    · rw [show (net.con c).kind = .stay u from hk] at h
      exact congrArg some (hunary u h)
    · rw [show (net.con c).kind = .edit u from hk] at h
      exact congrArg some (hunary u h)

/-- A method is chosen if its output can be taken over and is not the stronger end; on a tie the
second end is computed. -/
theorem flowFor_eq_some {flow : Flow}
    (hy : (net.var (net.directed c flow).output).Yields mark (net.con c).strength)
    (hunary : (net.directed c flow).input = none → flow = .forward)
    (hin : ∀ v, (net.directed c flow).input = some v → (net.var v).mark ≠ mark ∧
      (flow = .forward → ¬ (net.var (net.directed c flow).output).walkStrength.StrongerThan
        (net.var v).walkStrength) ∧
      (flow = .backward → (net.var v).walkStrength.StrongerThan
        (net.var (net.directed c flow).output).walkStrength)) :
    net.flowFor mark c = some flow := by
  unfold Constraint.output at hy hin
  unfold Constraint.input at hunary hin
  unfold flowFor
  cases hk : (net.con c).kind with
  | stay u =>
    simp only [hk] at hy hunary
    rw [hunary rfl]
    exact if_pos hy
  | edit u =>
    simp only [hk] at hy hunary
    rw [hunary rfl]
    exact if_pos hy
  | equal a b =>
    simp only [hk] at hy hin
    cases flow with
    | forward => exact binaryFlow_eq_forward (hin a rfl).1 hy ((hin a rfl).2.1 rfl)
    | backward => exact binaryFlow_eq_backward hy (hin b rfl).1 ((hin b rfl).2.2 rfl)
  | scale a b factor offset =>
    simp only [hk] at hy hin
    cases flow with
    | forward => exact binaryFlow_eq_forward (hin a rfl).1 hy ((hin a rfl).2.1 rfl)
    | backward => exact binaryFlow_eq_backward hy (hin b rfl).1 ((hin b rfl).2.2 rfl)

/-- A constraint without a method is too weak for every output that the walk has not visited. -/
theorem flowFor_none (h : net.flowFor mark c = none) (hv : v ∈ (net.con c).kind.outputs)
    (hm : (net.var v).mark ≠ mark) :
    (net.var v).walkStrength.rank ≤ (net.con c).strength.rank := by
  have hunary : ∀ u, unaryFlow (net.con c).strength mark (net.var u) = none → v = u →
      (net.var v).walkStrength.rank ≤ (net.con c).strength.rank := by
    rintro u hu rfl
    apply Variable.rank_le_of_not_yields _ hm
    intro hy
    simp [unaryFlow, hy] at hu
  have hbinary : ∀ a b, binaryFlow (net.con c).strength mark (net.var a) (net.var b) = none →
      v = a ∨ v = b → (net.var v).walkStrength.rank ≤ (net.con c).strength.rank := by
    rintro a b hab (rfl | rfl)
    · exact (rank_le_of_binaryFlow_none hab).1 hm
    · exact (rank_le_of_binaryFlow_none hab).2 hm
  unfold flowFor at h
  cases hk : (net.con c).kind with
  | stay u =>
    simp only [hk] at h
    exact hunary u h (by simpa [hk, Kind.outputs] using hv)
  | edit u =>
    simp only [hk] at h
    exact hunary u h (by simpa [hk, Kind.outputs] using hv)
  | equal a b =>
    simp only [hk] at h
    exact hbinary a b h (by simpa [hk, Kind.outputs] using hv)
  | scale a b factor offset =>
    simp only [hk] at h
    exact hbinary a b h (by simpa [hk, Kind.outputs] using hv)

end Network

end ConstraintHierarchy
