import ConstraintHierarchy.Proofs.Runs

/-!
# Annotations after a run

Whatever is asked of a network, and whether it is answered or refused, the annotations that
propagation keeps agree with the method graph: a variable carries what the constraint that computes
it says, in terms of the annotations of what that constraint reads.
-/

namespace ConstraintHierarchy

open Solve Network

/-- The annotations of `x` are those that `k` gives to its output: a stay or an edit passes on its
own strength, and only an edit does not stay; a binary constraint passes on the weaker of its own
strength and the walkabout strength of its input, and stays if everything it reads stays. -/
def Network.AnnotatedBy (net : Network) (x : Variable) (k : Constraint) : Prop :=
  match k.kind with
  | .stay _ => x.walkStrength = k.strength ∧ x.stay = true
  | .edit _ => x.walkStrength = k.strength ∧ x.stay = false
  | .equal _ _ => ∃ v y, k.input = some v ∧ net.getVariable? v = some y ∧
      x.walkStrength = k.strength.weakerOf y.walkStrength ∧ x.stay = y.stay
  | .scale _ _ factor offset => ∃ v y m d, k.input = some v ∧ net.getVariable? v = some y ∧
      net.getVariable? factor = some m ∧ net.getVariable? offset = some d ∧
      x.walkStrength = k.strength.weakerOf y.walkStrength ∧
      x.stay = (y.stay && m.stay && d.stay)

namespace Network

theorem runInvariant_settled : RunInvariant (fun _ _ => True) Settled where
  coherent h := h.coherent
  empty := settled_empty
  quiet h hq := h.of_sameSolution hq.toSameSolution
  withVariable h := h.withVariable
  edit _ := trivial
  add {net kind strength} n h _ hk := by
    refine ends_orDetach ((establishes_establish n _ _ (h.registered hk) registered_new_attached
      registered_new_unsatisfied).mono_ok fun _ _ h => h.1) ?_ ?_
    · exact fun e net' hleft _ => hleft.imp_right fun h => h.1
    · -- the constraint that is taken out again computes nothing
      rintro net' (habrupt | ⟨hset, hun⟩)
      · exact habrupt.elim
      · obtain ⟨ha, hu⟩ := hun _ rfl
        have hc := known_of_attached ha
        rw [ends_detach hc (hset.coherent.known _ hc)]
        exact .inr (hset.detached ha hu)
  establish n h ha hu := (establishes_establish n _ _ h ha hu).mono (fun _ _ h => h.1)
    fun _ _ h => h.imp_right fun h => h.1
  withdraw n h hs := (withdraws_withdraw n _ _ (h.unsettled hs)).mono (fun _ _ h => h.1)
    fun _ _ h => h.imp_right fun h => h.1
  drop h ha hu := h.detached ha hu

theorem Settled.annotatedBy {net : Network} {v : VariableId} {c : ConstraintId} (h : net.Settled)
    (hd : (net.var v).determinedBy = some c) : net.AnnotatedBy (net.var v) (net.con c) := by
  have hknown : ∀ w ∈ (net.con c).kind.operands, net.getVariable? w = some (net.var w) := by
    intro w hw
    have hc := known_of_isSatisfied ((h.coherent.determines v c).1 hd).1
    exact getVariable?_eq_var (h.coherent.known c hc w hw)
  have hex : (net.var v).current = net.annotationFor c := (h.exact v).trans (due_of_some hd)
  have hw : (net.var v).walkStrength = (net.annotationFor c).walkStrength :=
    congrArg Annotation.walkStrength hex
  have hs : (net.var v).stay = (net.annotationFor c).stay := congrArg Annotation.stay hex
  have hinput : (¬ ∃ w, (net.con c).kind = .stay w ∨ (net.con c).kind = .edit w) →
      ∃ u, (net.con c).input = some u :=
    fun hk => Option.ne_none_iff_exists'.1 fun hi => hk (Kind.input_eq_none_iff.1 hi)
  rw [annotationFor] at hw hs
  cases hk : (net.con c).kind with
  | stay u =>
    have hi : (net.con c).input = none := by rw [Constraint.input, hk, Kind.input]
    simp only [hi, Option.map_none, Constraint.annotation, Constraint.isInput, hk, Kind.isInput,
      Bool.not_false] at hw hs
    simp only [AnnotatedBy, hk]
    exact ⟨hw, hs⟩
  | edit u =>
    have hi : (net.con c).input = none := by rw [Constraint.input, hk, Kind.input]
    simp only [hi, Option.map_none, Constraint.annotation, Constraint.isInput, hk, Kind.isInput,
      Bool.not_true] at hw hs
    simp only [AnnotatedBy, hk]
    exact ⟨hw, hs⟩
  | equal a b =>
    obtain ⟨u, hi⟩ := hinput (by simp [hk])
    have hu := Constraint.mem_operands_of_mem_reads (Constraint.mem_reads.2 (.inl hi))
    simp only [hi, Option.map_some, Constraint.annotation, hk, Kind.parameters, List.map_nil,
      List.all_nil, Bool.and_true] at hw hs
    simp only [AnnotatedBy, hk]
    exact ⟨u, net.var u, hi, hknown u hu, hw, hs⟩
  | scale a b factor offset =>
    obtain ⟨u, hi⟩ := hinput (by simp [hk])
    have hu := Constraint.mem_operands_of_mem_reads (Constraint.mem_reads.2 (.inl hi))
    simp only [hi, Option.map_some, Constraint.annotation, hk, Kind.parameters, List.map_cons,
      List.map_nil, List.all_cons, List.all_nil, Bool.and_true] at hw hs
    simp only [AnnotatedBy, hk]
    refine ⟨u, net.var u, net.var factor, net.var offset, hi, hknown u hu, hknown factor ?_,
      hknown offset ?_, hw, ?_⟩
    · simp [hk, Kind.operands]
    · simp [hk, Kind.operands]
    · rw [hs, Bool.and_assoc]

end Network

/-- After any run, answered and refused requests alike, the annotations of every variable agree with
the constraint that computes it; a variable that nothing computes is free and stays. -/
theorem annotations_exact {net : Network} (h : Run (fun _ _ => True) net) {v : VariableId}
    {x : Variable} (hx : net.getVariable? v = some x) :
    match x.determinedBy with
    | none => x.walkStrength = .weakest ∧ x.stay = true
    | some c => ∃ k, net.getConstraint? c = some k ∧ net.AnnotatedBy x k := by
  have hset := runInvariant_settled.holds h
  obtain ⟨-, rfl⟩ := getVariable?_eq_some.1 hx
  split
  next hd =>
    have hex : (net.var v).current = ⟨.weakest, true⟩ := (hset.exact v).trans (due_of_none hd)
    exact ⟨congrArg Annotation.walkStrength hex, congrArg Annotation.stay hex⟩
  next c hd =>
    have hc := known_of_isSatisfied ((hset.coherent.determines v c).1 hd).1
    exact ⟨net.con c, getConstraint?_eq_con hc, hset.annotatedBy hd⟩

/-- The weak stay on `v1` is overridden by a required scaling of `v0`, whose offset is edited; the
last request names no constraint and is refused. -/
def scaledRequests : List Request :=
  [.addVariable "a" 1, .addVariable "b" 2, .addVariable "m" 3, .addVariable "d" 4,
    .add (.stay ⟨2⟩) .preferred, .add (.edit ⟨3⟩) .normal, .add (.stay ⟨1⟩) .weakDefault,
    .add (.stay ⟨0⟩) .normal, .add (.scale ⟨0⟩ ⟨1⟩ ⟨2⟩ ⟨3⟩) .required, .retract ⟨9⟩]

def scaledNetwork : Network :=
  (Request.runAll (fun _ _ => true) scaledRequests .empty).get (by decide +kernel)

theorem annotations_exact_scaledNetwork :
    ∃ x, scaledNetwork.getVariable? ⟨1⟩ = some x ∧ x.determinedBy = some ⟨4⟩ ∧
      (∃ k, scaledNetwork.getConstraint? ⟨4⟩ = some k ∧ scaledNetwork.AnnotatedBy x k) ∧
      x.walkStrength = .normal ∧ x.stay = false := by
  have hrun : Run (fun _ _ => True) scaledNetwork :=
    Run.of_runAll (fun _ _ _ => trivial) scaledRequests .empty (Option.some_get _).symm
  -- the variable is kept abstract, or the elaborator would carry out the run
  have key : ∀ x, scaledNetwork.getVariable? ⟨1⟩ = some x → x.determinedBy = some ⟨4⟩ →
      ∃ k, scaledNetwork.getConstraint? ⟨4⟩ = some k ∧ scaledNetwork.AnnotatedBy x k := by
    intro x hx hd
    simpa only [hd] using annotations_exact hrun hx
  have hx : scaledNetwork.getVariable? ⟨1⟩ = some (scaledNetwork.var ⟨1⟩) :=
    getVariable?_eq_var (by decide +kernel)
  have hd : (scaledNetwork.var ⟨1⟩).determinedBy = some ⟨4⟩ := by decide +kernel
  exact ⟨_, hx, hd, key _ hx hd, by decide +kernel⟩

end ConstraintHierarchy
