import ConstraintHierarchy.Proofs.Overriding

/-!
# No constraint is blocked

After every operation on a tree-shaped network, an unsatisfied constraint is no stronger than what
its possible outputs carry. Satisfying a constraint keeps this by `ends_establish_tree`. Retracting
one weakens variables, so constraints can become blocked; but those are collected on the way, and
satisfying them one after the other blocks no others.

## Main definitions

* `Network.TreeSolution`: the invariant of runs on tree-shaped networks
* `Network.Tracking`: the invariant of a release, about constraints that become blocked

## Main results

* `Network.runInvariant_treeSolution`: every operation on a tree-shaped network keeps the invariant
* `Network.unsatisfied_not_stronger`: no constraint is stronger than what its outputs carry
-/

namespace ConstraintHierarchy

open Solve

namespace Network

variable {net net' start : Network} {c d e : ConstraintId} {v : VariableId}

/-- A sound network in which no constraint is blocked. -/
structure TreeSolution (net : Network) : Prop extends Sound net where
  unblocked : ∀ c, ¬ net.Blocked c

/-! ## Changes of no consequence -/

theorem Sound.of_quiet (h : net.Sound) (hq : Quiet net net') : net'.Sound where
  settled := h.settled.of_sameSolution hq.toSameSolution
  tree := h.tree.of_keeps hq.keeps
  marksPast := hq.marksPast h.marksPast
  required := by
    rw [hq.con]
    exact h.required

theorem TreeSolution.of_quiet (h : net.TreeSolution) (hq : Quiet net net') : net'.TreeSolution :=
  ⟨h.toSound.of_quiet hq, fun c hc => h.unblocked c (hq.blocked_iff.1 hc)⟩

/-! ## Releasing a variable -/

/-- The invariant of a release that starts from `start`: marks stay, and a constraint that is
unsatisfied though stronger than an output is a candidate, or that output is still queued. -/
structure Tracking (start net : Network) (found : List ConstraintId) (q : List VariableId) :
    Prop where
  counter : net.mark = start.mark
  marks : ∀ v, (net.var v).mark = (start.var v).mark
  tracked : ∀ e v, (start.con e).attached = true → (start.con e).isSatisfied = false →
    v ∈ (start.con e).kind.outputs →
    (start.con e).strength.StrongerThan (net.var v).walkStrength → e ∈ found ∨ v ∈ q

theorem Tracking.scan {found : List ConstraintId} {q : List VariableId} (hcoh : net.Coherent)
    (hcon : net.con = start.con) (h : Tracking start net found (v :: q)) :
    Tracking start net (net.withUnsatisfied found (net.var v).constraints) q := by
  refine ⟨h.counter, h.marks, ?_⟩
  intro e w ha hu hw hs
  rcases h.tracked e w ha hu hw hs with hfound | hq
  · exact .inl (mem_withUnsatisfied.2 (.inl hfound))
  · rcases List.mem_cons.1 hq with rfl | hq
    · -- the variable is visited now, and it knows every constraint that mentions it
      refine .inl (mem_withUnsatisfied.2 (.inr ⟨hcoh.mem_listed.2 ?_, ?_⟩))
      · rw [hcon]
        exact ⟨ha, Kind.mem_operands_of_mem_outputs hw⟩
      · rw [hcon]
        exact hu
    · exact .inr hq

theorem Tracking.step {found : List ConstraintId} {q : List VariableId}
    (h : Tracking start net found q) :
    Tracking start (net.recalculated d) found (q ++ [(net.con d).output]) := by
  refine ⟨h.counter, fun v => by rw [recalculated_marks, h.marks], ?_⟩
  intro e w ha hu hw hs
  by_cases hne : w = (net.con d).output
  · exact .inr (by simp [hne])
  · rw [recalculated_var_of_ne hne] at hs
    exact (h.tracked e w ha hu hw hs).imp_right fun hq => List.mem_append_left _ hq

/-- A release finds every constraint that it blocks. -/
theorem ends_release_tracking (h : net.TreeSolution) (hc : (net.con c).isSatisfied = true) :
    Ends (release (net.con c).output) (net.detached c)
      (fun found net' => Tracking (net.detached c) net' found []) (fun e _ => e.Abrupt) := by
  have hun := h.settled.unsettled hc
  have hk : c.index < net.constraints.size := known_of_isSatisfied hc
  have base : ReleaseInvariant (fun e _ => e.Abrupt) (Releasing (net.detached c)) :=
    releaseInvariant_releasing (hun.coherent.detached hk) (fun _ hd => hun.detached_irreflexive hd)
      fun _ _ h => h
  have inv := base.and (P := fun net' found q _ => Tracking (net.detached c) net' found q)
    (fun hr ht => ht.scan (base.coherent hr) hr.graph.con) fun _ ht => ht.step
  refine (ends_release inv hun.known_output ⟨hun.releasing, ?_⟩).mono_ok fun _ _ h => h.2
  refine ⟨rfl, fun v => alterVariable_var_field fun _ => rfl, ?_⟩
  intro e v ha hu hv hs
  have hec := ne_of_detached_attached hk ha
  by_cases hout : v = (net.con c).output
  · exact .inr (by simp [hout])
  · rw [detached_con_of_ne hec] at ha hu hv hs
    have hws : ((net.released c).var v).walkStrength = (net.var v).walkStrength :=
      congrArg Annotation.walkStrength (released_current_of_ne hun.coherent hc hout)
    exact absurd ⟨ha, hu, v, hv, hws ▸ hs⟩ (h.unblocked e)

/-! ## Retrying the candidates -/

/-- The invariant of the retries: whatever is still blocked is a candidate for which `pending` holds. -/
structure Retrying (start : Network) (found : List ConstraintId)
    (pending : ConstraintId → Strength → Prop) (net : Network) : Prop where
  sound : net.Sound
  keeps : Keeps start net
  pending : ∀ e, net.Blocked e → e ∈ found ∧ pending e (net.con e).strength

/-- Satisfying a candidate settles it and unsettles no other. -/
theorem Retrying.ends_establish {found : List ConstraintId} {p p' : ConstraintId → Strength → Prop}
    (h : Retrying start found p net) (n : Nat) (ha : (start.con c).attached = true)
    (hu : (net.con c).isSatisfied = false) (hp : ∀ e s, e ≠ c → p e s → p' e s) :
    Ends (establish n c) net (fun _ net' => Retrying start found p' net')
      (fun e _ => e.Abrupt) := by
  have hsat : ∀ e, (net.con e).attached = true → (net.con e).strength = .required →
      (net.con e).isSatisfied ≠ false := by
    intro e hea her heu
    rw [h.sound.required e hea her] at heu
    cases heu
  have hac : (net.con c).attached = true := (h.keeps.attached c).trans ha
  refine (ends_establish_tree n h.sound.settled h.sound.tree h.sound.marksPast hac hu
    fun e hea her heu => absurd heu (hsat e hea her)).mono ?_ ?_
  · rintro - net' ⟨hsound, hkeeps, hblocked⟩
    refine ⟨hsound, h.keeps.trans hkeeps, ?_⟩
    intro e he
    obtain ⟨he, hne⟩ := hblocked e he
    rw [hkeeps.strength]
    exact (h.pending e he).imp_right (hp e _ hne)
  · rintro e net' (habrupt | ⟨-, hr, -⟩)
    · exact habrupt
    · exact absurd hu (hsat c hac hr.1)

/-- After the retries nothing is blocked any more. -/
theorem ends_retryLevels_tree {found : List ConstraintId} (n : Nat)
    (hfound : ∀ u ∈ found, (start.con u).attached = true) (hnet : net.Sound)
    (hkeeps : Keeps start net) (hblocked : ∀ e, net.Blocked e → e ∈ found) :
    Ends (retryLevels (establish n) found Strength.all) net
      (fun _ net' => net'.TreeSolution) (fun e _ => e.Abrupt) := by
  let L : List Strength → Network → Prop := fun levels =>
    Retrying start found fun _ s => s ∈ levels
  have hrun : Ends (retryLevels (establish n) found Strength.all) net (fun _ net' => L [] net')
      (fun e _ => e.Abrupt) := by
    refine ends_retryLevels ?_ Strength.all
      ⟨hnet, hkeeps, fun e he => ⟨hblocked e he, Strength.mem_all _⟩⟩
    intro level levels net hL
    -- within a level, what is blocked on this level is still to come
    let J : List ConstraintId → Network → Prop := fun us net =>
      (∀ u ∈ us, (start.con u).attached = true) ∧
        Retrying start found (fun e s => s ∈ levels ∨ (s = level ∧ e ∈ us)) net
    have hlevel : Ends (retryLevel (establish n) level found) net (fun _ net' => J [] net')
        (fun e _ => e.Abrupt) := by
      refine ends_retryLevel ?_ ?_ ?_ found ⟨hfound, hL.sound, hL.keeps, ?_⟩
      · intro us net hJ u hu
        exact known_of_attached ((hJ.2.keeps.attached u).trans (hJ.1 u hu))
      · intro u us net hJ _ hunsat
        have hmem : ∀ e s, e ≠ u → s ∈ levels ∨ (s = level ∧ e ∈ u :: us) →
            s ∈ levels ∨ (s = level ∧ e ∈ us) :=
          fun e s hne h => h.imp_right fun h => ⟨h.1, (List.mem_cons.1 h.2).resolve_left hne⟩
        refine (hJ.2.ends_establish n (hJ.1 u (by simp)) hunsat hmem).mono_ok ?_
        exact fun _ _ h => ⟨fun w hw => hJ.1 w (List.mem_cons_of_mem u hw), h⟩
      · intro u us net hJ hpass
        refine ⟨fun w hw => hJ.1 w (List.mem_cons_of_mem u hw), hJ.2.sound, hJ.2.keeps, ?_⟩
        intro e he
        refine (hJ.2.pending e he).imp_right fun h => h.imp_right fun h => ⟨h.1, ?_⟩
        refine (List.mem_cons.1 h.2).resolve_left ?_
        rintro rfl
        exact hpass ⟨h.1, he.2.1⟩
      · intro e he
        obtain ⟨hf, hs⟩ := hL.pending e he
        exact ⟨hf, (List.mem_cons.1 hs).symm.imp_right fun hs => ⟨hs, hf⟩⟩
    refine hlevel.mono_ok fun _ _ hJ => ⟨hJ.2.sound, hJ.2.keeps, fun e he => ?_⟩
    simpa using hJ.2.pending e he
  refine hrun.mono_ok fun _ _ h => ⟨h.sound, fun e he => ?_⟩
  simpa using h.pending e he

/-! ## Retracting -/

theorem TreeShaped.detached (h : net.TreeShaped) (hc : c.index < net.constraints.size) :
    (net.detached c).TreeShaped := by
  refine h.anti fun d hd => ?_
  have hdc := ne_of_detached_attached hc hd
  rw [detached_con_of_ne hdc] at hd ⊢
  exact ⟨hd, rfl⟩

/-- A release changes annotations only, so all but blocked constraints are as they should be. -/
theorem TreeSolution.sound_of_release {found : List ConstraintId} (h : net.TreeSolution)
    (hk : c.index < net.constraints.size) (hset : net'.Settled) (hgraph : SameGraph (net.detached c) net')
    (htrack : Tracking (net.detached c) net' found []) : net'.Sound := by
  refine ⟨hset, (h.tree.detached hk).of_keeps hgraph.keeps, ?_, ?_⟩
  · intro v
    rw [htrack.marks, htrack.counter]
    exact h.marksPast.detached h.settled.coherent hk v
  · intro e hea her
    rw [hgraph.con] at hea her ⊢
    have hec := ne_of_detached_attached hk hea
    rw [detached_con_of_ne hec] at hea her ⊢
    exact h.required e hea her

/-- What is blocked after a release is a candidate. -/
theorem Tracking.mem_of_blocked {found : List ConstraintId} (h : Tracking start net found [])
    (hcon : net.con = start.con) (he : net.Blocked e) : e ∈ found := by
  obtain ⟨hea, heu, v, hv, hs⟩ := he
  rw [hcon] at hea heu hv hs
  simpa using h.tracked e v hea heu hv hs

theorem ends_withdraw_tree (n : Nat) (h : net.TreeSolution) (hc : (net.con c).isSatisfied = true) :
    Ends (withdraw n c) net (fun _ net' => net'.TreeSolution) (fun e _ => e.Abrupt) := by
  have hk : c.index < net.constraints.size := known_of_isSatisfied hc
  refine ends_withdrawUsing h.settled.coherent hc ?_
  refine ((ends_release_settled (h.settled.unsettled hc)).and
    (ends_release_tracking h hc)).mono ?_ fun _ _ h => h.1
  rintro found net₁ ⟨⟨hset, hgraph, hfound⟩, htrack⟩ event
  have hsound : net₁.Sound := h.sound_of_release hk hset hgraph htrack
  exact ends_retryLevels_tree n (fun u hu => (hfound u hu).1) (hsound.of_quiet quiet_note)
    quiet_note.keeps fun e he => htrack.mem_of_blocked hgraph.con (quiet_note.blocked_iff.1 he)

/-- Taking an unsatisfied constraint out of the graph harms no other. -/
theorem TreeSolution.detached (hset : net.Settled) (htree : net.TreeShaped)
    (hmarks : net.MarksPast) (ha : (net.con c).attached = true)
    (hu : (net.con c).isSatisfied = false)
    (hreq : ∀ e, (net.con e).attached = true → (net.con e).strength = .required →
      (net.con e).isSatisfied = false → e = c)
    (hblocked : ∀ e, net.Blocked e → e = c) : (net.detached c).TreeSolution := by
  have hk : c.index < net.constraints.size := known_of_attached ha
  refine ⟨⟨hset.detached ha hu, htree.detached hk, hmarks.detached hset.coherent hk, ?_⟩, ?_⟩
  · intro e hea her
    have hec := ne_of_detached_attached hk hea
    rw [detached_con_of_ne hec] at hea her ⊢
    by_contra hs
    exact hec (hreq e hea her (by simpa using hs))
  · rintro e ⟨hea, heu, v, hv, hs⟩
    have hec := ne_of_detached_attached hk hea
    rw [detached_con_of_ne hec] at hea heu hv hs
    rw [detached_var hset.coherent hk] at hs
    exact hec (hblocked e ⟨hea, heu, v, hv, hs⟩)

/-! ## Runs -/

theorem treeSolution_empty {patience : Nat} : (Network.empty patience).TreeSolution := by
  have hcon : ∀ c, ((Network.empty patience).con c).attached ≠ true := by
    intro c
    rw [con_of_unknown (by simp [Network.empty])]
    simp
  have hedge : ∀ d v w, ¬ (Network.empty patience).Edge d v w := fun d v w he => hcon d he.1
  refine ⟨⟨settled_empty, ⟨fun d a => hedge d a a, fun d e a b hd => absurd hd (hedge d a b), ?_,
    fun v _ d w => hedge d v w⟩, ?_, fun e he => absurd he (hcon e)⟩, fun e he => hcon e he.1⟩
  · rw [SimpleGraph.isAcyclic_iff_forall_adj_isBridge]
    rintro v w ⟨-, d, hd⟩
    exact absurd hd (hedge d v w)
  · intro v
    rw [var_of_unknown (by simp [Network.empty])]
    exact Nat.le_refl 0

theorem TreeSolution.withVariable (h : net.TreeSolution) {name : String} {value : Float} :
    (net.withVariable name value).TreeSolution := by
  have hws : ∀ v, ((net.withVariable name value).var v).walkStrength =
      (net.var v).walkStrength :=
    fun _ => withVariable_var_field (p := Variable.walkStrength) fun _ _ => rfl
  refine ⟨⟨h.settled.withVariable, h.tree.anti fun d hd => ⟨hd, rfl⟩, ?_, h.required⟩, ?_⟩
  · intro v
    rw [withVariable_var_field (p := Variable.mark) fun _ _ => rfl]
    exact h.marksPast v
  · rintro c ⟨ha, hu, v, hv, hs⟩
    rw [hws] at hs
    exact h.unblocked c ⟨ha, hu, v, hv, hs⟩

section Add

variable {kind : Kind} {strength : Strength}

/-- A new constraint is the only one that it can block. -/
theorem TreeSolution.registered_blocked (h : net.TreeSolution)
    (hk : ∀ v ∈ kind.operands, v.index < net.vars.size)
    (he : (net.registered kind strength).Blocked e) : e = ⟨net.constraints.size⟩ := by
  by_contra hne
  obtain ⟨ha, hu, v, hv, hs⟩ := he
  rw [registered_con_of_ne hne] at ha hu hv hs
  rw [registered_var hk] at hs
  exact h.unblocked e ⟨ha, hu, v, hv, hs⟩

theorem TreeSolution.registered_required (h : net.TreeSolution)
    (ha : ((net.registered kind strength).con e).attached = true)
    (hr : ((net.registered kind strength).con e).strength = .required)
    (hu : ((net.registered kind strength).con e).isSatisfied = false) :
    e = ⟨net.constraints.size⟩ := by
  by_contra hne
  rw [registered_con_of_ne hne] at ha hr hu
  rw [h.required e ha hr] at hu
  cases hu

/-- A new constraint is refused only if it is required and too weak for all of its outputs. -/
theorem ends_add_tree (n : Nat) (h : net.TreeSolution)
    (htree : (net.registered kind strength).TreeShaped)
    (hk : ∀ v ∈ kind.operands, v.index < net.vars.size) :
    Ends (orDetach ⟨net.constraints.size⟩ (establish n ⟨net.constraints.size⟩))
      (net.registered kind strength) (fun _ net' => net'.TreeSolution)
      (fun e net' => e.Abrupt ∨ ((net.registered kind strength).Refuses ⟨net.constraints.size⟩ ∧
        net'.TreeSolution)) := by
  have hset : (net.registered kind strength).Settled := h.settled.registered hk
  have hmarks : (net.registered kind strength).MarksPast := h.marksPast.registered hk
  have ha : ((net.registered kind strength).con ⟨net.constraints.size⟩).attached = true :=
    registered_new_attached
  have hu : ((net.registered kind strength).con ⟨net.constraints.size⟩).isSatisfied = false :=
    registered_new_unsatisfied
  refine ends_orDetach ((ends_establish_tree n hset htree hmarks ha hu
    fun e => h.registered_required).mono_ok ?_) ?_ ?_
  · rintro - net' ⟨hsound, -, hblocked⟩
    refine ⟨hsound, fun e he => ?_⟩
    obtain ⟨he, hne⟩ := hblocked e he
    exact hne (h.registered_blocked hk he)
  · rintro e net' (habrupt | ⟨rfl, -⟩) hne
    · exact .inl habrupt
    · exact absurd rfl hne
  · -- refused as unsatisfiable, the network is as before but for the constraint
    rintro net' (habrupt | ⟨-, hrefuses, hq⟩)
    · exact habrupt.elim
    have hset' := hset.of_sameSolution hq.toSameSolution
    rw [← hq.con] at ha hu
    have hc := known_of_attached ha
    rw [ends_detach hc (hset'.coherent.known _ hc)]
    refine .inr ⟨hrefuses,
      .detached hset' (htree.of_keeps hq.keeps) (hq.marksPast hmarks) ha hu ?_ ?_⟩
    · rw [hq.con]
      exact fun e => h.registered_required
    · exact fun e he => h.registered_blocked hk (hq.blocked_iff.1 he)

end Add

theorem runInvariant_treeSolution :
    RunInvariant (fun net r => ∀ net', r.opening net = .ok () net' → net'.TreeShaped)
      TreeSolution where
  coherent h := h.settled.coherent
  empty := treeSolution_empty
  quiet h hq := h.of_quiet hq
  withVariable h := h.withVariable
  edit h := h
  add n h ha hk := (ends_add_tree n h (ha _ (opening_add hk)) hk).mono (fun _ _ h => h)
    fun _ _ hf => hf.imp_right fun hf => hf.2
  establish {net c} n h ha hu := by
    have hretry : Retrying net [] (fun _ _ => False) net :=
      ⟨h.toSound, .refl net, fun e he => absurd he (h.unblocked e)⟩
    refine (hretry.ends_establish n ha hu fun _ _ _ h => h).mono ?_ fun _ _ h => .inl h
    exact fun _ net' h' => ⟨h'.sound, fun e he => (h'.pending e he).2⟩
  withdraw n h hs := (ends_withdraw_tree n h hs).mono (fun _ _ h => h) fun _ _ h => .inl h
  drop h ha hu := .detached h.settled h.tree h.marksPast ha hu
    (fun e hea her heu => by rw [h.required e hea her] at heu; cases heu)
    fun e he => absurd he (h.unblocked e)

/-- After every tree-shaped run, an unsatisfied constraint of the graph is not stronger than what any
of its possible outputs carries. -/
theorem unsatisfied_not_stronger (h : net.TreeRun) {k : Constraint}
    (hk : net.getConstraint? c = some k) (ha : k.attached = true) (hu : k.isSatisfied = false)
    (hv : v ∈ k.kind.outputs) :
    ∃ x, net.getVariable? v = some x ∧ ¬ k.strength.StrongerThan x.walkStrength := by
  have hsol := runInvariant_treeSolution.holds h
  obtain ⟨hc, rfl⟩ := getConstraint?_eq_some.1 hk
  have hknown := hsol.settled.coherent.known c hc v (Kind.mem_operands_of_mem_outputs hv)
  refine ⟨net.var v, getVariable?_eq_var hknown, fun hs => ?_⟩
  exact hsol.unblocked c ⟨ha, hu, v, hv, hs⟩

end Network

/-- A required equality hands the stay of `v1` on to `v0` and overrides the one there; a scaling hands
it on to `v2` until an edit takes `v2` over, is destroyed and comes back. -/
def chainedRequests : List Request :=
  [.addVariable "a" 1, .addVariable "b" 2, .addVariable "c" 3, .addVariable "m" 4,
    .addVariable "d" 5, .add (.stay ⟨0⟩) .weakDefault, .add (.stay ⟨1⟩) .preferred,
    .add (.equal ⟨0⟩ ⟨1⟩) .required, .add (.stay ⟨3⟩) .normal,
    .add (.scale ⟨1⟩ ⟨2⟩ ⟨3⟩ ⟨4⟩) .strongDefault, .add (.edit ⟨2⟩) .strongPreferred,
    .destroy ⟨5⟩, .add (.edit ⟨2⟩) .strongPreferred]

def chainedNetwork : Network :=
  (Request.runAll Request.growsForest chainedRequests .empty).get (by decide +kernel)

namespace Network

theorem treeRun_chainedNetwork : chainedNetwork.TreeRun :=
  TreeRun.of_runAll (Option.some_get _).symm

theorem chainedNetwork_scale : chainedNetwork.getConstraint? ⟨4⟩ =
    some { kind := .scale ⟨1⟩ ⟨2⟩ ⟨3⟩ ⟨4⟩, strength := .strongDefault, attached := true } := by
  decide +kernel

theorem unsatisfied_not_stronger_chainedNetwork :
    chainedNetwork.getConstraint? ⟨4⟩ =
      some { kind := .scale ⟨1⟩ ⟨2⟩ ⟨3⟩ ⟨4⟩, strength := .strongDefault, attached := true } ∧
    ∃ x, chainedNetwork.getVariable? ⟨1⟩ = some x ∧
      ¬ Strength.StrongerThan .strongDefault x.walkStrength :=
  ⟨chainedNetwork_scale,
    unsatisfied_not_stronger treeRun_chainedNetwork chainedNetwork_scale rfl rfl (by decide)⟩

end Network

end ConstraintHierarchy
