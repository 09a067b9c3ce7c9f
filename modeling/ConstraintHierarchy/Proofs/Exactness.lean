import ConstraintHierarchy.Proofs.Cascade

/-!
# Exactness of the annotations

A variable carries the walkabout strength and the stay flag that its method gives it, computed from
the annotations of what the method reads. The walks keep this by a queue without memory: whatever is
not up to date lies downstream of something that is still queued. The argument does not need the
dataflow to be acyclic; it only needs that no constraint reads its own output, and this is what the
marks of the walk show for a new method.

## Main definitions

* `Network.Exact`: the annotation of a variable is up to date
* `Network.Feeds`: one step of the dataflow
* `Network.Settled`: the network is coherent and every annotation is exact
* `Network.Unsettled`: the same but for what lies downstream of one constraint

## Main results

* `Network.establishes_establish`, `Network.withdraws_withdraw`: satisfying and retracting a constraint
  keep a network settled
-/

namespace ConstraintHierarchy

/-- A failure that stops a walk half-way. -/
def Failure.Abrupt : Failure SolveError → Prop
  | .refused (.divisionByZero _) => True
  | .refused _ => False
  | .outOfRange => True
  | .endless => True

namespace Network

open Solve Relation

/-- The annotation that `v` should carry. -/
def due (net : Network) (v : VariableId) : Annotation :=
  match (net.var v).determinedBy with
  | none => ⟨.weakest, true⟩
  | some c => net.annotationFor c

/-- The annotation of `v` is up to date. -/
def Exact (net : Network) (v : VariableId) : Prop := (net.var v).current = net.due v

/-- The variable `v` is read by the constraint that computes `w`. -/
def Feeds (net : Network) (v w : VariableId) : Prop :=
  ∃ d, (net.con d).isSatisfied = true ∧ v ∈ (net.con d).reads ∧ (net.con d).output = w

/-- The variable `w` is `v` or is computed, in some number of steps, from `v`. -/
abbrev Downstream (net : Network) : VariableId → VariableId → Prop := ReflTransGen net.Feeds

/-- Every annotation is exact, and no method computes a variable from itself. -/
structure Settled (net : Network) : Prop where
  coherent : net.Coherent
  exact : ∀ v, net.Exact v
  irreflexive : ∀ c, (net.con c).isSatisfied = true → (net.con c).output ∉ (net.con c).reads

/-- The network is settled but for the constraint `c` and what lies downstream of it. -/
structure Unsettled (net : Network) (c : ConstraintId) : Prop where
  coherent : net.Coherent
  satisfied : (net.con c).isSatisfied = true
  exact : ∀ v, net.Exact v ∨ net.Downstream (net.con c).output v
  irreflexive : ∀ d, d ≠ c → (net.con d).isSatisfied = true →
    (net.con d).output ∉ (net.con d).reads

/-- What a failing operation leaves: something half-done, or a settled network, in which a constraint
that is reported as unsatisfiable is in the graph and unsatisfied. -/
def LeavesSettled (e : Failure SolveError) (net : Network) : Prop :=
  e.Abrupt ∨ (net.Settled ∧ ∀ c, e = .refused (.unsatisfiable c) →
    (net.con c).attached = true ∧ (net.con c).isSatisfied = false)

/-! ## Annotations that agree -/

section Congruence

variable {net net' : Network} {c : ConstraintId} {v w : VariableId}

/-- An annotation is a function of the annotations of what is read. -/
theorem annotationFor_congr (hc : net'.con c = net.con c)
    (h : ∀ v ∈ (net.con c).reads, (net'.var v).current = (net.var v).current) :
    net'.annotationFor c = net.annotationFor c := by
  have hstay : ∀ v ∈ (net.con c).reads, (net'.var v).stay = (net.var v).stay :=
    fun v hv => congrArg Annotation.stay (h v hv)
  have hparams : ((net.con c).kind.parameters.map net'.var).all (·.stay) =
      ((net.con c).kind.parameters.map net.var).all (·.stay) := by
    rw [Bool.eq_iff_iff]
    simp only [List.all_map, List.all_eq_true, Function.comp_apply]
    refine forall₂_congr fun v hv => ?_
    rw [hstay v (Constraint.mem_reads.2 (.inr hv))]
  unfold annotationFor
  rw [hc]
  cases hi : (net.con c).input with
  | none => rfl
  | some v =>
    have hv : v ∈ (net.con c).reads := Constraint.mem_reads.2 (.inl hi)
    have hw : (net'.var v).walkStrength = (net.var v).walkStrength :=
      congrArg Annotation.walkStrength (h v hv)
    simp only [Option.map_some, Constraint.annotation, hparams, hw, hstay v hv]

theorem due_of_none (h : (net.var v).determinedBy = none) : net.due v = ⟨.weakest, true⟩ := by
  rw [due, h]

theorem due_of_some (h : (net.var v).determinedBy = some c) : net.due v = net.annotationFor c := by
  rw [due, h]

/-- What a variable should carry depends on its determiner and on what that would give it. -/
theorem due_congr (hdet : (net'.var v).determinedBy = (net.var v).determinedBy)
    (h : ∀ d, (net.var v).determinedBy = some d → net'.annotationFor d = net.annotationFor d) :
    net'.due v = net.due v := by
  cases hd : (net.var v).determinedBy with
  | none => rw [due_of_none hd, due_of_none (hdet.trans hd)]
  | some d => rw [due_of_some hd, due_of_some (hdet.trans hd), h d hd]

theorem SameGraph.feeds (h : SameGraph net net') : net'.Feeds = net.Feeds := by
  unfold Feeds
  rw [h.con]

theorem SameSolution.exact (h : SameSolution net net') : net'.Exact v ↔ net.Exact v := by
  have hdue : net'.due v = net.due v :=
    due_congr (h.determinedBy v) fun d _ =>
      annotationFor_congr (congrFun h.con d) fun w _ => h.current w
  rw [Exact, Exact, h.current, hdue]

/-- A network stays settled if its satisfied constraints and what its variables record about them
stay the same. -/
theorem Settled.of_satisfied (h : net.Settled) (hcoh : net'.Coherent)
    (hcurrent : ∀ v, (net'.var v).current = (net.var v).current)
    (hdet : ∀ v, (net'.var v).determinedBy = (net.var v).determinedBy)
    (hsat : ∀ d, (net'.con d).isSatisfied = true → (net.con d).isSatisfied = true)
    (hcon : ∀ d, (net.con d).isSatisfied = true → net'.con d = net.con d) : net'.Settled where
  coherent := hcoh
  exact v := by
    rw [Exact, hcurrent, h.exact v]
    refine (due_congr (hdet v) fun d hd => ?_).symm
    exact annotationFor_congr (hcon d ((h.coherent.determines v d).1 hd).1) fun w _ => hcurrent w
  irreflexive d hd := by
    rw [hcon d (hsat d hd)]
    exact h.irreflexive d (hsat d hd)

theorem Settled.of_sameSolution (hs : net.Settled) (h : SameSolution net net') : net'.Settled :=
  hs.of_satisfied (hs.coherent.of_sameGraph h.toSameGraph) h.current h.determinedBy
    (fun d hd => by rwa [h.con] at hd) fun d _ => congrFun h.con d

theorem Unsettled.of_sameSolution (hs : net.Unsettled c) (h : SameSolution net net') :
    net'.Unsettled c where
  coherent := hs.coherent.of_sameGraph h.toSameGraph
  satisfied := by rw [h.con]; exact hs.satisfied
  exact v := by
    rw [h.exact, h.con, Downstream, h.feeds]
    exact hs.exact v
  irreflexive d := by rw [h.con]; exact hs.irreflexive d

theorem Settled.unsettled (hs : net.Settled) (hc : (net.con c).isSatisfied = true) :
    net.Unsettled c :=
  ⟨hs.coherent, hc, fun v => .inl (hs.exact v), fun d _ => hs.irreflexive d⟩

end Congruence

/-! ## One recalculation -/

section Recalculation

variable {net : Network} {d : ConstraintId} {w : VariableId}

theorem current_refreshed (x : Variable) :
    (net.refreshed d x).current = net.annotationFor d := rfl

theorem recalculated_current_of_ne (h : w ≠ (net.con d).output) :
    ((net.recalculated d).var w).current = (net.var w).current := by
  rw [recalculated_var_of_ne h]

theorem recalculated_annotationFor {e : ConstraintId}
    (h : (net.con d).output ∉ (net.con e).reads) :
    (net.recalculated d).annotationFor e = net.annotationFor e := by
  apply annotationFor_congr
  · rfl
  · intro v hv
    apply recalculated_current_of_ne
    rintro rfl
    exact h hv

/-- The output of a recalculated constraint is up to date. -/
theorem exact_recalculated_output (h : net.Coherent) (hd : (net.con d).isSatisfied = true)
    (hself : (net.con d).output ∉ (net.con d).reads) :
    (net.recalculated d).Exact (net.con d).output := by
  have hdet := h.determinedBy_output hd
  rw [Exact, due_of_some (recalculated_determinedBy.trans hdet), recalculated_annotationFor hself,
    recalculated_var_output (h.known_output (known_of_isSatisfied hd)), current_refreshed]

/-- What was up to date stays so, unless it reads the recalculated output. -/
theorem exact_recalculated_of_exact (h : net.Coherent) (hw : net.Exact w)
    (hne : w ≠ (net.con d).output) :
    (net.recalculated d).Exact w ∨ net.Feeds (net.con d).output w := by
  by_cases hf : net.Feeds (net.con d).output w
  · exact .inr hf
  left
  rw [Exact, recalculated_current_of_ne hne, hw]
  refine (due_congr recalculated_determinedBy fun e he => ?_).symm
  obtain ⟨hs, ho⟩ := (h.determines w e).1 he
  exact recalculated_annotationFor fun hv => hf ⟨e, hs, hv, ho⟩

end Recalculation

/-! ## Downstream of a new method -/

section Walk

variable {start : Network} {mark : Nat} {c : ConstraintId}

/-- The argument of a walk. What is not yet right lies downstream of something queued; if a visit puts
the output of `d` right and disturbs only what reads it, this is true of the queue after the visit. -/
theorem waits_step {net : Network} {d : ConstraintId} {q : List ConstraintId}
    {p p' : VariableId → Prop} (hcoh : start.Coherent) (hgraph : SameGraph start net)
    (hsat : (start.con d).isSatisfied = true) (hself : (start.con d).output ∉ (start.con d).reads)
    (hout : p' (start.con d).output)
    (hother : ∀ w, w ≠ (start.con d).output → p w → p' w ∨ start.Feeds (start.con d).output w)
    (h : ∀ w, p w ∨ ∃ e ∈ d :: q, start.Downstream (start.con e).output w) (w : VariableId) :
    p' w ∨ ∃ e ∈ q ++ net.consumersOf (start.con d).output,
      start.Downstream (start.con e).output w := by
  -- a constraint that reads the output of `d` is queued next
  have hnext : ∀ w, start.Feeds (start.con d).output w →
      ∃ e ∈ net.consumersOf (start.con d).output, (start.con e).output = w := by
    rintro w ⟨e, hes, her, rfl⟩
    refine ⟨e, (hcoh.of_sameGraph hgraph).mem_consumersOf.2 ?_, rfl⟩
    rw [hgraph.con]
    -- it computes something else, or `d` would read its own output
    refine ⟨hes, her, fun heq => ?_⟩
    have hdet := hcoh.determinedBy_output hes
    rw [heq, hcoh.determinedBy_output hsat] at hdet
    cases hdet
    exact hself her
  by_cases hw : w = (start.con d).output
  · rw [hw]
    exact .inl hout
  · rcases h w with hp | ⟨e, he, hpath⟩
    · refine (hother w hw hp).imp_right fun hf => ?_
      obtain ⟨e, he, rfl⟩ := hnext w hf
      exact ⟨e, List.mem_append_right q he, .refl⟩
    · rcases List.mem_cons.1 he with rfl | he
      · -- a path below `d` starts with a constraint that is queued now
        rcases hpath.cases_head with heq | ⟨u, hu, hrest⟩
        · exact absurd heq.symm hw
        · obtain ⟨e', he', rfl⟩ := hnext u hu
          exact .inr ⟨e', List.mem_append_right q he', hrest⟩
      · exact .inr ⟨e, List.mem_append_left _ he, hpath⟩

/-- The invariant of the walk below `c`, which starts from `start`: the graph and the marks stay as
they are, everything queued lies downstream of `c`, and whatever is not up to date lies downstream
of something queued. -/
structure Refreshing (start : Network) (mark : Nat) (c : ConstraintId) (net : Network)
    (q : List ConstraintId) : Prop where
  graph : SameGraph start net
  marks : ∀ v, (net.var v).mark = (start.var v).mark
  queued : ∀ d ∈ q, (start.con d).isSatisfied = true ∧
    start.Downstream (start.con c).output (start.con d).output
  exact : ∀ w, net.Exact w ∨ ∃ d ∈ q, start.Downstream (start.con d).output w
  visited : c ∈ q ∨ (start.var (start.con c).output).mark ≠ mark

theorem Refreshing.step (hcoh : start.Coherent)
    (hself : ∀ d, (start.con d).isSatisfied = true →
      (start.var (start.con d).output).mark ≠ mark → (start.con d).output ∉ (start.con d).reads)
    {net : Network} {d : ConstraintId} {q : List ConstraintId}
    (h : Refreshing start mark c net (d :: q)) (hm : (net.var (net.con d).output).mark ≠ mark) :
    Refreshing start mark c (net.recalculated d) (q ++ net.consumersOf (net.con d).output) := by
  have hnet : net.Coherent := hcoh.of_sameGraph h.graph
  have hm' : (start.var (start.con d).output).mark ≠ mark := by
    rwa [h.graph.con, h.marks] at hm
  obtain ⟨hsat, hdown⟩ := h.queued d (by simp)
  have hout : (net.con d).output = (start.con d).output := by rw [h.graph.con]
  refine ⟨h.graph.trans sameGraph_recalculated, ?_, ?_, ?_, ?_⟩
  · intro v
    rw [recalculated_marks, h.marks]
  · intro e he
    rcases List.mem_append.1 he with he | he
    · exact h.queued e (List.mem_cons_of_mem d he)
    · rw [hnet.mem_consumersOf, h.graph.con] at he
      exact ⟨he.1, hdown.tail ⟨e, he.1, he.2.1, rfl⟩⟩
  · rw [hout]
    refine waits_step hcoh h.graph hsat (hself d hsat hm') ?_ ?_ h.exact
    · rw [← hout]
      refine exact_recalculated_output hnet ?_ ?_
      · rwa [h.graph.con]
      · rw [h.graph.con]
        exact hself d hsat hm'
    · intro w hw hex
      rw [← hout] at hw
      rw [← h.graph.feeds, ← hout]
      exact exact_recalculated_of_exact hnet hex hw
  · rcases h.visited with hc | hc
    · rcases List.mem_cons.1 hc with rfl | hc
      · exact .inr hm'
      · exact .inl (List.mem_append_left _ hc)
    · exact .inr hc

theorem walkInvariant_refreshing {fail : Failure SolveError → Network → Prop}
    (hcoh : start.Coherent)
    (hself : ∀ d, (start.con d).isSatisfied = true →
      (start.var (start.con d).output).mark ≠ mark → (start.con d).output ∉ (start.con d).reads)
    (hfail : ∀ e net, e.Abrupt → fail e net) :
    WalkInvariant mark fail (Refreshing start mark c) where
  coherent h := hcoh.of_sameGraph h.graph
  satisfied h d hd := by rw [h.graph.con]; exact (h.queued d hd).1
  step h hm _ := h.step hcoh hself hm
  refused _ _ _ := hfail _ _ trivial
  endless _ := hfail _ _ trivial

theorem refreshing_start (hsat : (start.con c).isSatisfied = true)
    (hexact : ∀ w, w ≠ (start.con c).output → start.Exact w) :
    Refreshing start mark c start [c] := by
  refine ⟨.refl start, fun _ => rfl, ?_, ?_, .inl (by simp)⟩
  · intro d hd
    rw [List.mem_singleton.1 hd]
    exact ⟨hsat, .refl⟩
  · intro w
    by_cases hw : w = (start.con c).output
    · exact .inr ⟨c, by simp, hw ▸ .refl⟩
    · exact .inl (hexact w hw)

/-- The walk below a new method, whose reads are marked, settles the network; if it meets its mark,
what is not up to date lies downstream of the method. -/
theorem ends_walk_settled (n : Nat) (hcoh : start.Coherent)
    (hsat : (start.con c).isSatisfied = true)
    (hexact : ∀ w, w ≠ (start.con c).output → start.Exact w)
    (hirr : ∀ d, d ≠ c → (start.con d).isSatisfied = true →
      (start.con d).output ∉ (start.con d).reads)
    (hmarked : ∀ v ∈ (start.con c).reads, (start.var v).mark = mark) :
    Ends (walk mark n [c]) start
      (fun met net' => SameGraph start net' ∧ (met = none → net'.Settled) ∧
        ∀ v, met = some v → net'.Unsettled c)
      (fun e _ => e.Abrupt) := by
  have hself : ∀ d, (start.con d).isSatisfied = true →
      (start.var (start.con d).output).mark ≠ mark →
      (start.con d).output ∉ (start.con d).reads := by
    intro d hd hm
    by_cases hdc : d = c
    · subst hdc
      exact fun hr => hm (hmarked _ hr)
    · exact hirr d hdc hd
  refine (ends_walk (walkInvariant_refreshing hcoh hself fun _ _ h => h) _
    (refreshing_start hsat hexact)).mono_ok ?_
  intro met net' hend
  cases met with
  | none =>
    -- `c` has been visited, so its output is not among the marked variables it reads
    have hc : (start.var (start.con c).output).mark ≠ mark := by
      simpa using hend.visited
    refine ⟨hend.graph, fun _ => ⟨hcoh.of_sameGraph hend.graph, ?_, ?_⟩, nofun⟩
    · exact fun v => by simpa using hend.exact v
    · intro d hd
      rw [hend.graph.con] at hd ⊢
      by_cases hdc : d = c
      · subst hdc
        exact hself d hsat hc
      · exact hirr d hdc hd
  | some v =>
    obtain ⟨d, q, hmet, -, -⟩ := hend
    refine ⟨hmet.graph, nofun, fun _ _ => ⟨hcoh.of_sameGraph hmet.graph, ?_, ?_, ?_⟩⟩
    · rwa [hmet.graph.con]
    · intro w
      rcases hmet.exact w with hex | ⟨e, he, hpath⟩
      · exact .inl hex
      · rw [Downstream, hmet.graph.feeds, hmet.graph.con]
        exact .inr ((hmet.queued e he).2.trans hpath)
    · rw [hmet.graph.con]
      exact hirr

/-- Retracting a constraint settles a network that is settled but for it. -/
def Withdraws (withdraw : ConstraintId → Solve Unit) : Prop :=
  ∀ net c, net.Unsettled c → Ends (withdraw c) net
    (fun _ net' => net'.Settled ∧ Keeps (net.detached c) net')
    LeavesSettled

/-- Satisfying a constraint of a settled network leaves it settled. -/
def Establishes (establish : ConstraintId → Solve Unit) : Prop :=
  ∀ net c, net.Settled → (net.con c).attached = true → (net.con c).isSatisfied = false →
    Ends (establish c) net (fun _ net' => net'.Settled ∧ Keeps net net')
      LeavesSettled

end Walk

/-! ## Downstream of a lost method -/

section Release

variable {start : Network}

/-- A variable is visited: what lies downstream of it waits for the constraints that read it. -/
theorem waits_scan {net : Network} {v : VariableId} {q : List VariableId} {p : VariableId → Prop}
    (hcoh : start.Coherent) (hgraph : SameGraph start net)
    (hirr : ∀ d, (start.con d).isSatisfied = true → (start.con d).output ∉ (start.con d).reads)
    (h : ∀ w, p w ∨ (∃ d ∈ ([] : List ConstraintId), start.Downstream (start.con d).output w) ∨
      ∃ u ∈ v :: q, TransGen start.Feeds u w) (w : VariableId) :
    p w ∨ (∃ d ∈ net.consumersOf v, start.Downstream (start.con d).output w) ∨
      ∃ u ∈ q, TransGen start.Feeds u w := by
  rcases h w with hp | ⟨d, hd, -⟩ | ⟨u, hu, hpath⟩
  · exact .inl hp
  · exact absurd hd (by simp)
  · rcases List.mem_cons.1 hu with rfl | hu
    · -- the first step of the path leads to a constraint that reads the variable visited
      obtain ⟨x, ⟨d, hds, hdr, rfl⟩, hrest⟩ := TransGen.head'_iff.1 hpath
      refine .inr (.inl ⟨d, (hcoh.of_sameGraph hgraph).mem_consumersOf.2 ?_, hrest⟩)
      rw [hgraph.con]
      refine ⟨hds, hdr, ?_⟩
      rintro rfl
      exact hirr d hds hdr
    · exact .inr (.inr ⟨u, hu, hpath⟩)

/-- The output of `d` is put right: what lies downstream of it waits for that output to be visited. -/
theorem waits_release {d : ConstraintId} {ds : List ConstraintId} {q : List VariableId}
    {p p' : VariableId → Prop} (hout : p' (start.con d).output)
    (hother : ∀ w, w ≠ (start.con d).output → p w → p' w ∨ start.Feeds (start.con d).output w)
    (h : ∀ w, p w ∨ (∃ e ∈ d :: ds, start.Downstream (start.con e).output w) ∨
      ∃ v ∈ q, TransGen start.Feeds v w) (w : VariableId) :
    p' w ∨ (∃ e ∈ ds, start.Downstream (start.con e).output w) ∨
      ∃ v ∈ q ++ [(start.con d).output], TransGen start.Feeds v w := by
  by_cases hw : w = (start.con d).output
  · rw [hw]
    exact .inl hout
  · rcases h w with hp | ⟨e, he, hpath⟩ | ⟨v, hv, hpath⟩
    · refine (hother w hw hp).imp_right fun hf => .inr ⟨_, by simp, .single hf⟩
    · rcases List.mem_cons.1 he with rfl | he
      · rcases reflTransGen_iff_eq_or_transGen.1 hpath with heq | hpath
        · exact absurd heq hw
        · exact .inr (.inr ⟨_, by simp, hpath⟩)
      · exact .inr (.inl ⟨e, he, hpath⟩)
    · exact .inr (.inr ⟨v, List.mem_append_left _ hv, hpath⟩)

/-- The invariant of a release: the graph stays as it is, the candidates are unsatisfied constraints
of it, and whatever is not up to date lies downstream of something that is still to be done. -/
structure Releasing (start net : Network) (found : List ConstraintId) (q : List VariableId)
    (ds : List ConstraintId) : Prop where
  graph : SameGraph start net
  known : ∀ v ∈ q, v.index < start.vars.size
  found : ∀ u ∈ found, (start.con u).attached = true ∧ (start.con u).isSatisfied = false
  satisfied : ∀ d ∈ ds, (start.con d).isSatisfied = true
  exact : ∀ w, net.Exact w ∨ (∃ d ∈ ds, start.Downstream (start.con d).output w) ∨
    ∃ v ∈ q, TransGen start.Feeds v w

theorem Releasing.scan (hcoh : start.Coherent)
    (hirr : ∀ d, (start.con d).isSatisfied = true → (start.con d).output ∉ (start.con d).reads)
    {net : Network} {found : List ConstraintId} {v : VariableId} {q : List VariableId}
    (h : Releasing start net found (v :: q) []) :
    Releasing start net (net.withUnsatisfied found (net.var v).constraints) q
      (net.consumersOf v) := by
  have hnet : net.Coherent := hcoh.of_sameGraph h.graph
  refine ⟨h.graph, fun u hu => h.known u (List.mem_cons_of_mem v hu), ?_, ?_, ?_⟩
  · intro u hu
    rcases mem_withUnsatisfied.1 hu with hu | ⟨hu, hs⟩
    · exact h.found u hu
    · rw [hnet.mem_listed, h.graph.con] at hu
      rw [h.graph.con] at hs
      exact ⟨hu.1, hs⟩
  · intro d hd
    rw [hnet.mem_consumersOf, h.graph.con] at hd
    exact hd.1
  · exact waits_scan hcoh h.graph hirr h.exact

theorem Releasing.step (hcoh : start.Coherent)
    (hirr : ∀ d, (start.con d).isSatisfied = true → (start.con d).output ∉ (start.con d).reads)
    {net : Network} {found : List ConstraintId} {q : List VariableId} {d : ConstraintId}
    {ds : List ConstraintId} (h : Releasing start net found q (d :: ds)) :
    Releasing start (net.recalculated d) found (q ++ [(net.con d).output]) ds := by
  have hnet : net.Coherent := hcoh.of_sameGraph h.graph
  have hsat := h.satisfied d (by simp)
  have hout : (net.con d).output = (start.con d).output := by rw [h.graph.con]
  refine ⟨h.graph.trans sameGraph_recalculated, ?_, h.found,
    fun e he => h.satisfied e (List.mem_cons_of_mem d he), ?_⟩
  · intro v hv
    rcases List.mem_append.1 hv with hv | hv
    · exact h.known v hv
    · rw [List.mem_singleton.1 hv, hout]
      exact hcoh.known_output (known_of_isSatisfied hsat)
  · rw [hout]
    refine waits_release ?_ ?_ h.exact
    · rw [← hout]
      refine exact_recalculated_output hnet ?_ ?_
      · rwa [h.graph.con]
      · rw [h.graph.con]
        exact hirr d hsat
    · intro w hw hex
      rw [← hout] at hw
      rw [← h.graph.feeds, ← hout]
      exact exact_recalculated_of_exact hnet hex hw

theorem releaseInvariant_releasing {fail : Failure SolveError → Network → Prop}
    (hcoh : start.Coherent)
    (hirr : ∀ d, (start.con d).isSatisfied = true → (start.con d).output ∉ (start.con d).reads)
    (hfail : ∀ e net, e.Abrupt → fail e net) :
    ReleaseInvariant fail (Releasing start) where
  coherent h := hcoh.of_sameGraph h.graph
  known h v hv := by rw [h.graph.variableCount]; exact h.known v hv
  satisfied h d hd := by rw [h.graph.con]; exact h.satisfied d hd
  scan h := h.scan hcoh hirr
  step h _ := h.step hcoh hirr
  refused _ _ := hfail _ _ trivial
  endless _ := hfail _ _ trivial

/-- A path from the output of `c` that comes back to `c` can be cut short, so it survives the loss of
`c`. -/
theorem transGen_detached {net : Network} {c : ConstraintId} {w : VariableId}
    (hc : c.index < net.constraints.size) (h : net.Downstream (net.con c).output w) :
    w = (net.con c).output ∨ TransGen (net.detached c).Feeds (net.con c).output w := by
  induction h with
  | refl => exact .inl rfl
  | @tail x y _ hstep ih =>
    obtain ⟨d, hd, hr, rfl⟩ := hstep
    by_cases hdc : d = c
    · exact .inl (by rw [hdc])
    · have hfeeds : (net.detached c).Feeds x (net.con d).output := by
        refine ⟨d, (detached_isSatisfied_iff hc).2 ⟨hdc, hd⟩, ?_, ?_⟩
        · rwa [detached_con_of_ne hdc]
        · rw [detached_con_of_ne hdc]
      rcases ih with rfl | ih
      · exact .inr (.single hfeeds)
      · exact .inr (ih.tail hfeeds)

/-- The network from which a release starts: `c` is out of the graph and its output undetermined. -/
def released (net : Network) (c : ConstraintId) : Network :=
  (net.detached c).alterVariable (net.con c).output (·.undetermined)

section Released

variable {net : Network} {c : ConstraintId} {v w : VariableId}

theorem released_con : (net.released c).con = (net.detached c).con := rfl

theorem released_var_output (h : net.Coherent) (hc : (net.con c).isSatisfied = true) :
    (net.released c).var (net.con c).output =
      ((net.detached c).var (net.con c).output).undetermined := by
  apply alterVariable_var_self
  rw [detached_size]
  exact h.known_output (known_of_isSatisfied hc)

theorem released_var_of_ne (h : net.Coherent) (hc : (net.con c).isSatisfied = true)
    (hv : v ≠ (net.con c).output) : (net.released c).var v = (net.var v).detach c := by
  rw [released, alterVariable_var_of_ne hv, detached_var h (known_of_isSatisfied hc)]

theorem detached_determinedBy_output (h : net.Coherent) (hc : (net.con c).isSatisfied = true) :
    ((net.detached c).var (net.con c).output).determinedBy = none := by
  rw [detached_var h (known_of_isSatisfied hc), Variable.detach, h.determinedBy_output hc, if_pos rfl]

theorem sameGraph_released (h : net.Coherent) (hc : (net.con c).isSatisfied = true) :
    SameGraph (net.detached c) (net.released c) := by
  refine ⟨rfl, rfl, alterVariable_size, fun _ => alterVariable_var_field fun _ => rfl, ?_⟩
  intro v
  by_cases hv : v = (net.con c).output
  · subst hv
    rw [released_var_output h hc, detached_determinedBy_output h hc]
    rfl
  · rw [released, alterVariable_var_of_ne hv]

theorem freeing_released (h : net.Coherent) (hc : (net.con c).isSatisfied = true) :
    Freeing (net.detached c) (net.released c) [] [(net.con c).output] [] := by
  refine ⟨sameGraph_released h hc, fun _ => alterVariable_var_field fun _ => rfl, rfl, ?_, by simp,
    by simp⟩
  intro v hv
  rw [List.mem_singleton.1 hv, detached_size]
  exact h.known_output (known_of_isSatisfied hc)

theorem released_current_of_ne (h : net.Coherent) (hc : (net.con c).isSatisfied = true)
    (hv : v ≠ (net.con c).output) : ((net.released c).var v).current = (net.var v).current := by
  rw [released_var_of_ne h hc hv]
  rfl

theorem released_determinedBy_of_ne (h : net.Coherent) (hc : (net.con c).isSatisfied = true)
    (hv : v ≠ (net.con c).output) :
    ((net.released c).var v).determinedBy = (net.var v).determinedBy := by
  have hne : (net.var v).determinedBy ≠ some c := fun he => hv ((h.determines v c).1 he).2.symm
  rw [released_var_of_ne h hc hv, Variable.detach, if_neg hne]

theorem exact_released_output (h : net.Coherent) (hc : (net.con c).isSatisfied = true) :
    (net.released c).Exact (net.con c).output := by
  have hnone : ((net.released c).var (net.con c).output).determinedBy = none :=
    ((sameGraph_released h hc).determinedBy _).trans (detached_determinedBy_output h hc)
  rw [Exact, due_of_none hnone, released_var_output h hc]
  rfl

/-- What was up to date before `c` left stays so, unless it reads the output of `c`. -/
theorem exact_released_of_exact (h : net.Coherent) (hc : (net.con c).isSatisfied = true)
    (hw : w ≠ (net.con c).output) (hex : net.Exact w) :
    (net.released c).Exact w ∨ net.Feeds (net.con c).output w := by
  by_cases hf : net.Feeds (net.con c).output w
  · exact .inr hf
  left
  rw [Exact, released_current_of_ne h hc hw, hex]
  refine (due_congr (released_determinedBy_of_ne h hc hw) fun e he => ?_).symm
  obtain ⟨hes, heo⟩ := (h.determines w e).1 he
  have hec : e ≠ c := by
    rintro rfl
    exact hw heo.symm
  refine annotationFor_congr (by rw [released_con, detached_con_of_ne hec]) fun v hv => ?_
  apply released_current_of_ne h hc
  rintro rfl
  exact hf ⟨e, hes, hv, heo⟩

end Released

theorem Unsettled.detached_irreflexive {net : Network} {c d : ConstraintId} (h : net.Unsettled c)
    (hd : ((net.detached c).con d).isSatisfied = true) :
    ((net.detached c).con d).output ∉ ((net.detached c).con d).reads := by
  obtain ⟨hne, hs⟩ := (detached_isSatisfied_iff (known_of_isSatisfied h.satisfied)).1 hd
  rw [detached_con_of_ne hne]
  exact h.irreflexive d hne hs

theorem Unsettled.known_output {net : Network} {c : ConstraintId} (h : net.Unsettled c) :
    (net.con c).output.index < (net.detached c).vars.size := by
  rw [detached_size]
  exact h.coherent.known_output (known_of_isSatisfied h.satisfied)

theorem Unsettled.releasing {net : Network} {c : ConstraintId} (h : net.Unsettled c) :
    Releasing (net.detached c) (net.released c) [] [(net.con c).output] [] := by
  have hc : c.index < net.constraints.size := known_of_isSatisfied h.satisfied
  refine ⟨sameGraph_released h.coherent h.satisfied, by simpa using h.known_output, by simp,
    by simp, ?_⟩
  intro w
  by_cases hw : w = (net.con c).output
  · subst hw
    exact .inl (exact_released_output h.coherent h.satisfied)
  · have hpath : net.Downstream (net.con c).output w →
        TransGen (net.detached c).Feeds (net.con c).output w :=
      fun hd => (transGen_detached hc hd).resolve_left hw
    rcases h.exact w with hex | hd
    · rcases exact_released_of_exact h.coherent h.satisfied hw hex with hex | hf
      · exact .inl hex
      · exact .inr (.inr ⟨_, by simp, hpath (.single hf)⟩)
    · exact .inr (.inr ⟨_, by simp, hpath hd⟩)

theorem ends_release_settled {net : Network} {c : ConstraintId} (h : net.Unsettled c) :
    Ends (release (net.con c).output) (net.detached c)
      (fun found net' => net'.Settled ∧ SameGraph (net.detached c) net' ∧
        ∀ u ∈ found, (net'.con u).attached = true ∧ (net'.con u).isSatisfied = false)
      (fun e _ => e.Abrupt) := by
  have hc : c.index < net.constraints.size := known_of_isSatisfied h.satisfied
  have hcoh : (net.detached c).Coherent := h.coherent.detached hc
  have hirr := fun d => h.detached_irreflexive (d := d)
  refine (ends_release (releaseInvariant_releasing hcoh hirr fun _ _ h => h) h.known_output
    h.releasing).mono_ok ?_
  intro found net' hend
  refine ⟨⟨hcoh.of_sameGraph hend.graph, fun w => by simpa using hend.exact w, ?_⟩,
    hend.graph, ?_⟩
  · rw [hend.graph.con]
    exact hirr
  · rw [hend.graph.con]
    exact hend.found

end Release

/-! ## Adding and retracting -/

section Operations

variable {establish rollback : ConstraintId → Solve Unit}

theorem Establishes.retryLevels (h : Establishes establish) {start : Network}
    {candidates : List ConstraintId} (hcand : ∀ u ∈ candidates, (start.con u).attached = true)
    {net : Network} (hnet : net.Settled) (hkeeps : Keeps start net) :
    Ends (retryLevels establish candidates Strength.all) net
      (fun _ net' => net'.Settled ∧ Keeps start net')
      LeavesSettled := by
  refine ends_retryLevels (L := fun _ net => net.Settled ∧ Keeps start net) ?_ _ ⟨hnet, hkeeps⟩
  rintro level levels net ⟨hnet, hkeeps⟩
  let J : List ConstraintId → Network → Prop := fun us net =>
    net.Settled ∧ Keeps start net ∧ ∀ u ∈ us, (start.con u).attached = true
  have hlevel : Ends (retryLevel establish level candidates) net (fun _ net' => J [] net')
      LeavesSettled := by
    refine ends_retryLevel (J := J) ?_ ?_ ?_ _ ⟨hnet, hkeeps, hcand⟩
    · rintro us net ⟨-, hkeeps, hus⟩ u hu
      exact known_of_attached ((hkeeps.attached u).trans (hus u hu))
    · rintro u us net ⟨hnet, hkeeps, hus⟩ - hunsat
      have ha : (net.con u).attached = true :=
        (hkeeps.attached u).trans (hus u (by simp))
      refine (h net u hnet ha hunsat).mono_ok ?_
      rintro - net' ⟨hnet', hkeeps'⟩
      exact ⟨hnet', hkeeps.trans hkeeps', fun w hw => hus w (List.mem_cons_of_mem u hw)⟩
    · rintro u us net ⟨hnet, hkeeps, hus⟩ -
      exact ⟨hnet, hkeeps, fun w hw => hus w (List.mem_cons_of_mem u hw)⟩
  exact hlevel.mono_ok fun _ _ h => ⟨h.1, h.2.1⟩

theorem Establishes.withdraws (h : Establishes establish) : Withdraws (withdrawUsing establish) := by
  intro net c hun
  apply ends_withdrawUsing hun.coherent hun.satisfied
  refine (ends_release_settled hun).mono ?_ fun _ _ h => .inl h
  rintro found net' ⟨hnet', hgraph, hfound⟩ event
  have hevent : SameSolution net' { net' with journal := net'.journal.push event } :=
    sameSolution_of_eq rfl rfl
  refine h.retryLevels ?_ (hnet'.of_sameSolution hevent)
    (hgraph.keeps.trans hevent.keeps)
  intro u hu
  rw [← hgraph.con]
  exact (hfound u hu).1

/-- The state of a cascade: the network is settled and the displaced constraint is an unsatisfied
one of the graph. -/
def Cascading (start : Network) (o : Option ConstraintId) (net : Network) : Prop :=
  net.Settled ∧ Keeps start net ∧
    ∀ d, o = some d → (net.con d).attached = true ∧ (net.con d).isSatisfied = false

theorem takenOver_current {net : Network} {mark : Nat} {c : ConstraintId} {flow : Flow}
    {v : VariableId} : ((net.takenOver mark c flow).var v).current = (net.var v).current := by
  simp only [Variable.current, takenOver_current_fields]

/-- Taking over an output leaves every other variable up to date. -/
theorem Settled.exact_takenOver {net : Network} {mark : Nat} {c : ConstraintId} {flow : Flow}
    {w : VariableId} (h : net.Settled) (ha : (net.con c).attached = true)
    (hu : (net.con c).isSatisfied = false) (hw : w ≠ (net.directed c flow).output) :
    (net.takenOver mark c flow).Exact w := by
  have hdet : ((net.takenOver mark c flow).var w).determinedBy = (net.var w).determinedBy := by
    rw [takenOver_var h.coherent (known_of_attached ha), if_neg hw]
  rw [Exact, takenOver_current, h.exact w]
  refine (due_congr hdet fun e he => ?_).symm
  obtain ⟨hes, rfl⟩ := (h.coherent.determines w e).1 he
  exact annotationFor_congr (takenOver_con_of_satisfied h.coherent hu hes hw)
    fun _ _ => takenOver_current

/-- A method whose output is not marked does not compute it from itself: what the new one reads is
marked. -/
theorem Settled.takenOver_irreflexive {net : Network} {mark : Nat} {c d : ConstraintId}
    {flow : Flow} (h : net.Settled) (ha : (net.con c).attached = true)
    (hu : (net.con c).isSatisfied = false)
    (hd : ((net.takenOver mark c flow).con d).isSatisfied = true)
    (hm : ((net.takenOver mark c flow).var ((net.takenOver mark c flow).con d).output).mark ≠ mark) :
    ((net.takenOver mark c flow).con d).output ∉ ((net.takenOver mark c flow).con d).reads := by
  have hc : c.index < net.constraints.size := known_of_attached ha
  by_cases hdc : d = c
  · subst hdc
    rw [takenOver_con_self h.coherent hc hu] at hm ⊢
    intro hr
    rw [takenOver_var h.coherent hc, if_pos hr] at hm
    exact hm rfl
  · obtain ⟨hs, hne⟩ := ((takenOver_isSatisfied_iff h.coherent hc hu).1 hd).resolve_left hdc
    rw [takenOver_con_of_satisfied h.coherent hu hs hne]
    exact h.irreflexive d hs

/-- When the walk below a new method starts, only its output may be out of date. -/
theorem Settled.refreshing_takenOver {net : Network} {mark : Nat} {c : ConstraintId} {flow : Flow}
    (h : net.Settled) (ha : (net.con c).attached = true) (hu : (net.con c).isSatisfied = false) :
    Refreshing (net.takenOver mark c flow) mark c (net.takenOver mark c flow) [c] := by
  have hself : (net.takenOver mark c flow).con c = net.directed c flow :=
    takenOver_con_self h.coherent (known_of_attached ha) hu
  apply refreshing_start
  · rw [hself]
    rfl
  · rw [hself]
    exact fun w hw => h.exact_takenOver ha hu hw

/-- The walk below a method that has just been chosen. -/
theorem Settled.ends_walk {net : Network} {mark n : Nat} {c : ConstraintId} {flow : Flow}
    (h : net.Settled) (ha : (net.con c).attached = true) (hu : (net.con c).isSatisfied = false) :
    Ends (walk mark n [c]) (net.takenOver mark c flow)
      (fun met net' => SameGraph (net.takenOver mark c flow) net' ∧ (met = none → net'.Settled) ∧
        ∀ v, met = some v → net'.Unsettled c)
      (fun e _ => e.Abrupt) := by
  have hcoh := h.coherent
  have hc : c.index < net.constraints.size := known_of_attached ha
  have hself : (net.takenOver mark c flow).con c = net.directed c flow :=
    takenOver_con_self hcoh hc hu
  apply ends_walk_settled n (hcoh.takenOver ha hu)
  · rw [hself]
    rfl
  · rw [hself]
    exact fun w hw => h.exact_takenOver ha hu hw
  · intro d hd hs
    rcases (takenOver_isSatisfied_iff hcoh hc hu).1 hs with rfl | ⟨hs, hne⟩
    · exact absurd rfl hd
    · rw [takenOver_con_of_satisfied hcoh hu hs hne]
      exact h.irreflexive d hs
  · intro v hv
    rw [hself] at hv
    rw [takenOver_var hcoh hc, if_pos hv]

theorem Withdraws.ends_install (h : Withdraws rollback) {start net : Network} {mark : Nat}
    {o : ConstraintId} (hnet : Cascading start (some o) net) :
    Ends (install rollback mark o) net (Cascading start)
      LeavesSettled := by
  obtain ⟨hset, hkeeps, hfloat⟩ := hnet
  obtain ⟨ha, hu⟩ := hfloat o rfl
  have hcoh := hset.coherent
  refine Network.ends_install hcoh ha hu (fun _ _ => .inr ⟨hset, ?_⟩)
    (fun _ _ => ⟨hset, hkeeps, by simp⟩) ?_
  · rintro _ ⟨⟩
    exact ⟨ha, hu⟩
  intro flow _
  apply ends_propagate
  refine (hset.ends_walk ha hu).mono ?_ fun _ _ h => .inl h
  rintro met net' ⟨hgraph, hnone, hsome⟩
  cases met with
  | none =>
    have hmark : SameSolution net' (net'.alterVariable (net.directed o flow).output
        fun x => { x with mark := mark }) :=
      sameSolution_alterVariable (fun _ => rfl) (fun _ => rfl) fun _ => rfl
    refine ⟨hgraph.variableCount.trans takenOver_size, (hnone rfl).of_sameSolution hmark,
      hkeeps.trans (keeps_takenOver.trans (hgraph.keeps.trans hmark.keeps)), ?_⟩
    intro d hd
    rw [hmark.con, hgraph.con, takenOver_con_displaced hcoh hu hd]
    exact ⟨hcoh.attached d ((hcoh.determines _ d).1 hd).1, rfl⟩
  | some v =>
    have hun : (net'.unwound (net.takenOver mark o flow).vars o v).Unsettled o :=
      (hsome v rfl).of_sameSolution (sameSolution_unwound hgraph.variableCount.symm)
    exact (h _ o hun).mono (fun _ _ h => .inr ⟨h.1, nofun⟩) fun _ _ h => h

theorem Cascading.start {net : Network} {c : ConstraintId} (hset : net.Settled)
    (ha : (net.con c).attached = true) (hu : (net.con c).isSatisfied = false) :
    Cascading net (some c) { net with mark := net.mark + 1 } := by
  have hmark : SameSolution net { net with mark := net.mark + 1 } := sameSolution_of_eq rfl rfl
  refine ⟨hset.of_sameSolution hmark, hmark.keeps, ?_⟩
  rintro d ⟨⟩
  exact ⟨ha, hu⟩

theorem Cascading.journal {start net : Network} {o : Option ConstraintId} {e : Event}
    (h : Cascading start o net) :
    Cascading start o { net with journal := net.journal.push e } := by
  have hevent : SameSolution net { net with journal := net.journal.push e } :=
    sameSolution_of_eq rfl rfl
  exact ⟨h.1.of_sameSolution hevent, h.2.1.trans hevent.keeps, h.2.2⟩

theorem Withdraws.establishes (h : Withdraws rollback) : Establishes (establishUsing rollback) :=
  fun _ _ hset ha hu =>
    (ends_establishUsing (Cascading.start hset ha hu) h.ends_install Cascading.journal
      fun _ => .inl trivial).mono_ok fun _ _ h => ⟨h.1, h.2.1⟩

end Operations

theorem establishes_establish (n : Nat) : Establishes (establish n) := by
  induction n with
  | zero => exact fun _ _ _ _ _ => .inl trivial
  | succ n ih => exact ih.withdraws.establishes

theorem withdraws_withdraw (n : Nat) : Withdraws (withdraw n) := (establishes_establish n).withdraws

/-! ## Leaving and entering the graph unsatisfied -/

section Membership

variable {net net' : Network} {c : ConstraintId}

theorem Settled.detached (h : net.Settled) (ha : (net.con c).attached = true)
    (hu : (net.con c).isSatisfied = false) : (net.detached c).Settled := by
  have hc : c.index < net.constraints.size := known_of_attached ha
  have hvar : ∀ v, (net.detached c).var v = (net.var v).detach c :=
    fun _ => detached_var h.coherent hc
  refine h.of_satisfied (h.coherent.detached hc) (fun v => by rw [hvar]; rfl) ?_ ?_ ?_
  · intro v
    have hdet : (net.var v).determinedBy ≠ some c :=
      fun hdet => ne_of_determinedBy h.coherent hu hdet rfl
    rw [hvar, Variable.detach, if_neg hdet]
  · exact fun d hd => ((detached_isSatisfied_iff hc).1 hd).2
  · exact fun d hd => detached_con_of_ne (ne_of_isSatisfied hu hd).symm

theorem Settled.registered (h : net.Settled) {kind : Kind} {strength : Strength}
    (hk : ∀ v ∈ kind.operands, v.index < net.vars.size) :
    (net.registered kind strength).Settled := by
  have hvar : ∀ v, (net.registered kind strength).var v = { net.var v with
      constraints := (net.var v).constraints ++
        List.replicate (kind.operands.count v) ⟨net.constraints.size⟩ } :=
    fun _ => registered_var hk
  refine h.of_satisfied (h.coherent.registered hk) (fun v => by rw [hvar]; rfl)
    (fun v => by rw [hvar]) (fun d hd => by rwa [registered_isSatisfied] at hd) ?_
  intro d hd
  apply registered_con_of_ne
  rintro rfl
  rw [con_of_unknown (by simp)] at hd
  exact Bool.noConfusion hd

theorem Settled.withVariable (h : net.Settled) {name : String} {value : Float} :
    (net.withVariable name value).Settled :=
  h.of_satisfied h.coherent.withVariable
    (fun _ => withVariable_var_field (p := Variable.current) fun _ _ => rfl)
    (fun _ => withVariable_var_field (p := Variable.determinedBy) fun _ _ => rfl)
    (fun _ hd => hd) fun _ _ => rfl

theorem settled_empty {patience : Nat} : (Network.empty patience).Settled where
  coherent := coherent_empty
  exact v := by
    have hvar : (Network.empty patience).var v = { name := "", value := 0 } :=
      var_of_unknown (by simp [Network.empty])
    rw [Exact, due_of_none (by rw [hvar]), hvar]
    rfl
  irreflexive c hc := by
    rw [con_of_unknown (by simp [Network.empty])] at hc
    exact Bool.noConfusion hc

end Membership

end Network

end ConstraintHierarchy
