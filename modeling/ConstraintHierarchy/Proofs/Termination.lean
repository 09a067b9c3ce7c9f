import ConstraintHierarchy.Proofs.Dataflow

/-!
# Termination

In an ordered network every operation returns: its result is an answer or a refusal, never the end of
a bound. For the walks below a method and for the nested roll-backs this is part of
`Network.solvingInvariant_ordered`. A plan is extracted in generations, and every generation but the
last marks a variable, so here the argument does not depend on the dataflow.

## Main definitions

* `Request.Returns`: a request is answered or refused

## Main results

* `Network.ends_makePlan`, `Network.ends_extractPlan`: extraction ends
* `Network.requests_return`: every request but the execution of a foreign plan returns
-/

namespace ConstraintHierarchy

open Solve Network

/-- A request comes to an end, and finds everything that it looks for in the network. -/
def Request.Returns (r : Request) (net : Network) : Prop :=
  ∃ net', r.perform net = .ok () net' ∨ ∃ e, r.perform net = .error (.refused e) net'

namespace Network

/-! ## Extraction -/

section Extraction

variable {net : Network} {mark : Nat} {c : ConstraintId}
  {fail : Failure SolveError → Network → Prop}

theorem ends_inputKnown {ok : Bool → Network → Prop} (h : net.Coherent)
    (hc : c.index < net.constraints.size) (hok : ∀ known, ok known net) :
    Ends (inputKnown mark (net.con c)) net ok fail := by
  unfold inputKnown
  split
  next => exact hok true
  next v hv =>
    have hmem : v ∈ (net.con c).kind.operands :=
      Constraint.mem_operands_of_mem_reads (Constraint.mem_reads.2 (.inl hv))
    rw [ends_bind, ends_readVariable (h.known c hc v hmem)]
    exact hok _

/-- What one generation leaves: every step has marked a variable, and without a step there is nothing
to follow. -/
structure Planned (net : Network) (mark : Nat) (r : List ConstraintId × List ConstraintId)
    (net' : Network) : Prop where
  graph : SameGraph net net'
  steps : ∀ c ∈ r.1, c.index < net.constraints.size
  next : ∀ c ∈ r.2, c.index < net.constraints.size
  marked : (net'.unmarked mark).card + r.1.length ≤ (net.unmarked mark).card
  idle : r.1 = [] → r.2 = []

theorem ends_planAll (cs : List ConstraintId) :
    ∀ {net : Network}, net.Coherent → (∀ c ∈ cs, c.index < net.constraints.size) →
      Ends (planAll mark cs) net (Planned net mark) fail := by
  induction cs with
  | nil =>
    intro net _ _
    rw [planAll, ends_pure]
    exact ⟨.refl net, by simp, by simp, by simp, fun _ => rfl⟩
  | cons c cs ih =>
    intro net h hcs
    have hc : c.index < net.constraints.size := hcs c (by simp)
    have hrest : ∀ d ∈ cs, d.index < net.constraints.size :=
      fun d hd => hcs d (List.mem_cons_of_mem c hd)
    have hout : (net.con c).output.index < net.vars.size := h.known_output hc
    rw [planAll, ends_bind, ends_readConstraint hc, ends_bind, ends_readVariable hout, ends_bind]
    refine ends_inputKnown h hc fun known => ?_
    split
    next htaken =>
      let marked := net.alterVariable (net.con c).output fun x => { x with mark := mark }
      have hgraph : SameGraph net marked := sameGraph_alterVariable (fun _ => rfl) fun _ => rfl
      have hmarked : marked.Coherent := h.of_sameGraph hgraph
      have hlist : ∀ d ∈ (marked.var (net.con c).output).constraints,
          d.index < marked.constraints.size := fun d hd => hmarked.known_listed hd
      have hcard : (marked.unmarked mark).card + 1 = (net.unmarked mark).card := by
        rw [unmarked_alterVariable hout]
        exact Finset.card_erase_add_one (mem_unmarked.2 ⟨hout, htaken.1⟩)
      rw [ends_bind, ends_updateVariable hout, ends_bind,
        ends_consumers (by rwa [hgraph.variableCount]) hlist, ends_bind]
      refine (ih hmarked hrest).mono_ok ?_
      rintro ⟨steps, more⟩ net' hplan
      have hsteps := hplan.steps
      have hnext := hplan.next
      have hle := hplan.marked
      rw [hgraph.constraintCount] at hsteps hnext
      refine ⟨hgraph.trans hplan.graph, ?_, ?_, ?_, by simp⟩
      · intro d hd
        rcases List.mem_cons.1 hd with rfl | hd
        · exact hc
        · exact hsteps d hd
      · intro d hd
        rcases List.mem_append.1 hd with hd | hd
        · exact known_of_isSatisfied (hmarked.mem_consumersOf.1 hd).1
        · exact hnext d hd
      · simp only [List.length_cons] at hle ⊢
        omega
    next => exact ih h hrest

/-- Extraction ends once there are as many generations left as variables to mark. -/
theorem ends_planFrom (n : Nat) :
    ∀ {net : Network} {cs : List ConstraintId}, net.Coherent →
      (∀ c ∈ cs, c.index < net.constraints.size) → (cs ≠ [] → (net.unmarked mark).card < n) →
      Ends (planFrom mark n cs) net
        (fun steps net' => SameGraph net net' ∧ ∀ c ∈ steps, c.index < net.constraints.size)
        fail := by
  induction n with
  | zero =>
    intro net cs _ _ hn
    cases cs with
    | nil => exact ⟨.refl net, by simp⟩
    | cons c cs => exact absurd (hn (by simp)) (Nat.not_lt_zero _)
  | succ n ih =>
    intro net cs h hcs hn
    cases cs with
    | nil => exact ⟨.refl net, by simp⟩
    | cons c cs =>
      rw [planFrom, ends_bind]
      refine (ends_planAll (c :: cs) h hcs).mono_ok ?_
      rintro ⟨steps, next⟩ net' hplan
      have hcount := hplan.graph.constraintCount
      have hfuel : next ≠ [] → (net'.unmarked mark).card < n := by
        intro hnext
        have hsteps : 0 < steps.length :=
          List.length_pos_iff.2 fun hnil => hnext (hplan.idle hnil)
        have hle := hplan.marked
        have hlt := hn (by simp)
        simp only at hle
        omega
      rw [ends_bind]
      refine (ih (h.of_sameGraph hplan.graph) (by rw [hcount]; exact hplan.next) hfuel).mono_ok ?_
      rintro later net'' ⟨hgraph, hlater⟩
      rw [hcount] at hlater
      refine ⟨hplan.graph.trans hgraph, fun d hd => ?_⟩
      rcases List.mem_append.1 hd with hd | hd
      · exact hplan.steps d hd
      · exact hlater d hd

theorem ends_checkAllAttached (cs : List ConstraintId) :
    (∀ c ∈ cs, (net.con c).attached = false → ∀ e, e.OnLookup → fail (.refused e) net) →
    ∀ {ok : Unit → Network → Prop}, ((∀ c ∈ cs, (net.con c).attached = true) → ok () net) →
      Ends (checkAllAttached cs) net ok fail := by
  induction cs with
  | nil => exact fun _ _ hok => hok (by simp)
  | cons c cs ih =>
    intro hfail ok hok
    rw [checkAllAttached, ends_bind]
    refine ends_checkAttached (fun hc => ?_) (hfail c (by simp))
    refine ih (fun d hd => hfail d (List.mem_cons_of_mem c hd)) fun hcs => hok ?_
    intro d hd
    rcases List.mem_cons.1 hd with rfl | hd
    · exact hc
    · exact hcs d hd

theorem ends_makePlan (h : net.Coherent) (sources : List ConstraintId)
    (hfail : ∀ c ∈ sources, (net.con c).attached = false → ∀ e, e.OnLookup →
      fail (.refused e) net) :
    Ends (makePlan sources) net
      (fun plan net' => SameGraph net net' ∧ ∀ c ∈ plan.steps, c.index < net.constraints.size)
      fail := by
  rw [makePlan, ends_bind]
  refine ends_checkAllAttached sources hfail fun hsources => ?_
  rw [ends_bind, ends_freshMark, ends_bind, ends_get, ends_bind]
  have hfresh : SameGraph net { net with mark := net.mark + 1 } := sameGraph_of_eq rfl rfl
  refine (ends_planFrom _ (h.of_sameGraph hfresh) (fun c hc => known_of_attached (hsources c hc))
    fun _ => ?_).mono_ok ?_
  · exact Nat.lt_succ_of_le ((Finset.card_filter_le _ _).trans_eq (Finset.card_range _))
  · exact fun _ _ hend => ⟨hfresh.trans hend.1, hend.2⟩

theorem ends_satisfiedInputs (cs : List ConstraintId) :
    (∀ c ∈ cs, (net.con c).attached = false → ∀ e, e.OnLookup → fail (.refused e) net) →
    ∀ {ok : List ConstraintId → Network → Prop},
      (∀ inputs, (∀ c ∈ inputs, (net.con c).attached = true) → ok inputs net) →
      Ends (satisfiedInputs cs) net ok fail := by
  induction cs with
  | nil => exact fun _ _ hok => hok [] (by simp)
  | cons c cs ih =>
    intro hfail ok hok
    rw [satisfiedInputs, ends_bind]
    refine ends_checkAttached (fun hc => ?_) (hfail c (by simp))
    rw [ends_bind, ends_readConstraint (known_of_attached hc), ends_bind]
    refine ih (fun d hd => hfail d (List.mem_cons_of_mem c hd)) fun inputs hin => hok _ ?_
    split
    · intro d hd
      rcases List.mem_cons.1 hd with rfl | hd
      · exact hc
      · exact hin d hd
    · exact hin

theorem ends_extractPlan (h : net.Coherent) (cs : List ConstraintId)
    (hfail : ∀ c ∈ cs, (net.con c).attached = false → ∀ e, e.OnLookup → fail (.refused e) net) :
    Ends (extractPlan cs) net
      (fun plan net' => SameGraph net net' ∧ ∀ c ∈ plan.steps, c.index < net.constraints.size)
      fail := by
  rw [extractPlan, ends_bind]
  refine ends_satisfiedInputs cs hfail fun inputs hin => ends_makePlan h inputs fun c hc ha => ?_
  exact Bool.noConfusion (ha.symm.trans (hin c hc))

end Extraction

/-! ## Execution -/

/-- The only way in which a plan of the network can fail. -/
def StopsDividing (start : Network) (e : Failure SolveError) (net : Network) : Prop :=
  (∃ c, e = .refused (.divisionByZero c)) ∧ SameGraph start net

section Execution

variable {net start : Network}

theorem ends_executeAll (h : start.Coherent) (cs : List ConstraintId) :
    ∀ {net : Network}, SameGraph start net → (∀ c ∈ cs, c.index < start.constraints.size) →
      Ends (executeAll cs) net (fun _ => SameGraph start) (StopsDividing start) := by
  induction cs with
  | nil => exact fun hgraph _ => hgraph
  | cons c cs ih =>
    intro net hgraph hcs
    have hc : c.index < net.constraints.size := by
      rw [hgraph.constraintCount]
      exact hcs c (by simp)
    rw [executeAll, ends_bind, ends_execute hc ((h.of_sameGraph hgraph).known c hc)]
    refine ⟨fun value _ => ?_, fun _ => ⟨⟨c, rfl⟩, hgraph⟩⟩
    exact ih (hgraph.trans (sameGraph_alterVariable (fun _ => rfl) fun _ => rfl))
      fun d hd => hcs d (List.mem_cons_of_mem c hd)

theorem ends_replay (h : start.Coherent) {plan : Plan}
    (hplan : ∀ c ∈ plan.steps, c.index < start.constraints.size) {v : VariableId}
    (hv : v.index < start.vars.size) {value : Float} (n : Nat) :
    ∀ {net : Network}, SameGraph start net →
      Ends (replay plan v value n) net (fun _ => SameGraph start) (StopsDividing start) := by
  induction n with
  | zero => exact fun hgraph => hgraph
  | succ n ih =>
    intro net hgraph
    rw [replay, ends_bind, ends_setValue (by rwa [hgraph.variableCount]), ends_bind]
    have hset : SameGraph net (net.alterVariable v fun x => { x with value := value }) :=
      sameGraph_alterVariable (fun _ => rfl) fun _ => rfl
    exact (ends_executeAll h plan.steps (hgraph.trans hset) hplan).mono_ok
      fun _ _ hgraph' => ih hgraph'

end Execution

/-! ## Whole requests -/

section Requests

variable {net : Network}

/-- The only constraint that is on a cycle can be retracted. -/
theorem OrderedBut.ends_withdraw {c : ConstraintId} (h : net.OrderedBut c) :
    Ends (withdraw net.generations c) net
      (fun _ net' => net'.Ordered ∧ Keeps (net.detached c) net') (Halts False) := by
  refine (solvingInvariant_ordered.ends_withdraw _ h).mono (fun _ _ hend => hend) ?_
  refine fun _ _ hf => hf.1.imp fun hdeep => ?_
  have hless := graphSize_detached_lt (h.coherent.attached c h.satisfied)
  have hpatience := net.graphSize_lt_generations
  omega

/-- Satisfying and retracting constraints of an ordered network end; `count` is a number of variables
that the network is known to have. -/
theorem operationInvariant_halts (count : Nat) :
    OperationInvariant (fun _ _ => True) (fun net => net.Ordered ∧ count ≤ net.vars.size)
      (Halts False) where
  coherent h := h.1.coherent
  note _ h := ⟨h.1.of_sameGraph (sameGraph_of_eq rfl rfl), h.2⟩
  refused e h := h.1.halts_refused e
  edit _ := trivial
  add {net kind strength} h _ hk := by
    refine (ends_orDetach_ordered (h.1.registered hk) registered_new_attached
      registered_new_unsatisfied).mono ?_ ?_
    · rintro _ net' ⟨hnet', hkeeps⟩
      refine ⟨hnet', ?_⟩
      rw [hkeeps.variableCount, registered_size]
      exact h.2
    · refine fun _ _ hf => hf.imp fun hdeep => ?_
      have hpatience := (net.registered kind strength).graphSize_lt_generations
      omega
  establish {net c} h ha hu := by
    refine (solvingInvariant_ordered.ends_establish _ h.1 ha hu).mono ?_ ?_
    · rintro _ net' ⟨hnet', hkeeps⟩
      exact ⟨hnet', hkeeps.variableCount ▸ h.2⟩
    · refine fun _ _ hf => hf.1.imp fun hdeep => ?_
      have hpatience := net.graphSize_lt_generations
      omega
  withdraw {net c} h hs := by
    refine (h.1.orderedBut hs).ends_withdraw.mono_ok ?_
    rintro _ net' ⟨hnet', hkeeps⟩
    refine ⟨hnet', ?_⟩
    rw [hkeeps.variableCount, detached_size]
    exact h.2
  drop h ha _ := ⟨h.1.detached (known_of_attached ha), by rw [detached_size]; exact h.2⟩

theorem ends_change_ordered (h : net.Ordered) {v : VariableId} {value : Float}
    {strength : Strength} {n : Nat} :
    Ends (change v value strength n) net (fun _ => Ordered) (Halts False) := by
  by_cases hv : v.index < net.vars.size
  · refine ((operationInvariant_halts (v.index + 1)).ends_change
      (fun e => ∃ c, e = .refused (.divisionByZero c)) ?_ ?_ ?_ ⟨h, hv⟩ trivial).mono_ok
      fun _ _ hend => hend.1
    · rintro net₁ edit ⟨h₁, hv₁⟩
      refine (ends_extractPlan h₁.coherent [edit] fun _ _ _ e _ => h₁.halts_refused e).mono_ok ?_
      rintro plan net₂ ⟨hgraph, hplan⟩
      have hkeep : ∀ {net₃}, SameGraph net₁ net₃ → net₃.Ordered ∧ v.index + 1 ≤ net₃.vars.size :=
        fun hs => ⟨h₁.of_sameGraph hs, hs.variableCount ▸ hv₁⟩
      exact (ends_replay h₁.coherent hplan hv₁ n hgraph).mono (fun _ _ hs => hkeep hs)
        fun _ _ hf => ⟨hf.1, hkeep hf.2⟩
    · rintro _ _ ⟨c, rfl⟩ _
      trivial
    · rintro e e' _ ⟨c, hc⟩ _
      cases hc
      trivial
  · -- the edit of an unknown variable is refused at once
    rw [change, ends_bind, addConstraint, ends_bind]
    refine ends_checkVariables _ (fun e _ => h.halts_refused e) fun hk => absurd (hk v ?_) hv
    simp [Kind.operands]

theorem ends_perform_ordered (h : net.Ordered) {r : Request} (hr : ∀ p, r ≠ .runPlan p) :
    Ends r.perform net (fun _ => Ordered) (Halts False) := by
  have inv := operationInvariant_halts 0
  have hnet : net.Ordered ∧ 0 ≤ net.vars.size := ⟨h, Nat.zero_le _⟩
  have hrefused : ∀ e : SolveError, e.OnLookup → Halts False (.refused e) net :=
    fun e _ => h.halts_refused e
  cases r with
  | addVariable name value =>
    simp only [Request.perform, ends_discard, Network.addVariable, ends_bind, ends_get, ends_modify,
      ends_pure]
    exact ⟨h.coherent.withVariable, h.acyclic.of_con rfl⟩
  | valueOf v =>
    rw [Request.perform, ends_discard, Network.valueOf, ends_bind]
    refine ends_checkVariable (fun hv => ?_) hrefused
    rw [ends_readValue hv]
    exact h
  | assign v value =>
    rw [Request.perform, Network.assign, ends_bind]
    refine ends_checkVariable (fun hv => ?_) hrefused
    rw [ends_setValue hv]
    exact h.of_sameGraph (sameGraph_alterVariable (fun _ => rfl) fun _ => rfl)
  | freshMark => exact ends_discard.2 (h.of_sameGraph (sameGraph_of_eq rfl rfl))
  | add kind strength =>
    exact ends_discard.2 ((inv.ends_addConstraint hnet trivial).mono_ok fun _ _ hend => hend.1)
  | enforce c => exact (inv.ends_enforce hnet).mono_ok fun _ _ hend => hend.1
  | retract c => exact (inv.ends_retract hnet).mono_ok fun _ _ hend => hend.1
  | destroy c => exact (inv.ends_destroy hnet).mono_ok fun _ _ hend => hend.1
  | change v value strength n => exact ends_change_ordered h
  | makePlan sources =>
    exact ends_discard.2 ((ends_makePlan h.coherent sources fun _ _ _ => hrefused).mono_ok
      fun _ _ hend => h.of_sameGraph hend.1)
  | extractPlan cs =>
    exact ends_discard.2 ((ends_extractPlan h.coherent cs fun _ _ _ => hrefused).mono_ok
      fun _ _ hend => h.of_sameGraph hend.1)
  | runPlan p => exact absurd rfl (hr p)

theorem returns_of_ends {r : Request} {ok : Unit → Network → Prop}
    (h : Ends r.perform net ok (Halts False)) : r.Returns net := by
  unfold Request.Returns
  cases hr : r.perform net with
  | ok a net' => exact ⟨net', .inl rfl⟩
  | error e net' =>
    cases e with
    | refused e => exact ⟨net', .inr ⟨e, rfl⟩⟩
    | outOfRange => exact (h.of_error hr).elim
    | endless => exact (h.of_error hr).elim

end Requests

/-- In a coherent network without cyclic dataflow, and so after every run, every request returns, for
all arguments; only the execution of a plan that was made for another network is left out. -/
theorem requests_return {net : Network}
    (h : Run (fun _ _ => True) net ∨ net.Coherent ∧ net.Acyclic) (r : Request)
    (hr : ∀ p, r ≠ .runPlan p) : r.Returns net := by
  have hnet : net.Ordered := by
    rcases h with h | ⟨hcoh, hacyclic⟩
    · exact runInvariant_ordered.holds h
    · exact ⟨hcoh, hacyclic⟩
  exact returns_of_ends (ends_perform_ordered hnet hr)

end Network

/-- The chain of equations before it is closed. -/
def chainNetwork : Network :=
  (Request.runAll (fun _ _ => true) (closedRequests.take 6) .empty).get (by decide +kernel)

namespace Network

/-- To close the chain means to roll back, with a removal inside the addition. -/
theorem requests_return_chainNetwork :
    (chainNetwork.Coherent ∧ chainNetwork.Acyclic) ∧
      (Request.add (.equal ⟨2⟩ ⟨0⟩) .required).Returns chainNetwork ∧
      (Request.add (.equal ⟨2⟩ ⟨0⟩) .required).refusal? chainNetwork = some (.cycle ⟨3⟩) := by
  have hrun : Run (fun _ _ => True) chainNetwork :=
    Run.of_runAll (fun _ _ _ => trivial) (closedRequests.take 6) .empty (Option.some_get _).symm
  have hnet : chainNetwork.Ordered := runInvariant_ordered.holds hrun
  exact ⟨⟨hnet.coherent, hnet.acyclic⟩,
    requests_return (.inr ⟨hnet.coherent, hnet.acyclic⟩) _ nofun, by decide +kernel⟩

end Network

end ConstraintHierarchy
