import ConstraintHierarchy.Proofs.Coherence

/-!
# Rules for the two propagation walks

Both walks visit a network generation by generation, which is the order of a queue: what is found
goes to the end of what is still to be visited. The rules below make that explicit. An invariant of
a walk speaks about the network together with the whole queue, and it is enough to show that one
visit keeps it. Where the number of generations matters, the invariant may also tell the generation
being visited from the next one.

## Main definitions

* `Network.WalkByGeneration`, `Network.ReleaseByGeneration`: what one visit has to keep
* `Network.WalkInvariant`, `Network.ReleaseInvariant`: the same, generations left aside
* `Network.Visiting`, `Network.Freeing`: what every visit keeps in a coherent network
* `Network.unwound`: the network handed to the roll-back of a cycle

## Main results

* `Network.ends_walk_byGeneration`, `Network.ends_release_byGeneration`, `Network.ends_walk`,
  `Network.ends_release`: the rules
* `Network.ends_propagate`: propagation in terms of its walk
-/

namespace ConstraintHierarchy.Network

open Solve

/-! ## Downstream of a new method -/

/-- A property `I` of a walk that every visit keeps. It speaks about the number of generations that
may still follow, the network, what is left of the generation being visited and what is found for
the next one. A visit that fails has to establish `fail`. -/
structure WalkByGeneration (mark : Nat) (fail : Failure SolveError → Network → Prop)
    (I : Nat → Network → List ConstraintId → List ConstraintId → Prop) : Prop where
  coherent : ∀ {n net ds next}, I n net ds next → net.Coherent
  satisfied : ∀ {n net ds next}, I n net ds next → ∀ d ∈ ds, (net.con d).isSatisfied = true
  step : ∀ {n net d ds next}, I n net (d :: ds) next →
    (net.var (net.con d).output).mark ≠ mark → ¬ net.DividesByZero d →
    I n (net.recalculated d) ds (next ++ net.consumersOf (net.con d).output)
  refused : ∀ {n net d ds next}, I n net (d :: ds) next →
    (net.var (net.con d).output).mark ≠ mark → net.DividesByZero d →
    fail (.refused (.divisionByZero d)) (net.recalculated d)
  turn : ∀ {n net d ds}, I (n + 1) net [] (d :: ds) → I n net (d :: ds) []
  endless : ∀ {net d ds}, I 0 net [] (d :: ds) → fail .endless net

/-- How a walk ends: nothing is left, or the constraint to be visited computes a variable of the
walk's own mark. -/
def WalkEndByGeneration (mark : Nat)
    (I : Nat → Network → List ConstraintId → List ConstraintId → Prop) :
    Option VariableId → Network → Prop
  | none, net => ∃ n, I n net [] []
  | some v, net => ∃ n d ds next, I n net (d :: ds) next ∧ (net.con d).output = v ∧
      (net.var v).mark = mark

section WalkByGeneration

variable {mark : Nat} {fail : Failure SolveError → Network → Prop}
  {I : Nat → Network → List ConstraintId → List ConstraintId → Prop}

/-- How the visit of part of a generation ends, `ds` being what is left of it. -/
def VisitEnd (mark : Nat) (I : Nat → Network → List ConstraintId → List ConstraintId → Prop)
    (n : Nat) (ds next : List ConstraintId) : Visit → Network → Prop
  | .met v, net => WalkEndByGeneration mark I (some v) net
  | .onward found, net => I n net ds (next ++ found)

theorem ends_visit (inv : WalkByGeneration mark fail I) {n : Nat} {net : Network}
    {d : ConstraintId} {ds next : List ConstraintId} (h : I n net (d :: ds) next) :
    Ends (visit mark d) net (VisitEnd mark I n ds next) fail := by
  have hcoh := inv.coherent h
  have hsat := inv.satisfied h d (by simp)
  have hd := known_of_isSatisfied hsat
  have hout := hcoh.known_output hd
  rw [visit, ends_bind, ends_readConstraint hd, ends_bind, ends_readVariable hout]
  split
  next hm => exact ⟨n, d, ds, next, h, rfl, hm⟩
  next hm =>
    rw [ends_bind, ends_recalculate hd (hcoh.known d hd)]
    refine ⟨fun hz => ?_, fun hz => inv.refused h hm hz⟩
    have hlist : ∀ e ∈ ((net.recalculated d).var (net.con d).output).constraints,
        e.index < (net.recalculated d).constraints.size := by
      intro e he
      rw [recalculated_listed] at he
      exact hcoh.known_listed he
    rw [ends_bind, ends_consumers (by simpa using hout) hlist, ends_pure,
      recalculated_consumersOf]
    exact inv.step h hm hz

theorem ends_visitAll (inv : WalkByGeneration mark fail I) {n : Nat} (ds : List ConstraintId) :
    ∀ {net : Network} {next : List ConstraintId}, I n net ds next →
      Ends (visitAll mark ds) net (VisitEnd mark I n [] next) fail := by
  induction ds with
  | nil =>
    intro net next h
    rw [visitAll, ends_pure]
    simpa [VisitEnd] using h
  | cons d ds ih =>
    intro net next h
    rw [visitAll, ends_bind]
    refine (ends_visit inv h).mono_ok ?_
    intro result net' hvisit
    cases result with
    | met v => exact hvisit
    | onward found =>
      rw [ends_bind]
      refine (ih hvisit).mono_ok ?_
      intro result net'' hrun
      cases result with
      | met v => exact hrun
      | onward more => simpa [VisitEnd, List.append_assoc] using hrun

/-- What every visit keeps holds when a walk ends. -/
theorem ends_walk_byGeneration (inv : WalkByGeneration mark fail I) (n : Nat) :
    ∀ {net : Network} {d : ConstraintId} {ds : List ConstraintId}, I n net (d :: ds) [] →
      Ends (walk mark (n + 1) (d :: ds)) net (WalkEndByGeneration mark I) fail := by
  induction n with
  | zero =>
    intro net d ds h
    rw [walk, ends_bind]
    refine (ends_visitAll inv (d :: ds) h).mono_ok ?_
    intro result net' hvisit
    cases result with
    | met v => exact hvisit
    | onward found =>
      cases found with
      | nil => exact ⟨0, hvisit⟩
      | cons e es => exact inv.endless hvisit
  | succ n ih =>
    intro net d ds h
    rw [walk, ends_bind]
    refine (ends_visitAll inv (d :: ds) h).mono_ok ?_
    intro result net' hvisit
    cases result with
    | met v => exact hvisit
    | onward found =>
      cases found with
      | nil => exact ⟨n + 1, hvisit⟩
      | cons e es => exact ih (inv.turn hvisit)

end WalkByGeneration

/-- A property `I` of the network and the queue of a walk that every visit keeps, wherever one
generation ends and the next begins. A visit that fails has to establish `fail`. -/
structure WalkInvariant (mark : Nat) (fail : Failure SolveError → Network → Prop)
    (I : Network → List ConstraintId → Prop) : Prop where
  coherent : ∀ {net q}, I net q → net.Coherent
  satisfied : ∀ {net q}, I net q → ∀ d ∈ q, (net.con d).isSatisfied = true
  step : ∀ {net d q}, I net (d :: q) → (net.var (net.con d).output).mark ≠ mark →
    ¬ net.DividesByZero d → I (net.recalculated d) (q ++ net.consumersOf (net.con d).output)
  refused : ∀ {net d q}, I net (d :: q) → (net.var (net.con d).output).mark ≠ mark →
    net.DividesByZero d → fail (.refused (.divisionByZero d)) (net.recalculated d)
  endless : ∀ {net d q}, I net (d :: q) → fail .endless net

/-- How a walk ends: the queue is empty, or the constraint at its head computes a variable of the
walk's own mark. -/
def WalkEnd (mark : Nat) (I : Network → List ConstraintId → Prop) :
    Option VariableId → Network → Prop
  | none, net => I net []
  | some v, net => ∃ d q, I net (d :: q) ∧ (net.con d).output = v ∧ (net.var v).mark = mark

section Walk

variable {mark : Nat} {fail : Failure SolveError → Network → Prop}
  {I : Network → List ConstraintId → Prop}

theorem WalkInvariant.byGeneration (inv : WalkInvariant mark fail I) :
    WalkByGeneration mark fail fun _ net ds next => I net (ds ++ next) where
  coherent h := inv.coherent h
  satisfied h d hd := inv.satisfied h d (List.mem_append_left _ hd)
  step h hm hz := by simpa [List.append_assoc] using inv.step h hm hz
  refused h hm hz := inv.refused h hm hz
  turn h := by simpa using h
  endless h := inv.endless h

/-- Whatever else the steps keep can be added to an invariant. -/
theorem WalkInvariant.and {P : Network → List ConstraintId → Prop} (inv : WalkInvariant mark fail I)
    (hstep : ∀ {net d q}, I net (d :: q) → P net (d :: q) →
      P (net.recalculated d) (q ++ net.consumersOf (net.con d).output)) :
    WalkInvariant mark fail fun net q => I net q ∧ P net q where
  coherent h := inv.coherent h.1
  satisfied h := inv.satisfied h.1
  step h hm hz := ⟨inv.step h.1 hm hz, hstep h.1 h.2⟩
  refused h := inv.refused h.1
  endless h := inv.endless h.1

/-- An invariant of the queue holds when a walk ends. -/
theorem ends_walk (inv : WalkInvariant mark fail I) (n : Nat) {net : Network}
    {q : List ConstraintId} (h : I net q) :
    Ends (walk mark n q) net (WalkEnd mark I) fail := by
  cases q with
  | nil =>
    cases n with
    | zero => exact h
    | succ n => exact h
  | cons d q =>
    cases n with
    | zero => exact inv.endless h
    | succ n =>
      refine (ends_walk_byGeneration inv.byGeneration n (by simpa using h)).mono_ok ?_
      intro met net' hend
      cases met with
      | none => exact hend.elim fun _ h => h
      | some v =>
        obtain ⟨_, d, ds, next, hmet, hout, hm⟩ := hend
        exact ⟨d, ds ++ next, hmet, hout, hm⟩

end Walk

/-! ## Downstream of a lost method -/

/-- A property `K` of a release that every visit keeps. It speaks about the number of generations
that may still follow, the network, the candidates found, the variables left in the generation being
visited, those found for the next one, and the constraints still to be recalculated for the variable
visited last. -/
structure ReleaseByGeneration (fail : Failure SolveError → Network → Prop)
    (K : Nat → Network → List ConstraintId → List VariableId → List VariableId →
      List ConstraintId → Prop) : Prop where
  coherent : ∀ {n net found vs next ds}, K n net found vs next ds → net.Coherent
  known : ∀ {n net found vs next ds}, K n net found vs next ds →
    ∀ v ∈ vs, v.index < net.vars.size
  satisfied : ∀ {n net found vs next ds}, K n net found vs next ds →
    ∀ d ∈ ds, (net.con d).isSatisfied = true
  scan : ∀ {n net found v vs next}, K n net found (v :: vs) next [] →
    K n net (net.withUnsatisfied found (net.var v).constraints) vs next (net.consumersOf v)
  step : ∀ {n net found vs next d ds}, K n net found vs next (d :: ds) → ¬ net.DividesByZero d →
    K n (net.recalculated d) found vs (next ++ [(net.con d).output]) ds
  refused : ∀ {n net found vs next d ds}, K n net found vs next (d :: ds) →
    net.DividesByZero d → fail (.refused (.divisionByZero d)) (net.recalculated d)
  turn : ∀ {n net found v vs}, K (n + 1) net found [] (v :: vs) [] → K n net found (v :: vs) [] []
  endless : ∀ {net found v vs}, K 0 net found [] (v :: vs) [] → fail .endless net

section ReleaseByGeneration

variable {fail : Failure SolveError → Network → Prop}
  {K : Nat → Network → List ConstraintId → List VariableId → List VariableId →
    List ConstraintId → Prop}

theorem ends_recalculateAll (inv : ReleaseByGeneration fail K) {n : Nat} {vs : List VariableId}
    (ds : List ConstraintId) :
    ∀ {net : Network} {found : List ConstraintId} {next : List VariableId},
      K n net found vs next ds →
      Ends (recalculateAll ds) net (fun outs net' => K n net' found vs (next ++ outs) []) fail := by
  induction ds with
  | nil =>
    intro net found next h
    rw [recalculateAll, ends_pure]
    simpa using h
  | cons d ds ih =>
    intro net found next h
    have hcoh := inv.coherent h
    have hd := known_of_isSatisfied (inv.satisfied h d (by simp))
    rw [recalculateAll, ends_bind, ends_recalculate hd (hcoh.known d hd)]
    refine ⟨fun hz => ?_, fun hz => inv.refused h hz⟩
    rw [ends_bind, ends_readConstraint (by simpa using hd), ends_bind]
    refine (ih (inv.step h hz)).mono_ok ?_
    intro outs net' hrun
    rw [ends_pure]
    simpa [List.append_assoc] using hrun

theorem ends_releaseAll (inv : ReleaseByGeneration fail K) {n : Nat} (vs : List VariableId) :
    ∀ {net : Network} {found : List ConstraintId} {next : List VariableId},
      K n net found vs next [] →
      Ends (releaseAll found vs) net (fun r net' => K n net' r.1 [] (next ++ r.2) []) fail := by
  induction vs with
  | nil =>
    intro net found next h
    rw [releaseAll, ends_pure]
    simpa using h
  | cons v vs ih =>
    intro net found next h
    have hcoh := inv.coherent h
    have hv := inv.known h v (by simp)
    rw [releaseAll, ends_bind, ends_readVariable hv, ends_bind,
      ends_collectUnsatisfied fun d hd => hcoh.known_listed hd, ends_bind,
      ends_consumers hv fun d hd => hcoh.known_listed hd, ends_bind]
    refine (ends_recalculateAll inv _ (inv.scan h)).mono_ok ?_
    intro outs net' hrecalculated
    rw [ends_bind]
    refine (ih hrecalculated).mono_ok ?_
    rintro ⟨found', more⟩ net'' hrun
    rw [ends_pure]
    simpa [List.append_assoc] using hrun

theorem ends_releaseFrom_byGeneration (inv : ReleaseByGeneration fail K) (n : Nat) :
    ∀ {net : Network} {found : List ConstraintId} {v : VariableId} {vs : List VariableId},
      K n net found (v :: vs) [] [] →
      Ends (releaseFrom found (n + 1) (v :: vs)) net
        (fun found' net' => ∃ n, K n net' found' [] [] []) fail := by
  induction n with
  | zero =>
    intro net found v vs h
    rw [releaseFrom, ends_bind]
    refine (ends_releaseAll inv (v :: vs) h).mono_ok ?_
    rintro ⟨found', next⟩ net' hrun
    cases next with
    | nil => exact ⟨0, hrun⟩
    | cons w ws => exact inv.endless hrun
  | succ n ih =>
    intro net found v vs h
    rw [releaseFrom, ends_bind]
    refine (ends_releaseAll inv (v :: vs) h).mono_ok ?_
    rintro ⟨found', next⟩ net' hrun
    cases next with
    | nil => exact ⟨n + 1, hrun⟩
    | cons w ws => exact ih (inv.turn hrun)

/-- What every visit keeps holds when a release ends. -/
theorem ends_release_byGeneration (inv : ReleaseByGeneration fail K) {net : Network}
    {out : VariableId} (hout : out.index < net.vars.size)
    (h : K (net.constraints.size + net.patience) (net.alterVariable out (·.undetermined)) [] [out] [] []) :
    Ends (release out) net (fun found net' => ∃ n, K n net' found [] [] []) fail := by
  rw [release, ends_bind, ends_updateVariable hout, ends_bind, ends_get]
  exact ends_releaseFrom_byGeneration inv _ h

end ReleaseByGeneration

/-- A property `K` of a release that every visit keeps, wherever one generation ends and the next
begins. It speaks about the network, the candidates found, the variables queued and the constraints
still to be recalculated for the variable visited last. -/
structure ReleaseInvariant (fail : Failure SolveError → Network → Prop)
    (K : Network → List ConstraintId → List VariableId → List ConstraintId → Prop) : Prop where
  coherent : ∀ {net found q ds}, K net found q ds → net.Coherent
  known : ∀ {net found q ds}, K net found q ds → ∀ v ∈ q, v.index < net.vars.size
  satisfied : ∀ {net found q ds}, K net found q ds → ∀ d ∈ ds, (net.con d).isSatisfied = true
  scan : ∀ {net found v q}, K net found (v :: q) [] →
    K net (net.withUnsatisfied found (net.var v).constraints) q (net.consumersOf v)
  step : ∀ {net found q d ds}, K net found q (d :: ds) → ¬ net.DividesByZero d →
    K (net.recalculated d) found (q ++ [(net.con d).output]) ds
  refused : ∀ {net found q d ds}, K net found q (d :: ds) → net.DividesByZero d →
    fail (.refused (.divisionByZero d)) (net.recalculated d)
  endless : ∀ {net found q}, K net found q [] → fail .endless net

section Release

variable {fail : Failure SolveError → Network → Prop}
  {K : Network → List ConstraintId → List VariableId → List ConstraintId → Prop}

theorem ReleaseInvariant.byGeneration (inv : ReleaseInvariant fail K) :
    ReleaseByGeneration fail fun _ net found vs next ds => K net found (vs ++ next) ds where
  coherent h := inv.coherent h
  known h v hv := inv.known h v (List.mem_append_left _ hv)
  satisfied h := inv.satisfied h
  scan h := inv.scan h
  step h hz := by simpa [List.append_assoc] using inv.step h hz
  refused h hz := inv.refused h hz
  turn h := by simpa using h
  endless h := inv.endless h

theorem ReleaseInvariant.and
    {P : Network → List ConstraintId → List VariableId → List ConstraintId → Prop}
    (inv : ReleaseInvariant fail K)
    (hscan : ∀ {net found v q}, K net found (v :: q) [] → P net found (v :: q) [] →
      P net (net.withUnsatisfied found (net.var v).constraints) q (net.consumersOf v))
    (hstep : ∀ {net found q d ds}, K net found q (d :: ds) → P net found q (d :: ds) →
      P (net.recalculated d) found (q ++ [(net.con d).output]) ds) :
    ReleaseInvariant fail fun net found q ds => K net found q ds ∧ P net found q ds where
  coherent h := inv.coherent h.1
  known h := inv.known h.1
  satisfied h := inv.satisfied h.1
  scan h := ⟨inv.scan h.1, hscan h.1 h.2⟩
  step h hz := ⟨inv.step h.1 hz, hstep h.1 h.2⟩
  refused h := inv.refused h.1
  endless h := inv.endless h.1

/-- An invariant of the queue holds when a release ends. -/
theorem ends_release (inv : ReleaseInvariant fail K) {net : Network} {out : VariableId}
    (hout : out.index < net.vars.size)
    (h : K (net.alterVariable out (·.undetermined)) [] [out] []) :
    Ends (release out) net (fun found net' => K net' found [] []) fail :=
  (ends_release_byGeneration inv.byGeneration hout (by simpa using h)).mono_ok
    fun _ _ hend => hend.elim fun _ h => h

end Release

/-! ## What every walk keeps -/

/-- A walk that was started on `start` has changed neither the graph nor the marks, and satisfied
constraints are queued. -/
structure Visiting (start net : Network) (q : List ConstraintId) : Prop where
  graph : SameGraph start net
  marks : ∀ v, (net.var v).mark = (start.var v).mark
  counter : net.mark = start.mark
  queued : ∀ d ∈ q, (start.con d).isSatisfied = true

/-- A release that was started on `start` has changed neither the graph nor the marks, the candidates
belong to the graph, and known variables and satisfied constraints are queued. -/
structure Freeing (start net : Network) (found : List ConstraintId) (q : List VariableId)
    (ds : List ConstraintId) : Prop where
  graph : SameGraph start net
  marks : ∀ v, (net.var v).mark = (start.var v).mark
  counter : net.mark = start.mark
  known : ∀ v ∈ q, v.index < start.vars.size
  found : ∀ u ∈ found, (start.con u).attached = true
  satisfied : ∀ d ∈ ds, (start.con d).isSatisfied = true

section Kept

variable {start net : Network} {c d : ConstraintId} {v : VariableId}
  {q ds found : List ConstraintId} {vs : List VariableId}

theorem visiting_start (hc : (start.con c).isSatisfied = true) : Visiting start start [c] :=
  ⟨.refl start, fun _ => rfl, rfl, by simpa using hc⟩

theorem Visiting.step (hcoh : start.Coherent) (h : Visiting start net (d :: q)) :
    Visiting start (net.recalculated d) (q ++ net.consumersOf (net.con d).output) := by
  refine ⟨h.graph.trans sameGraph_recalculated, ?_, h.counter, ?_⟩
  · intro v
    rw [recalculated_marks, h.marks]
  · intro e he
    rcases List.mem_append.1 he with he | he
    · exact h.queued e (List.mem_cons_of_mem d he)
    · rw [(hcoh.of_sameGraph h.graph).mem_consumersOf, h.graph.con] at he
      exact he.1

theorem Freeing.scan (hcoh : start.Coherent) (h : Freeing start net found (v :: vs) []) :
    Freeing start net (net.withUnsatisfied found (net.var v).constraints) vs
      (net.consumersOf v) := by
  have hnet : net.Coherent := hcoh.of_sameGraph h.graph
  refine ⟨h.graph, h.marks, h.counter, fun u hu => h.known u (List.mem_cons_of_mem v hu), ?_, ?_⟩
  · intro u hu
    rcases mem_withUnsatisfied.1 hu with hu | ⟨hu, -⟩
    · exact h.found u hu
    · rw [hnet.mem_listed, h.graph.con] at hu
      exact hu.1
  · intro d hd
    rw [hnet.mem_consumersOf, h.graph.con] at hd
    exact hd.1

theorem Freeing.step (hcoh : start.Coherent) (h : Freeing start net found vs (d :: ds)) :
    Freeing start (net.recalculated d) found (vs ++ [(net.con d).output]) ds := by
  refine ⟨h.graph.trans sameGraph_recalculated, ?_, h.counter, ?_, h.found,
    fun e he => h.satisfied e (List.mem_cons_of_mem d he)⟩
  · intro v
    rw [recalculated_marks, h.marks]
  · intro v hv
    rcases List.mem_append.1 hv with hv | hv
    · exact h.known v hv
    · rw [List.mem_singleton.1 hv, h.graph.con]
      exact hcoh.known_output (known_of_isSatisfied (h.satisfied d (by simp)))

variable {mark : Nat} {fail : Failure SolveError → Network → Prop}

theorem walkInvariant_visiting (hcoh : start.Coherent)
    (hrefused : ∀ {net d q}, Visiting start net (d :: q) →
      fail (.refused (.divisionByZero d)) (net.recalculated d))
    (hendless : ∀ {net q}, Visiting start net q → fail .endless net) :
    WalkInvariant mark fail (Visiting start) where
  coherent h := hcoh.of_sameGraph h.graph
  satisfied h d hd := by rw [h.graph.con]; exact h.queued d hd
  step h _ _ := h.step hcoh
  refused h _ _ := hrefused h
  endless h := hendless h

theorem releaseInvariant_freeing (hcoh : start.Coherent)
    (hrefused : ∀ {net found q d ds}, Freeing start net found q (d :: ds) →
      fail (.refused (.divisionByZero d)) (net.recalculated d))
    (hendless : ∀ {net found q ds}, Freeing start net found q ds → fail .endless net) :
    ReleaseInvariant fail (Freeing start) where
  coherent h := hcoh.of_sameGraph h.graph
  known h v hv := by rw [h.graph.variableCount]; exact h.known v hv
  satisfied h d hd := by rw [h.graph.con]; exact h.satisfied d hd
  scan h := h.scan hcoh
  step h _ := h.step hcoh
  refused h _ := hrefused h
  endless h := hendless h

end Kept

/-! ## Rolling back -/

/-- The network handed to a roll-back: the values are those of `before` again. -/
def unwound (net : Network) (before : Array Variable) (c : ConstraintId) (v : VariableId) :
    Network :=
  { net with
    journal := net.journal.push (.rollingBack c v)
    vars := net.vars.zipWith (fun x old => { x with value := old.value }) before }

section Unwound

variable {net : Network} {before : Array Variable} {c : ConstraintId} {v w : VariableId}

theorem unwound_var (hb : w.index < before.size) (hw : w.index < net.vars.size) :
    (net.unwound before c v).var w = { net.var w with value := before[w.index].value } := by
  have hx : net.vars[w.index]? = some (net.var w) := getVariable?_eq_var hw
  rw [var, getVariable?, unwound, Array.getElem?_zipWith, hx, Array.getElem?_eq_getElem hb]
  rfl

/-- Only values are put back. -/
theorem unwound_var_field {γ : Type} {p : Variable → γ}
    (hp : ∀ (x : Variable) (value : Float), p { x with value := value } = p x)
    (hsize : before.size = net.vars.size) :
    p ((net.unwound before c v).var w) = p (net.var w) := by
  by_cases hw : w.index < net.vars.size
  · rw [unwound_var (hsize ▸ hw) hw, hp]
  · rw [var_of_unknown hw, var_of_unknown (by simpa [unwound, hsize] using hw)]

/-- The values that are put back are those of `start`. -/
theorem unwound_value {start : Network} (hsize : net.vars.size = start.vars.size) :
    (net.unwound start.vars c v).value w = start.value w := by
  unfold value
  by_cases hw : w.index < start.vars.size
  · have hx : start.vars[w.index]? = some (start.var w) := getVariable?_eq_var hw
    rw [Array.getElem?_eq_getElem hw, Option.some.injEq] at hx
    rw [unwound_var hw (by rwa [hsize]), hx]
  · rw [var_of_unknown hw, var_of_unknown (by simpa [unwound, hsize] using hw)]

theorem sameGraph_unwound (hsize : before.size = net.vars.size) :
    SameGraph net (net.unwound before c v) where
  con := rfl
  constraintCount := rfl
  variableCount := by simp [unwound, hsize]
  listed _ := unwound_var_field (fun _ _ => rfl) hsize
  determinedBy _ := unwound_var_field (fun _ _ => rfl) hsize

theorem sameSolution_unwound {before : Array Variable} (h : before.size = net.vars.size) :
    SameSolution net (net.unwound before c v) :=
  ⟨sameGraph_unwound h, fun _ => unwound_var_field (fun _ _ => rfl) h⟩

end Unwound

/-- Propagation is its walk, followed by the roll-back if the walk meets its own mark. -/
theorem ends_propagate {rollback : ConstraintId → Solve Unit} {mark : Nat} {c : ConstraintId}
    {net : Network} {ok : Unit → Network → Prop} {fail : Failure SolveError → Network → Prop}
    (h : Ends (walk mark net.generations [c]) net
      (fun met net' => match met with
        | none => ok () net'
        | some v => Ends (rollback c) (net'.unwound net.vars c v)
            (fun _ net'' => fail (.refused (.cycle c)) net'') fail)
      fail) :
    Ends (propagate rollback mark c) net ok fail := by
  rw [propagate, ends_bind, ends_get, ends_bind, ends_get, ends_bind]
  refine h.mono_ok ?_
  intro met net' hmet
  cases met with
  | none => exact hmet
  | some v =>
    rw [ends_bind, ends_note, restoreValues, ends_bind, ends_modify, ends_bind]
    exact hmet

end ConstraintHierarchy.Network
