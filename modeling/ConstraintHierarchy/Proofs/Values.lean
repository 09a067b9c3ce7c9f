import ConstraintHierarchy.Proofs.Nesting
import ConstraintHierarchy.Proofs.Restoration
import ConstraintHierarchy.Proofs.Runs

/-!
# Values that agree with the constraints

A method is executed when propagation reaches it and finds that its output stays. Whatever propagation
does after that to something the method reads brings it back to the method, so in the end a value that
stays is the one that its method gives it. A walk that closes a cycle leaves wrong values behind, and
the old ones are put back by hand before anything else happens. They agree with the constraints
everywhere but downstream of the new method, and that is where the roll-back recalculates.

## Main definitions

* `Network.Agrees`: a variable that stays has the value that its method gives it
* `Network.Agreeing`: the network is settled and every variable agrees
* `Network.Disagreeing`: the same but for what lies downstream of one constraint

## Main results

* `Network.repairInvariant_agreeing`: satisfying and retracting constraints keep values in agreement
-/

namespace ConstraintHierarchy

/-- A method depends on the values of what it reads; a unary constraint, which computes nothing, on that
of its variable. -/
theorem Constraint.compute_congr {k : Constraint} {f g : VariableId → Float}
    (hreads : ∀ v ∈ k.reads, g v = f v) (hout : k.input = none → g k.output = f k.output) :
    k.compute g = k.compute f := by
  obtain ⟨kind, strength, flow, attached⟩ := k
  cases kind with
  | stay v => simpa [compute, output, Kind.output, input, Kind.input] using hout
  | edit v => simpa [compute, output, Kind.output, input, Kind.input] using hout
  | equal a b =>
    rcases flow with _ | _ | _ <;>
      simp_all [compute, reads, input, Kind.input, Kind.parameters]
  | scale a b factor offset =>
    rcases flow with _ | _ | _ <;>
      simp_all [compute, reads, input, Kind.input, Kind.parameters]

namespace Network

open Solve Relation

/-- If `v` stays, it has the value that its method gives it. -/
def Agrees (net : Network) (v : VariableId) : Prop :=
  ∀ c, (net.var v).determinedBy = some c → (net.var v).stay = true → net.Holds c

/-- Every annotation is exact and every value that stays is right. -/
structure Agreeing (net : Network) : Prop extends Settled net where
  agrees : ∀ v, net.Agrees v

/-- The network agrees with its constraints but for `c` and what lies downstream of it. -/
structure Disagreeing (net : Network) (c : ConstraintId) : Prop extends Unsettled net c where
  agrees : ∀ v, net.Agrees v ∨ net.Downstream (net.con c).output v

section Agrees

variable {net net' : Network} {c d : ConstraintId} {v w : VariableId}

/-- A constraint without input says nothing about the value of its variable. -/
theorem holds_of_input_none (h : (net.con c).input = none) : net.Holds c := by
  obtain ⟨w, hk | hk⟩ := Kind.input_eq_none_iff.1 h
  · simp [Holds, Constraint.compute, Constraint.output, Kind.output, hk]
  · simp [Holds, Constraint.compute, Constraint.output, Kind.output, hk]

/-- A variable goes on to agree while its method, its flag and the values involved are the same. -/
theorem Agrees.congr (h : net.Agrees w)
    (hdet : (net'.var w).determinedBy = (net.var w).determinedBy)
    (hstay : (net'.var w).stay = (net.var w).stay)
    (hsame : ∀ c, (net.var w).determinedBy = some c → net'.con c = net.con c ∧
      net'.value (net.con c).output = net.value (net.con c).output ∧
      ∀ v ∈ (net.con c).reads, net'.value v = net.value v) : net'.Agrees w := by
  intro c hc hs
  rw [hdet] at hc
  rw [hstay] at hs
  obtain ⟨hcon, hout, hreads⟩ := hsame c hc
  have hholds := h c hc hs
  rw [Holds, hcon, hout, Constraint.compute_congr hreads fun _ => hout]
  exact hholds

theorem Agreeing.of_sameSolution (h : net.Agreeing) (hs : SameSolution net net')
    (hv : ∀ v, net'.value v = net.value v) : net'.Agreeing where
  toSettled := h.toSettled.of_sameSolution hs
  agrees w := (h.agrees w).congr (hs.determinedBy w) (congrArg Annotation.stay (hs.current w))
    fun c _ => ⟨congrFun hs.con c, hv _, fun v _ => hv v⟩

theorem Agreeing.disagreeing (h : net.Agreeing) (hc : (net.con c).isSatisfied = true) :
    net.Disagreeing c :=
  ⟨h.toSettled.unsettled hc, fun v => .inl (h.agrees v)⟩

/-- The output of a method that has been executed agrees with it. -/
theorem agrees_recalculated_output (h : net.Coherent) (hd : (net.con d).isSatisfied = true)
    (hself : (net.con d).output ∉ (net.con d).reads) (hz : ¬ net.DividesByZero d) :
    (net.recalculated d).Agrees (net.con d).output := by
  intro c hc hstay
  rw [recalculated_determinedBy, h.determinedBy_output hd] at hc
  cases hc
  cases hi : (net.con d).input with
  | none => exact holds_of_input_none hi
  | some u =>
    have hvar := recalculated_var_output (h.known_output (known_of_isSatisfied hd))
    have hflag : (net.annotationFor d).stay = true := by
      rw [hvar] at hstay
      exact hstay
    obtain ⟨x, hx⟩ := Option.ne_none_iff_exists'.1 fun hnone => hz ⟨hflag, hnone⟩
    have hvalue : (net.recalculated d).value (net.con d).output = x := by
      rw [value, hvar, refreshed, hflag, if_pos rfl, hx]
      rfl
    have hreads : ∀ v ∈ (net.con d).reads, (net.recalculated d).value v = net.value v := by
      intro v hv
      have hne : v ≠ (net.con d).output := fun hv' => hself (hv' ▸ hv)
      rw [value, recalculated_var_of_ne hne, value]
    rw [Holds, recalculated_con, Constraint.compute_congr hreads (by simp [hi]), hx, hvalue]

/-- What agrees goes on to do so, unless it reads the recalculated output. -/
theorem agrees_recalculated_of_agrees (h : net.Coherent) (hw : net.Agrees w)
    (hne : w ≠ (net.con d).output) :
    (net.recalculated d).Agrees w ∨ net.Feeds (net.con d).output w := by
  by_cases hf : net.Feeds (net.con d).output w
  · exact .inr hf
  have hvalue : ∀ v, v ≠ (net.con d).output → (net.recalculated d).value v = net.value v := by
    intro v hv
    rw [value, recalculated_var_of_ne hv, value]
  refine .inl (hw.congr recalculated_determinedBy (by rw [recalculated_var_of_ne hne]) ?_)
  intro e he
  obtain ⟨hes, rfl⟩ := (h.determines w e).1 he
  exact ⟨rfl, hvalue _ hne, fun v hv => hvalue v fun hv' => hf ⟨e, hes, hv' ▸ hv, rfl⟩⟩

end Agrees

/-! ## Downstream of a new method -/

/-- The state of a walk below `c` that brings values up to date: what does not agree lies downstream of
something queued, and nothing has happened to a variable that is not downstream of `c`. -/
structure Revaluing (start : Network) (mark : Nat) (c : ConstraintId) (net : Network)
    (q : List ConstraintId) : Prop extends Refreshing start mark c net q where
  counter : net.mark = start.mark
  agrees : ∀ w, net.Agrees w ∨ ∃ d ∈ q, start.Downstream (start.con d).output w
  elsewhere : ∀ w, ¬ start.Downstream (start.con c).output w → net.var w = start.var w

section Walk

variable {start net : Network} {mark n : Nat} {c d : ConstraintId} {q : List ConstraintId}

theorem Revaluing.visiting (h : Revaluing start mark c net q) : Visiting start net q :=
  ⟨h.graph, h.marks, h.counter, fun d hd => (h.queued d hd).1⟩

theorem Revaluing.step (hcoh : start.Coherent)
    (hself : ∀ d, (start.con d).isSatisfied = true →
      (start.var (start.con d).output).mark ≠ mark → (start.con d).output ∉ (start.con d).reads)
    (h : Revaluing start mark c net (d :: q)) (hm : (net.var (net.con d).output).mark ≠ mark)
    (hz : ¬ net.DividesByZero d) :
    Revaluing start mark c (net.recalculated d) (q ++ net.consumersOf (net.con d).output) := by
  have hnet : net.Coherent := hcoh.of_sameGraph h.graph
  have hcon : net.con d = start.con d := congrFun h.graph.con d
  obtain ⟨hsat, hdown⟩ := h.queued d (by simp)
  have hself' : (start.con d).output ∉ (start.con d).reads := by
    rw [hcon, h.marks] at hm
    exact hself d hsat hm
  refine ⟨h.toRefreshing.step hcoh hself hm, h.counter, ?_, fun w hw => ?_⟩
  · rw [hcon]
    refine waits_step hcoh h.graph hsat hself' ?_ ?_ h.agrees
    · rw [← hcon] at hsat hself' ⊢
      exact agrees_recalculated_output hnet hsat hself' hz
    · intro w hw hagrees
      rw [← hcon] at hw ⊢
      rw [← h.graph.feeds]
      exact agrees_recalculated_of_agrees hnet hagrees hw
  · have hne : w ≠ (net.con d).output := by
      rintro rfl
      rw [hcon] at hw
      exact hw hdown
    rw [recalculated_var_of_ne hne]
    exact h.elsewhere w hw

theorem walkInvariant_revaluing (hcoh : start.Coherent)
    (hself : ∀ d, (start.con d).isSatisfied = true →
      (start.var (start.con d).output).mark ≠ mark → (start.con d).output ∉ (start.con d).reads) :
    WalkInvariant mark (fun e _ => e.Abrupt) (Revaluing start mark c) where
  coherent h := hcoh.of_sameGraph h.graph
  satisfied h d hd := by rw [h.graph.con]; exact (h.queued d hd).1
  step h hm hz := h.step hcoh hself hm hz
  refused _ _ _ := trivial
  endless _ := trivial

/-- The values are put back after a walk that was started on `start`. What is not downstream of `c` has
not changed otherwise, so it agrees if it did before. -/
theorem Revaluing.agrees_unwound {v w : VariableId} (h : Revaluing start mark c net q)
    (hstart : w ≠ (start.con c).output → start.Agrees w) :
    (net.unwound start.vars c v).Agrees w ∨
      (net.unwound start.vars c v).Downstream ((net.unwound start.vars c v).con c).output w := by
  have hsize : start.vars.size = net.vars.size := h.graph.variableCount.symm
  have hun : SameSolution net (net.unwound start.vars c v) := sameSolution_unwound hsize
  by_cases hw : start.Downstream (start.con c).output w
  · rw [Downstream, hun.feeds, hun.con, h.graph.feeds, h.graph.con]
    exact .inr hw
  · have hne : w ≠ (start.con c).output := fun hw' => hw (hw' ▸ .refl)
    have hvalue : ∀ u, (net.unwound start.vars c v).value u = start.value u :=
      fun u => unwound_value hsize.symm
    refine .inl ((hstart hne).congr ?_ ?_ fun d _ => ⟨?_, hvalue _, fun u _ => hvalue u⟩)
    · rw [hun.determinedBy, h.graph.determinedBy]
    · rw [← h.elsewhere w hw]
      exact congrArg Annotation.stay (hun.current w)
    · rw [hun.con, h.graph.con]

end Walk

section TakenOver

variable {net : Network} {mark n : Nat} {c : ConstraintId} {flow : Flow} {w : VariableId}

theorem takenOver_value : (net.takenOver mark c flow).value w = net.value w := by
  simp only [value, takenOver, withoutMethod]
  split <;> simp [alterVariable_var_field, alterVariables_var_field]

/-- Taking over an output leaves every other variable in agreement. -/
theorem Agreeing.agrees_takenOver (h : net.Agreeing) (ha : (net.con c).attached = true)
    (hu : (net.con c).isSatisfied = false) (hw : w ≠ (net.directed c flow).output) :
    (net.takenOver mark c flow).Agrees w := by
  refine (h.agrees w).congr ?_ (congrArg Annotation.stay takenOver_current) fun e he => ?_
  · rw [takenOver_var h.coherent (known_of_attached ha), if_neg hw]
  · obtain ⟨hes, rfl⟩ := (h.coherent.determines w e).1 he
    exact ⟨takenOver_con_of_satisfied h.coherent hu hes hw, takenOver_value,
      fun _ _ => takenOver_value⟩

/-- The walk below a method that has just been chosen. -/
theorem Agreeing.ends_walk (h : net.Agreeing) (ha : (net.con c).attached = true)
    (hu : (net.con c).isSatisfied = false) :
    Ends (walk mark n [c]) (net.takenOver mark c flow)
      (fun met net' => (∃ q, Visiting (net.takenOver mark c flow) net' q) ∧
        (met = none → net'.Agreeing) ∧
        ∀ v, met = some v → (net'.unwound (net.takenOver mark c flow).vars c v).Disagreeing c)
      (fun e _ => e.Abrupt) := by
  have hcoh : (net.takenOver mark c flow).Coherent := h.coherent.takenOver ha hu
  have hcon : (net.takenOver mark c flow).con c = net.directed c flow :=
    takenOver_con_self h.coherent (known_of_attached ha) hu
  have hstart : ∀ w, w ≠ ((net.takenOver mark c flow).con c).output →
      (net.takenOver mark c flow).Agrees w := by
    rw [hcon]
    exact fun w hw => h.agrees_takenOver ha hu hw
  have hinit : Revaluing (net.takenOver mark c flow) mark c (net.takenOver mark c flow) [c] := by
    refine ⟨h.toSettled.refreshing_takenOver ha hu, rfl, fun w => ?_, fun _ _ => rfl⟩
    by_cases hw : w = ((net.takenOver mark c flow).con c).output
    · exact .inr ⟨c, by simp, hw ▸ .refl⟩
    · exact .inl (hstart w hw)
  refine ((h.toSettled.ends_walk ha hu).and (Network.ends_walk (walkInvariant_revaluing hcoh
    fun d hd hm => h.toSettled.takenOver_irreflexive ha hu hd hm) n hinit)).mono ?_
    fun _ _ hf => hf.1
  intro met net' hend
  obtain ⟨⟨hgraph, hnone, hsome⟩, hrun⟩ := hend
  cases met with
  | none =>
    refine ⟨⟨_, hrun.visiting⟩, fun _ => ⟨hnone rfl, fun w => ?_⟩, nofun⟩
    simpa using hrun.agrees w
  | some v =>
    obtain ⟨d, q, hmet, -, -⟩ := hrun
    refine ⟨⟨_, hmet.visiting⟩, nofun, fun u _ => ⟨?_, fun w => hmet.agrees_unwound (hstart w)⟩⟩
    exact (hsome v rfl).of_sameSolution (sameSolution_unwound hgraph.variableCount.symm)

end TakenOver

/-! ## Downstream of a lost method -/

/-- The state of a release that brings values up to date. -/
structure Reclaiming (start net : Network) (found : List ConstraintId) (q : List VariableId)
    (ds : List ConstraintId) : Prop extends Releasing start net found q ds where
  agrees : ∀ w, net.Agrees w ∨ (∃ d ∈ ds, start.Downstream (start.con d).output w) ∨
    ∃ v ∈ q, TransGen start.Feeds v w

section Release

variable {start net : Network} {c : ConstraintId}

theorem releaseInvariant_reclaiming (hcoh : start.Coherent)
    (hirr : ∀ d, (start.con d).isSatisfied = true → (start.con d).output ∉ (start.con d).reads) :
    ReleaseInvariant (fun e _ => e.Abrupt) (Reclaiming start) where
  coherent h := hcoh.of_sameGraph h.graph
  known h v hv := by rw [h.graph.variableCount]; exact h.known v hv
  satisfied h d hd := by rw [h.graph.con]; exact h.satisfied d hd
  scan h := ⟨h.toReleasing.scan hcoh hirr, waits_scan hcoh h.graph hirr h.agrees⟩
  step {net found q d ds} h hz := by
    have hnet : net.Coherent := hcoh.of_sameGraph h.graph
    have hcon : net.con d = start.con d := congrFun h.graph.con d
    have hsat := h.satisfied d (by simp)
    have hself := hirr d hsat
    refine ⟨h.toReleasing.step hcoh hirr, ?_⟩
    rw [hcon]
    refine waits_release ?_ ?_ h.agrees
    · rw [← hcon] at hsat hself ⊢
      exact agrees_recalculated_output hnet hsat hself hz
    · intro w hw hagrees
      rw [← hcon] at hw ⊢
      rw [← h.graph.feeds]
      exact agrees_recalculated_of_agrees hnet hagrees hw
  refused _ _ := trivial
  endless _ := trivial

/-- A constraint that leaves the graph changes no value. -/
theorem Disagreeing.reclaiming (h : net.Disagreeing c) :
    Reclaiming (net.detached c) (net.released c) [] [(net.con c).output] [] := by
  have hcoh := h.coherent
  have hsat := h.satisfied
  have hc : c.index < net.constraints.size := known_of_isSatisfied hsat
  have hvalue : ∀ v, (net.released c).value v = net.value v := by
    intro v
    have hkept : (net.released c).value v = (net.detached c).value v :=
      alterVariable_var_field fun _ => rfl
    rw [hkept, value, detached_var hcoh hc]
    rfl
  refine ⟨h.toUnsettled.releasing, fun w => ?_⟩
  by_cases hw : w = (net.con c).output
  · subst hw
    have hnone : ((net.released c).var (net.con c).output).determinedBy = none :=
      ((sameGraph_released hcoh hsat).determinedBy _).trans (detached_determinedBy_output hcoh hsat)
    refine .inl fun d hd => ?_
    rw [hnone] at hd
    cases hd
  · obtain hagrees | hdown := h.agrees w
    · refine .inl (hagrees.congr (released_determinedBy_of_ne hcoh hsat hw)
        (congrArg Annotation.stay (released_current_of_ne hcoh hsat hw)) fun d hd => ?_)
      have hdc : d ≠ c := by
        rintro rfl
        exact hw ((hcoh.determines w d).1 hd).2.symm
      exact ⟨by rw [released_con, detached_con_of_ne hdc], hvalue _, fun v _ => hvalue v⟩
    · exact .inr (.inr ⟨_, by simp, (transGen_detached hc hdown).resolve_left hw⟩)

theorem Disagreeing.ends_release (h : net.Disagreeing c) :
    Ends (release (net.con c).output) (net.detached c)
      (fun found net' => net'.Agreeing ∧ SameGraph (net.detached c) net' ∧
        ∀ u ∈ found, (net'.con u).attached = true)
      (fun e _ => e.Abrupt) := by
  have hcoh : (net.detached c).Coherent := h.coherent.detached (known_of_isSatisfied h.satisfied)
  have hirr := fun d => h.toUnsettled.detached_irreflexive (d := d)
  refine ((ends_release_settled h.toUnsettled).and (Network.ends_release
    (releaseInvariant_reclaiming hcoh hirr) h.toUnsettled.known_output h.reclaiming)).mono ?_
    fun _ _ hf => hf.1
  intro found net' hend
  obtain ⟨⟨hset, hgraph, hfound⟩, hrun⟩ := hend
  exact ⟨⟨hset, fun w => by simpa using hrun.agrees w⟩, hgraph, fun u hu => (hfound u hu).1⟩

end Release

/-! ## Satisfying and retracting -/

/-- Satisfying and retracting constraints keep values in agreement, and so do their failures unless
they stop half-way. -/
theorem repairInvariant_agreeing :
    RepairInvariant (fun _ => Agreeing) Disagreeing (fun _ _ => Failure.Leaves Agreeing) where
  cascade _ :=
    { coherent := fun h => h.coherent
      keep := fun h hq hv => h.of_sameSolution hq.toSameSolution hv
      candidate := fun h _ _ => h
      given_up := fun h _ => h
      walk := fun _ h ha hu _ _ => (h.ends_walk ha hu).mono (fun _ _ hend => hend) fun _ _ hf => .inl hf
      unsatisfiable := fun h _ _ => .inr h
      keeps := fun _ hf => hf }
  coherent_but h := h.coherent
  satisfied_but h := h.satisfied
  release _ h := h.ends_release.mono (fun _ _ hend => hend) fun _ _ hf => .inl hf
  cycle _ _ h _ := .inr h
  spent _ _ := .inl trivial
  nested _ hf := hf

end Network

end ConstraintHierarchy
