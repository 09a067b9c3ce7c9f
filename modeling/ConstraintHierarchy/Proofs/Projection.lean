import ConstraintHierarchy.Proofs.Numbers
import ConstraintHierarchy.Proofs.Rows

/-!
# The projection scenario

The scenario lays out rows of pairs, changes both ends of the last pair, then the scale and the offset,
and compares what has become of the other ends. The first comparison is one of a target with the image of
its source, and so are those of the pairs that are not touched: each of these values has been computed by
the very expression with which it is compared. The exception is the source of the last pair after its
target has been changed. It has been computed from the image of five, and whether it is five again is a
matter of rounding. This is all that the outcome depends on.

## Main definitions

* `Network.Layout`: the rows with the values that the scenario relies on
* `ProjectionSettings.roundTrip`: five, mapped and mapped back

## Main results

* `Network.Layout.exists_grown`: a pair is added
* `Network.Layout.exists_changed`: a temporary edit leaves the other pairs as they are
* `Scenario.projection_outcome`: what comes of the scenario
* `Scenario.hasRoom_iff`: how many pairs there may be
* `Scenario.projection_outOfRange`: there can be too many pairs
-/

namespace ConstraintHierarchy

open Solve Network Row

namespace Network

variable {net net' : Network} {n k m i : Nat} {c : ConstraintId} {v : VariableId} {x s o : Float}
  {stay strength : Strength} {name : String}

/-! ## Adding a pair -/

namespace Paired

theorem withVariable (h : Paired n stay net) : Paired n stay (net.withVariable name x) where
  state := h.state.withVariable
  consistent := h.consistent.withVariable
  rows := h.rows
  present i hi := ⟨(h.present i hi).attached, (h.present i hi).kind, (h.present i hi).strength⟩
  anchors := h.anchors

theorem consistent_added {kind : Kind} (h : Paired n stay net)
    (hadd : addConstraint kind strength net = .ok c net') : net'.Consistent :=
  (operationInvariant_consistent.ends_addConstraint h.consistent trivial).of_ok hadd

/-- A stay on a source is added. -/
theorem exists_stayed (h : Paired n stay net) (hv : (source m).index < net.vars.size)
    (hstay : stay ≠ .required) (hf : (net.value factor == 0.0) = false) :
    ∃ net', addConstraint (.stay (source m)) stay net = .ok ⟨net.constraints.size⟩ net' ∧
      Added net (.stay (source m)) stay net' ∧ Paired n stay net' := by
  have hk : ∀ v ∈ (Kind.stay (source m)).operands, v.index < net.vars.size := by
    simpa [Kind.operands] using hv
  have hrows : (net.registered (.stay (source m)) stay).Rows n := h.rows.registered (.inl rfl)
  have hf' : ((net.registered (.stay (source m)) stay).value factor == 0.0) = false := by
    rw [value, registered_var hk]
    exact hf
  have hr : ¬ (net.registered (.stay (source m)) stay).Refuses ⟨net.constraints.size⟩ := by
    rw [registered_refuses_iff hk]
    exact fun hrefuses => hstay hrefuses.1
  obtain ⟨net', hadd, hadded⟩ := h.state.exists_added hk hrows.treeShaped hr fun hl d hs =>
    hrows.compute_of_leads (h.coherent.registered hk) hf' hl hs
  refine ⟨net', hadd, hadded, hadded.state, h.consistent_added hadd, hrows.of_leads hadded.leads,
    fun i hi => hadded.has (h.present i hi), fun c v ha hk => ?_⟩
  by_cases hc : c = ⟨net.constraints.size⟩
  · rw [hc, hadded.has_new.kind] at hk ⊢
    rw [hadded.has_new.strength]
    rcases hk with hk | hk
    · cases hk
      exact ⟨rfl, rfl, m, rfl⟩
    · cases hk
  · rw [hadded.attached_of_ne hc] at ha
    rw [hadded.kind_of_ne hc] at hk ⊢
    rw [hadded.keeps.strength, registered_con_of_ne hc]
    exact h.anchors c v ha hk

/-- A target whose scaling is still missing is computed by nothing. -/
theorem target_undetermined (h : Paired n stay net) (hi : n ≤ i) :
    (net.var (target i)).determinedBy = none := by
  rw [Option.eq_none_iff_forall_ne_some]
  intro d hdet
  obtain ⟨hs, ho⟩ := (h.coherent.determines _ d).1 hdet
  have ha := h.coherent.attached d hs
  obtain ⟨j, hj, -, hk⟩ | ⟨w, hk⟩ := h.rows d ha
  · have hmem : target i ∈ (mapping j).outputs := by
      rw [← ho, ← hk]
      exact Kind.output_mem_outputs
    have hij : i = j := by simpa [mapping, Kind.outputs] using hmem
    omega
  · have hw : w = target i := by
      rw [← ho, Constraint.output]
      rcases hk with hk | hk <;> rw [hk] <;> rfl
    exact h.free ha (hw ▸ hk)

theorem walkStrength_target (h : Paired n stay net) (hi : n ≤ i) :
    (net.var (target i)).walkStrength = .weakest := by
  have hexact := h.state.solution.settled.exact (target i)
  rw [Exact, due_of_none (h.target_undetermined hi)] at hexact
  exact congrArg Annotation.walkStrength hexact

/-- A new scaling computes its target, which nothing else does. -/
theorem flowFor_mapping (h : Paired n stay net) (hv : (target n).index < net.vars.size) :
    (net.opened (mapping n) .required).flowFor (net.opened (mapping n) .required).mark
      ⟨net.constraints.size⟩ = some .forward := by
  have hk := operands_mapping_lt hv
  have hpast : ∀ v, ((net.opened (mapping n) .required).var v).mark ≠
      (net.opened (mapping n) .required).mark := fun _ => h.state.regular.mark_opened_ne hk
  have hweak : ((net.opened (mapping n) .required).var (target n)).walkStrength = .weakest := by
    rw [opened_var, registered_var hk, ← h.walkStrength_target le_rfl]
  have hlast : ∀ s : Strength, ¬ Strength.StrongerThan .weakest s := by
    intro s
    cases s <;> decide
  have hcon : (net.opened (mapping n) .required).con ⟨net.constraints.size⟩ =
      { kind := mapping n, strength := .required, attached := true } := by
    rw [opened_con, registered_con_new]
  have hdirected : (net.opened (mapping n) .required).directed ⟨net.constraints.size⟩ .forward =
      { kind := mapping n, strength := .required, flow := some .forward, attached := true } := by
    rw [directed, hcon]
  have hout : ((net.opened (mapping n) .required).directed ⟨net.constraints.size⟩ .forward).output =
      target n := by
    rw [hdirected]
    rfl
  refine flowFor_eq_some ?_ (fun _ => rfl) fun v _ => ⟨hpast v, fun _ => ?_, nofun⟩
  · rw [hout, hcon]
    refine ⟨hpast _, ?_⟩
    rw [hweak]
    show Strength.StrongerThan .required .weakest
    decide
  · rw [hout, hweak]
    exact hlast _

/-- The scaling of the next pair is added and has computed its target all along. -/
theorem exists_mapped (h : Paired n stay net) (hcount : net.constraints.size = 2 * n + 1)
    (hv : (target n).index < net.vars.size) (hf : (net.value factor == 0.0) = false) :
    ∃ net', addConstraint (mapping n) .required net = .ok (scaling n) net' ∧
      Added net (mapping n) .required net' ∧ Paired (n + 1) stay net' ∧
      Leads (fun _ => True) (net.overridden (mapping n) .required .forward) net' := by
  have hk := operands_mapping_lt hv
  have hrows : (net.registered (mapping n) .required).Rows (n + 1) := h.rows.registered_mapping hcount
  have hf' : ((net.registered (mapping n) .required).value factor == 0.0) = false := by
    rw [value, registered_var hk]
    exact hf
  have hr : ¬ (net.registered (mapping n) .required).Refuses ⟨net.constraints.size⟩ := by
    rw [registered_refuses_iff hk]
    intro hrefuses
    have hstrong := hrefuses.2 (target n) (by simp [mapping, Kind.outputs])
    rw [h.walkStrength_target le_rfl] at hstrong
    cases hstrong
  obtain ⟨net', hadd, hadded⟩ := h.state.exists_added hk hrows.treeShaped hr fun hl d hs =>
    hrows.compute_of_leads (h.coherent.registered hk) hf' hl hs
  have hnew : (⟨net.constraints.size⟩ : ConstraintId) = scaling n := by rw [hcount]; rfl
  have hleads := (leads_addConstraint_overridden h.coherent hk (h.flowFor_mapping hv)).of_ok hadd
  refine ⟨net', by rw [hadd, hnew], hadded, ⟨hadded.state, h.consistent_added hadd,
    hrows.of_leads hadded.leads, fun i hi => ?_, fun c v ha hk => ?_⟩, hleads⟩
  · rcases Nat.lt_succ_iff_lt_or_eq.1 hi with hlt | rfl
    · exact hadded.has (h.present i hlt)
    · rw [← hnew]
      exact hadded.has_new
  · by_cases hc : c = ⟨net.constraints.size⟩
    · rw [hc, hadded.has_new.kind] at hk
      rcases hk with hk | hk <;> cases hk
    · rw [hadded.attached_of_ne hc] at ha
      rw [hadded.kind_of_ne hc] at hk ⊢
      rw [hadded.keeps.strength, registered_con_of_ne hc]
      exact h.anchors c v ha hk

/-- Before the new scaling has been established, it has taken over its target, and nothing else has
changed. -/
theorem overridden_con_mapping (h : Paired n stay net) (hv : (target n).index < net.vars.size)
    (ha : ((net.overridden (mapping n) .required .forward).con c).attached = true)
    (hc : c ≠ ⟨net.constraints.size⟩) :
    (net.overridden (mapping n) .required .forward).con c = net.con c := by
  have hlt : c.index < net.constraints.size := by
    have hlt := known_of_attached ha
    have hne : c.index ≠ net.constraints.size := fun heq => hc (by cases c; exact congrArg _ heq)
    rw [overridden_count] at hlt
    omega
  have hnone : (net.var ((mapping n).output (some .forward))).determinedBy ≠ some c := by
    show (net.var (target n)).determinedBy ≠ some c
    rw [h.target_undetermined le_rfl]
    simp
  rw [overridden_con h.coherent (operands_mapping_lt hv) hlt, if_neg hnone]

/-- The new pair maps, and so does every pair that has mapped before. -/
theorem maps_mapped (h : Paired n stay net) (h' : Paired (n + 1) stay net')
    (hcount : net.constraints.size = 2 * n + 1) (hv : (target n).index < net.vars.size)
    (hl : Leads (fun _ => True) (net.overridden (mapping n) .required .forward) net') :
    net'.Maps n (net.value (source n)) ∧ ∀ i < n, ∀ x, net.Maps i x → net'.Maps i x := by
  have hk := operands_mapping_lt hv
  have hnew : (⟨net.constraints.size⟩ : ConstraintId) = scaling n := by rw [hcount]; rfl
  have hover : Leads (fun _ => True) (net.registered (mapping n) .required)
      (net.overridden (mapping n) .required .forward) := leads_overridden (h.flowFor_mapping hv)
  have hcoh := hover.coherent (h.coherent.registered hk)
  have hrows := (h.rows.registered_mapping hcount).of_leads hover
  have hcon : (net.overridden (mapping n) .required .forward).con ⟨net.constraints.size⟩ =
      { kind := mapping n, strength := .required, flow := some .forward, attached := true } :=
    overridden_con_new h.coherent hk
  have hfree : ∀ j c, ((net.overridden (mapping n) .required .forward).con c).attached = true →
      ¬ ((net.overridden (mapping n) .required .forward).con c).kind.Anchors (target j) := by
    intro j c ha
    by_cases hc : c = ⟨net.constraints.size⟩
    · rw [hc, hcon]
      rintro (hk | hk) <;> cases hk
    · have hold := h.overridden_con_mapping hv ha hc
      rw [hold] at ha ⊢
      exact h.free ha
  constructor
  · have hm : (net.overridden (mapping n) .required .forward).Maps n (net.value (source n)) := by
      rw [hnew] at hcon
      refine ⟨by rw [hcon], by rw [hcon], hfree n, overridden_value h.coherent hk⟩
    exact hm.of_leads hrows hcoh hl (h'.present n (Nat.lt_succ_self n)).attached
  · intro i hi x hm
    have ha : ((net.overridden (mapping n) .required .forward).con (scaling i)).attached = true :=
      hl.attached (h'.present i (by omega)).attached
    have hold := h.overridden_con_mapping hv ha (h.scaling_ne_new hi)
    have hm' : (net.overridden (mapping n) .required .forward).Maps i x :=
      ⟨by rw [hold, hm.kind], by rw [hold, hm.forward], hfree i,
        (overridden_value h.coherent hk).trans hm.value⟩
    exact hm'.of_leads hrows hcoh hl (h'.present i (by omega)).attached

end Paired

/-! ## The layout of the scenario -/

theorem value_withVariable (hv : v.index < net.vars.size) :
    (net.withVariable name x).value v = net.value v := by
  have hne : v ≠ ⟨net.vars.size⟩ := by
    rintro rfl
    exact Nat.lt_irrefl _ hv
  rw [value, withVariable_var_of_ne hne, value]

theorem Maps.withVariable {y : Float} (h : net.Maps i y) (hcoh : net.Coherent) :
    (net.withVariable name x).Maps i y := by
  have hknown := hcoh.known_output (known_of_isSatisfied h.satisfied)
  rw [h.output] at hknown
  refine ⟨h.kind, h.forward, h.free, ?_⟩
  rw [value_withVariable (by simp only [source, target] at hknown ⊢; omega), h.value]

/-- The network of the scenario: there are `n` scalings, and the first `k` pairs have not been touched. -/
structure Layout (n k : Nat) (stay : Strength) (s o : Float) (net : Network) : Prop
    extends Paired n stay net where
  wide : 2 + 2 * n ≤ net.vars.size
  untouched : k ≤ n
  maps : ∀ i < k, net.Maps i (Float.ofNat i)
  name : ∀ i, (source i).index < net.vars.size → (net.var (source i)).name = "src" ++ toString i
  scale : net.value factor = s
  shift : net.value offset = o

namespace Layout

theorem mono (h : Layout n k stay s o net) (hm : m ≤ k) : Layout n m stay s o net :=
  { h with
    untouched := Nat.le_trans hm h.untouched
    maps := fun i hi => h.maps i (Nat.lt_of_lt_of_le hi hm) }

theorem factor_ne_zero (h : Layout n k stay s o net) (hs : (s == 0.0) = false) :
    (net.value factor == 0.0) = false := by
  rw [h.scale]
  exact hs

theorem noted {e : Event} (h : Layout n k stay s o net) :
    Layout n k stay s o { net with journal := net.journal.push e } where
  state := h.state.of_quiet quiet_note
  consistent := h.consistent.of_quiet quiet_note fun _ => rfl
  rows := h.rows
  present i hi := ⟨(h.present i hi).attached, (h.present i hi).kind, (h.present i hi).strength⟩
  anchors := h.anchors
  wide := h.wide
  untouched := h.untouched
  maps i hi := ⟨(h.maps i hi).kind, (h.maps i hi).forward, (h.maps i hi).free, (h.maps i hi).value⟩
  name := h.name
  scale := h.scale
  shift := h.shift

/-- A variable is added, under the right name if it is a source. -/
theorem withVariable (h : Layout n k stay s o net)
    (hname : ∀ i, source i = ⟨net.vars.size⟩ → name = "src" ++ toString i) :
    Layout n k stay s o (net.withVariable name x) where
  toPaired := h.toPaired.withVariable
  wide := by
    rw [withVariable_size]
    exact Nat.le_succ_of_le h.wide
  untouched := h.untouched
  maps i hi := (h.maps i hi).withVariable h.coherent
  name i hi := by
    by_cases hnew : source i = ⟨net.vars.size⟩
    · rw [hnew, withVariable_var_new]
      exact hname i hnew
    · rw [withVariable_size] at hi
      have hne : (source i).index ≠ net.vars.size := fun heq => hnew (congrArg VariableId.mk heq)
      rw [withVariable_var_of_ne hnew, h.name i (by omega)]
  scale := by
    have := h.wide
    rw [value_withVariable (by simp only [factor]; omega), h.scale]
  shift := by
    have := h.wide
    rw [value_withVariable (by simp only [offset]; omega), h.shift]

/-- To add a constraint changes neither names nor the scale and the offset. -/
theorem of_added {kind : Kind} {n' k' : Nat} (h : Layout n k stay s o net)
    (hk : ∀ v ∈ kind.operands, v.index < net.vars.size) (hadded : Added net kind strength net')
    (hrows : (net.registered kind strength).Rows n') (hwide : 2 + 2 * n' ≤ net.vars.size)
    (h' : Paired n' stay net') (hle : k' ≤ n') (hmaps : ∀ i < k', net'.Maps i (Float.ofNat i)) :
    Layout n' k' stay s o net' where
  toPaired := h'
  wide := by rwa [hadded.variableCount]
  untouched := hle
  maps := hmaps
  name i hi := by
    rw [hadded.variableCount] at hi
    rw [hadded.name_eq h.coherent hk, h.name i hi]
  scale := by rw [hrows.parameter_added h.coherent hk hadded (by simp), h.scale]
  shift := by rw [hrows.parameter_added h.coherent hk hadded (by simp), h.shift]

/-- A stay on the source of a new pair is added. -/
theorem exists_stayed (h : Layout n k stay s o net) (hv : (source n).index < net.vars.size)
    (hstay : stay ≠ .required) (hs : (s == 0.0) = false) :
    ∃ net', addConstraint (.stay (source n)) stay net = .ok ⟨net.constraints.size⟩ net' ∧
      Added net (.stay (source n)) stay net' ∧ Layout n k stay s o net' ∧
      net'.value (source n) = net.value (source n) := by
  obtain ⟨net', hadd, hadded, h'⟩ := h.toPaired.exists_stayed hv hstay (h.factor_ne_zero hs)
  have hk : ∀ v ∈ (Kind.stay (source n)).operands, v.index < net.vars.size := by
    simpa [Kind.operands] using hv
  have hcoh : (net.registered (.stay (source n)) stay).Coherent := h.coherent.registered hk
  have hrows : (net.registered (.stay (source n)) stay).Rows n := h.rows.registered (.inl rfl)
  have hfree : ∀ i, ¬ (Kind.stay (source n)).Anchors (target i) := by
    rintro i (heq | heq)
    · exact source_ne_target (Kind.stay.inj heq)
    · cases heq
  refine ⟨net', hadd, hadded, h.of_added hk hadded hrows h.wide h' h.untouched fun i hi => ?_, ?_⟩
  · exact ((h.maps i hi).registered hk (hfree i)).of_leads hrows hcoh hadded.leads
      (h'.present i (Nat.lt_of_lt_of_le hi h.untouched)).attached
  · exact hadded.value_eq h.coherent hk fun hl =>
      (hrows.of_leads hl).steady_source_of_le (hl.coherent hcoh) le_rfl

/-- The scaling of a new pair is added. -/
theorem exists_mapped (h : Layout n n stay s o net) (hcount : net.constraints.size = 2 * n + 1)
    (hv : (target n).index < net.vars.size) (hs : (s == 0.0) = false)
    (hx : net.value (source n) = Float.ofNat n) :
    ∃ net', addConstraint (mapping n) .required net = .ok (scaling n) net' ∧
      Added net (mapping n) .required net' ∧ Layout (n + 1) (n + 1) stay s o net' := by
  obtain ⟨net', hadd, hadded, h', hleads⟩ :=
    h.toPaired.exists_mapped hcount hv (h.factor_ne_zero hs)
  have hwide : 2 + 2 * (n + 1) ≤ net.vars.size := by
    simp only [target] at hv
    omega
  refine ⟨net', hadd, hadded, h.of_added (operands_mapping_lt hv) hadded
    (h.rows.registered_mapping hcount) hwide h' le_rfl fun i hi => ?_⟩
  obtain ⟨hnew, hold⟩ := h.maps_mapped h' hcount hv hleads
  rcases Nat.lt_succ_iff_lt_or_eq.1 hi with hlt | rfl
  · exact hold i hlt _ (h.maps i hlt)
  · rwa [hx] at hnew

/-- The layout grows by a pair. -/
theorem exists_grown (h : Layout n n stay s o net) (hsize : net.vars.size = 2 + 2 * n)
    (hcount : net.constraints.size = 2 * n) (hstay : stay ≠ .required) (hs : (s == 0.0) = false) :
    ∃ net₁ net₂ net₃ net₄ c,
      addVariable ("src" ++ toString n) (Float.ofNat n) net = .ok (source n) net₁ ∧
      addVariable ("dst" ++ toString n) (Float.ofNat n) net₁ = .ok (target n) net₂ ∧
      addConstraint (.stay (source n)) stay net₂ = .ok c net₃ ∧
      addConstraint (mapping n) .required net₃ = .ok (scaling n) net₄ ∧
      Layout (n + 1) (n + 1) stay s o net₄ ∧ net₄.vars.size = 2 + 2 * (n + 1) ∧
      net₄.constraints.size = 2 * (n + 1) := by
  let net₁ := net.withVariable ("src" ++ toString n) (Float.ofNat n)
  let net₂ := net₁.withVariable ("dst" ++ toString n) (Float.ofNat n)
  have hsize₁ : net₁.vars.size = 3 + 2 * n := by
    rw [withVariable_size, hsize]
    omega
  have hsize₂ : net₂.vars.size = 4 + 2 * n := by
    rw [withVariable_size, hsize₁]
    omega
  have hsource : (⟨net.vars.size⟩ : VariableId) = source n := by rw [hsize]; rfl
  have htarget : (⟨net₁.vars.size⟩ : VariableId) = target n := by rw [hsize₁]; rfl
  have h₁ : Layout n n stay s o net₁ := h.withVariable fun i hi => by
    rw [hsource, source_inj] at hi
    rw [hi]
  have h₂ : Layout n n stay s o net₂ := h₁.withVariable fun i hi => by
    rw [htarget] at hi
    exact absurd hi source_ne_target
  have hvalue : net₂.value (source n) = Float.ofNat n := by
    rw [value_withVariable (by rw [hsize₁]; simp only [source]; omega), value, ← hsource,
      withVariable_var_new]
  obtain ⟨net₃, hadd₃, hadded₃, h₃, hsteady⟩ := h₂.exists_stayed (by
    rw [hsize₂]
    simp only [source]
    omega) hstay hs
  have hcount₃ : net₃.constraints.size = 2 * n + 1 := by
    rw [hadded₃.constraintCount]
    exact congrArg (· + 1) hcount
  obtain ⟨net₄, hadd₄, hadded₄, h₄⟩ := h₃.exists_mapped hcount₃ (by
    rw [hadded₃.variableCount, hsize₂]
    simp only [target]
    omega) hs (hsteady.trans hvalue)
  refine ⟨net₁, net₂, net₃, net₄, _, ?_, ?_, hadd₃, hadd₄, h₄, ?_, ?_⟩
  · rw [addVariable_eq, hsource]
  · rw [addVariable_eq, htarget]
  · rw [hadded₄.variableCount, hadded₃.variableCount, hsize₂]
    omega
  · rw [hadded₄.constraintCount, hcount₃]
    omega

/-- A temporary edit outside of the untouched pairs leaves them as they are. -/
theorem exists_changed (h : Layout n k stay s o net) (hv : v.index < 2 + 2 * n)
    (hfree : ∀ i < k, v ≠ source i ∧ v ≠ target i) (hstrong : strength.StrongerThan stay)
    (hs : (s == 0.0) = false) (hx : v = factor → (x == 0.0) = false) (j : Nat) :
    ∃ edited cur net', change v x strength (j + 1) net = .ok () net' ∧
      Changed net v x strength edited cur net' ∧
      Layout n k stay (if factor = v then x else s) (if offset = v then x else o) net' := by
  have hv' : v.index < net.vars.size := Nat.lt_of_lt_of_le hv h.wide
  obtain ⟨edited, cur, net', hchange, hc, h'⟩ :=
    h.toPaired.exists_changed hv' hstrong (h.factor_ne_zero hs) hx j
  refine ⟨edited, cur, net', hchange, hc, ⟨h', ?_, h.untouched, fun i hi => ?_, fun i hi => ?_, ?_,
    ?_⟩⟩
  · rw [hc.variableCount]
    exact h.wide
  · obtain ⟨hsource, htarget⟩ := hfree i hi
    have hm := h.toPaired.maps_changed h' hc hv' (Nat.lt_of_lt_of_le hi h.untouched) (h.maps i hi)
      htarget
    rwa [h.toPaired.source_cur hc hv' (h.maps i hi) htarget hsource.symm] at hm
  · rw [hc.variableCount] at hi
    rw [hc.name, h.name i hi]
  · rw [h.toPaired.parameter_changed hc hv' (by simp), h.scale]
  · rw [h.toPaired.parameter_changed hc hv' (by simp), h.shift]

end Layout

end Network

/-- What becomes of five when it is mapped and mapped back. -/
def ProjectionSettings.roundTrip (settings : ProjectionSettings) : Float :=
  ((5.0 * settings.scale + settings.offset) - settings.offset) / settings.scale

namespace Scenario

/-- The pair with number `i`. -/
def pair (i : Nat) : Pair := ⟨source i, target i⟩

@[simp] theorem source_pair {i : Nat} : (pair i).source = source i := rfl

@[simp] theorem target_pair {i : Nat} : (pair i).target = target i := rfl

variable {net : Network} {n k m : Nat} {v : VariableId} {x s o : Float} {stay : Strength}
  {settings : ProjectionSettings}

/-- The pairs are laid out one after the other. -/
theorem ends_addPairs (hstay : settings.stayStrength ≠ .required) (hs : (s == 0.0) = false) (k : Nat) :
    ∀ {n : Nat} {net : Network}, Layout n n settings.stayStrength s o net →
      net.vars.size = 2 + 2 * n → net.constraints.size = 2 * n →
      Ends (addPairs settings factor offset n k) net
        (fun pairs net' => pairs = (List.range' n k).map pair ∧
          Layout (n + k) (n + k) settings.stayStrength s o net')
        (fun _ _ => False) := by
  induction k with
  | zero => exact fun h _ _ => ⟨rfl, h⟩
  | succ k ih =>
    intro n net h hsize hcount
    obtain ⟨net₁, net₂, net₃, net₄, c, hadd₁, hadd₂, hadd₃, hadd₄, h', hsize', hcount'⟩ :=
      h.exists_grown hsize hcount hstay hs
    rw [addPairs, ends_bind, ends_solve_ok hadd₁, ends_bind, ends_solve_ok hadd₂, ends_bind,
      ends_solve_ok hadd₃, ends_bind]
    show Ends (solve (addConstraint (mapping n) .required)) net₃ _ _
    rw [ends_solve_ok hadd₄, ends_bind]
    refine (ih h' hsize' hcount').mono ?_ fun _ _ hf => hf
    rintro _ final ⟨rfl, hfinal⟩
    rw [Nat.add_right_comm n 1 k, Nat.add_assoc n k 1] at hfinal
    exact ⟨rfl, hfinal⟩

/-- The targets of pairs that have not been touched are the images of their numbers. -/
theorem ends_checkTargets (h : Layout n k stay s o net)
    (hself : ∀ i < k, (Float.ofNat i * s + o == Float.ofNat i * s + o) = true) (j : Nat) :
    ∀ {i : Nat}, i + j ≤ k →
      Ends (checkTargets s o i ((List.range' i j).map pair)) net (fun _ net' => net' = net)
        (fun _ _ => False) := by
  induction j with
  | zero => exact fun _ => rfl
  | succ j ih =>
    intro i hij
    have hi : i < k := by omega
    have hknown : (target i).index < net.vars.size := by
      have := h.wide
      have := h.untouched
      simp only [target]
      omega
    have himage : net.value (target i) = Float.ofNat i * s + o := by
      rw [h.image (h.maps i hi), h.scale, h.shift]
    rw [List.range'_succ, List.map_cons, checkTargets, target_pair, ends_bind, ends_check hknown, himage,
      if_pos (hself i hi)]
    exact ih (by omega)

section Changes

variable (hstrong : settings.editStrength.StrongerThan settings.stayStrength)
  (hiter : 1 ≤ settings.changeIterations)

include hstrong hiter

/-- A change goes through, and the pairs that have not been touched are as before. -/
theorem ends_changeTo {ok : Unit → Network → Prop} {fail : Failure ScenarioError → Network → Prop}
    (h : Layout n k settings.stayStrength s o net) (hs : (s == 0.0) = false)
    (hv : v.index < 2 + 2 * n) (hfree : ∀ i < k, v ≠ source i ∧ v ≠ target i)
    (hx : v = factor → (x == 0.0) = false)
    (hok : ∀ {edited cur net'}, Changed net v x settings.editStrength edited cur net' →
      Layout n k settings.stayStrength (if factor = v then x else s) (if offset = v then x else o) net' →
      ok () net') : Ends (changeTo settings v x) net ok fail := by
  obtain ⟨j, hj⟩ := Nat.exists_eq_add_of_le' hiter
  obtain ⟨edited, cur, net', hchange, hc, h'⟩ := h.exists_changed hv hfree hstrong hs hx j
  rw [changeTo, hj, ends_solve_ok hchange]
  exact hok hc h'

/-- Both ends of the last pair are changed. Its target is the image of the new source; the source is
what becomes of five on the way back. -/
theorem ends_checkBothWays (h : Layout (m + 1) (m + 1) settings.stayStrength settings.scale
      settings.offset net) (hs : (settings.scale == 0.0) = false)
    (hself : (17.0 * settings.scale + settings.offset == 17.0 * settings.scale + settings.offset) =
      true) :
    Ends (checkBothWays settings (some (pair m))) net
      (fun checks net' => checks = 2 ∧ (settings.roundTrip == 5.0) = true ∧
        Layout (m + 1) m settings.stayStrength settings.scale settings.offset net')
      (fun e _ => ¬ (settings.roundTrip == 5.0) = true ∧
        e = .refused (.mismatch "projection" ("src" ++ toString m) 5.0 settings.roundTrip)) := by
  have hsource : (source m).index < 2 + 2 * (m + 1) := by simp only [source]; omega
  have htarget : (target m).index < 2 + 2 * (m + 1) := by simp only [target]; omega
  -- the source is changed, and the pair goes on mapping
  rw [checkBothWays, source_pair, target_pair, ends_bind]
  refine ends_changeTo hstrong hiter (h.mono (Nat.le_succ m)) hs hsource (fun i hi => ?_)
    (fun heq => absurd heq.symm (parameter_ne_source (by simp))) fun {_ cur net₁} hc h₁ => ?_
  · exact ⟨by rw [ne_eq, source_inj]; omega, source_ne_target⟩
  rw [if_neg (parameter_ne_source (by simp)), if_neg (parameter_ne_source (by simp))] at h₁
  have hknown : (source m).index < net.vars.size := Nat.lt_of_lt_of_le hsource h.wide
  have hmaps := h.maps_changed h₁.toPaired hc hknown (Nat.lt_succ_self m) (h.maps m (Nat.lt_succ_self m))
    source_ne_target
  have himage : net₁.value (target m) = 17.0 * settings.scale + settings.offset := by
    rw [h₁.image hmaps, hc.fed.new, h₁.scale, h₁.shift]
  have hknown₁ : (target m).index < net₁.vars.size := Nat.lt_of_lt_of_le htarget h₁.wide
  -- the target is changed, which turns the scaling around for a while
  rw [ends_bind, ends_check hknown₁, himage, if_pos hself, ends_bind]
  refine ends_changeTo hstrong hiter h₁ hs htarget (fun i hi => ?_)
    (fun heq => absurd heq.symm (parameter_ne_target (by simp))) fun {_ _ net₂} hc₂ h₂ => ?_
  · exact ⟨target_ne_source, by rw [ne_eq, target_inj]; omega⟩
  rw [if_neg (parameter_ne_target (by simp)), if_neg (parameter_ne_target (by simp))] at h₂
  have hback : net₂.value (source m) = settings.roundTrip := by
    rw [h₁.source_of_target hc₂ (Nat.lt_succ_self m) hknown₁ (h₁.factor_ne_zero hs), h₁.scale,
      h₁.shift]
    rfl
  have hknown₂ : (source m).index < net₂.vars.size := Nat.lt_of_lt_of_le hsource h₂.wide
  rw [ends_bind, ends_check hknown₂, hback]
  split
  next hfive => exact ⟨rfl, hfive, h₂⟩
  next hfive => exact ⟨hfive, by rw [h₂.name m hknown₂]⟩

/-- The last pair is changed at both ends, if there is one. -/
theorem ends_checkLast (h : Layout n n settings.stayStrength settings.scale settings.offset net)
    (hs : (settings.scale == 0.0) = false)
    (hself : (17.0 * settings.scale + settings.offset == 17.0 * settings.scale + settings.offset) =
      true) :
    Ends (checkBothWays settings ((List.range' 0 n).map pair).getLast?) net
      (fun checks net' => checks + 2 * (n - 1) = 2 * n ∧
        (n = 0 ∨ (settings.roundTrip == 5.0) = true) ∧
        Layout n (n - 1) settings.stayStrength settings.scale settings.offset net')
      (fun e _ => ¬ (n = 0 ∨ (settings.roundTrip == 5.0) = true) ∧
        e = .refused (.mismatch "projection" ("src" ++ toString (n - 1)) 5.0 settings.roundTrip)) := by
  cases n with
  | zero => exact ⟨rfl, .inl rfl, h⟩
  | succ m =>
    rw [List.range'_1_concat, List.map_append, List.map_singleton, List.getLast?_concat, Nat.zero_add]
    refine (ends_checkBothWays hstrong hiter h hs hself).mono ?_ ?_
    · rintro _ net' ⟨rfl, hfive, h'⟩
      exact ⟨by omega, .inr hfive, h'⟩
    · rintro _ net' ⟨hfive, rfl⟩
      exact ⟨by simpa using hfive, rfl⟩

end Changes

theorem layout_empty {patience : Nat} :
    Layout 0 0 stay s o
      (((Network.empty patience).withVariable "scale" s).withVariable "offset" o) := by
  have hcon : ∀ c, (Network.empty patience).con c = { kind := .stay ⟨0⟩, strength := .weakest } :=
    fun _ => con_of_unknown (by simp [Network.empty])
  have hpaired : Paired 0 stay (.empty patience) :=
    { state := .empty
      consistent := consistent_empty
      rows := fun c ha => by simp [hcon] at ha
      present := fun i hi => absurd hi (Nat.not_lt_zero i)
      anchors := fun c v ha => by simp [hcon] at ha }
  refine ⟨hpaired.withVariable.withVariable, by simp, le_rfl, fun i hi => absurd hi (Nat.not_lt_zero i),
    fun i hi => ?_, ?_, ?_⟩
  · simp [source, Network.empty] at hi
    omega
  · rfl
  · rfl

/-! ## Room for the pairs -/

section Room

variable {count k size : Nat}

theorem placesFor_le (hk : 2 ≤ k) (h : count ≤ 2 ^ k) : placesFor count ≤ 2 ^ k := by
  have hfour : 4 ≤ 2 ^ k := Nat.pow_le_pow_right (by decide : 0 < 2) hk
  have hlog : (count - 1).log2 < k := by
    rcases Nat.eq_zero_or_pos (count - 1) with hzero | hpos
    · rw [hzero, Nat.log2_zero]
      omega
    · rw [Nat.log2_lt (by omega)]
      omega
  exact max_le hfour (Nat.pow_le_pow_right (by decide) hlog)

theorem le_placesFor (h : 2 ^ k < count) : 2 ^ (k + 1) ≤ placesFor count := by
  have hpos : 0 < 2 ^ k := Nat.two_pow_pos k
  have hlog : k ≤ (count - 1).log2 := (Nat.le_log2 (by omega)).2 (by omega)
  exact le_max_of_le_right (Nat.pow_le_pow_right (by decide) (by omega))

theorem exists_placesFor_eq (count : Nat) :
    ∃ k, 2 ≤ k ∧ placesFor count = 2 ^ k ∧ count ≤ 2 ^ k := by
  have hlt : count - 1 < 2 ^ ((count - 1).log2 + 1) := Nat.lt_log2_self
  rcases Nat.lt_or_ge ((count - 1).log2 + 1) 2 with hsmall | hlarge
  · have hle : 2 ^ ((count - 1).log2 + 1) ≤ 4 :=
      Nat.pow_le_pow_right (by decide : 0 < 2) (by omega : _ ≤ 2)
    exact ⟨2, le_rfl, max_eq_left hle, by omega⟩
  · have hle : 4 ≤ 2 ^ ((count - 1).log2 + 1) := Nat.pow_le_pow_right (by decide : 0 < 2) hlarge
    exact ⟨_, hlarge, max_eq_right hle, by omega⟩

/-- A new entry takes a free place, and if there is none the places double. -/
theorem placesFor_succ (count : Nat) : placesFor (count + 1) =
    if count < placesFor count then placesFor count else 2 * placesFor count := by
  obtain ⟨k, hk, heq, hle⟩ := exists_placesFor_eq count
  obtain ⟨k', hk', heq', hle'⟩ := exists_placesFor_eq (count + 1)
  rw [heq]
  split
  next hfree =>
    refine le_antisymm (placesFor_le hk hfree) ?_
    rw [← heq, heq']
    exact placesFor_le hk' (Nat.le_of_succ_le hle')
  next hfull =>
    have hpos : 0 < 2 ^ k := Nat.two_pow_pos k
    have hroom : count + 1 ≤ 2 ^ (k + 1) := by
      rw [Nat.pow_succ']
      omega
    rw [← Nat.pow_succ']
    exact le_antisymm (placesFor_le (by omega) hroom) (le_placesFor (by omega))

/-- It is the list of variables that is too large first. -/
theorem hasRoom_iff : hasRoom size = true ↔ size < 2 ^ 55 := by
  simp only [hasRoom, pairLists, List.all_cons, List.all_nil, Bool.and_true, Bool.and_eq_true,
    decide_eq_true_eq]
  constructor
  · rintro ⟨-, hvars, -, -⟩
    by_contra hsize
    have hplaces : 2 ^ 57 ≤ placesFor (2 + 2 * size) := le_placesFor (k := 56) (by omega)
    simp only [maxBytes] at hvars
    omega
  · intro hsize
    have hvars : placesFor (2 + 2 * size) ≤ 2 ^ 56 := placesFor_le (by decide) (by omega)
    have hcons : placesFor (2 * size + 4) ≤ 2 ^ 57 := placesFor_le (by decide) (by omega)
    have hlisted : placesFor (size + 1) ≤ 2 ^ 55 := placesFor_le (by decide) (by omega)
    simp only [maxBytes]
    omega

end Room

/-! ## The whole scenario -/

theorem ends_projection (patience : Nat)
    (hstrong : settings.editStrength.StrongerThan settings.stayStrength)
    (hiter : 1 ≤ settings.changeIterations) (hsize : settings.size < 2 ^ 55)
    (hs : (settings.scale == 0.0) = false) (hhalf : (settings.scale / 2.0 == 0.0) = false)
    (hself : (17.0 * settings.scale + settings.offset == 17.0 * settings.scale + settings.offset) = true)
    (hhalved : ∀ i < settings.size - 1,
      (Float.ofNat i * (settings.scale / 2.0) + settings.offset ==
        Float.ofNat i * (settings.scale / 2.0) + settings.offset) = true)
    (hdoubled : ∀ i < settings.size - 1,
      (Float.ofNat i * (settings.scale / 2.0) + settings.offset * 2.0 ==
        Float.ofNat i * (settings.scale / 2.0) + settings.offset * 2.0) = true) :
    Ends (projection settings) (.empty patience)
      (fun r _ => (settings.size = 0 ∨ (settings.roundTrip == 5.0) = true) ∧
        r = ⟨"projection", 2 + 2 * settings.size, 2 * settings.size, 2 * settings.size⟩)
      (fun e _ => ¬ (settings.size = 0 ∨ (settings.roundTrip == 5.0) = true) ∧
        e = .refused (.mismatch "projection" ("src" ++ toString (settings.size - 1)) 5.0
          settings.roundTrip)) := by
  have hstay : settings.stayStrength ≠ .required := by
    intro heq
    rw [heq] at hstrong
    exact Nat.not_lt_zero _ hstrong
  rw [projection, ends_bind, ends_solve_ok addVariable_eq, ends_bind, ends_solve_ok addVariable_eq]
  rw [if_neg (by rw [hasRoom_iff.2 hsize]; simp)]
  show Ends (addPairs settings factor offset 0 settings.size >>= _)
    (((Network.empty patience).withVariable "scale" settings.scale).withVariable "offset"
      settings.offset) _ _
  -- the pairs
  rw [ends_bind]
  refine (ends_addPairs hstay hs settings.size layout_empty rfl rfl).mono ?_ fun _ _ hf => hf.elim
  rintro _ net ⟨rfl, h⟩
  rw [Nat.zero_add] at h
  rw [ends_bind, ends_solve, ends_note, ends_bind]
  -- both ends of the last one
  refine (ends_checkLast hstrong hiter h.noted hs hself).mono ?_ fun _ _ hf => hf
  rintro checks net₁ ⟨hchecks, hfive, h₁⟩
  have hrest : ((List.range' 0 settings.size).map pair).dropLast =
      (List.range' 0 (settings.size - 1)).map pair := by
    cases settings.size with
    | zero => rfl
    | succ m => rw [List.range'_1_concat, List.map_append, List.map_singleton, List.dropLast_concat,
        Nat.add_sub_cancel]
  -- the scale and the offset
  rw [hrest, ends_bind]
  refine ends_changeTo hstrong hiter h₁ hs (v := factor) (by simp only [factor]; omega)
    (fun i _ => ⟨parameter_ne_source (by simp), parameter_ne_target (by simp)⟩) (fun _ => hhalf)
    fun {_ _ net₂} _ h₂ => ?_
  rw [if_pos rfl, if_neg (by simp [factor, offset])] at h₂
  rw [ends_bind]
  refine (ends_checkTargets h₂ hhalved _ (by omega)).mono ?_ fun _ _ hf => hf.elim
  rintro _ _ rfl
  rw [ends_bind]
  refine ends_changeTo hstrong hiter h₂ hhalf (v := offset) (by simp only [offset]; omega)
    (fun i _ => ⟨parameter_ne_source (by simp), parameter_ne_target (by simp)⟩)
    (fun heq => absurd heq (by simp [factor, offset])) fun {_ _ net₃} _ h₃ => ?_
  rw [if_neg (by simp [factor, offset]), if_pos rfl] at h₃
  rw [ends_bind]
  refine (ends_checkTargets h₃ hdoubled _ (by omega)).mono ?_ fun _ _ hf => hf.elim
  rintro _ _ rfl
  refine ⟨hfive, ?_⟩
  rw [List.length_map, List.length_range', hchecks]

/-- What comes of the projection scenario, for every number of pairs that fit into memory, every scale
that is not zero, nor is its half, every edit that is stronger than the stays and every positive number of
iterations, if the values that are expected compare equal to themselves. It is gone through exactly if
there are no pairs or if five is five again after it has been mapped and mapped back; otherwise the
source of the last pair is found to be what has become of the five. -/
theorem projection_outcome (settings : ProjectionSettings) (patience : Nat)
    (hsize : settings.size < 2 ^ 55)
    (hscale : (settings.scale == 0.0) = false) (hhalf : (settings.scale / 2.0 == 0.0) = false)
    (hstrong : settings.editStrength.StrongerThan settings.stayStrength)
    (hiter : 1 ≤ settings.changeIterations)
    (hself : (17.0 * settings.scale + settings.offset == 17.0 * settings.scale + settings.offset) = true)
    (hhalved : ∀ i < settings.size - 1,
      (Float.ofNat i * (settings.scale / 2.0) + settings.offset ==
        Float.ofNat i * (settings.scale / 2.0) + settings.offset) = true)
    (hdoubled : ∀ i < settings.size - 1,
      (Float.ofNat i * (settings.scale / 2.0) + settings.offset * 2.0 ==
        Float.ofNat i * (settings.scale / 2.0) + settings.offset * 2.0) = true) :
    ((settings.size = 0 ∨ (settings.roundTrip == 5.0) = true) →
      ∃ net, projection settings (.empty patience) =
        .ok ⟨"projection", 2 + 2 * settings.size, 2 * settings.size, 2 * settings.size⟩ net) ∧
    (¬ (settings.size = 0 ∨ (settings.roundTrip == 5.0) = true) →
      ∃ net, projection settings (.empty patience) =
        .error (.refused (.mismatch "projection" ("src" ++ toString (settings.size - 1)) 5.0
          settings.roundTrip)) net) := by
  have hends := ends_projection patience hstrong hiter hsize hscale hhalf hself hhalved hdoubled
  constructor
  · intro hfive
    obtain ⟨_, net, hrun, -, rfl⟩ :=
      (hends.mono (fun _ _ hok => hok) fun _ _ hf => hf.1 hfive).exists_ok
    exact ⟨net, hrun⟩
  · intro hfive
    obtain ⟨_, net, hrun, -, rfl⟩ :=
      (hends.mono (fun _ _ hok => hfive hok.1) fun _ _ hf => hf).exists_error
    exact ⟨net, hrun⟩

/-- An offset that is so large that adding five leaves it as it is: the source of the last pair comes back
as zero. -/
theorem projection_outcome_absorbed :
    (∃ net, projection ⟨3, 1.0, 1e17, .normal, .preferred, 2⟩ .empty =
      .error (.refused (.mismatch "projection" "src2" 5.0 0.0)) net) ∧
    ∃ net, projection ⟨3, 1.0, 1000.0, .normal, .preferred, 2⟩ .empty =
      .ok ⟨"projection", 8, 6, 6⟩ net := by
  have himage : ∀ {o : Float} {i : Nat}, o.isFinite = true →
      (Float.ofNat i * (1.0 / 2.0) + o == Float.ofNat i * (1.0 / 2.0) + o) = true := fun ho =>
    (isNumber_image (by decide +kernel) (by decide +kernel) ho).beq_self
  have hzero : ProjectionSettings.roundTrip ⟨3, 1.0, 1e17, .normal, .preferred, 2⟩ = 0.0 := by
    decide +kernel
  constructor
  · obtain ⟨net, hrun⟩ := (projection_outcome ⟨3, 1.0, 1e17, .normal, .preferred, 2⟩ _ (by decide)
      (by decide +kernel) (by decide +kernel) (by decide) (by decide) (by decide +kernel)
      (fun i _ => himage (by decide +kernel)) (fun i _ => himage (by decide +kernel))).2
      (by rw [hzero]; decide +kernel)
    rw [hzero] at hrun
    exact ⟨net, hrun⟩
  · exact (projection_outcome ⟨3, 1.0, 1000.0, .normal, .preferred, 2⟩ _ (by decide)
      (by decide +kernel) (by decide +kernel) (by decide) (by decide) (by decide +kernel)
      (fun i _ => himage (by decide +kernel)) (fun i _ => himage (by decide +kernel))).1
      (.inr (by decide +kernel))

/-- The settings that one has without asking for any, but with `2 ^ 59` pairs. -/
def crowdedSettings : ProjectionSettings := { size := 576460752303423488 }

/-- With `2 ^ 55` pairs or more the scenario does not come to the first one. This is so although all other
conditions are met and five is five again. -/
theorem projection_outOfRange :
    (∀ settings patience, 2 ^ 55 ≤ settings.size →
      ∃ net, projection settings (.empty patience) = .error .outOfRange net) ∧
    (crowdedSettings.scale == 0.0) = false ∧ (crowdedSettings.scale / 2.0 == 0.0) = false ∧
      crowdedSettings.editStrength.StrongerThan crowdedSettings.stayStrength ∧
      1 ≤ crowdedSettings.changeIterations ∧
      (17.0 * crowdedSettings.scale + crowdedSettings.offset ==
        17.0 * crowdedSettings.scale + crowdedSettings.offset) = true ∧
      (∀ i < crowdedSettings.size - 1,
        (Float.ofNat i * (crowdedSettings.scale / 2.0) + crowdedSettings.offset ==
          Float.ofNat i * (crowdedSettings.scale / 2.0) + crowdedSettings.offset) = true) ∧
      (∀ i < crowdedSettings.size - 1,
        (Float.ofNat i * (crowdedSettings.scale / 2.0) + crowdedSettings.offset * 2.0 ==
          Float.ofNat i * (crowdedSettings.scale / 2.0) + crowdedSettings.offset * 2.0) = true) ∧
      (crowdedSettings.roundTrip == 5.0) = true ∧
      ∃ net, projection crowdedSettings .empty = .error .outOfRange net := by
  have hfull : ∀ settings patience, 2 ^ 55 ≤ settings.size →
      ∃ net, projection settings (.empty patience) = .error .outOfRange net := by
    intro settings patience hsize
    have hroom : hasRoom settings.size = false :=
      Bool.eq_false_iff.2 fun h => Nat.not_lt.2 hsize (hasRoom_iff.1 h)
    have hends : Ends (projection settings) (.empty patience) (fun _ _ => False)
        (fun e _ => e = .outOfRange) := by
      rw [projection, ends_bind, ends_solve_ok addVariable_eq, ends_bind,
        ends_solve_ok addVariable_eq, if_pos hroom]
      exact rfl
    obtain ⟨_, net, hrun, rfl⟩ := hends.exists_error
    exact ⟨net, hrun⟩
  refine ⟨hfull, by decide +kernel, by decide +kernel, by decide, by decide, by decide +kernel,
    fun i _ => ?_, fun i _ => ?_, by decide +kernel, hfull _ _ (by decide)⟩
  · exact (isNumber_image (by decide +kernel) (by decide +kernel) (by decide +kernel)).beq_self
  · exact (isNumber_image (by decide +kernel) (by decide +kernel) (by decide +kernel)).beq_self

end Scenario

end ConstraintHierarchy
