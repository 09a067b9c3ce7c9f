import ConstraintHierarchy.Proofs.Temporary

/-!
# Rows of pairs

Pairs of a source and a target share a factor and an offset: a required scaling makes each target the
image of its source, and a stay holds each source. The factor and the offset are never computed, and a
target is computed by its scaling only, unless it is edited. So a scaling that computes its target goes on
doing so, and its source keeps its value, whatever happens to other pairs, to the factor or to the offset.

A temporary edit can turn the scaling of a pair around by editing its target. The source then gets the
value from which the target would come, and keeps it, although the scaling may turn back when the edit is
gone.

## Main definitions

* `Network.Rows`: every constraint of the graph is a stay, an edit or a scaling of one of the pairs
* `Network.Maps`: a pair whose scaling computes its target
* `Network.Paired`: the rows between two operations

## Main results

* `Network.Maps.of_leads`: a pair goes on mapping
* `Network.Paired.exists_changed`: a temporary edit leaves the rows as they are
* `Network.Paired.source_of_target`: the source after an edit of the target
-/

namespace ConstraintHierarchy

open Solve Network

/-! ## Positions -/

namespace Row

/-- The variable that all scalings multiply with. -/
def factor : VariableId := ⟨0⟩

/-- The variable that all scalings add. -/
def offset : VariableId := ⟨1⟩

def source (i : Nat) : VariableId := ⟨2 + 2 * i⟩

def target (i : Nat) : VariableId := ⟨3 + 2 * i⟩

/-- The constraint that relates the pair with number `i`. -/
def scaling (i : Nat) : ConstraintId := ⟨2 * i + 1⟩

def mapping (i : Nat) : Kind := .scale (source i) (target i) factor offset

variable {i j : Nat}

@[simp] theorem source_inj : source i = source j ↔ i = j := by
  simp [source]

@[simp] theorem target_inj : target i = target j ↔ i = j := by
  simp [target]

@[simp] theorem scaling_inj : scaling i = scaling j ↔ i = j := by
  simp [scaling]

@[simp] theorem source_ne_target : source i ≠ target j := by
  simp only [source, target, ne_eq, VariableId.mk.injEq]
  omega

@[simp] theorem target_ne_source : target i ≠ source j := source_ne_target.symm

/-- Neither the factor nor the offset belongs to a pair. -/
theorem parameter_notMem_outputs {p : VariableId} (hp : p ∈ [factor, offset]) :
    p ∉ (mapping i).outputs := by
  simp only [List.mem_cons, List.not_mem_nil, or_false] at hp
  rcases hp with rfl | rfl
  all_goals
    simp only [mapping, Kind.outputs, source, target, factor, offset, List.mem_cons,
      VariableId.mk.injEq, List.not_mem_nil, or_false]
    omega

theorem parameter_ne_source {p : VariableId} (hp : p ∈ [factor, offset]) : p ≠ source i := by
  rintro rfl
  exact parameter_notMem_outputs (i := i) hp (by simp [mapping, Kind.outputs])

theorem parameter_ne_target {p : VariableId} (hp : p ∈ [factor, offset]) : p ≠ target i := by
  rintro rfl
  exact parameter_notMem_outputs (i := i) hp (by simp [mapping, Kind.outputs])

/-- The target is the last variable that the scaling of a pair mentions. -/
theorem operands_mapping_lt {n : Nat} (h : (target i).index < n) :
    ∀ v ∈ (mapping i).operands, v.index < n := by
  simp only [target] at h
  simp only [mapping, Kind.operands, source, target, factor, offset, List.mem_cons, List.not_mem_nil,
    or_false]
  rintro v (rfl | rfl | rfl | rfl) <;> simp only <;> omega

end Row

namespace Network

open Row

variable {start net net' cur : Network} {n i : Nat} {c d : ConstraintId} {v p : VariableId} {x y : Float}
  {kind : Kind} {stay strength : Strength}

/-! ## The graph -/

/-- Every constraint of the graph is one of the first `n` scalings, or a stay or an edit. -/
def Rows (n : Nat) (net : Network) : Prop :=
  ∀ c, (net.con c).attached = true →
    (∃ i < n, c = scaling i ∧ (net.con c).kind = mapping i) ∨ ∃ v, (net.con c).kind.Anchors v

namespace Rows

theorem of_con (h : start.Rows n)
    (hcon : ∀ c, (net.con c).attached = true →
      (start.con c).attached = true ∧ (net.con c).kind = (start.con c).kind) : net.Rows n := by
  intro c ha
  rw [(hcon c ha).2]
  exact h c (hcon c ha).1

theorem of_leads (h : start.Rows n) (hl : Leads (fun _ => True) start net) : net.Rows n :=
  h.of_con fun _ ha => ⟨hl.attached ha, hl.kind⟩

theorem registered (h : net.Rows n) (hk : kind.Anchors v) : (net.registered kind strength).Rows n := by
  intro c ha
  by_cases hc : c = ⟨net.constraints.size⟩
  · rw [hc, registered_con_new]
    exact .inr ⟨v, hk⟩
  · rw [registered_con_of_ne hc] at ha ⊢
    exact h c ha

theorem registered_mapping (h : net.Rows n) (hcount : net.constraints.size = 2 * n + 1) :
    (net.registered (mapping n) strength).Rows (n + 1) := by
  intro c ha
  by_cases hc : c = ⟨net.constraints.size⟩
  · refine .inl ⟨n, Nat.lt_succ_self n, ?_, ?_⟩
    · rw [hc, hcount]
      rfl
    · rw [hc, registered_con_new]
  · rw [registered_con_of_ne hc] at ha ⊢
    exact (h c ha).imp_left fun ⟨i, hi, hrest⟩ => ⟨i, Nat.lt_succ_of_lt hi, hrest⟩

/-- The pairs hang on nothing, so that the graph is a forest. -/
theorem treeShaped (h : net.Rows n) : net.TreeShaped := by
  refine Rooted.treeShaped fun a _ ha => ⟨fun v _ hj => ?_, fun b _ hb => ?_⟩
  · obtain ⟨i, -, -, hk⟩ | ⟨w, hk | hk⟩ := h _ ha
    · rw [hk] at hj
      rcases hj with ⟨rfl, heq⟩ | ⟨rfl, heq⟩ <;> simp at heq
    · rw [hk] at hj
      exact hj
    · rw [hk] at hj
      exact hj
  obtain ⟨j, -, hbj, hkb⟩ | ⟨w, hkb⟩ := h _ hb
  · obtain ⟨i, -, hai, hka⟩ | ⟨w, hka⟩ := h _ ha
    · rw [hka, hkb]
      refine ⟨?_, .inr fun p hp => parameter_notMem_outputs hp⟩
      by_cases hij : i = j
      · rw [hij, ← hbj] at hai
        exact .inl (congrArg ConstraintId.index hai)
      · refine .inr (.inr ?_)
        simp only [mapping, Kind.newest?, source, target, ne_eq, Option.some.injEq]
        omega
    · rw [hkb]
      rcases hka with hka | hka
      all_goals
        rw [hka]
        exact ⟨.inr (.inr (by simp [mapping, Kind.newest?])), .inr (by simp [Kind.parameters])⟩
  · have hnone : (net.con ⟨b⟩).kind.newest? = none := by
      rcases hkb with hkb | hkb <;> rw [hkb] <;> rfl
    exact ⟨.inr (.inl hnone), .inl hnone⟩

/-- A satisfied constraint that has an input is a scaling and computes one end of its pair from the other
one. -/
theorem exists_scaling (h : net.Rows n) (hcoh : net.Coherent) (hs : (net.con c).isSatisfied = true)
    (hi : (net.con c).input ≠ none) :
    ∃ i < n, c = scaling i ∧ (net.con c).kind = mapping i := by
  refine (h c (hcoh.attached c hs)).resolve_right ?_
  rintro ⟨v, hk | hk⟩ <;> exact hi (by rw [Constraint.input, hk]; rfl)

/-- Nothing writes the factor and the offset. -/
theorem steady_parameter (h : net.Rows n) (hcoh : net.Coherent) (hp : p ∈ [factor, offset]) :
    net.Steady p := by
  intro d hs ho
  by_contra hi
  obtain ⟨i, -, -, hk⟩ := h.exists_scaling hcoh hs hi
  refine parameter_notMem_outputs (i := i) hp ?_
  rw [← ho, ← hk]
  exact Kind.output_mem_outputs

/-- A source without a scaling is written by nothing. -/
theorem steady_source_of_le (h : net.Rows n) (hcoh : net.Coherent) (hi : n ≤ i) :
    net.Steady (source i) := by
  intro d hs ho
  by_contra hin
  obtain ⟨j, hj, -, hk⟩ := h.exists_scaling hcoh hs hin
  have hmem : source i ∈ (mapping j).outputs := by
    rw [← ho, ← hk]
    exact Kind.output_mem_outputs
  have hij : i = j := by simpa [mapping, Kind.outputs] using hmem
  omega

/-- A source is written by its scaling only, and not as long as that computes the target. -/
theorem steady_source (h : net.Rows n) (hcoh : net.Coherent)
    (hforward : (net.con (scaling i)).isSatisfied = true →
      (net.con (scaling i)).flow = some .forward) : net.Steady (source i) := by
  intro d hs ho
  by_contra hi
  obtain ⟨j, -, rfl, hk⟩ := h.exists_scaling hcoh hs hi
  have hflow : (net.con (scaling j)).flow = some .forward := by
    by_cases hij : i = j
    · exact hij ▸ hforward (hij ▸ hs)
    · obtain ⟨flow, hflow⟩ := Option.isSome_iff_exists.1 hs
      cases flow with
      | forward => exact hflow
      | backward =>
        have hout : (net.con (scaling j)).output = source j := by
          rw [Constraint.output, hk, hflow]
          rfl
        exact absurd (source_inj.1 (ho.symm.trans hout)) hij
  have hout : (net.con (scaling j)).output = target j := by
    rw [Constraint.output, hk, hflow]
    rfl
  exact source_ne_target (ho.symm.trans hout)

/-- Only the scalings divide, all of them by the factor. -/
theorem compute_ne_none (h : net.Rows n) (hf : (net.value factor == 0.0) = false)
    (ha : (net.con d).attached = true) : (net.con d).compute net.value ≠ none := by
  obtain ⟨i, -, -, hk⟩ | ⟨v, hk | hk⟩ := h d ha
  · simp only [Constraint.compute, hk, mapping]
    split <;> simp [hf]
  · simp [Constraint.compute, hk]
  · simp [Constraint.compute, hk]

/-- Along changes, the factor and the offset are constant. -/
theorem parameter_eq (h : start.Rows n) (hcoh : start.Coherent)
    (hl : Leads (fun _ => True) start net) (hp : p ∈ [factor, offset]) :
    net.value p = start.value p :=
  hl.value_eq hcoh fun hmid => (h.of_leads hmid).steady_parameter (hmid.coherent hcoh) hp

/-- They are the same after a constraint has been added. -/
theorem parameter_added (h : (net.registered kind strength).Rows n) (hcoh : net.Coherent)
    (hk : ∀ v ∈ kind.operands, v.index < net.vars.size) (hadded : Added net kind strength net')
    (hp : p ∈ [factor, offset]) : net'.value p = net.value p :=
  hadded.value_eq hcoh hk fun hl =>
    (h.of_leads hl).steady_parameter (hl.coherent (hcoh.registered hk)) hp

/-- Along changes, nothing is divided by zero if the factor is not zero. -/
theorem compute_of_leads (h : start.Rows n) (hcoh : start.Coherent)
    (hf : (start.value factor == 0.0) = false) (hl : Leads (fun _ => True) start net)
    (hs : (net.con d).isSatisfied = true) : (net.con d).compute net.value ≠ none := by
  refine (h.of_leads hl).compute_ne_none ?_ ((hl.coherent hcoh).attached d hs)
  rw [h.parameter_eq hcoh hl (by simp)]
  exact hf

end Rows

/-! ## Pairs that map -/

/-- The scaling of the pair with number `i` computes the target, nothing else can, and the source has the
value `x`. -/
structure Maps (i : Nat) (x : Float) (net : Network) : Prop where
  kind : (net.con (scaling i)).kind = mapping i
  forward : (net.con (scaling i)).flow = some .forward
  free : ∀ c, (net.con c).attached = true → ¬ (net.con c).kind.Anchors (target i)
  value : net.value (source i) = x

namespace Maps

theorem satisfied (h : net.Maps i x) : (net.con (scaling i)).isSatisfied = true := by
  rw [Constraint.isSatisfied, h.forward]
  rfl

theorem output (h : net.Maps i x) : (net.con (scaling i)).output = target i := by
  rw [Constraint.output, h.kind, h.forward]
  rfl

/-- Only the scaling can compute the target. -/
theorem sole (h : net.Maps i x) (hrows : net.Rows n) (ha : (net.con d).attached = true)
    (ho : target i ∈ (net.con d).kind.outputs) : d = scaling i := by
  obtain ⟨j, -, rfl, hk⟩ | ⟨v, hk⟩ := hrows d ha
  · rw [hk] at ho
    have hij : i = j := by simpa [mapping, Kind.outputs] using ho
    rw [hij]
  · have hv : v = target i := by
      rcases hk with hk | hk <;> rw [hk] at ho <;> exact (List.mem_singleton.1 ho).symm
    exact absurd (hv ▸ hk) (h.free d ha)

theorem flow_of_leads (h : start.Maps i x) (hrows : start.Rows n) (hcoh : start.Coherent)
    (hl : Leads (fun _ => True) start net) (ha : (net.con (scaling i)).attached = true) :
    (net.con (scaling i)).flow = some .forward := by
  rw [hl.flow_eq hcoh h.satisfied (fun d hd ho => h.sole hrows hd (h.output ▸ ho)) ha]
  exact h.forward

theorem steady_of_leads (h : start.Maps i x) (hrows : start.Rows n) (hcoh : start.Coherent)
    (hl : Leads (fun _ => True) start net) : net.Steady (source i) :=
  (hrows.of_leads hl).steady_source (hl.coherent hcoh) fun hs =>
    h.flow_of_leads hrows hcoh hl ((hl.coherent hcoh).attached _ hs)

/-- A pair goes on mapping as long as its scaling is in the graph. -/
theorem of_leads (h : start.Maps i x) (hrows : start.Rows n) (hcoh : start.Coherent)
    (hl : Leads (fun _ => True) start net) (ha : (net.con (scaling i)).attached = true) :
    net.Maps i x where
  kind := hl.kind.trans h.kind
  forward := h.flow_of_leads hrows hcoh hl ha
  free c hc := by
    rw [hl.kind]
    exact h.free c (hl.attached hc)
  value := by
    rw [hl.value_eq hcoh (h.steady_of_leads hrows hcoh), h.value]

/-- Another constraint is registered, and it is not an anchor of the target. -/
theorem registered (h : net.Maps i x) (hk : ∀ v ∈ kind.operands, v.index < net.vars.size)
    (hfree : ¬ kind.Anchors (target i)) : (net.registered kind strength).Maps i x := by
  have hne : scaling i ≠ ⟨net.constraints.size⟩ := by
    intro heq
    have hlt := known_of_isSatisfied h.satisfied
    rw [heq] at hlt
    exact Nat.lt_irrefl _ hlt
  refine ⟨?_, ?_, fun c ha => ?_, ?_⟩
  · rw [registered_con_of_ne hne, h.kind]
  · rw [registered_con_of_ne hne, h.forward]
  · by_cases hc : c = ⟨net.constraints.size⟩
    · rw [hc, registered_con_new]
      exact hfree
    · rw [registered_con_of_ne hc] at ha ⊢
      exact h.free c ha
  · rw [Network.value, registered_var hk]
    exact h.value

end Maps

/-- A source that has been computed from its target keeps its value. The scaling may turn; but as long as
it does not compute the target, the target has its value, too. -/
theorem Rows.source_of_leads (h : start.Rows n) (hcoh : start.Coherent)
    (hkind : (start.con (scaling i)).kind = mapping i)
    (hfree : ∀ c, (start.con c).attached = true → ¬ (start.con c).kind.Anchors (target i))
    (hsource : start.value (source i) =
      (start.value (target i) - start.value offset) / start.value factor)
    (hl : Leads (fun _ => True) start net) : net.value (source i) = start.value (source i) := by
  have hkept : Kept (fun _ => True) start fun con value =>
      value (source i) = start.value (source i) ∧
        ((con (scaling i)).attached = true → (con (scaling i)).flow ≠ some .forward →
          value (target i) = start.value (target i)) :=
    { init := ⟨rfl, fun _ _ => rfl⟩
      takeOver := by
        rintro mid mark d flow hl - had hud - ⟨hx, hy⟩
        refine ⟨hx, fun ha hflow => ?_⟩
        rw [keeps_takenOver.attached] at ha
        refine hy ha fun hforward => hflow ?_
        -- a target that is computed is not taken over
        have hm : mid.Maps i (mid.value (source i)) := by
          refine ⟨hl.kind.trans hkind, hforward, fun c hc => ?_, rfl⟩
          rw [hl.kind]
          exact hfree c (hl.attached hc)
        rw [takenOver_con_of_sole (hl.coherent hcoh) hm.satisfied hud
          fun ho => hm.sole (h.of_leads hl) had (hm.output ▸ ho), hforward]
      compute := by
        rintro mid d x hl - hs hx ⟨hsrc, htgt⟩
        by_cases hin : (mid.con d).input = none
        · have hholds : mid.Holds d := holds_of_input_none hin
          rw [Holds, hx, Option.some.injEq] at hholds
          rw [hholds, Function.update_eq_self]
          exact ⟨hsrc, htgt⟩
        obtain ⟨j, -, rfl, hk⟩ := (h.of_leads hl).exists_scaling (hl.coherent hcoh) hs hin
        obtain ⟨flow, hflow⟩ := Option.isSome_iff_exists.1 hs
        have ha := (hl.coherent hcoh).attached _ hs
        cases flow with
        | forward =>
          have hout : (mid.con (scaling j)).output = target j := by
            rw [Constraint.output, hk, hflow]
            rfl
          rw [hout, Function.update_of_ne source_ne_target]
          refine ⟨hsrc, fun hai hne => ?_⟩
          have hij : target i ≠ target j := by
            rw [ne_eq, target_inj]
            rintro rfl
            exact hne hflow
          rw [Function.update_of_ne hij]
          exact htgt hai hne
        | backward =>
          have hout : (mid.con (scaling j)).output = source j := by
            rw [Constraint.output, hk, hflow]
            rfl
          rw [hout, Function.update_of_ne target_ne_source]
          refine ⟨?_, htgt⟩
          by_cases hij : i = j
          · subst hij
            rw [Function.update_self, hsource, ← htgt ha (by simp [hflow]),
              ← h.parameter_eq hcoh hl (p := offset) (by simp),
              ← h.parameter_eq hcoh hl (p := factor) (by simp)]
            simp only [Constraint.compute, hk, mapping, hflow] at hx
            simpa using (Option.ite_none_left_eq_some.1 hx).2.symm
          · rw [Function.update_of_ne (by simpa using hij)]
            exact hsrc
      detach := by
        rintro mid d hl - had ⟨hx, hy⟩
        refine ⟨hx, fun ha hflow => ?_⟩
        have hne : scaling i ≠ d := ne_of_detached_attached (known_of_attached had) ha
        rw [detached_con_of_ne hne] at ha hflow
        exact hy ha hflow }
  exact (hkept.holds hcoh hl).1

/-! ## Between two operations -/

/-- The rows after an operation: all scalings are there, and beside them only stays of the given strength,
all of them on sources. -/
structure Paired (n : Nat) (stay : Strength) (net : Network) : Prop where
  state : net.TreeState
  consistent : net.Consistent
  rows : net.Rows n
  present : ∀ i < n, net.Has (scaling i) (mapping i) .required
  anchors : ∀ c v, (net.con c).attached = true → (net.con c).kind.Anchors v →
    (net.con c).kind = .stay v ∧ (net.con c).strength = stay ∧ ∃ i, v = source i

namespace Paired

theorem coherent (h : Paired n stay net) : net.Coherent := h.state.coherent

theorem free (h : Paired n stay net) (ha : (net.con c).attached = true) :
    ¬ (net.con c).kind.Anchors (target i) := by
  intro hk
  obtain ⟨-, -, j, heq⟩ := h.anchors c _ ha hk
  exact target_ne_source heq

theorem scaling_ne_new (h : Paired n stay net) (hi : i < n) :
    scaling i ≠ ⟨net.constraints.size⟩ := by
  intro heq
  have hlt := (h.present i hi).known
  rw [heq] at hlt
  exact Nat.lt_irrefl _ hlt

theorem isInput_eq_false (h : Paired n stay net) (ha : (net.con c).attached = true) :
    (net.con c).isInput = false := by
  rw [Constraint.isInput]
  obtain ⟨i, -, -, hk⟩ | ⟨v, hk⟩ := h.rows c ha
  · rw [hk]
    rfl
  · rw [(h.anchors c v ha hk).1]
    rfl

/-- Without an edit everything stays, and so every method has been executed. -/
theorem holds (h : Paired n stay net) (hs : (net.con c).isSatisfied = true) : net.Holds c := by
  have hset := h.state.solution.settled
  refine h.consistent.agreeing.agrees _ c (hset.coherent.determinedBy_output hs) ?_
  exact hset.stay_of_no_inputs h.state.ordered.acyclic fun d hd =>
    h.isInput_eq_false (hset.coherent.attached d hd)

/-- The target of a pair that maps is the image of its source. -/
theorem image (h : Paired n stay net) (hm : net.Maps i x) :
    net.value (target i) = x * net.value factor + net.value offset := by
  have hholds := h.holds hm.satisfied
  rw [Holds, hm.output] at hholds
  simp only [Constraint.compute, hm.kind, mapping, hm.forward, if_true, Option.some.injEq] at hholds
  rw [← hholds, hm.value]

/-- Nothing carries more than the stays have. -/
theorem strongerThan (h : Paired n stay net) (hstrong : strength.StrongerThan stay) :
    strength.StrongerThan (net.var v).walkStrength := by
  have hrank : stay.rank ≤ (net.var v).walkStrength.rank :=
    h.state.solution.rank_le_walkStrength fun c w ha hk => by rw [(h.anchors c w ha hk).2.1]
  exact Nat.lt_of_lt_of_le hstrong hrank

/-- The rows are the same if the graph is, whatever methods have been chosen. -/
theorem of_graph (h : Paired n stay net) (hstate : net'.TreeState) (hcons : net'.Consistent)
    (hgraph : net'.graph = net.graph) (hevolves : Evolves net net') : Paired n stay net' := by
  have hattached : ∀ c, (net'.con c).attached = true ↔ (net.con c).attached = true :=
    fun c => Set.ext_iff.1 hgraph c
  have hkind : ∀ c, (net.con c).attached = true → (net'.con c).kind = (net.con c).kind :=
    fun c ha => hevolves.kind c (known_of_attached ha)
  have hstrength : ∀ c, (net.con c).attached = true →
      (net'.con c).strength = (net.con c).strength :=
    fun c ha => hevolves.strength c (known_of_attached ha)
  refine ⟨hstate, hcons, h.rows.of_con fun c ha => ?_, fun i hi => ?_, fun c v ha => ?_⟩
  · rw [hattached] at ha
    exact ⟨ha, hkind c ha⟩
  · obtain ⟨ha, hk, hs⟩ := h.present i hi
    exact ⟨(hattached _).2 ha, (hkind _ ha).trans hk, (hstrength _ ha).trans hs⟩
  · rw [hattached] at ha
    rw [hkind c ha, hstrength c ha]
    exact h.anchors c v ha

/-- A temporary edit that is stronger than the stays leaves the rows as they are. -/
theorem exists_changed (h : Paired n stay net) (hv : v.index < net.vars.size)
    (hstrong : strength.StrongerThan stay) (hf : (net.value factor == 0.0) = false)
    (hx : v = factor → (x == 0.0) = false) (k : Nat) :
    ∃ edited cur net', change v x strength (k + 1) net = .ok () net' ∧
      Changed net v x strength edited cur net' ∧ Paired n stay net' := by
  have hk := Kind.operands_edit_lt hv
  have hstrong' : strength.StrongerThan (net.var v).walkStrength := h.strongerThan hstrong
  have hrows : (net.registered (.edit v) strength).Rows n := h.rows.registered (.inr rfl)
  have hcoh : (net.registered (.edit v) strength).Coherent := h.coherent.registered hk
  have hfactor : (net.registered (.edit v) strength).value factor = net.value factor := by
    rw [value, registered_var hk, value]
  -- the factor is not zero, before and after the value has been fed in
  have hcur : ∀ {edited cur : Network}, Added net (.edit v) strength edited → cur.con = edited.con →
      edited.Fed v x cur.value → cur.Rows n ∧ (cur.value factor == 0.0) = false := by
    intro edited cur hadded hcon hfed
    have hedited : edited.Rows n := hrows.of_leads hadded.leads
    refine ⟨hedited.of_con fun c ha => ?_, ?_⟩
    · rw [hcon] at ha ⊢
      exact ⟨ha, rfl⟩
    · by_cases hvf : factor = v
      · rw [hvf, hfed.new]
        exact hx hvf.symm
      · have hsteady := hedited.steady_parameter (p := factor) hadded.state.coherent
          (by simp)
        rw [hfed.steady factor hvf hsteady, hrows.parameter_added h.coherent hk hadded (by simp)]
        exact hf
  obtain ⟨edited, cur, net', hchange, hc⟩ := h.state.exists_changed (x := x) hv hstrong'
    (fun hl d hs => hrows.compute_of_leads hcoh (hfactor ▸ hf) hl hs)
    (fun hadded hcon hfed d hs => by
      obtain ⟨hrows', hf'⟩ := hcur hadded hcon hfed
      rw [hcon] at hs
      have ha := hadded.state.coherent.attached d hs
      exact hrows'.compute_ne_none hf' (by rwa [hcon]))
    (fun hadded hquiet hfed hl d hs => by
      obtain ⟨hrows', hf'⟩ := hcur hadded hquiet.con hfed
      have hcoh' := hadded.state.coherent.of_sameGraph hquiet.toSameGraph
      exact hrows'.compute_of_leads hcoh' hf' hl hs) k
  have hcareful : (Request.change v x strength (k + 1)).Careful net [] := by
    intro y hy
    obtain ⟨-, rfl⟩ := getVariable?_eq_some.1 hy
    exact hstrong'
  have hperform : (Request.change v x strength (k + 1)).perform net = .ok () net' := hchange
  exact ⟨edited, cur, net', hchange, hc, h.of_graph hc.state
    ((h.consistent.ends_change hcareful).of_ok hchange) hc.graph
    ((ends_perform_follows _ (.refl h.state.regular)).of_ok hperform).toEvolves⟩

/-! ## What a temporary edit does to the values -/

section Changed

variable {edited : Network}

theorem rows_edited (h : Paired n stay net) (hc : Changed net v x strength edited cur net') :
    edited.Rows n :=
  (h.rows.registered (.inr rfl)).of_leads hc.added.leads

theorem rows_dismissed (h : Paired n stay net) (hc : Changed net v x strength edited cur net') :
    (cur.dismissed ⟨net.constraints.size⟩).Rows n := by
  refine (h.rows_edited hc).of_con fun c ha => ?_
  have hcon := (hc.con_dismissed ha).2
  rw [hcon] at ha ⊢
  exact ⟨ha, rfl⟩

/-- The factor and the offset keep their values while something else is edited. -/
theorem parameter_cur (h : Paired n stay net) (hc : Changed net v x strength edited cur net')
    (hv : v.index < net.vars.size) (hp : p ∈ [factor, offset]) (hne : p ≠ v) :
    cur.value p = net.value p := by
  have hk := Kind.operands_edit_lt hv
  have hsteady := (h.rows_edited hc).steady_parameter hc.added.state.coherent hp
  have hrows : (net.registered (.edit v) strength).Rows n := h.rows.registered (.inr rfl)
  rw [hc.fed.steady p hne hsteady, hrows.parameter_added h.coherent hk hc.added hp]

/-- They have the values that they are left with. -/
theorem parameter_left (h : Paired n stay net) (hc : Changed net v x strength edited cur net')
    (hp : p ∈ [factor, offset]) : net'.value p = cur.value p :=
  hc.value_left fun hl =>
    ((h.rows_dismissed hc).of_leads hl).steady_parameter (hl.coherent hc.coherent_dismissed) hp

theorem parameter_changed (h : Paired n stay net) (hc : Changed net v x strength edited cur net')
    (hv : v.index < net.vars.size) (hp : p ∈ [factor, offset]) :
    net'.value p = if p = v then x else net.value p := by
  rw [h.parameter_left hc hp]
  split
  next heq => rw [heq, hc.fed.new]
  next hne => rw [h.parameter_cur hc hv hp hne]

theorem maps_edited (h : Paired n stay net) (hc : Changed net v x strength edited cur net')
    (hv : v.index < net.vars.size) (hm : net.Maps i y) (hne : v ≠ target i) : edited.Maps i y := by
  have hk := Kind.operands_edit_lt hv
  have hfree : ¬ (Kind.edit v).Anchors (target i) := by
    rintro (heq | heq)
    · cases heq
    · exact hne (Kind.edit.inj heq)
  have hreg : (net.registered (.edit v) strength).Maps i y := hm.registered hk hfree
  refine hreg.of_leads (h.rows.registered (.inr rfl)) (h.coherent.registered hk) hc.added.leads ?_
  rw [hc.added.keeps.attached]
  exact (h.coherent.registered hk).attached _ hreg.satisfied

/-- A pair that maps goes on mapping if its target is not edited. -/
theorem maps_changed (h : Paired n stay net) (h' : Paired n stay net')
    (hc : Changed net v x strength edited cur net') (hv : v.index < net.vars.size) (hi : i < n)
    (hm : net.Maps i y) (hne : v ≠ target i) : net'.Maps i (cur.value (source i)) := by
  have hedited := h.maps_edited hc hv hm hne
  have hne' : scaling i ≠ ⟨net.constraints.size⟩ := h.scaling_ne_new hi
  have hleft : (cur.dismissed ⟨net.constraints.size⟩).Maps i (cur.value (source i)) := by
    refine ⟨?_, ?_, fun c ha => ?_, ?_⟩
    · rw [dismissed_con_of_ne hne', hc.quiet.con, hedited.kind]
    · rw [dismissed_con_of_ne hne', hc.quiet.con, hedited.forward]
    · have hcon := (hc.con_dismissed ha).2
      rw [hcon] at ha ⊢
      exact hedited.free c ha
    · rw [hc.value_dismissed]
  exact hleft.of_leads (h.rows_dismissed hc) hc.coherent_dismissed hc.leads (h'.present i hi).attached

/-- Its source keeps its value unless it is edited itself. -/
theorem source_cur (h : Paired n stay net) (hc : Changed net v x strength edited cur net')
    (hv : v.index < net.vars.size) (hm : net.Maps i y) (hne : v ≠ target i)
    (hsource : source i ≠ v) : cur.value (source i) = y := by
  have hedited := h.maps_edited hc hv hm hne
  have hcoh := hc.added.state.coherent
  rw [hc.fed.steady _ hsource ((h.rows_edited hc).steady_source hcoh fun _ => hedited.forward),
    hedited.value]

/-- The edit that is there for the time being is the only one. -/
theorem eq_of_isInput (h : Paired n stay net) (hc : Changed net v x strength edited cur net')
    (hs : (edited.con d).isSatisfied = true) (hi : (edited.con d).isInput = true) :
    d = ⟨net.constraints.size⟩ := by
  by_contra hne
  have ha := hc.added.state.coherent.attached d hs
  rw [hc.added.attached_of_ne hne] at ha
  rw [Constraint.isInput, hc.added.kind_of_ne hne] at hi
  have hno := h.isInput_eq_false ha
  rw [Constraint.isInput, hi] at hno
  cases hno

/-- The factor and the offset are computed by nothing but an edit. -/
theorem parameter_undetermined (h : Paired n stay net)
    (hc : Changed net v x strength edited cur net') (hp : p ∈ [factor, offset]) (hne : p ≠ v) :
    (edited.var p).determinedBy = none := by
  have hcoh := hc.added.state.coherent
  rw [Option.eq_none_iff_forall_ne_some]
  intro d hdet
  obtain ⟨hs, ho⟩ := (hcoh.determines p d).1 hdet
  have ha := hcoh.attached d hs
  obtain ⟨i, -, -, hk⟩ | ⟨w, hk⟩ := h.rows_edited hc d ha
  · refine parameter_notMem_outputs (i := i) hp ?_
    rw [← hk, ← ho]
    exact Kind.output_mem_outputs
  · have hw : w = p := by
      rw [← ho, Constraint.output]
      rcases hk with hk | hk <;> rw [hk] <;> rfl
    by_cases hd : d = ⟨net.constraints.size⟩
    · rw [hw, hd, hc.added.has_new.kind] at hk
      rcases hk with hk | hk
      · cases hk
      · exact hne (Kind.edit.inj hk).symm
    · rw [hc.added.attached_of_ne hd] at ha
      rw [hw, hc.added.kind_of_ne hd] at hk
      obtain ⟨-, -, j, heq⟩ := h.anchors d p ha hk
      exact parameter_ne_source hp heq

/-- While the target is edited, the scaling computes the source. -/
theorem turned (h : Paired n stay net) (hc : Changed net (target i) x strength edited cur net')
    (hi : i < n) :
    (edited.con (scaling i)).flow = some .backward ∧ edited.Moving (scaling i) := by
  have hset := hc.added.state.solution.settled
  have hhas := hc.added.has (h.present i hi)
  have hs : (edited.con (scaling i)).isSatisfied = true :=
    hc.added.state.solution.required _ hhas.attached hhas.strength
  have hflow : (edited.con (scaling i)).flow = some .backward := by
    obtain ⟨flow, hflow⟩ := Option.isSome_iff_exists.1 hs
    cases flow with
    | backward => exact hflow
    | forward =>
      have hout : (edited.con (scaling i)).output = target i := by
        rw [Constraint.output, hhas.kind, hflow]
        rfl
      have hdet := hc.rules
      rw [(hset.coherent.determines _ _).2 ⟨hs, hout⟩, Option.some.injEq] at hdet
      exact absurd hdet (h.scaling_ne_new hi)
  obtain ⟨hsat, hout⟩ := (hset.coherent.determines _ _).1 hc.rules
  have hedit : (edited.con ⟨net.constraints.size⟩).isInput = true := by
    rw [Constraint.isInput, hc.added.has_new.kind]
    rfl
  refine ⟨hflow, hset.moving_of_reads hs (v := target i) (Constraint.mem_reads.2 (.inl ?_)) ?_⟩
  · rw [Constraint.input, hhas.kind, hflow]
    rfl
  · exact hout ▸ (hset.moving_of_isInput hsat hedit).2

/-- Feeding a value in at the target makes the source the number from which the value would come. -/
theorem source_cur_of_target (h : Paired n stay net)
    (hc : Changed net (target i) x strength edited cur net') (hi : i < n)
    (hv : (target i).index < net.vars.size) (hf : (net.value factor == 0.0) = false) :
    cur.value (source i) = (x - net.value offset) / net.value factor := by
  obtain ⟨hflow, hmoving⟩ := h.turned hc hi
  have hkind := (hc.added.has (h.present i hi)).kind
  have hne : ∀ {p}, p ∈ [factor, offset] → p ≠ target i := parameter_ne_target
  have hholds : cur.Holds (scaling i) := by
    refine hc.holds (fun d hs hi => h.eq_of_isInput hc hs hi) _ hmoving fun p hp => ?_
    rw [hkind] at hp
    exact h.parameter_undetermined hc hp (hne hp)
  have hfactor : cur.value factor = net.value factor :=
    h.parameter_cur hc hv (by simp) (hne (by simp))
  have hoffset : cur.value offset = net.value offset :=
    h.parameter_cur hc hv (by simp) (hne (by simp))
  have hout : (cur.con (scaling i)).output = source i := by
    rw [hc.quiet.con, Constraint.output, hkind, hflow]
    rfl
  rw [Holds, hout, hc.quiet.con] at hholds
  simp only [Constraint.compute, hkind, mapping, hflow, hfactor, hoffset, hc.fed.new, hf] at hholds
  simpa using hholds.symm

/-- When the edit is gone, the source keeps this number. -/
theorem source_of_target (h : Paired n stay net)
    (hc : Changed net (target i) x strength edited cur net') (hi : i < n)
    (hv : (target i).index < net.vars.size) (hf : (net.value factor == 0.0) = false) :
    net'.value (source i) = (x - net.value offset) / net.value factor := by
  have hcur := h.source_cur_of_target hc hi hv hf
  have hkind : ((cur.dismissed ⟨net.constraints.size⟩).con (scaling i)).kind = mapping i := by
    rw [dismissed_con_of_ne (h.scaling_ne_new hi), hc.quiet.con,
      (hc.added.has (h.present i hi)).kind]
  have hfree : ∀ c, ((cur.dismissed ⟨net.constraints.size⟩).con c).attached = true →
      ¬ ((cur.dismissed ⟨net.constraints.size⟩).con c).kind.Anchors (target i) := by
    intro c ha
    obtain ⟨hne, hcon⟩ := hc.con_dismissed ha
    rw [hcon, hc.added.attached_of_ne hne] at ha
    rw [hcon, hc.added.kind_of_ne hne]
    exact h.free ha
  have hsource : cur.value (source i) =
      (cur.value (target i) - cur.value offset) / cur.value factor := by
    rw [hc.fed.new, hcur, h.parameter_cur hc hv (by simp) (parameter_ne_target (by simp)),
      h.parameter_cur hc hv (by simp) (parameter_ne_target (by simp))]
  rw [← hc.value_dismissed] at hsource
  rw [(h.rows_dismissed hc).source_of_leads hc.coherent_dismissed hkind hfree hsource hc.leads,
    hc.value_dismissed, hcur]

end Changed

end Paired

end Network

end ConstraintHierarchy
