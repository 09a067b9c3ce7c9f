import ConstraintHierarchy.Proofs.Agreement
import ConstraintHierarchy.Proofs.Scenarios

/-!
# The chain scenario

Required equalities join the variables of the chain, a stay holds the last one and an edit the first. All
that the strengths of the two decide is which end prevails. If it is the edit, then every equality
computes the later of its variables, the plan goes through all of them and each number that is fed in
comes out at the end. If it is the stay, then the edit has no method and the plan is empty, so that
the last variable keeps the value with which it came; the first number is just that value, and the second
is not. A chain of one variable needs no plan.

## Main definitions

* `Network.Chained`: the state of the network while the chain is built
* `Network.Carries`: executing a plan brings the value of one variable to another

## Main results

* `Network.Wired.forward`: an edit of the first variable turns all equalities forward
* `Scenario.chain_outcome`: what comes of the scenario
-/

namespace ConstraintHierarchy

open Solve Network

/-- A constraint without parameters never divides, and what it computes is a value that is there. -/
theorem Constraint.compute_of_plain {k : Constraint} {value : VariableId → Float}
    (h : k.kind.parameters = []) : ∃ v, k.compute value = some (value v) := by
  unfold compute
  cases hk : k.kind with
  | stay v => exact ⟨v, rfl⟩
  | edit v => exact ⟨v, rfl⟩
  | equal a b =>
    by_cases hf : k.flow = some .forward
    · exact ⟨a, by simp [hf]⟩
    · exact ⟨b, by simp [hf]⟩
  | scale a b factor offset => simp [hk, Kind.parameters] at h

namespace Network

variable {net net' : Network} {n m : Nat} {kind : Kind} {strength : Strength}

/-! ## Building the chain -/

/-- A row of required equalities is a forest. -/
theorem rooted_of_links (hcount : net.constraints.size = n)
    (hkind : ∀ i < n, (net.con ⟨i⟩).kind = .equal ⟨i⟩ ⟨i + 1⟩) : net.Rooted := by
  intro i hi _
  rw [hcount] at hi
  refine ⟨fun v _ hj => ?_, fun j hj _ => ?_⟩
  · rw [hkind i hi] at hj
    rcases hj with ⟨rfl, heq⟩ | ⟨rfl, heq⟩ <;> simp at heq
  · rw [hcount] at hj
    rw [hkind i hi, hkind j hj]
    refine ⟨?_, .inr fun p hp => nomatch hp⟩
    by_cases hij : i = j
    · exact .inl hij
    · refine .inr (.inr ?_)
      simp only [Kind.newest?, ne_eq, Option.some.injEq]
      omega

/-- The network has `m` variables, all zero, and a chain of `n` required equalities. -/
structure Chained (n m : Nat) (net : Network) : Prop where
  state : net.TreeState
  variableCount : net.vars.size = m
  link : ∀ i < n, net.Has ⟨i⟩ (.equal ⟨i⟩ ⟨i + 1⟩) .required
  plain : ∀ c, (net.con c).kind.parameters = []
  zero : ∀ v, net.value v = 0
  name : ∀ i < m, (net.var ⟨i⟩).name = "v" ++ toString i

theorem plain_of_leads {start : Network} (hplain : ∀ c, (start.con c).kind.parameters = [])
    (h : Leads (fun _ => True) start net) (c : ConstraintId) :
    (net.con c).kind.parameters = [] := by
  rw [h.kind]
  exact hplain c

/-- Without parameters, values are only copied. -/
theorem zero_of_leads {start : Network} (hplain : ∀ c, (start.con c).kind.parameters = [])
    (hcoh : start.Coherent) (hzero : ∀ v, start.value v = 0)
    (h : Leads (fun _ => True) start net) (v : VariableId) : net.value v = 0 := by
  have hkept : Kept (fun _ => True) start fun _ value => ∀ v, value v = 0 :=
    { init := hzero
      takeOver := fun _ _ _ _ _ h => h
      compute := by
        intro mid c x hl _ _ hx hall v
        obtain ⟨u, hu⟩ := Constraint.compute_of_plain (plain_of_leads hplain hl c)
        have hx0 : x = 0 := by rw [← hall u, ← Option.some.injEq, ← hx, hu]
        by_cases hv : v = (mid.con c).output
        · rw [hv, Function.update_self, hx0]
        · rw [Function.update_of_ne hv, hall v]
      detach := fun _ _ _ h => h }
  exact hkept.holds hcoh h v

theorem registered_plain (h : ∀ c, (net.con c).kind.parameters = [])
    (hkind : kind.parameters = []) (c : ConstraintId) :
    ((net.registered kind strength).con c).kind.parameters = [] := by
  by_cases hc : c = ⟨net.constraints.size⟩
  · rw [hc, registered_con_new]
    exact hkind
  · rw [registered_con_of_ne hc]
    exact h c

namespace Chained

theorem coherent (h : Chained n m net) : net.Coherent := h.state.coherent

theorem withVariable (h : Chained n m net) :
    Chained n (m + 1) (net.withVariable ("v" ++ toString m) 0.0) where
  state := h.state.withVariable
  variableCount := by rw [withVariable_size, h.variableCount]
  link i hi := ⟨(h.link i hi).attached, (h.link i hi).kind, (h.link i hi).strength⟩
  plain := h.plain
  zero v := by
    by_cases hv : v = ⟨net.vars.size⟩
    · rw [hv, value, withVariable_var_new]
      rfl
    · rw [value, withVariable_var_of_ne hv]
      exact h.zero v
  name i hi := by
    by_cases hv : i = m
    · subst hv
      rw [← h.variableCount, withVariable_var_new]
    · rw [withVariable_var_of_ne (by rw [h.variableCount]; simpa using hv), h.name i (by omega)]

/-- A constraint without parameters that can be satisfied is added and leaves the values zero. -/
theorem exists_added (h : Chained n m net) (hkind : kind.parameters = [])
    (hk : ∀ v ∈ kind.operands, v.index < m)
    (htree : (net.registered kind strength).TreeShaped)
    (hr : ¬ (net.registered kind strength).Refuses ⟨net.constraints.size⟩) :
    ∃ net', addConstraint kind strength net = .ok ⟨net.constraints.size⟩ net' ∧
      Added net kind strength net' ∧ Chained n m net' := by
  have hk' : ∀ v ∈ kind.operands, v.index < net.vars.size := by rwa [h.variableCount]
  have hplain : ∀ c, ((net.registered kind strength).con c).kind.parameters = [] :=
    registered_plain h.plain hkind
  have hcoh : (net.registered kind strength).Coherent := h.coherent.registered hk'
  obtain ⟨net', hadd, hadded⟩ := h.state.exists_added hk' htree hr fun hl d _ hnone => by
    obtain ⟨v, hv⟩ := Constraint.compute_of_plain (plain_of_leads hplain hl d)
    rw [hv] at hnone
    cases hnone
  have hl := hadded.leads
  refine ⟨net', hadd, hadded, hadded.state, hadded.variableCount.trans h.variableCount,
    fun i hi => hadded.has (h.link i hi), plain_of_leads hplain hl,
    zero_of_leads hplain hcoh (fun v => ?_) hl, fun i hi => ?_⟩
  · rw [value, registered_var hk']
    exact h.zero v
  · rw [hadded.name_eq h.coherent hk']
    exact h.name i hi

/-- The chain grows by a new variable and an equality. -/
theorem exists_grown (h : Chained n (n + 2) net) (hcount : net.constraints.size = n)
    (hnew : (net.var ⟨n + 1⟩).walkStrength = .weakest) :
    ∃ net', addConstraint (.equal ⟨n⟩ ⟨n + 1⟩) .required net = .ok ⟨n⟩ net' ∧
      Chained (n + 1) (n + 2) net' ∧ net'.constraints.size = n + 1 := by
  have hk : ∀ v ∈ (Kind.equal ⟨n⟩ ⟨n + 1⟩).operands, v.index < n + 2 := by
    simp [Kind.operands]
  have hrooted : (net.registered (.equal ⟨n⟩ ⟨n + 1⟩) .required).Rooted := by
    refine rooted_of_links (n := n + 1) (by rw [registered_count, hcount]) fun i hi => ?_
    by_cases hin : i = n
    · have hnew : (net.registered (.equal ⟨n⟩ ⟨n + 1⟩) .required).Has ⟨net.constraints.size⟩
        (.equal ⟨n⟩ ⟨n + 1⟩) .required := has_registered
      rw [hcount] at hnew
      exact hin ▸ hnew.kind
    · exact (h.link i (by omega)).registered.kind
  have hr : ¬ (net.registered (.equal ⟨n⟩ ⟨n + 1⟩) .required).Refuses ⟨net.constraints.size⟩ := by
    rw [registered_refuses_iff (by rwa [h.variableCount])]
    intro hall
    have hstrong := hall.2 ⟨n + 1⟩ (by simp [Kind.outputs])
    rw [hnew] at hstrong
    cases hstrong
  obtain ⟨net', hadd, hadded, h'⟩ := h.exists_added rfl hk hrooted.treeShaped hr
  rw [hcount] at hadd
  have hlast := hadded.has_new
  rw [hcount] at hlast
  refine ⟨net', hadd, ⟨h'.state, h'.variableCount, fun i hi => ?_, h'.plain, h'.zero, h'.name⟩,
    by rw [hadded.constraintCount, hcount]⟩
  by_cases hin : i = n
  · exact hin ▸ hlast
  · exact h'.link i (by omega)

/-! ## The stay and the edit -/

/-- Before the stay is added nothing carries any strength. -/
theorem walkStrength_eq_weakest (h : Chained n m net) (hcount : net.constraints.size = n)
    (v : VariableId) : (net.var v).walkStrength = .weakest := by
  refine Strength.rank_injective (Nat.le_antisymm (Strength.rank_le_six _) ?_)
  refine h.state.solution.rank_le_walkStrength fun c w ha hk => ?_
  have hc : c.index < n := hcount ▸ known_of_attached ha
  rw [(h.link c.index hc).kind] at hk
  rcases hk with hk | hk <;> cases hk

/-- A path leads from every variable of the chain to a stay on the last one. -/
theorem exists_path (h : Chained n m net) {c : ConstraintId} {s : Strength}
    (hstay : net.Has c (.stay ⟨n⟩) s) {i : Nat} (hi : i ≤ n) :
    ∃ cs, net.Path ⟨i⟩ cs ∧ net.pathStrength cs = s := by
  induction hi using Nat.decreasingInduction with
  | self =>
    refine ⟨[c], .stop hstay.attached (.inl hstay.kind), ?_⟩
    rw [pathStrength_singleton, hstay.strength]
  | of_succ i hi ih =>
    obtain ⟨cs, hp, hcs⟩ := ih
    have hlink := h.link i hi
    have hedge : net.Edge ⟨i⟩ ⟨i⟩ ⟨i + 1⟩ := ⟨hlink.attached, by rw [hlink.kind]; exact .inl ⟨rfl, rfl⟩⟩
    refine ⟨⟨i⟩ :: cs, .step hedge hp, ?_⟩
    rw [pathStrength, hlink.strength, hcs]
    cases s <;> rfl

/-- With the stay alone every variable of the chain carries its strength. -/
theorem walkStrength_eq (h : Chained n m net) {s : Strength} (hcount : net.constraints.size = n + 1)
    (hstay : net.Has ⟨n⟩ (.stay ⟨n⟩) s) {i : Nat} (hi : i ≤ n) :
    (net.var ⟨i⟩).walkStrength = s := by
  obtain ⟨cs, hp, hcs⟩ := h.exists_path hstay hi
  refine Strength.rank_injective (Nat.le_antisymm ?_ ?_)
  · rw [← hcs]
    exact h.state.solution.rank_le_pathStrength hp
  · refine h.state.solution.rank_le_walkStrength fun c w ha hk => ?_
    have hc : c.index < n + 1 := hcount ▸ known_of_attached ha
    by_cases hcn : c.index = n
    · have heq : c = ⟨n⟩ := by
        cases c
        exact congrArg _ hcn
      rw [heq, hstay.strength]
    · rw [(h.link c.index (by omega)).kind] at hk
      rcases hk with hk | hk <;> cases hk

end Chained

/-- The chain is built, with a stay on the last variable and an edit on the first. -/
structure Wired (n : Nat) (stay edit : Strength) (net : Network) : Prop
    extends Chained n (n + 1) net where
  constraintCount : net.constraints.size = n + 2
  stay : net.Has ⟨n⟩ (.stay ⟨n⟩) stay
  edit : net.Has ⟨n + 1⟩ (.edit ⟨0⟩) edit

namespace Wired

variable {stay edit : Strength}

/-- An equality is the only constraint beside the stay and the edit. -/
theorem index_lt (h : Wired n stay edit net) {c : ConstraintId}
    (hc : c.index < net.constraints.size) (hstay : c ≠ ⟨n⟩) (hedit : c ≠ ⟨n + 1⟩) : c.index < n := by
  have hlt : c.index < n + 2 := h.constraintCount ▸ hc
  have hne : ∀ i, c ≠ ⟨i⟩ → c.index ≠ i := fun i hi heq => hi (by cases c; exact congrArg _ heq)
  have := hne n hstay
  have := hne (n + 1) hedit
  omega

theorem link_satisfied (h : Wired n stay edit net) {i : Nat} (hi : i < n) :
    (net.con ⟨i⟩).isSatisfied = true :=
  h.state.solution.required _ (h.link i hi).attached (h.link i hi).strength

/-- If the edit computes the first variable, then every equality computes the later one of its variables,
and none of them stays. -/
theorem forward (h : Wired n stay edit net)
    (hedit : (net.var ⟨0⟩).determinedBy = some ⟨n + 1⟩) :
    ∀ i < n, net.Moving ⟨i⟩ ∧ (net.con ⟨i⟩).flow = some .forward := by
  have hset := h.state.solution.settled
  obtain ⟨hsat, hout⟩ := (hset.coherent.determines _ _).1 hedit
  have hmoves : (net.var ⟨0⟩).stay = false := by
    rw [← hout]
    refine (hset.moving_of_isInput hsat ?_).2
    rw [Constraint.isInput, h.edit.kind]
    rfl
  have hstep : ∀ i, i < n → (net.var ⟨i⟩).stay = false →
      (net.var ⟨i⟩).determinedBy ≠ some ⟨i⟩ →
      net.Moving ⟨i⟩ ∧ (net.con ⟨i⟩).flow = some .forward := by
    intro i hi hstay hdet
    have hs := h.link_satisfied hi
    have hkind := (h.link i hi).kind
    have hflow : (net.con ⟨i⟩).flow = some .forward := by
      obtain ⟨flow, hflow⟩ := Option.isSome_iff_exists.1 hs
      cases flow with
      | forward => exact hflow
      | backward =>
        have hback : (net.con ⟨i⟩).output = ⟨i⟩ := by rw [Constraint.output, hkind, hflow]; rfl
        exact absurd ((hset.coherent.determines _ _).2 ⟨hs, hback⟩) hdet
    refine ⟨hset.moving_of_reads hs (Constraint.mem_reads.2 (.inl ?_)) hstay, hflow⟩
    rw [Constraint.input, hkind, hflow]
    rfl
  -- from one equality to the next: what one computes the next one reads
  intro i
  induction i with
  | zero =>
    intro hi
    refine hstep 0 hi hmoves ?_
    rw [hedit]
    simp
  | succ i ih =>
    intro hi
    obtain ⟨hmoving, hflow⟩ := ih (by omega)
    have hnext : (net.con ⟨i⟩).output = ⟨i + 1⟩ := by
      rw [Constraint.output, (h.link i (by omega)).kind, hflow]
      rfl
    refine hstep (i + 1) hi (hnext ▸ hmoving.2) ?_
    rw [(hset.coherent.determines _ ⟨i⟩).2 ⟨hmoving.1, hnext⟩]
    simp

/-! ## Feeding the chain -/

/-- The only edit is the one on the first variable. -/
theorem eq_of_isInput (h : Wired n stay edit net) {c : ConstraintId}
    (hs : (net.con c).isSatisfied = true) (hi : (net.con c).isInput = true) : c = ⟨n + 1⟩ := by
  by_contra hne
  have hkind : (net.con c).kind.isInput = false := by
    by_cases hc : c = ⟨n⟩
    · rw [hc, h.stay.kind]
      rfl
    · rw [(h.link c.index (h.index_lt (known_of_isSatisfied hs) hc hne)).kind]
      rfl
  rw [Constraint.isInput, hkind] at hi
  cases hi

end Wired

/-- Whatever the values are, executing the plan leaves that of `first` alone and makes that of `last` the
same. -/
def Carries (net : Network) (p : Plan) (first last : VariableId) : Prop :=
  ∀ cur : Network, cur.withoutValues = net.withoutValues →
    ∃ cur', runPlan p cur = .ok () cur' ∧ cur'.withoutValues = net.withoutValues ∧
      cur'.value first = cur.value first ∧ cur'.value last = cur.value first

namespace Wired

variable {stay edit : Strength} {later base : Network} {mark : Nat} {sources : List ConstraintId}
  {plan : Plan}

/-- A plan that has all equalities of the chain as its steps, each of them forward, carries. -/
theorem carries (h : Wired n stay edit net) (hplan : Planning net mark sources later plan.steps [])
    (hfirst : net.Unwritten plan.steps ⟨0⟩)
    (hlinks : ∀ i < n, ⟨i⟩ ∈ plan.steps ∧ (net.con ⟨i⟩).flow = some .forward)
    (hcons : base.constraints = net.constraints) (hsize : base.vars.size = net.vars.size) :
    base.Carries plan ⟨0⟩ ⟨n⟩ := by
  intro cur hcur
  have hset := h.state.solution.settled
  have hcons' : cur.constraints = net.constraints := (constraints_of_withoutValues hcur).trans hcons
  have hsize' : cur.vars.size = net.vars.size := (size_of_withoutValues hcur).trans hsize
  have hframe := ends_executeAll_frame plan.steps ((hplan.executable hset).mono hcons' hsize'.ge)
  have hunwritten : cur.Unwritten plan.steps ⟨0⟩ := by
    rw [Unwritten, con_congr hcons']
    exact hfirst
  cases hrun : executeAll plan.steps cur with
  | error e cur' =>
    -- no step divides
    obtain ⟨⟨d, -, -, hnone⟩, hsame, -⟩ := hframe.of_error hrun
    have hkind : (cur'.con d).kind.parameters = [] := by
      rw [con_congr ((constraints_of_withoutValues hsame).trans hcons')]
      exact h.plain d
    obtain ⟨v, hv⟩ := Constraint.compute_of_plain hkind
    rw [hv] at hnone
    cases hnone
  | ok _ cur' =>
    obtain ⟨hsame, hvalue⟩ := hframe.of_ok hrun
    have hcon : cur'.con = net.con := con_congr ((constraints_of_withoutValues hsame).trans hcons')
    have hcopied : ∀ i < n, cur'.value ⟨i + 1⟩ = cur'.value ⟨i⟩ := by
      intro i hi
      obtain ⟨hmem, hflow⟩ := hlinks i hi
      obtain ⟨j, hj⟩ := List.mem_iff_getElem?.1 hmem
      have hkind := (h.link i hi).kind
      have hholds := (hplan.ends_executeAll_holds hset hj (fun v hv => ?_) hcons' hsize'.ge).of_ok hrun
      · rw [Holds, hcon, Constraint.output, Constraint.compute, hkind, hflow, Option.some.injEq]
          at hholds
        simpa [Kind.output] using hholds.symm
      · refine hplan.input_current hset hj ?_
        rw [Constraint.mem_reads, hkind] at hv
        exact hv.resolve_right (by simp [Kind.parameters])
    have hall : ∀ i ≤ n, cur'.value ⟨i⟩ = cur'.value ⟨0⟩ := by
      intro i
      induction i with
      | zero => exact fun _ => rfl
      | succ i ih =>
        intro hi
        rw [hcopied i (by omega), ih (by omega)]
    have hkept : cur'.value ⟨0⟩ = cur.value ⟨0⟩ := hvalue _ hunwritten
    exact ⟨cur', hrun, hsame.trans hcur, hkept, (hall n le_rfl).trans hkept⟩

/-- If the edit computes the first variable, the plan for it carries. -/
theorem carries_of_determined (h : Wired n stay edit net)
    (hplan : Planning net mark sources later plan.steps [])
    (hsources : (⟨n + 1⟩ : ConstraintId) ∈ sources)
    (hedit : (net.var ⟨0⟩).determinedBy = some ⟨n + 1⟩)
    (hcons : base.constraints = net.constraints) (hsize : base.vars.size = net.vars.size) :
    base.Carries plan ⟨0⟩ ⟨n⟩ := by
  have hset := h.state.solution.settled
  refine h.carries hplan (fun c hc ho => ?_) (fun i hi => ?_) hcons hsize
  · have hdet := hset.coherent.determinedBy_output (hplan.satisfied hc)
    rw [← ho, hedit, Option.some.injEq] at hdet
    rw [← hdet, Constraint.input, h.edit.kind]
    rfl
  · obtain ⟨hmoving, hflow⟩ := h.forward hedit i hi
    refine ⟨hplan.mem_steps hset h.state.ordered.acyclic (fun d hd hi => ?_) hmoving, hflow⟩
    exact h.eq_of_isInput hd hi ▸ hsources

/-- A chain of one variable has nothing to carry. -/
theorem carries_of_single (h : Wired 0 stay edit net)
    (hplan : Planning net mark sources later plan.steps [])
    (hcons : base.constraints = net.constraints) (hsize : base.vars.size = net.vars.size) :
    base.Carries plan ⟨0⟩ ⟨0⟩ := by
  refine h.carries hplan (fun c hc _ => ?_) (fun i hi => absurd hi (by omega)) hcons hsize
  by_cases hstay : c = ⟨0⟩
  · rw [hstay, Constraint.input, h.stay.kind]
    rfl
  · by_cases hedit : c = ⟨0 + 1⟩
    · rw [hedit, Constraint.input, h.edit.kind]
      rfl
    · have hlt := h.index_lt (known_of_isSatisfied (hplan.satisfied hc)) hstay hedit
      omega

/-- Without a method for the edit there is nothing to plan. -/
theorem steps_eq_nil (h : Wired n stay edit net)
    (hplan : Planning net mark sources later plan.steps [])
    (hedit : (net.con ⟨n + 1⟩).isSatisfied = false) : plan.steps = [] := by
  have hset := h.state.solution.settled
  refine List.eq_nil_iff_forall_not_mem.2 fun c hc => ?_
  have hstay : (net.var (net.con c).output).stay = true := by
    refine hset.stay_of_no_inputs h.state.ordered.acyclic fun d hd => ?_
    rw [← Bool.not_eq_true]
    intro hi
    rw [h.eq_of_isInput hd hi, hedit] at hd
    cases hd
  exact Bool.noConfusion ((hplan.moving c (by simpa using hc)).2.symm.trans hstay)

end Wired

/-! ## Adding the stay and the edit -/

namespace Chained

variable {stay edit : Strength}

theorem exists_stayed (h : Chained n (n + 1) net) (hcount : net.constraints.size = n) :
    ∃ net', addConstraint (.stay ⟨n⟩) stay net = .ok ⟨n⟩ net' ∧ Chained n (n + 1) net' ∧
      net'.constraints.size = n + 1 ∧ net'.Has ⟨n⟩ (.stay ⟨n⟩) stay := by
  have hk : ∀ v ∈ (Kind.stay ⟨n⟩).operands, v.index < n + 1 := by simp [Kind.operands]
  have hr : ¬ (net.registered (.stay ⟨n⟩) stay).Refuses ⟨net.constraints.size⟩ := by
    rw [registered_refuses_iff (by rwa [h.variableCount])]
    intro hall
    have hstrong := hall.2 ⟨n⟩ (by simp [Kind.outputs])
    rw [h.walkStrength_eq_weakest hcount] at hstrong
    cases hstrong
  obtain ⟨net', hadd, hadded, h'⟩ := h.exists_added rfl hk
    (h.state.solution.tree.registered_anchor (.inl rfl)) hr
  have hnew := hadded.has_new
  rw [hcount] at hadd hnew
  exact ⟨net', hadd, h', by rw [hadded.constraintCount, hcount], hnew⟩

/-- The edit finds a method exactly if it is stronger than the stay. -/
theorem blocked_edit_iff (h : Chained n (n + 1) net) (hcount : net.constraints.size = n + 1)
    (hstay : net.Has ⟨n⟩ (.stay ⟨n⟩) stay) :
    (net.registered (.edit ⟨0⟩) edit).Blocked ⟨net.constraints.size⟩ ↔ edit.StrongerThan stay := by
  have hk : ∀ v ∈ (Kind.edit ⟨0⟩).operands, v.index < net.vars.size := by
    rw [h.variableCount]
    simp [Kind.operands]
  have hws : (net.var ⟨0⟩).walkStrength = stay := h.walkStrength_eq hcount hstay (Nat.zero_le n)
  simp only [Blocked, registered_con_new, registered_var hk]
  simp [Kind.outputs, Constraint.isSatisfied, hws]

/-- An edit that is required like the stay is refused. -/
theorem ends_edit_refused (h : Chained n (n + 1) net) (hcount : net.constraints.size = n + 1)
    (hstay : net.Has ⟨n⟩ (.stay ⟨n⟩) .required) :
    Ends (addConstraint (.edit ⟨0⟩) .required) net (fun _ _ => False)
      (fun e _ => e = .refused (.unsatisfiable ⟨n + 1⟩)) := by
  have hk : ∀ v ∈ (Kind.edit ⟨0⟩).operands, v.index < net.vars.size := by
    rw [h.variableCount]
    simp [Kind.operands]
  have hopen : ¬ (net.registered (.edit ⟨0⟩) .required).Blocked ⟨net.constraints.size⟩ := by
    rw [h.blocked_edit_iff hcount hstay]
    decide
  refine (ends_addConstraint_unblocked h.coherent hk hopen).mono
    (fun _ _ hend => absurd rfl hend.1) fun e _ hf => ?_
  rw [hf.2.1, hcount]

/-- Otherwise it is added. It computes the first variable if it is stronger than the stay, and has no
method if it is not. -/
theorem exists_wired (h : Chained n (n + 1) net) (hcount : net.constraints.size = n + 1)
    (hstay : net.Has ⟨n⟩ (.stay ⟨n⟩) stay) (hclash : ¬ (edit = .required ∧ stay = .required)) :
    ∃ net', addConstraint (.edit ⟨0⟩) edit net = .ok ⟨n + 1⟩ net' ∧ Wired n stay edit net' ∧
      (edit.StrongerThan stay → (net'.var ⟨0⟩).determinedBy = some ⟨n + 1⟩) ∧
      (¬ edit.StrongerThan stay → (net'.con ⟨n + 1⟩).isSatisfied = false) := by
  have hk : ∀ v ∈ (Kind.edit ⟨0⟩).operands, v.index < n + 1 := by simp [Kind.operands]
  have hblocked : (net.registered (.edit ⟨0⟩) edit).Blocked ⟨net.constraints.size⟩ ↔
      edit.StrongerThan stay := h.blocked_edit_iff hcount hstay
  have hr : ¬ (net.registered (.edit ⟨0⟩) edit).Refuses ⟨net.constraints.size⟩ := by
    rintro ⟨hreq, hopen⟩
    rw [registered_con_new] at hreq
    have hreq : edit = .required := hreq
    rw [hblocked, hreq] at hopen
    refine hclash ⟨hreq, ?_⟩
    cases stay <;> first | rfl | exact absurd (by decide) hopen
  obtain ⟨net', hadd, hadded, h'⟩ := h.exists_added rfl hk
    (h.state.solution.tree.registered_anchor (.inr rfl)) hr
  have hnew := hadded.has_new
  refine ⟨net', by rw [hadd, hcount], ⟨h', by rw [hadded.constraintCount, hcount],
    hadded.has hstay, hcount ▸ hnew⟩, fun hstrong => ?_, fun hweak => ?_⟩
  · have hdet := ((ends_addConstraint_edit h.state.regular fun _ => ?_).of_ok hadd).1
    · rw [hdet, hcount]
    · rwa [h.walkStrength_eq hcount hstay (Nat.zero_le n)]
  · obtain ⟨-, -, rfl⟩ := (ends_addConstraint_unblocked h.coherent (by rwa [h.variableCount])
      (mt hblocked.1 hweak)).of_ok hadd
    rw [← hcount]
    exact registered_new_unsatisfied

end Chained

end Network

namespace Scenario

variable {net : Network} {n : Nat}

theorem ends_extendChain (k : Nat) :
    ∀ {n : Nat} {net : Network}, Chained n (n + 1) net → net.constraints.size = n →
      Ends (extendChain ⟨n⟩ (n + 1) k) net
        (fun last net' => last = ⟨n + k⟩ ∧ Chained (n + k) (n + k + 1) net' ∧
          net'.constraints.size = n + k)
        (fun _ _ => False) := by
  induction k with
  | zero => exact fun h hcount => ⟨rfl, h, hcount⟩
  | succ k ih =>
    intro n net h hcount
    rw [extendChain, ends_bind, ends_solve_ok addVariable_eq, h.variableCount, ends_bind]
    have hwide : Chained n (n + 2) (net.withVariable ("v" ++ toString (n + 1)) 0.0) := h.withVariable
    have hnew : ((net.withVariable ("v" ++ toString (n + 1)) 0.0).var ⟨n + 1⟩).walkStrength =
        .weakest := by
      rw [← h.variableCount, withVariable_var_new]
    obtain ⟨net', hadd, h', hcount'⟩ := hwide.exists_grown hcount hnew
    rw [ends_solve_ok hadd]
    refine (ih h' hcount').mono ?_ fun _ _ hf => hf
    intro last final hend
    rw [Nat.add_right_comm n 1 k, Nat.add_assoc n k 1] at hend
    exact hend

/-- If the plan carries, every number comes out at the end. -/
theorem ends_feedChain {base : Network} {plan : Plan} {first last : VariableId}
    (hcarries : base.Carries plan first last) (hfirst : first.index < base.vars.size)
    (hlast : last.index < base.vars.size) (k : Nat) :
    ∀ {i : Nat} {net : Network}, net.withoutValues = base.withoutValues →
      (∀ j, j < i + k → (Float.ofNat j == Float.ofNat j) = true) →
      Ends (feedChain plan first last i k) net
        (fun _ net' => net'.withoutValues = base.withoutValues) (fun _ _ => False) := by
  induction k with
  | zero => exact fun hnet _ => hnet
  | succ k ih =>
    intro i net hnet hself
    have hsize := size_of_withoutValues hnet
    have hknown : first.index < net.vars.size := by omega
    let written := net.alterVariable first fun x => { x with value := Float.ofNat i }
    have hwritten : written.withoutValues = base.withoutValues :=
      withoutValues_alterVariable.trans hnet
    have hvalue : written.value first = Float.ofNat i := by
      rw [value, alterVariable_var_self hknown]
    obtain ⟨cur, hrun, hcur, -, hout⟩ := hcarries written hwritten
    have hknown' : last.index < cur.vars.size := by
      rw [size_of_withoutValues hcur]
      exact hlast
    rw [feedChain, ends_bind, ends_solve_ok (assign_eq hknown), ends_bind, ends_solve_ok hrun,
      ends_bind, ends_check hknown', hout, hvalue, if_pos (hself i (by omega))]
    exact ih hcur fun j hj => hself j (by omega)

/-- One round with an empty plan: the last variable is what it was. -/
theorem ends_feedChain_round {plan : Plan} {first last : VariableId} {i k : Nat}
    {ok : Unit → Network → Prop} {fail : Failure ScenarioError → Network → Prop}
    (hplan : plan.steps = []) (hne : last ≠ first) (hfirst : first.index < net.vars.size)
    (hlast : last.index < net.vars.size) :
    Ends (feedChain plan first last i (k + 1)) net ok fail ↔
      let written := net.alterVariable first fun x => { x with value := Float.ofNat i }
      if (net.value last == Float.ofNat i) = true then
        Ends (feedChain plan first last (i + 1) k) written ok fail
      else
        fail (.refused (.mismatch "chain" (net.var last).name (Float.ofNat i) (net.value last)))
          written := by
  let written := net.alterVariable first fun x => { x with value := Float.ofNat i }
  have hrun : runPlan plan written = .ok () written := by
    rw [runPlan, hplan]
    rfl
  have hvar : written.var last = net.var last := alterVariable_var_of_ne hne
  have hvalue : written.value last = net.value last := congrArg Variable.value hvar
  have hknown : last.index < written.vars.size := by
    rw [alterVariable_size]
    exact hlast
  rw [feedChain, ends_bind, ends_solve_ok (assign_eq hfirst), ends_bind, ends_solve_ok hrun,
    ends_bind, ends_check hknown, hvar, hvalue]

/-- With a plan that carries, the rest of the scenario is gone through. -/
theorem ends_feedChain_all {base : Network} {plan : Plan} {settings : ChainSettings} {n : Nat}
    (hself : ∀ i < settings.iterations, (Float.ofNat i == Float.ofNat i) = true)
    (hcarries : base.Carries plan ⟨0⟩ ⟨n⟩) (hsize : base.vars.size = n + 1) :
    Ends (feedChain plan ⟨0⟩ ⟨n⟩ 0 settings.iterations) base
      (fun _ net => net.vars.size = base.vars.size ∧
        net.constraints.size = base.constraints.size) (fun _ _ => False) := by
  refine (ends_feedChain hcarries (by simp [hsize]) (by simp [hsize]) settings.iterations rfl
    (by simpa using hself)).mono (fun _ net hnet => ?_) fun _ _ hf => hf
  exact ⟨size_of_withoutValues hnet, by rw [constraints_of_withoutValues hnet]⟩

/-- With an empty plan the first number is found at the end, which is zero, and the second is not. -/
theorem ends_feedChain_stuck {plan : Plan} {n k : Nat} (hplan : plan.steps = []) (hn : n ≠ 0)
    (hsize : net.vars.size = n + 1) (hzero : net.value ⟨n⟩ = 0) :
    Ends (feedChain plan ⟨0⟩ ⟨n⟩ 0 k) net
      (fun _ net' => k ≤ 1 ∧ net'.vars.size = net.vars.size ∧
        net'.constraints.size = net.constraints.size)
      (fun e _ => ¬ k ≤ 1 ∧
        e = .refused (.mismatch "chain" (net.var ⟨n⟩).name 1.0 0.0)) := by
  have hne : (⟨n⟩ : VariableId) ≠ ⟨0⟩ := by simpa using hn
  cases k with
  | zero => exact ⟨by omega, rfl, rfl⟩
  | succ k =>
    rw [ends_feedChain_round hplan hne (by simp [hsize]) (by simp [hsize]), hzero]
    show if ((0 : Float) == Float.ofNat 0) = true then _ else _
    rw [if_pos (by decide +kernel)]
    cases k with
    | zero => exact ⟨by omega, alterVariable_size, rfl⟩
    | succ k =>
      have hvar : ∀ x : Float, (net.alterVariable ⟨0⟩ fun y => { y with value := x }).var ⟨n⟩ =
          net.var ⟨n⟩ := fun x => alterVariable_var_of_ne hne
      rw [ends_feedChain_round hplan hne (by simp [hsize]) (by simp [hsize]), value, hvar,
        show (net.var ⟨n⟩).value = 0 from hzero]
      show if ((0 : Float) == Float.ofNat 1) = true then _ else _
      rw [if_neg (by decide +kernel)]
      exact ⟨by omega, rfl⟩

theorem ends_chain {settings : ChainSettings} (patience : Nat)
    (hself : ∀ i < settings.iterations, (Float.ofNat i == Float.ofNat i) = true) :
    Ends (chain settings) (.empty patience)
      (fun r net => ¬ (settings.editStrength = .required ∧ settings.stayStrength = .required) ∧
        (settings.editStrength.StrongerThan settings.stayStrength ∨ settings.length = 0 ∨
          settings.iterations ≤ 1) ∧
        r = ⟨"chain", settings.length + 1, settings.length + 2, settings.iterations⟩ ∧
        net.vars.size = settings.length + 1 ∧ net.constraints.size = settings.length + 2)
      (fun e _ => (settings.editStrength = .required ∧ settings.stayStrength = .required) ∧
          e = .refused (.solver (.unsatisfiable ⟨settings.length + 1⟩)) ∨
        ¬ (settings.editStrength = .required ∧ settings.stayStrength = .required) ∧
          ¬ (settings.editStrength.StrongerThan settings.stayStrength ∨ settings.length = 0 ∨
            settings.iterations ≤ 1) ∧
          e = .refused (.mismatch "chain" ("v" ++ toString settings.length) 1.0 0.0)) := by
  -- the chain and the stay
  have hempty : Chained 0 1 ((Network.empty patience).withVariable "v0" 0.0) := by
    refine Chained.withVariable (m := 0) ⟨.empty, rfl, nofun, fun c => ?_, fun v => ?_, nofun⟩
    · rw [con_of_unknown (by simp [Network.empty])]
      rfl
    · rw [value, var_of_unknown (by simp [Network.empty])]
  rw [chain, ends_bind, ends_solve_ok addVariable_eq, ends_bind]
  refine (ends_extendChain settings.length hempty rfl).mono ?_ fun _ _ hf => hf.elim
  rintro _ net ⟨rfl, hchained, hcount⟩
  rw [Nat.zero_add] at hchained hcount ⊢
  obtain ⟨net₁, hadd, h₁, hcount₁, hstay⟩ := hchained.exists_stayed hcount
  rw [ends_bind, ends_solve_ok hadd, ends_bind]
  show Ends (solve (addConstraint (.edit ⟨0⟩) settings.editStrength)) net₁ _ _
  by_cases hclash : settings.editStrength = .required ∧ settings.stayStrength = .required
  · rw [hclash.2] at hstay
    rw [hclash.1, ends_solve]
    refine (h₁.ends_edit_refused hcount₁ hstay).mono (fun _ _ hf => hf.elim) fun e _ hf => .inl ?_
    exact ⟨⟨rfl, hclash.2⟩, by rw [hf]; rfl⟩
  -- the edit and its plan
  obtain ⟨net₂, hadd₂, h₂, hdet, hunsat⟩ := h₁.exists_wired hcount₁ hstay hclash
  obtain ⟨plan, net₃, hplan, -, hplanning⟩ := h₂.state.solution.exists_plan h₂.edit.attached
  rw [ends_solve_ok hadd₂, ends_bind, ends_solve_ok hplan, ends_bind, ends_solve, ends_note]
  let base : Network :=
    { net₃ with journal := net₃.journal.push (.startingChain settings.length plan.steps.length) }
  have hcons : base.constraints = net₂.constraints := by
    show net₃.withoutMarks.constraints = net₂.withoutMarks.constraints
    rw [hplanning.same]
  have hsize : base.vars.size = net₂.vars.size := hplanning.solution.variableCount
  have hsize' : base.vars.size = settings.length + 1 := hsize.trans h₂.variableCount
  have hcount' : base.constraints.size = settings.length + 2 := by rw [hcons, h₂.constraintCount]
  show Ends (feedChain plan ⟨0⟩ ⟨settings.length⟩ 0 settings.iterations >>= _) base _ _
  rw [ends_bind]
  by_cases hstrong : settings.editStrength.StrongerThan settings.stayStrength
  · have hsource : (⟨settings.length + 1⟩ : ConstraintId) ∈
        net₂.inputsAmong [⟨settings.length + 1⟩] := by
      refine mem_inputsAmong.2 ⟨by simp, ?_, ((h₂.coherent.determines _ _).1 (hdet hstrong)).1⟩
      rw [Constraint.isInput, h₂.edit.kind]
      rfl
    refine (ends_feedChain_all hself (h₂.carries_of_determined hplanning hsource (hdet hstrong) hcons
      hsize) hsize').mono (fun _ _ hend => ?_) fun _ _ hf => hf.elim
    exact ⟨hclash, .inl hstrong, rfl, hend.1.trans hsize', hend.2.trans hcount'⟩
  by_cases hn : settings.length = 0
  · have hcarries : base.Carries plan ⟨0⟩ ⟨settings.length⟩ := by
      rw [hn] at h₂ ⊢
      exact h₂.carries_of_single hplanning hcons hsize
    refine (ends_feedChain_all hself hcarries hsize').mono (fun _ _ hend => ?_) fun _ _ hf => hf.elim
    exact ⟨hclash, .inr (.inl hn), rfl, hend.1.trans hsize', hend.2.trans hcount'⟩
  -- the stay prevails, and nothing is planned
  have hzero : base.value ⟨settings.length⟩ = 0 :=
    (var_field_of_withoutMarks (p := Variable.value) (fun _ => rfl) hplanning.same).trans
      (h₂.zero ⟨settings.length⟩)
  have hname : (base.var ⟨settings.length⟩).name = "v" ++ toString settings.length :=
    (var_field_of_withoutMarks (p := Variable.name) (fun _ => rfl) hplanning.same).trans
      (h₂.name settings.length (Nat.lt_succ_self _))
  refine (ends_feedChain_stuck (h₂.steps_eq_nil hplanning (hunsat hstrong)) hn hsize' hzero).mono
    (fun _ _ hend => ?_) fun _ _ hf => .inr ⟨hclash, ?_, by rw [hf.2, hname]⟩
  · exact ⟨hclash, .inr (.inr hend.1), rfl, hend.2.1.trans hsize', hend.2.2.trans hcount'⟩
  · rintro (hprevails | hsingle | hshort)
    · exact hstrong hprevails
    · exact hn hsingle
    · exact hf.1 hshort

/-- What comes of the chain scenario, for every length, number of iterations and pair of strengths, if
numbers compare equal to themselves. If the edit and the stay are both required, the edit is refused. Else
the scenario is gone through if the edit is stronger than the stay, if there is only one variable or if
at most one number is fed in; otherwise the second number is not found at the end of the chain. -/
theorem chain_outcome (settings : ChainSettings) (patience : Nat)
    (hself : ∀ i < settings.iterations, (Float.ofNat i == Float.ofNat i) = true) :
    (settings.editStrength = .required ∧ settings.stayStrength = .required →
      ∃ net, chain settings (.empty patience) =
        .error (.refused (.solver (.unsatisfiable ⟨settings.length + 1⟩))) net) ∧
    (¬ (settings.editStrength = .required ∧ settings.stayStrength = .required) →
      (settings.editStrength.StrongerThan settings.stayStrength ∨ settings.length = 0 ∨
        settings.iterations ≤ 1) →
      ∃ net, chain settings (.empty patience) =
          .ok ⟨"chain", settings.length + 1, settings.length + 2, settings.iterations⟩ net ∧
        net.vars.size = settings.length + 1 ∧ net.constraints.size = settings.length + 2) ∧
    (¬ (settings.editStrength = .required ∧ settings.stayStrength = .required) →
      ¬ (settings.editStrength.StrongerThan settings.stayStrength ∨ settings.length = 0 ∨
        settings.iterations ≤ 1) →
      ∃ net, chain settings (.empty patience) =
        .error (.refused (.mismatch "chain" ("v" ++ toString settings.length) 1.0 0.0)) net) := by
  have hends := ends_chain patience hself
  refine ⟨fun hclash => ?_, fun hclash hpass => ?_, fun hclash hpass => ?_⟩
  · obtain ⟨e, net, hrun, ⟨-, rfl⟩ | ⟨hno, -⟩⟩ :=
      (hends.mono (fun _ _ hok => hok.1 hclash) fun _ _ hf => hf).exists_error
    · exact ⟨net, hrun⟩
    · exact absurd hclash hno
  · obtain ⟨_, net, hrun, -, -, rfl, hsize⟩ := (hends.mono (fun _ _ hok => hok) fun _ _ hf =>
      hf.elim (fun hyes => hclash hyes.1) fun hno => hno.2.1 hpass).exists_ok
    exact ⟨net, hrun, hsize⟩
  · obtain ⟨e, net, hrun, ⟨hyes, -⟩ | ⟨-, -, rfl⟩⟩ :=
      (hends.mono (fun _ _ hok => hpass hok.2.1) fun _ _ hf => hf).exists_error
    · exact absurd hyes hclash
    · exact ⟨net, hrun⟩

/-- Between an edit and a stay of the same strength the stay prevails, which was there before. -/
theorem chain_outcome_tied :
    (∀ i < 3, (Float.ofNat i == Float.ofNat i) = true) ∧
      (∃ net, chain ⟨2, .normal, .normal, 3⟩ .empty =
        .error (.refused (.mismatch "chain" "v2" 1.0 0.0)) net) ∧
      ∃ net, chain ⟨2, .normal, .preferred, 3⟩ .empty = .ok ⟨"chain", 3, 4, 3⟩ net ∧
        net.vars.size = 3 ∧ net.constraints.size = 4 := by
  have hself : ∀ i < 3, (Float.ofNat i == Float.ofNat i) = true := by decide +kernel
  exact ⟨hself, (chain_outcome ⟨2, .normal, .normal, 3⟩ _ hself).2.2 (by decide) (by decide),
    (chain_outcome ⟨2, .normal, .preferred, 3⟩ _ hself).2.1 (by decide) (by decide)⟩

end Scenario

end ConstraintHierarchy
