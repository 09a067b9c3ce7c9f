import ConstraintHierarchy.Proofs.Changes
import ConstraintHierarchy.Proofs.Refusals

/-!
# The exchange law for additions

A new constraint that finds a method in a tree-shaped network takes a variable over. What it displaces
takes another one over, and so on, until a variable is reached that nothing computed, or a constraint
that is too weak for its other end. All the while the strength at stake is the same: it is what the first
variable carried. So an addition costs at most one satisfied constraint, whose strength is that of the
variable, and none if the variable was free.

## Main definitions

* `Network.satisfied`: the satisfied constraints of a network
* `Network.Exchanged`: the satisfied constraints are the old ones and a new one, but for the one that
  is lost
* `Network.Exchange`: the stages of a cascade

## Main results

* `Network.Exchange.ends_install`: one round of a cascade
* `Network.addConstraint_exchange`: what an addition gains and loses
-/

namespace ConstraintHierarchy

open Solve

namespace Network

/-- The satisfied constraints. -/
def satisfied (net : Network) : Set ConstraintId :=
  {c | ∃ k, net.getConstraint? c = some k ∧ k.isSatisfied = true}

/-- Since `net₀`, the constraint `c` has taken over a variable that carried less, and `lost` is the only
one that is not satisfied any more. -/
structure Exchanged (net₀ : Network) (c : ConstraintId) (lost : Option ConstraintId)
    (net : Network) : Prop where
  satisfied : ∀ e, (net.con e).isSatisfied = true ↔
    e = c ∨ ((net₀.con e).isSatisfied = true ∧ lost ≠ some e)
  loses : ∀ d, lost = some d → (net₀.con d).isSatisfied = true
  stronger : (net₀.con c).strength.StrongerThan (net₀.var (net.con c).output).walkStrength
  marked : (net.var (net.con c).output).mark = net₀.mark + 1

/-- The stages of the cascade that starts when `c` looks for a method in `net₀`. -/
inductive Exchange (net₀ : Network) (c : ConstraintId) : Option ConstraintId → Network → Prop
  | start {net : Network} (h : Quiet net₀ net) : Exchange net₀ c (some c) net
  /-- there is no method for `c` -/
  | idle {net : Network} (h : (net.con c).isSatisfied = false) : Exchange net₀ c none net
  /-- `d` has been displaced, and offers what the output of `c` carried -/
  | displaced {net : Network} {d : ConstraintId} {y : VariableId}
    (h : Exchanged net₀ c (some d) net) (hy : Displaced net (net₀.mark + 1) d y)
    (hoffer : net.offer d y = (net₀.var (net.con c).output).walkStrength) :
    Exchange net₀ c (some d) net
  /-- a variable was free -/
  | filled {net : Network} (h : Exchanged net₀ c none net)
    (hfree : (net₀.var (net.con c).output).walkStrength = .weakest) : Exchange net₀ c none net
  /-- there is no other method for `d` -/
  | lost {net : Network} {d : ConstraintId} (h : Exchanged net₀ c (some d) net)
    (hstrength : (net₀.con d).strength = (net₀.var (net.con c).output).walkStrength) :
    Exchange net₀ c none net

variable {net net' net₀ : Network} {mark : Nat} {c d e o : ConstraintId} {flow : Flow}
  {v x y z : VariableId}

theorem mem_satisfied : c ∈ net.satisfied ↔ (net.con c).isSatisfied = true := by
  constructor
  · rintro ⟨k, hk, hs⟩
    obtain ⟨-, rfl⟩ := getConstraint?_eq_some.1 hk
    exact hs
  · intro hs
    exact ⟨_, getConstraint?_eq_con (known_of_isSatisfied hs), hs⟩

/-! ## What a displaced constraint offers -/

/-- If it finds another method, its new output carries what it offers: it is stronger than that. -/
theorem Displaced.walkStrength_eq_offer (h : Displaced net mark o y)
    (hf : net.flowFor mark o = some flow) :
    (net.var (net.directed o flow).output).walkStrength = net.offer o y := by
  have hj := Constraint.joins_of_input (h.flows hf).1
  obtain ⟨⟨hunmarked, hweak⟩, -⟩ := flowFor_some hf
  have hne : y ≠ (net.directed o flow).output := by
    intro heq
    rw [← heq, h.marked] at hunmarked
    exact hunmarked rfl
  have hweak' : (net.con o).strength.rank <
      (net.var (net.directed o flow).output).walkStrength.rank := hweak
  apply Strength.rank_injective
  rw [offer_of_joins hj hne, Strength.rank_weakerOf]
  omega

/-- If it finds no other method, what it offers is its own strength. -/
theorem Displaced.strength_eq_offer (h : Displaced net mark o y) (htree : net.TreeShaped)
    (ha : (net.con o).attached = true) (hf : net.flowFor mark o = none) :
    (net.con o).strength = net.offer o y := by
  rcases Kind.anchors_or_joins h.mem with hk | ⟨z, hj⟩
  · rw [offer_of_anchors hk]
  · have hedge : net.Edge o y z := ⟨ha, hj⟩
    have hz := flowFor_none hf hj.symm.mem_outputs (h.unmarked htree hedge)
    apply Strength.rank_injective
    rw [offer_of_joins hj (htree.ne hedge), Strength.rank_weakerOf]
    omega

/-! ## One round -/

/-- Only what computed the new output is not satisfied any more. -/
theorem Overridden.isSatisfied_iff (h : Overridden net mark o flow net') (ht : net.TakesOver o flow) :
    (net'.con e).isSatisfied = true ↔ e = o ∨ ((net.con e).isSatisfied = true ∧
      (net.var (net.directed o flow).output).determinedBy ≠ some e) := by
  rw [h.con, ht.isSatisfied_iff]
  refine or_congr_right (and_congr_right fun hs => not_congr ?_)
  rw [ht.settled.coherent.determines]
  exact ⟨fun hout => ⟨hs, hout⟩, fun hdet => hdet.2⟩

/-- A round of a cascade: nothing happens, or the constraint takes its new output over and the walk that
follows meets no cycle. -/
theorem Overriding.ends_install_step {rollback : ConstraintId → Solve Unit}
    {ok : Option ConstraintId → Network → Prop} (h : Overriding net₀ c (some o) net)
    (hcas : Cascading net₀ (some o) net)
    (weak : net.flowFor (net₀.mark + 1) o = none → ok none net)
    (flows : ∀ flow net', net.flowFor (net₀.mark + 1) o = some flow → net.TakesOver o flow →
      Overridden net (net₀.mark + 1) o flow net' →
      ok (net.var (net.directed o flow).output).determinedBy net') :
    Ends (install rollback (net₀.mark + 1) o) net ok (fun _ _ => True) := by
  obtain ⟨hset, -, hfloat⟩ := hcas
  obtain ⟨ha, hu⟩ := hfloat o rfl
  refine Network.ends_install hset.coherent ha hu (fun _ _ => trivial) (fun hf _ => weak hf) ?_
  intro flow hf
  have ht := h.isAfloat.takesOver hset h.tree ha hu hf
  have hsafe := fun w (hw : net.Near (net.directed o flow).output w) =>
    h.isAfloat.unmarked hset h.tree ha hu hf hw
  refine (ht.ends_propagate hsafe).mono ?_ fun _ _ _ => trivial
  intro _ net' hrise
  exact ⟨hrise.graph.variableCount.trans takenOver_size, flows flow _ hf ht (ht.overridden hrise)⟩

namespace Exchange

/-- After a take-over the next constraint is afloat, or nothing was displaced. -/
theorem of_overridden (haf : Afloat net (net₀.mark + 1) o)
    (hf : net.flowFor (net₀.mark + 1) o = some flow) (ht : net.TakesOver o flow)
    (hover : Overridden net (net₀.mark + 1) o flow net')
    (h : Exchanged net₀ c (net.var (net.directed o flow).output).determinedBy net')
    (hcarried : (net.var (net.directed o flow).output).walkStrength =
      (net₀.var (net'.con c).output).walkStrength) :
    Exchange net₀ c (net.var (net.directed o flow).output).determinedBy net' := by
  cases hd : (net.var (net.directed o flow).output).determinedBy with
  | none =>
    rw [hd] at h
    have hfree := congrArg Annotation.walkStrength ((ht.settled.exact _).trans (due_of_none hd))
    exact .filled h (hcarried.symm.trans hfree)
  | some d =>
    rw [hd] at h
    obtain ⟨hs, hout⟩ := (ht.settled.coherent.determines _ d).1 hd
    have hoffer := hover.offer ht hs hout
    rw [hout] at hoffer
    exact .displaced h (hover.displaced ht haf hf hd) (hoffer.trans hcarried)

/-- The first round: `c` takes its output over. -/
theorem first (hq : Quiet net₀ net) (ht : net.TakesOver c flow)
    (hover : Overridden net (net₀.mark + 1) c flow net') :
    Exchanged net₀ c (net.var (net.directed c flow).output).determinedBy net' ∧
      (net.var (net.directed c flow).output).walkStrength =
        (net₀.var (net'.con c).output).walkStrength := by
  have hcon : net'.con c = net.directed c flow := by rw [hover.con, ht.con_self]
  have hcarried : ∀ v, (net.var v).walkStrength = (net₀.var v).walkStrength :=
    fun v => congrArg Annotation.walkStrength (hq.current v)
  refine ⟨⟨fun e => ?_, fun d hd => ?_, ?_, ?_⟩, ?_⟩
  · rw [hover.isSatisfied_iff ht, hq.con]
  · rw [← hq.con]
    exact ((ht.settled.coherent.determines _ d).1 hd).1
  · rw [hcon, ← hcarried, ← hq.con]
    exact ht.weaker
  · rw [hcon]
    exact hover.markedOutput
  · rw [hcon, hcarried]

/-- A later round: a displaced constraint takes another variable over. The output of `c` is marked, so it
is not that one. -/
theorem next (h : Exchanged net₀ c (some o) net) (hf : net.flowFor (net₀.mark + 1) o = some flow)
    (ht : net.TakesOver o flow) (hover : Overridden net (net₀.mark + 1) o flow net') :
    Exchanged net₀ c (net.var (net.directed o flow).output).determinedBy net' ∧
      (net'.con c).output = (net.con c).output := by
  obtain ⟨⟨hunmarked, -⟩, -⟩ := flowFor_some hf
  have hsat : (net.con c).isSatisfied = true := (h.satisfied c).2 (.inl rfl)
  have hout : (net.con c).output ≠ (net.directed o flow).output := by
    intro heq
    rw [← heq, h.marked] at hunmarked
    exact hunmarked rfl
  have hcon : net'.con c = net.con c := by rw [hover.con, ht.con_of_satisfied hsat hout]
  have hkeep : (net.var (net.directed o flow).output).determinedBy ≠ some c := fun hd =>
    hout ((ht.settled.coherent.determines _ c).1 hd).2
  have hnot : (net.var (net.directed o flow).output).determinedBy ≠ some o := fun hd =>
    absurd (((ht.settled.coherent.determines _ o).1 hd).1.symm.trans ht.unsatisfied) nofun
  refine ⟨⟨fun e => ?_, fun d hd => ?_, by rw [hcon]; exact h.stronger, ?_⟩, by rw [hcon]⟩
  · rw [hover.isSatisfied_iff ht, h.satisfied]
    constructor
    · rintro (rfl | ⟨rfl | ⟨hs, -⟩, hne⟩)
      · exact .inr ⟨h.loses e rfl, hnot⟩
      · exact .inl rfl
      · exact .inr ⟨hs, hne⟩
    · rintro (rfl | ⟨hs, hne⟩)
      · exact .inr ⟨.inl rfl, hkeep⟩
      · by_cases heo : e = o
        · exact .inl heo
        · exact .inr ⟨.inr ⟨hs, fun heq => heo (Option.some.inj heq).symm⟩, hne⟩
  · obtain ⟨hs, -⟩ := (ht.settled.coherent.determines _ d).1 hd
    rcases (h.satisfied d).1 hs with rfl | ⟨hs, -⟩
    · exact absurd hd hkeep
    · exact hs
  · rw [hcon]
    rcases hover.marked (net.con c).output with heq | ⟨heq, -⟩
    · rw [heq, h.marked]
    · exact heq

/-- One round of a cascade goes from one stage to the next. -/
theorem ends_install {rollback : ConstraintId → Solve Unit} (h : Exchange net₀ c (some o) net)
    (hcas : Cascading net₀ (some o) net) (hov : Overriding net₀ c (some o) net) :
    Ends (install rollback (net₀.mark + 1) o) net (Exchange net₀ c) (fun _ _ => True) := by
  obtain ⟨ha, hu⟩ := hcas.2.2 o rfl
  cases h with
  | start hq =>
    refine hov.ends_install_step hcas (fun _ => .idle hu) fun flow net' hf ht hover => ?_
    obtain ⟨hex, hcarried⟩ := first hq ht hover
    exact of_overridden hov.isAfloat hf ht hover hex hcarried
  | displaced hex hy hoffer =>
    refine hov.ends_install_step hcas (fun hf => ?_) fun flow net' hf ht hover => ?_
    · refine .lost hex ?_
      rw [← hcas.2.1.strength, hy.strength_eq_offer hov.tree ha hf, hoffer]
    · obtain ⟨hex', hout⟩ := next hex hf ht hover
      refine of_overridden hov.isAfloat hf ht hover hex' ?_
      rw [hout, hy.walkStrength_eq_offer hf, hoffer]

theorem journal {o : Option ConstraintId} {event : Event} (h : Exchange net₀ c o net) :
    Exchange net₀ c o { net with journal := net.journal.push event } := by
  have hq : Quiet net { net with journal := net.journal.push event } := quiet_note
  have hex : ∀ {lost}, Exchanged net₀ c lost net →
      Exchanged net₀ c lost { net with journal := net.journal.push event } :=
    fun hex => ⟨hex.satisfied, hex.loses, hex.stronger, hex.marked⟩
  cases h with
  | start h => exact .start (h.trans hq)
  | idle h => exact .idle h
  | displaced h hy hoffer =>
    exact .displaced (hex h) ⟨hy.mem, hy.marked, hy.visited, hy.offer, hy.replaceable⟩ hoffer
  | filled h hfree => exact .filled (hex h) hfree
  | lost h hstrength => exact .lost (hex h) hstrength

end Exchange

/-! ## Whole additions -/

/-- No variable carries less than in `net₀`. -/
def Rises (net₀ net : Network) : Prop :=
  ∀ v, (net.var v).walkStrength.rank ≤ (net₀.var v).walkStrength.rank

theorem Overriding.ends_install_rises {rollback : ConstraintId → Solve Unit}
    (h : Overriding net₀ c (some o) net) (hcas : Cascading net₀ (some o) net) (hr : Rises net₀ net) :
    Ends (install rollback (net₀.mark + 1) o) net (fun _ => Rises net₀) (fun _ _ => True) :=
  h.ends_install_step hcas (fun _ => hr) fun _ _ _ _ hover v =>
    Nat.le_trans (hover.rising v) (hr v)

theorem ends_establish_exchange (n : Nat) (hset : net₀.Settled) (htree : net₀.TreeShaped)
    (hmarks : net₀.MarksPast) (ha : (net₀.con c).attached = true)
    (hu : (net₀.con c).isSatisfied = false)
    (hreq : ∀ e, (net₀.con e).attached = true → (net₀.con e).strength = .required →
      (net₀.con e).isSatisfied = false → e = c) :
    Ends (establish n c) net₀ (fun _ net' => Exchange net₀ c none net' ∧ Rises net₀ net')
      (fun _ _ => True) := by
  cases n with
  | zero => trivial
  | succ n =>
    let J : Option ConstraintId → Network → Prop := fun o net =>
      (Cascading net₀ o net ∧ Overriding net₀ c o net) ∧ Exchange net₀ c o net ∧ Rises net₀ net
    have hroll : Withdraws (withdrawUsing (establish n)) := withdraws_withdraw n
    have hstart : J (some c) { net₀ with mark := net₀.mark + 1 } :=
      ⟨⟨.start hset ha hu, .start htree hmarks hreq⟩, .start quiet_freshMark, fun _ => Nat.le_refl _⟩
    refine (ends_establishUsing (J := J) hstart ?_ ?_ fun _ => trivial).mono_ok fun _ _ h => h.2
    · rintro o net' ⟨⟨hcas, hov⟩, hex, hr⟩
      exact (((hroll.ends_install hcas).and (hov.ends_install hcas)).and
        ((hex.ends_install hcas hov).and (hov.ends_install_rises hcas hr))).mono
        (fun _ _ h => h) fun _ _ _ => trivial
    · rintro o net' event ⟨⟨hcas, hov⟩, hex, hr⟩
      exact ⟨⟨hcas.journal, hov.journal⟩, hex.journal, hr⟩

theorem ends_addConstraint_exchange {kind : Kind} {strength : Strength} (h : net.TreeSolution)
    (hk : ∀ v ∈ kind.operands, v.index < net.vars.size)
    (htree : (net.registered kind strength).TreeShaped) :
    Ends (addConstraint kind strength) net
      (fun c net' => c = ⟨net.constraints.size⟩ ∧
        Exchange (net.registered kind strength) c none net' ∧
        Rises (net.registered kind strength) net')
      (fun _ _ => True) := by
  rw [addConstraint, ends_bind, ends_checkVariables_known hk, ends_bind, ends_register hk, ends_bind,
    ends_nesting, ends_bind]
  refine (ends_orDetach (ends_establish_exchange _ (h.settled.registered hk) htree
    (h.marksPast.registered hk) registered_new_attached registered_new_unsatisfied
    fun e => h.registered_required) (fun _ _ _ _ => trivial) fun _ _ => ends_true).mono_ok ?_
  exact fun _ _ hend => ⟨rfl, hend⟩

section Registered

variable {kind : Kind} {strength : Strength} {lost : Option ConstraintId}

theorem Exchanged.satisfied_eq (h : Exchanged (net.registered kind strength) c lost net') :
    net'.satisfied = insert c (net.satisfied \ {e | lost = some e}) := by
  ext e
  rw [mem_satisfied, h.satisfied, registered_isSatisfied, ← mem_satisfied]
  rfl

theorem registered_con_of_isSatisfied (h : (net.con d).isSatisfied = true) :
    (net.registered kind strength).con d = net.con d := by
  apply registered_con_of_ne
  rintro rfl
  exact Nat.lt_irrefl _ (known_of_isSatisfied h)

end Registered

/-- After a tree-shaped run, let a new constraint be added that keeps the graph a forest and finds a
method. If the variable that it computes was free, all that was satisfied still is. Otherwise one
constraint is lost, whose strength is what the variable carried, less than that of the new constraint. No
variable carries less than before. -/
theorem addConstraint_exchange {kind : Kind} {strength : Strength} {k : Constraint} (h : net.TreeRun)
    (htree : ∀ net₁, (Request.add kind strength).opening net = .ok () net₁ → net₁.TreeShaped)
    (hadd : addConstraint kind strength net = .ok c net') (hc : net'.getConstraint? c = some k)
    (hs : k.isSatisfied = true) :
    ∃ x, net.getVariable? k.output = some x ∧ strength.StrongerThan x.walkStrength ∧
      c ∉ net.satisfied ∧
      ((x.walkStrength = .weakest ∧ net'.satisfied = insert c net.satisfied) ∨
        (x.walkStrength ≠ .weakest ∧ ∃ d l, net.getConstraint? d = some l ∧ l.isSatisfied = true ∧
          l.strength = x.walkStrength ∧ net'.satisfied = insert c (net.satisfied \ {d}))) ∧
      ∀ v y y', net.getVariable? v = some y → net'.getVariable? v = some y' →
        ¬ y.walkStrength.StrongerThan y'.walkStrength := by
  have hsol := h.solution
  have hreg : net.Regular := regular_of_run h
  obtain ⟨rfl, hk, hl⟩ :=
    (leads_addConstraint hreg.coherent region_true fun _ _ => trivial).of_ok hadd
  obtain ⟨-, hex, hrises⟩ :=
    (ends_addConstraint_exchange hsol hk (htree _ (opening_add hk))).of_ok hadd
  obtain ⟨-, rfl⟩ := getConstraint?_eq_some.1 hc
  have hcarried : ∀ v, ((net.registered kind strength).var v).walkStrength =
      (net.var v).walkStrength := fun v => by rw [registered_var hk]
  have hkind : (net'.con ⟨net.constraints.size⟩).kind = kind := by rw [hl.kind, registered_con_new]
  have hknown : (net'.con ⟨net.constraints.size⟩).output.index < net.vars.size :=
    hk _ (hkind ▸ Constraint.output_mem_operands)
  have hfresh : ⟨net.constraints.size⟩ ∉ net.satisfied := fun hmem =>
    Nat.lt_irrefl _ (known_of_isSatisfied (mem_satisfied.1 hmem))
  have hnotweaker : ∀ v y y', net.getVariable? v = some y → net'.getVariable? v = some y' →
      ¬ y.walkStrength.StrongerThan y'.walkStrength := by
    intro v y y' hy hy'
    obtain ⟨-, rfl⟩ := getVariable?_eq_some.1 hy
    obtain ⟨-, rfl⟩ := getVariable?_eq_some.1 hy'
    rw [← hcarried]
    exact Nat.not_lt.2 (hrises v)
  have hstronger : ∀ {lost}, Exchanged (net.registered kind strength) ⟨net.constraints.size⟩ lost net' →
      strength.StrongerThan (net.var (net'.con ⟨net.constraints.size⟩).output).walkStrength := by
    intro lost hlost
    have hstronger := hlost.stronger
    rwa [hcarried, registered_con_new] at hstronger
  refine ⟨_, getVariable?_eq_var hknown, ?_⟩
  cases hex with
  | idle hidle =>
    rw [hidle] at hs
    cases hs
  | filled hfilled hfree =>
    rw [hcarried] at hfree
    refine ⟨hstronger hfilled, hfresh, .inl ⟨hfree, ?_⟩, hnotweaker⟩
    rw [hfilled.satisfied_eq]
    simp
  | @lost _ d hlost hstrength =>
    have hd : (net.con d).isSatisfied = true := by
      rw [← registered_isSatisfied]
      exact hlost.loses d rfl
    rw [hcarried, registered_con_of_isSatisfied hd] at hstrength
    refine ⟨hstronger hlost, hfresh, .inr ⟨?_, d, _, getConstraint?_eq_con (known_of_isSatisfied hd), hd,
      hstrength, ?_⟩, hnotweaker⟩
    · rw [← hstrength]
      exact (hreg.chosen d hd).strength
    · rw [hlost.satisfied_eq]
      simp

end Network

/-- A required equality hands a weak stay on. -/
def handedRequests : List Request :=
  [.addVariable "a" 1, .addVariable "b" 2, .add (.stay ⟨0⟩) .weakDefault,
    .add (.equal ⟨0⟩ ⟨1⟩) .required]

def handedNetwork : Network :=
  (Request.runAll Request.growsForest handedRequests .empty).get (by decide +kernel)

namespace Network

theorem ends_addConstraint_handedNetwork :
    Ends (addConstraint (.edit ⟨1⟩) .preferred) handedNetwork
      (fun c net' => c = ⟨2⟩ ∧ net'.getConstraint? c =
        some ⟨.edit ⟨1⟩, .preferred, some .forward, true⟩)
      (fun _ _ => False) := by
  decide +kernel

/-- An edit at the far end turns the equality round, which costs the stay. -/
theorem addConstraint_exchange_handedNetwork :
    ∃ net', addConstraint (.edit ⟨1⟩) .preferred handedNetwork = .ok ⟨2⟩ net' ∧
      ∃ d l, handedNetwork.getConstraint? d = some l ∧ l.strength = .weakDefault ∧
        net'.satisfied = insert ⟨2⟩ (handedNetwork.satisfied \ {d}) := by
  have hrun : handedNetwork.TreeRun := TreeRun.of_runAll (Option.some_get _).symm
  have hb : handedNetwork.getVariable? ⟨1⟩ = some (handedNetwork.var ⟨1⟩) :=
    getVariable?_eq_var (by decide +kernel)
  have hcarried : (handedNetwork.var ⟨1⟩).walkStrength = .weakDefault := by decide +kernel
  obtain ⟨_, net', hadd, rfl, hk⟩ := ends_addConstraint_handedNetwork.exists_ok
  obtain ⟨x, hx, -, -, hcost, -⟩ := addConstraint_exchange hrun
    (treeShaped_of_growsForest (by decide +kernel)) hadd hk rfl
  obtain rfl : handedNetwork.var ⟨1⟩ = x := Option.some.inj (hb.symm.trans hx)
  rcases hcost with ⟨hweakest, -⟩ | ⟨-, d, l, hd, -, hstrength, hset⟩
  · rw [hcarried] at hweakest
    cases hweakest
  · exact ⟨net', hadd, d, l, hd, hstrength.trans hcarried, hset⟩

end Network

end ConstraintHierarchy
