import ConstraintHierarchy.Proofs.Rising

/-!
# Cascades in a tree-shaped network

A constraint that takes over a variable displaces the one that computed it, which looks for another
method in the same walk, and so on. In a tree-shaped network the marks of the walk stay behind the
displaced constraint: all of them are linked to the variable it was displaced from without it. So it
can always be decided by the strength at its other end alone, no cycle is met, and a displaced
constraint that finds no method is too weak for both of its ends.

## Main definitions

* `Network.Displaced`: a constraint has just lost a variable to the walk
* `Network.Overriding`: the invariant of a cascade

## Main results

* `Network.ends_establish_tree`: satisfying a constraint blocks no other
-/

namespace ConstraintHierarchy.Network

open Solve Relation

variable {net net' : Network} {mark : Nat} {c d o : ConstraintId} {flow : Flow}
  {v w x y z : VariableId}

/-! ## Graphs that are kept -/

theorem Keeps.edge (h : Keeps net net') : net'.Edge d v w ↔ net.Edge d v w := by
  rw [Edge, Edge, h.attached, h.kind]

theorem Keeps.linked (h : Keeps net net') {p : ConstraintId → Prop} (hl : net.Linked p v w) :
    net'.Linked p v w :=
  hl.lift id fun _ _ ⟨d, hd, hedge⟩ => ⟨d, hd, h.edge.2 hedge⟩

/-- What lies beyond `y`, seen from the edge `o` between `x` and `y`, is linked to `y` without any
constraint on `x`. -/
theorem TreeShaped.linked_of_linked (h : net.TreeShaped) (ho : net.Edge o x y)
    (hd : x ∈ (net.con d).kind.outputs) (hl : net.Linked (· ≠ o) y w) :
    net.Linked (· ≠ d) y w := by
  induction hl with
  | refl => exact .refl
  | @tail a b hpre hstep ih =>
    obtain ⟨e, heo, hedge⟩ := hstep
    refine ih.tail ⟨e, ?_, hedge⟩
    rintro rfl
    -- one end of the step would be `x`
    rcases hedge.2.eq_or_eq hd with rfl | rfl
    · exact h.not_linked ho.symm (by simp) hpre
    · exact h.not_linked ho.symm (by simp) (hpre.tail ⟨e, heo, hedge⟩)

/-- What an unsatisfied edge at `x` shields is linked to `x` without it. -/
theorem Near.linked (h : net.Near x w) (htree : net.TreeShaped) (hedge : net.Edge o x y)
    (hu : (net.con o).isSatisfied = false) : net.Linked (· ≠ o) x w := by
  rcases h with hparam | hlink
  · exact absurd hedge (htree.parameters x hparam o y)
  · refine Linked.mono hlink ?_
    exact fun d hd => (ne_of_isSatisfied hu hd.1).symm

/-! ## A displaced constraint -/

/-- The constraint `o` has just been displaced from `y` by the walk `mark`. What it offered `y` was
replaceable and is no stronger than what `y` carries now; the walk has visited only ends of edges on
the side of `y`. -/
structure Displaced (net : Network) (mark : Nat) (o : ConstraintId) (y : VariableId) : Prop where
  mem : y ∈ (net.con o).kind.outputs
  marked : (net.var y).mark = mark
  visited : ∀ m, (net.var m).mark = mark →
    (∀ d w, ¬ net.Edge d m w) ∨ net.Linked (· ≠ o) y m
  offer : (net.var y).walkStrength.rank ≤ (net.offer o y).rank
  replaceable : 0 < (net.offer o y).rank

/-- Either the walk has not visited anything, or `o` has been displaced by it. -/
def Afloat (net : Network) (mark : Nat) (o : ConstraintId) : Prop :=
  (∀ v, (net.var v).mark ≠ mark) ∨ ∃ y, Displaced net mark o y

namespace Displaced

theorem unmarked (h : Displaced net mark o y) (htree : net.TreeShaped) (hedge : net.Edge o y z) :
    (net.var z).mark ≠ mark := by
  intro hz
  rcases h.visited z hz with hnone | hlink
  · exact hnone o y hedge.symm
  · exact htree.not_linked hedge (by simp) hlink

/-- Without a method, a displaced constraint is too weak for all of its outputs, and not required. -/
theorem stuck (h : Displaced net mark o y) (htree : net.TreeShaped)
    (ha : (net.con o).attached = true) (hf : net.flowFor mark o = none) :
    (∀ v ∈ (net.con o).kind.outputs, (net.var v).walkStrength.rank ≤ (net.con o).strength.rank) ∧
      0 < (net.con o).strength.rank := by
  have hoffer := h.offer
  have hpos := h.replaceable
  -- the end it was displaced from is covered by the offer, the other end by the choice of a method
  rcases Kind.anchors_or_joins h.mem with hk | ⟨z, hj⟩
  · rw [offer_of_anchors hk] at hoffer hpos
    refine ⟨fun v hv => ?_, hpos⟩
    rw [hk.eq_of_mem hv]
    exact hoffer
  · have hedge : net.Edge o y z := ⟨ha, hj⟩
    have hz := flowFor_none hf hj.symm.mem_outputs (h.unmarked htree hedge)
    rw [offer_of_joins hj (htree.ne hedge), Strength.rank_weakerOf] at hoffer hpos
    refine ⟨fun v hv => ?_, by omega⟩
    rcases hj.eq_or_eq hv with rfl | rfl
    · omega
    · exact hz

/-- With a method, it flows away from the variable it was displaced from, which is at least as strong
as its new output. -/
theorem flows (h : Displaced net mark o y) (hf : net.flowFor mark o = some flow) :
    (net.directed o flow).input = some y ∧
      (net.var y).walkStrength.rank ≤
        (net.var (net.directed o flow).output).walkStrength.rank := by
  obtain ⟨⟨hunmarked, hweak⟩, -⟩ := flowFor_some hf
  have hne : y ≠ (net.directed o flow).output := by
    intro heq
    rw [← heq, h.marked] at hunmarked
    exact hunmarked rfl
  have hi : (net.directed o flow).input = some y :=
    (Kind.mem_outputs_iff.1 h.mem).resolve_left hne
  have hj := Constraint.joins_of_input hi
  have hoffer := h.offer
  rw [offer_of_joins hj hne, Strength.rank_weakerOf] at hoffer
  have hweak' : (net.con o).strength.rank <
      (net.var (net.directed o flow).output).walkStrength.rank := hweak
  exact ⟨hi, by omega⟩

end Displaced

namespace Afloat

/-- A constraint that looks for a method in a cascade takes over its output safely. -/
theorem takesOver (h : Afloat net mark o) (hset : net.Settled) (htree : net.TreeShaped)
    (ha : (net.con o).attached = true) (hu : (net.con o).isSatisfied = false)
    (hf : net.flowFor mark o = some flow) : net.TakesOver o flow := by
  obtain ⟨⟨-, hweak⟩, hinput⟩ := flowFor_some hf
  refine ⟨hset, htree, ha, hu, hweak, ?_⟩
  intro v hv
  rcases hinput v hv with hm | hle
  · rcases h with hfresh | ⟨y, hy⟩
    · exact absurd hm (hfresh v)
    · obtain ⟨hi, hle⟩ := hy.flows hf
      rw [hv] at hi
      cases hi
      exact hle
  · exact hle

/-- The walk meets no mark of its own. -/
theorem unmarked (h : Afloat net mark o) (hset : net.Settled) (htree : net.TreeShaped)
    (ha : (net.con o).attached = true) (hu : (net.con o).isSatisfied = false)
    (hf : net.flowFor mark o = some flow)
    (hw : net.Near (net.directed o flow).output w) :
    ((net.takenOver mark o flow).var w).mark ≠ mark := by
  have hgoal : w ∉ (net.directed o flow).reads ∧ (net.var w).mark ≠ mark := by
    cases hi : (net.directed o flow).input with
    | none =>
      -- a unary constraint reads nothing, and the walk has just begun
      rcases h with hfresh | ⟨y, hy⟩
      · exact ⟨by simp [Constraint.reads_eq_nil hi], hfresh w⟩
      · rw [(hy.flows hf).1] at hi
        cases hi
    | some u =>
      have hedge : net.Edge o (net.directed o flow).output u :=
        ⟨ha, (Constraint.joins_of_input hi).symm⟩
      have hlink : net.Linked (· ≠ o) (net.directed o flow).output w :=
        hw.linked htree hedge hu
      obtain ⟨e, z, hend⟩ : ∃ e z, net.Edge e w z := by
        rcases Linked.eq_or_edge hlink with heq | hend
        · exact ⟨o, u, heq ▸ hedge⟩
        · exact hend
      constructor
      · rw [Constraint.mem_reads, hi]
        rintro (heq | hp)
        · cases heq
          exact htree.not_linked hedge (by simp) hlink
        · exact htree.parameters w ⟨o, ha, hp⟩ e z hend
      · -- earlier marks lie beyond the input of `o`, on the other side of the bridge
        intro hm
        rcases h with hfresh | ⟨y, hy⟩
        · exact hfresh w hm
        · rcases hy.visited w hm with hnone | hback
          · exact hnone e z hend
          · rw [(hy.flows hf).1] at hi
            cases hi
            exact htree.not_linked hedge (by simp) (hlink.trans (Linked.symm hback))
  rw [takenOver_var hset.coherent (known_of_attached ha)]
  simpa only [if_neg hgoal.1] using hgoal.2

end Afloat

/-! ## One step of a cascade -/

/-- The network `net'` after `o` has taken over its output in `net` and the walk has ended. -/
structure Overridden (net : Network) (mark : Nat) (o : ConstraintId) (flow : Flow)
    (net' : Network) : Prop where
  con : net'.con = (net.takenOver mark o flow).con
  keeps : Keeps net net'
  counter : net'.mark = net.mark
  markedOutput : (net'.var (net.directed o flow).output).mark = mark
  marked : ∀ v, (net'.var v).mark = (net.var v).mark ∨ ((net'.var v).mark = mark ∧
    (v = (net.directed o flow).output ∨ v ∈ (net.directed o flow).reads))
  rising : ∀ v, (net'.var v).walkStrength.rank ≤ (net.var v).walkStrength.rank
  elsewhere : ∀ v, ¬ net.Near (net.directed o flow).output v →
    (net'.var v).walkStrength = (net.var v).walkStrength

theorem TakesOver.overridden (h : net.TakesOver o flow) (hrise : Rising net mark o flow net' []) :
    Overridden net mark o flow
      (net'.alterVariable (net.directed o flow).output fun x => { x with mark := mark }) := by
  have hsize : net'.vars.size = net.vars.size :=
    hrise.graph.variableCount.trans takenOver_size
  have hout : (net.directed o flow).output.index < net'.vars.size := by
    rw [hsize]
    exact h.settled.coherent.known_directed_output h.known
  have hws : ∀ v, ((net'.alterVariable (net.directed o flow).output
      fun x => { x with mark := mark }).var v).walkStrength = (net'.var v).walkStrength :=
    fun _ => alterVariable_var_field fun _ => rfl
  have hgraph : SameGraph net' (net'.alterVariable (net.directed o flow).output
      fun x => { x with mark := mark }) :=
    sameGraph_alterVariable (fun _ => rfl) fun _ => rfl
  refine ⟨hgraph.con.trans hrise.graph.con,
    keeps_takenOver.trans (hrise.graph.keeps.trans hgraph.keeps), hrise.counter,
    by rw [alterVariable_var_self hout], ?_, fun v => by rw [hws]; exact hrise.rising v,
    fun v hv => by rw [hws]; exact hrise.elsewhere v hv⟩
  intro v
  by_cases hv : v = (net.directed o flow).output
  · subst hv
    exact .inr ⟨by rw [alterVariable_var_self hout], .inl rfl⟩
  · rw [alterVariable_var_of_ne hv, hrise.marks, takenOver_var h.settled.coherent h.known]
    by_cases hr : v ∈ (net.directed o flow).reads
    · exact .inr ⟨if_pos hr, .inr hr⟩
    · exact .inl (if_neg hr)

namespace Overridden

/-- What is unsatisfied afterwards was so before, or has been displaced. -/
theorem unsatisfied (h : Overridden net mark o flow net') (ht : net.TakesOver o flow)
    (hd : (net'.con d).isSatisfied = false) :
    (net.var (net.directed o flow).output).determinedBy = some d ∨
      ((net.con d).isSatisfied = false ∧ d ≠ o) := by
  have hne : d ≠ o := by
    rintro rfl
    rw [h.con, ht.con_self] at hd
    cases hd
  by_cases hs : (net.con d).isSatisfied = true
  · left
    have hout : (net.con d).output = (net.directed o flow).output := by
      by_contra hout
      rw [h.con, ht.con_of_satisfied hs hout, hs] at hd
      cases hd
    rw [← hout]
    exact ht.settled.coherent.determinedBy_output hs
  · exact .inr ⟨by simpa using hs, hne⟩

theorem blocked (h : Overridden net mark o flow net') (ht : net.TakesOver o flow)
    (hd : net'.Blocked d) :
    (net.var (net.directed o flow).output).determinedBy = some d ∨ (net.Blocked d ∧ d ≠ o) := by
  obtain ⟨ha, hu, v, hv, hs⟩ := hd
  refine (h.unsatisfied ht hu).imp_right ?_
  rintro ⟨hu', hne⟩
  rw [h.keeps.attached] at ha
  rw [h.keeps.kind] at hv
  rw [h.keeps.strength] at hs
  exact ⟨⟨ha, hu', v, hv, Nat.lt_of_lt_of_le hs (h.rising v)⟩, hne⟩

/-- The offer of the displaced constraint does not change: its other end is shielded. -/
theorem offer (h : Overridden net mark o flow net') (ht : net.TakesOver o flow)
    (hd : (net.con d).isSatisfied = true)
    (hx : (net.con d).output = (net.directed o flow).output) :
    net'.offer d (net.con d).output = (net.var (net.con d).output).walkStrength := by
  rw [ht.settled.walkStrength_eq_offer hd]
  have hs := h.keeps.strength d
  have hk := h.keeps.kind d
  have hmem : (net.con d).output ∈ (net.con d).kind.outputs := Kind.output_mem_outputs
  rcases Kind.anchors_or_joins hmem with hanchor | ⟨z, hj⟩
  · rw [offer_of_anchors hanchor, offer_of_anchors (hk ▸ hanchor), hs]
  · have hedge : net.Edge d (net.con d).output z := ⟨ht.settled.coherent.attached d hd, hj⟩
    have hne := ht.tree.ne hedge
    have hz : ¬ net.Near (net.directed o flow).output z := by
      rw [← hx]
      exact ht.tree.not_near hedge fun _ => rfl
    rw [offer_of_joins hj hne, offer_of_joins (hk ▸ hj) hne, hs, h.elsewhere z hz]

/-- All that the walk has visited by now lies on the near side of the displaced constraint. -/
theorem visited (h : Overridden net mark o flow net') (ht : net.TakesOver o flow)
    (haf : Afloat net mark o) (hf : net.flowFor mark o = some flow) (hne : o ≠ d)
    (hd : (net.directed o flow).output ∈ (net.con d).kind.outputs)
    (hm : (net'.var v).mark = mark) :
    (∀ e w, ¬ net.Edge e v w) ∨ net.Linked (· ≠ d) (net.directed o flow).output v := by
  have hedge : ∀ u, (net.directed o flow).input = some u →
      net.Edge o (net.directed o flow).output u :=
    fun u hu => ⟨ht.attached, (Constraint.joins_of_input hu).symm⟩
  have hlink : ∀ u, (net.directed o flow).input = some u →
      net.Linked (· ≠ d) (net.directed o flow).output u :=
    fun u hu => linked_of_edge hne (hedge u hu)
  rcases h.marked v with heq | ⟨-, rfl | hr⟩
  · -- visited by an earlier round, so linked to what `o` reads
    rw [hm] at heq
    rcases haf with hfresh | ⟨y, hy⟩
    · exact absurd heq.symm (hfresh v)
    · have hi := (hy.flows hf).1
      refine (hy.visited v heq.symm).imp_right fun hback => ?_
      exact (hlink y hi).trans (ht.tree.linked_of_linked (hedge y hi) hd hback)
  · exact .inr .refl
  · rcases Constraint.mem_reads.1 hr with hi | hp
    · exact .inr (hlink v hi)
    · exact .inl (ht.tree.parameters v ⟨o, ht.attached, hp⟩)

theorem displaced (h : Overridden net mark o flow net') (ht : net.TakesOver o flow)
    (haf : Afloat net mark o) (hf : net.flowFor mark o = some flow)
    (hd : (net.var (net.directed o flow).output).determinedBy = some d) :
    Displaced net' mark d (net.directed o flow).output := by
  obtain ⟨hs, hx⟩ := (ht.settled.coherent.determines _ d).1 hd
  have hne : o ≠ d := ne_of_determinedBy ht.settled.coherent ht.unsatisfied hd
  have hmem : (net.directed o flow).output ∈ (net.con d).kind.outputs := by
    rw [← hx]
    exact Kind.output_mem_outputs
  have hoffer := h.offer ht hs hx
  rw [hx] at hoffer
  refine ⟨by rw [h.keeps.kind]; exact hmem, h.markedOutput, ?_, ?_, ?_⟩
  · intro m hm
    refine (h.visited ht haf hf hne hmem hm).imp ?_ fun hl => h.keeps.linked hl
    exact fun hnone e w he => hnone e w (h.keeps.edge.1 he)
  · rw [hoffer]
    exact h.rising _
  · rw [hoffer]
    exact Nat.lt_of_le_of_lt (Nat.zero_le _) ht.weaker

end Overridden

/-! ## Whole cascades -/

/-- The invariant of the cascade that starts when `c` looks for a method in `net₀`: only the
constraint that is afloat can be required and unsatisfied, or blocked without having been so before. -/
structure Overriding (net₀ : Network) (c : ConstraintId) (o : Option ConstraintId)
    (net : Network) : Prop where
  tree : net.TreeShaped
  counter : net.mark = net₀.mark + 1
  marksPast : net.MarksPast
  required : ∀ e, (net.con e).attached = true → (net.con e).strength = .required →
    (net.con e).isSatisfied = false → o = some e
  blocked : ∀ e, net.Blocked e → o = some e ∨ (net₀.Blocked e ∧ e ≠ c)
  afloat : ∀ d, o = some d →
    (d = c ∧ Quiet net₀ net ∧ ∀ v, (net.var v).mark ≠ net₀.mark + 1) ∨
      ∃ y, Displaced net (net₀.mark + 1) d y

/-- The constraint `c` is required, and no output of it carries less. -/
def Refuses (net : Network) (c : ConstraintId) : Prop :=
  (net.con c).strength = .required ∧ ¬ net.Blocked c

/-- How satisfying `c` can fail: half-way, or because `c` is required and finds no method; then
nothing has changed. -/
def Unsatisfiable (net₀ : Network) (c : ConstraintId) (e : Failure SolveError) (net : Network) :
    Prop :=
  e.Abrupt ∨ (e = .refused (.unsatisfiable c) ∧ net₀.Refuses c ∧ Quiet net₀ net)

namespace Overriding

variable {net₀ : Network} {rollback : ConstraintId → Solve Unit}

theorem isAfloat (h : Overriding net₀ c (some o) net) : Afloat net (net₀.mark + 1) o :=
  (h.afloat o rfl).imp_left fun h => h.2.2

/-- A constraint of the cascade that finds no method is not blocked. -/
theorem not_blocked (h : Overriding net₀ c (some o) net) (ha : (net.con o).attached = true)
    (hf : net.flowFor (net₀.mark + 1) o = none) : ¬ net.Blocked o := by
  rintro ⟨-, -, v, hv, hs⟩
  rcases h.isAfloat with hfresh | ⟨y, hy⟩
  · exact absurd hs (Nat.not_lt.2 (flowFor_none hf hv (hfresh v)))
  · exact absurd hs (Nat.not_lt.2 ((hy.stuck h.tree ha hf).1 v hv))

theorem ends_install (h : Overriding net₀ c (some o) net) (hcas : Cascading net₀ (some o) net) :
    Ends (install rollback (net₀.mark + 1) o) net (Overriding net₀ c) (Unsatisfiable net₀ c) := by
  obtain ⟨hset, hkeeps, hfloat⟩ := hcas
  obtain ⟨ha, hu⟩ := hfloat o rfl
  refine Network.ends_install hset.coherent ha hu ?_ ?_ ?_
  · -- no method for a required constraint: it is the one that started the cascade
    intro hf hr
    rcases h.afloat o rfl with ⟨rfl, hquiet, -⟩ | ⟨y, hy⟩
    · have hopen : ¬ net₀.Blocked o := fun hb => h.not_blocked ha hf (hquiet.blocked_iff.2 hb)
      exact .inr ⟨rfl, ⟨(hkeeps.strength o).symm.trans hr, hopen⟩, hquiet⟩
    · have hpos := (hy.stuck h.tree ha hf).2
      rw [hr] at hpos
      exact absurd hpos (Nat.lt_irrefl 0)
  · intro hf hr
    refine ⟨h.tree, h.counter, h.marksPast, ?_, ?_, by simp⟩
    · intro e hea her heu
      cases h.required e hea her heu
      exact absurd her hr
    · intro e he
      refine (h.blocked e he).imp_left ?_
      rintro ⟨⟩
      exact absurd he (h.not_blocked ha hf)
  · intro flow hf
    have ht := h.isAfloat.takesOver hset h.tree ha hu hf
    have hsafe := fun w (hw : net.Near (net.directed o flow).output w) =>
      h.isAfloat.unmarked hset h.tree ha hu hf hw
    refine (ht.ends_propagate hsafe).mono ?_ fun _ _ he => .inl he
    intro _ net' hrise
    have hover := ht.overridden hrise
    refine ⟨hrise.graph.variableCount.trans takenOver_size, h.tree.of_keeps hover.keeps,
      hover.counter.trans h.counter, ?_, ?_, ?_, ?_⟩
    · intro v
      rw [hover.counter]
      rcases hover.marked v with heq | ⟨heq, -⟩
      · rw [heq]
        exact h.marksPast v
      · rw [heq, h.counter]
    · intro e hea her heu
      refine (hover.unsatisfied ht heu).resolve_right ?_
      rintro ⟨hu', hne⟩
      rw [hover.keeps.attached] at hea
      rw [hover.keeps.strength] at her
      cases h.required e hea her hu'
      exact hne rfl
    · intro e he
      refine (hover.blocked ht he).imp_right ?_
      rintro ⟨hb, hne⟩
      refine (h.blocked e hb).resolve_left ?_
      rintro ⟨⟩
      exact hne rfl
    · exact fun d hd => .inr ⟨_, hover.displaced ht h.isAfloat hf hd⟩

/-- A cascade starts with the first number that no variable carries yet. -/
theorem start (htree : net₀.TreeShaped) (hmarks : net₀.MarksPast)
    (hreq : ∀ e, (net₀.con e).attached = true → (net₀.con e).strength = .required →
      (net₀.con e).isSatisfied = false → e = c) :
    Overriding net₀ c (some c) { net₀ with mark := net₀.mark + 1 } := by
  have hq : Quiet net₀ { net₀ with mark := net₀.mark + 1 } := quiet_freshMark
  refine ⟨htree.of_keeps hq.keeps, rfl, hq.marksPast hmarks, ?_, ?_, ?_⟩
  · exact fun e hea her heu => congrArg some (hreq e hea her heu).symm
  · intro e he
    by_cases hec : e = c
    · exact .inl (congrArg some hec.symm)
    · exact .inr ⟨he, hec⟩
  · rintro d ⟨⟩
    exact .inl ⟨rfl, hq, fun v => Nat.ne_of_lt (Nat.lt_succ_of_le (hmarks v))⟩

theorem journal {o : Option ConstraintId} {event : Event} (h : Overriding net₀ c o net) :
    Overriding net₀ c o { net with journal := net.journal.push event } := by
  have hq : Quiet net { net with journal := net.journal.push event } := quiet_note
  refine ⟨h.tree.of_keeps hq.keeps, h.counter, h.marksPast, h.required, h.blocked, ?_⟩
  intro d hd
  refine (h.afloat d hd).imp (fun ⟨hdc, hquiet, hfresh⟩ => ⟨hdc, hquiet.trans hq, hfresh⟩) ?_
  exact fun ⟨y, hy⟩ => ⟨y, hy.mem, hy.marked, hy.visited, hy.offer, hy.replaceable⟩

end Overriding

/-- A settled, tree-shaped network between two walks, in which every required constraint is
satisfied. -/
structure Sound (net : Network) : Prop where
  settled : net.Settled
  tree : net.TreeShaped
  marksPast : net.MarksPast
  required : ∀ e, (net.con e).attached = true → (net.con e).strength = .required →
    (net.con e).isSatisfied = true

/-- In a tree-shaped network, satisfying a constraint never fails but half-way or because it is
required itself; it blocks no constraint, and itself least of all. -/
theorem ends_establish_tree (n : Nat) {net₀ : Network} (hset : net₀.Settled)
    (htree : net₀.TreeShaped) (hmarks : net₀.MarksPast) (ha : (net₀.con c).attached = true)
    (hu : (net₀.con c).isSatisfied = false)
    (hreq : ∀ e, (net₀.con e).attached = true → (net₀.con e).strength = .required →
      (net₀.con e).isSatisfied = false → e = c) :
    Ends (establish n c) net₀
      (fun _ net' => net'.Sound ∧ Keeps net₀ net' ∧
        ∀ e, net'.Blocked e → net₀.Blocked e ∧ e ≠ c)
      (Unsatisfiable net₀ c) := by
  cases n with
  | zero => exact .inl trivial
  | succ n =>
    let J : Option ConstraintId → Network → Prop := fun o net =>
      Cascading net₀ o net ∧ Overriding net₀ c o net
    have hroll : Withdraws (withdrawUsing (establish n)) := withdraws_withdraw n
    have hrun : Ends (establishUsing (withdrawUsing (establish n)) c) net₀
        (fun _ net' => J none net') (Unsatisfiable net₀ c) := by
      apply ends_establishUsing
      · exact ⟨.start hset ha hu, .start htree hmarks hreq⟩
      · rintro o net' ⟨hcas, hover⟩
        exact ((hroll.ends_install hcas).and (hover.ends_install hcas)).mono
          (fun _ _ h => h) fun _ _ h => h.2
      · exact fun ⟨hcas, hover⟩ => ⟨hcas.journal, hover.journal⟩
      · exact fun _ => .inl trivial
    refine hrun.mono_ok ?_
    rintro - net' ⟨⟨hset', hkeeps, -⟩, hover⟩
    refine ⟨⟨hset', hover.tree, hover.marksPast, ?_⟩, hkeeps, fun e he => ?_⟩
    · intro e hea her
      by_contra hs
      simpa using hover.required e hea her (by simpa using hs)
    · simpa using hover.blocked e he

end ConstraintHierarchy.Network
