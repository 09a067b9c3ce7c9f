import ConstraintHierarchy.Proofs.Dataflow

/-!
# Exact detection of cycles

The walk below a new method takes a variable of its own mark for a sign that the method closes a cycle. The
marks are not only those of the variables that the method reads: earlier rounds of the cascade have left
theirs. They do no harm, because of what a cascade is. Each round computes a variable from what it marks and
displaces the constraint that computed it so far, and the displaced constraint, if it finds another method,
reads that very variable. So from everything that is marked the dataflow leads on to what the next method
reads, or through the output of that method. A walk that meets a mark has therefore found a way back.

Conversely a walk that meets no mark has been everywhere downstream, so there is no way back.

## Main definitions

* `Network.ClosesCycle`: the dataflow leads from the output of a constraint to something that it reads
* `Network.EntersRollBack`: propagation goes into its roll-back
* `Network.Round`: the rounds of a cascade
* `Network.Occurs`: where operations start cascades, retractions and retries, also inside of one another

## Main results

* `Network.ends_walk_exact`: what the answer of a walk means
* `Network.Tracked.ends_install`: every mark of a cascade leads to the next constraint
* `Network.cycle_detection_exact`: a constraint is rolled back exactly if it closes a cycle
-/

namespace ConstraintHierarchy

open Solve Relation

namespace Network

variable {net net' start : Network} {c d o : ConstraintId} {v w y : VariableId} {mark n : Nat}
  {flow : Flow}

/-- The dataflow leads from the output of `c` back to a variable that `c` reads. -/
def ClosesCycle (net : Network) (c : ConstraintId) : Prop :=
  ∃ r ∈ (net.con c).reads, net.Downstream (net.con c).output r

/-- Propagation below `c` goes into its roll-back: the values are put back, and whatever the roll-back does
comes next, before the cycle is refused. -/
def EntersRollBack (net : Network) (mark : Nat) (c : ConstraintId) : Prop :=
  ∃ v met, ∀ rollback, propagate rollback mark c net =
    (do rollback c; refuse (.cycle c) : Solve Unit) (Network.unwound met net.vars c v)

/-! ## The walk below a new method -/

theorem Acyclic.not_closesCycle (h : net.Acyclic) (hc : (net.con c).isSatisfied = true) :
    ¬ net.ClosesCycle c := by
  rintro ⟨r, hr, hpath⟩
  exact h _ (TransGen.tail' hpath ⟨c, hc, hr, rfl⟩)

/-- What a walk meets lies downstream of where it started. -/
theorem ends_walk_downstream (hcoh : net.Coherent) (hc : (net.con c).isSatisfied = true) :
    Ends (walk mark n [c]) net
      (fun met _ => ∀ v, met = some v → net.Downstream (net.con c).output v ∧ (net.var v).mark = mark)
      (fun _ _ => True) := by
  let P : Network → List ConstraintId → Prop := fun _ q =>
    ∀ d ∈ q, net.Downstream (net.con c).output (net.con d).output
  have hvisiting : WalkInvariant mark (fun _ _ => True) (Visiting net) :=
    walkInvariant_visiting hcoh (fun _ => trivial) fun _ => trivial
  have hstep : ∀ {net' d q}, Visiting net net' (d :: q) → P net' (d :: q) →
      P (net'.recalculated d) (q ++ net'.consumersOf (net'.con d).output) := by
    intro net' d q hv hq e he
    rcases List.mem_append.1 he with he | he
    · exact hq e (List.mem_cons_of_mem d he)
    · rw [(hvisiting.coherent hv).mem_consumersOf, hv.graph.con] at he
      exact (hq d (by simp)).tail ⟨e, he.1, he.2.1, rfl⟩
  have inv := hvisiting.and hstep
  have hinit : P net [c] := fun d hd => List.mem_singleton.1 hd ▸ .refl
  refine (ends_walk inv n ⟨visiting_start hc, hinit⟩).mono_ok ?_
  rintro met net' hend v rfl
  obtain ⟨d, q, ⟨hv, hq⟩, hout, hm⟩ := hend
  rw [hv.graph.con] at hout
  exact ⟨hout ▸ hq d (by simp), (hv.marks v).symm.trans hm⟩

/-- A walk that meets no mark shows that there is no cycle; it can be stopped only by a division by zero. -/
theorem ends_walk_exhaustive (hbut : net.OrderedBut c)
    (hmarked : ∀ v ∈ (net.con c).reads, (net.var v).mark = mark) :
    Ends (walk mark net.generations [c]) net
      (fun met net' => (∃ q, Visiting net net' q) ∧ (met = none → ¬ net.ClosesCycle c))
      (fun e _ => ∃ d, e = .refused (.divisionByZero d)) := by
  refine (ends_walk_byGeneration (walkByGeneration_exploring hbut hmarked fun d _ _ => ⟨d, rfl⟩) _
    (exploring_start hbut.satisfied)).mono_ok ?_
  intro met net' hend
  cases met with
  | some v =>
    obtain ⟨m, d, ds, next, hmet, -, -⟩ := hend
    exact ⟨⟨_, hmet.toVisiting⟩, nofun⟩
  | none =>
    obtain ⟨m, hend⟩ := hend
    refine ⟨⟨_, hend.toVisiting⟩, fun _ => ?_⟩
    have hord := hend.ordered hbut hmarked
    exact (hord.acyclic.of_con hend.graph.con.symm).not_closesCycle hbut.satisfied

/-- If marks downstream of `c` are signs of a cycle, the walk meets one exactly if there is a cycle. -/
theorem ends_walk_exact (hbut : net.OrderedBut c)
    (hmarked : ∀ v ∈ (net.con c).reads, (net.var v).mark = mark)
    (hsign : ∀ v, (net.var v).mark = mark → net.Downstream (net.con c).output v → net.ClosesCycle c) :
    Ends (walk mark net.generations [c]) net
      (fun met net' => (∃ q, Visiting net net' q) ∧ (met.isSome = true ↔ net.ClosesCycle c))
      (fun e _ => ∃ d, e = .refused (.divisionByZero d)) := by
  refine ((ends_walk_exhaustive hbut hmarked).and
    (ends_walk_downstream hbut.coherent hbut.satisfied)).mono ?_ fun _ _ h => h.1
  rintro met net' ⟨⟨hvisit, hnone⟩, hsome⟩
  refine ⟨hvisit, ?_⟩
  cases met with
  | none => exact ⟨nofun, fun hcycle => absurd hcycle (hnone rfl)⟩
  | some v => exact ⟨fun _ => hsign v (hsome v rfl).2 (hsome v rfl).1, fun _ => rfl⟩

/-! ## The marks of a cascade -/

/-- The state of a cascade when the unsatisfied constraint `o` looks for a method: from everything that is
marked, the dataflow leads to a possible output of `o` that is marked. -/
structure Tracked (mark : Nat) (o : ConstraintId) (net : Network) : Prop where
  regular : net.Regular
  acyclic : net.Acyclic
  started : mark ≤ net.mark
  attached : (net.con o).attached = true
  unsatisfied : (net.con o).isSatisfied = false
  leads : ∀ w, (net.var w).mark = mark →
    ∃ y ∈ (net.con o).kind.outputs, (net.var y).mark = mark ∧ net.Downstream w y

/-- A way through the dataflow is still there when `o` has taken its output over, or what comes after that
output is. -/
theorem downstream_takenOver (hcoh : net.Coherent) (ho : o.index < net.constraints.size)
    (hu : (net.con o).isSatisfied = false) (h : net.Downstream w y) :
    (net.takenOver mark o flow).Downstream w y ∨
      (net.takenOver mark o flow).Downstream (net.directed o flow).output y := by
  induction h with
  | refl => exact .inl .refl
  | @tail x y _ hf ih =>
    obtain ⟨e, he, hr, rfl⟩ := hf
    by_cases hout : (net.con e).output = (net.directed o flow).output
    · rw [hout]
      exact .inr .refl
    · have hf : (net.takenOver mark o flow).Feeds x (net.con e).output := by
        refine ⟨e, (takenOver_isSatisfied_iff hcoh ho hu).2 (.inr ⟨he, hout⟩), ?_⟩
        rw [takenOver_con_of_satisfied hcoh hu he hout]
        exact ⟨hr, rfl⟩
      exact ih.imp (fun ih => ih.tail hf) fun ih => ih.tail hf

namespace Tracked

theorem known (h : Tracked mark o net) : o.index < net.constraints.size := known_of_attached h.attached

theorem con_self (h : Tracked mark o net) :
    (net.takenOver mark o flow).con o = net.directed o flow :=
  takenOver_con_self h.regular.coherent h.known h.unsatisfied

theorem orderedBut (h : Tracked mark o net) : (net.takenOver mark o flow).OrderedBut o :=
  (Ordered.mk h.regular.coherent h.acyclic).orderedBut_takenOver h.attached h.unsatisfied

theorem takenOver_mark_eq_iff (h : Tracked mark o net) :
    ((net.takenOver mark o flow).var w).mark = mark ↔
      w ∈ (net.directed o flow).reads ∨ (net.var w).mark = mark := by
  rw [takenOver_var h.regular.coherent h.known]
  show (if w ∈ (net.directed o flow).reads then mark else (net.var w).mark) = mark ↔ _
  split
  next hr => exact ⟨fun _ => .inl hr, fun _ => rfl⟩
  next hr => exact ⟨.inr, fun hm => hm.resolve_left hr⟩

/-- A marked possible output of `o` is the input of the method that is chosen. -/
theorem input_eq (h : net.flowFor mark o = some flow) (hy : y ∈ (net.con o).kind.outputs)
    (hm : (net.var y).mark = mark) : (net.directed o flow).input = some y := by
  obtain ⟨⟨hunmarked, -⟩, -⟩ := flowFor_some h
  have hmem : y = (net.directed o flow).output ∨ (net.directed o flow).input = some y :=
    Constraint.mem_outputs_iff.1 hy
  refine hmem.resolve_left ?_
  rintro rfl
  exact hunmarked hm

/-- From what was marked before, the dataflow leads to something that `o` reads now, or `o` closes a cycle. -/
theorem exists_read (h : Tracked mark o net) (hflow : net.flowFor mark o = some flow)
    (hm : (net.var w).mark = mark) :
    ∃ r ∈ (net.directed o flow).reads, (net.takenOver mark o flow).Downstream w r ∨
      (net.takenOver mark o flow).Downstream (net.directed o flow).output r := by
  obtain ⟨y, hy, hym, hpath⟩ := h.leads w hm
  exact ⟨y, Constraint.mem_reads.2 (.inl (input_eq hflow hy hym)),
    downstream_takenOver h.regular.coherent h.known h.unsatisfied hpath⟩

/-- A mark downstream of the new output is a sign of a cycle, whichever round has left it. -/
theorem closesCycle (h : Tracked mark o net) (hflow : net.flowFor mark o = some flow)
    (hm : ((net.takenOver mark o flow).var w).mark = mark)
    (hw : (net.takenOver mark o flow).Downstream ((net.takenOver mark o flow).con o).output w) :
    (net.takenOver mark o flow).ClosesCycle o := by
  rw [ClosesCycle]
  rw [h.con_self] at hw ⊢
  rcases h.takenOver_mark_eq_iff.1 hm with hr | hm
  · exact ⟨w, hr, hw⟩
  · obtain ⟨r, hr, hpath | hpath⟩ := h.exists_read hflow hm
    · exact ⟨r, hr, hw.trans hpath⟩
    · exact ⟨r, hr, hpath⟩

theorem ends_walk (h : Tracked mark o net) (hflow : net.flowFor mark o = some flow) :
    Ends (walk mark (net.takenOver mark o flow).generations [o]) (net.takenOver mark o flow)
      (fun met net' => (∃ q, Visiting (net.takenOver mark o flow) net' q) ∧
        (met.isSome = true ↔ (net.takenOver mark o flow).ClosesCycle o))
      (fun e _ => ∃ d, e = .refused (.divisionByZero d)) := by
  refine ends_walk_exact h.orderedBut (fun v hv => ?_) fun v => h.closesCycle hflow
  rw [h.con_self] at hv
  exact h.takenOver_mark_eq_iff.2 (.inl hv)

/-- After a round without a cycle every mark leads to the output that was taken over. -/
theorem downstream_output (h : Tracked mark o net) (hflow : net.flowFor mark o = some flow)
    (hno : ¬ (net.takenOver mark o flow).ClosesCycle o)
    (hm : ((net.takenOver mark o flow).var w).mark = mark) :
    (net.takenOver mark o flow).Downstream w (net.directed o flow).output := by
  have hfeeds : ∀ r ∈ (net.directed o flow).reads,
      (net.takenOver mark o flow).Feeds r (net.directed o flow).output := by
    intro r hr
    refine ⟨o, ?_⟩
    rw [h.con_self]
    exact ⟨rfl, hr, rfl⟩
  rcases h.takenOver_mark_eq_iff.1 hm with hr | hm
  · exact .single (hfeeds w hr)
  · obtain ⟨r, hr, hpath | hpath⟩ := h.exists_read hflow hm
    · exact hpath.tail (hfeeds r hr)
    · refine absurd ⟨r, ?_⟩ hno
      rw [h.con_self]
      exact ⟨hr, hpath⟩

/-- Every mark leads to the constraint that has lost its output, once that is marked too. -/
theorem displaced {q : List ConstraintId} (h : Tracked mark o net) (hflow : net.flowFor mark o = some flow)
    (hno : ¬ (net.takenOver mark o flow).ClosesCycle o)
    (hvisit : Visiting (net.takenOver mark o flow) net' q)
    (hd : (net.var (net.directed o flow).output).determinedBy = some d) :
    Tracked mark d
      (net'.alterVariable (net.directed o flow).output fun x => { x with mark := mark }) := by
  have hcoh := h.regular.coherent
  obtain ⟨hds, hdo⟩ := (hcoh.determines _ d).1 hd
  have hstarted : mark ≤ net'.mark := by
    rw [hvisit.counter, takenOver_mark]
    exact h.started
  have hmark : Quiet net' (net'.alterVariable (net.directed o flow).output
      fun x => { x with mark := mark }) :=
    quiet_alterVariable (fun _ => rfl) (fun _ => rfl) (fun _ => rfl) fun _ => .inr hstarted
  have hgraph := hvisit.graph.trans hmark.toSameGraph
  have hcon : (net'.alterVariable (net.directed o flow).output fun x => { x with mark := mark }).con d =
      { net.con d with flow := none } := by
    rw [hgraph.con, takenOver_con_displaced hcoh h.unsatisfied hd]
  refine
    { regular := ((h.regular.takenOver h.attached h.unsatisfied h.started hflow).of_sameMarks
        hvisit.graph hvisit.marks hvisit.counter).of_quiet hmark
      acyclic := (h.orderedBut.ordered fun r hr hpath => hno ⟨r, hr, hpath⟩).acyclic.of_con hgraph.con
      started := hstarted
      attached := by rw [hcon]; exact hcoh.attached d hds
      unsatisfied := by rw [hcon]; rfl
      leads := fun w hw => ⟨(net.directed o flow).output, ?_, ?_, ?_⟩ }
  · rw [hcon, ← hdo]
    exact Kind.output_mem_outputs
  · rw [alterVariable_var_self]
    rw [hvisit.graph.variableCount, takenOver_size]
    exact hcoh.known_directed_output h.known
  · rw [Downstream, hgraph.feeds]
    by_cases hwo : w = (net.directed o flow).output
    · rw [hwo]
    · rw [alterVariable_var_of_ne hwo, hvisit.marks] at hw
      exact h.downstream_output hflow hno hw

/-- Every mark leads to the constraint that looks for a method next. -/
theorem ends_install {rollback : ConstraintId → Solve Unit} (h : Tracked mark o net) :
    Ends (install rollback mark o) net (fun d net' => ∀ e, d = some e → Tracked mark e net')
      (fun _ _ => True) := by
  refine Network.ends_install h.regular.coherent h.attached h.unsatisfied (fun _ _ => trivial)
    (fun _ _ => nofun) fun flow hflow => ?_
  apply ends_propagate
  refine (h.ends_walk hflow).mono ?_ fun _ _ _ => trivial
  rintro met net' ⟨⟨q, hvisit⟩, hmet⟩
  cases met with
  | some v => exact ends_true
  | none =>
    have hno : ¬ (net.takenOver mark o flow).ClosesCycle o := fun hcycle => nomatch hmet.2 hcycle
    exact ⟨hvisit.graph.variableCount.trans takenOver_size, fun e he => h.displaced hflow hno hvisit he⟩

/-- When a cascade starts nothing has its mark. -/
theorem first (hreg : net.Regular) (hacyc : net.Acyclic) (ha : (net.con c).attached = true)
    (hu : (net.con c).isSatisfied = false) :
    Tracked (net.mark + 1) c { net with mark := net.mark + 1 } := by
  refine ⟨hreg.of_quiet quiet_freshMark, hacyc.of_con rfl, Nat.le_refl _, ha, hu, fun w hw => ?_⟩
  have hle : (net.var w).mark ≤ net.mark := hreg.marksPast w
  have hw : (net.var w).mark = net.mark + 1 := hw
  omega

theorem note {e : Event} (h : Tracked mark o net) :
    Tracked mark o { net with journal := net.journal.push e } :=
  ⟨h.regular.of_quiet quiet_note, h.acyclic.of_con rfl, h.started, h.attached, h.unsatisfied, h.leads⟩

end Tracked

/-! ## What propagation does with the answer -/

theorem propagate_of_walk_some {met : Network} {rollback : ConstraintId → Solve Unit}
    (h : walk mark net.generations [c] net = .ok (some v) met) :
    propagate rollback mark c net =
      (do rollback c; refuse (.cycle c) : Solve Unit) (met.unwound net.vars c v) := by
  rw [propagate]
  show EStateM.bind (walk mark net.generations [c]) _ net = _
  rw [EStateM.bind, h]
  rfl

theorem propagate_of_walk_none {met : Network} {rollback : ConstraintId → Solve Unit}
    (h : walk mark net.generations [c] net = .ok none met) :
    propagate rollback mark c net = .ok () met := by
  rw [propagate]
  show EStateM.bind (walk mark net.generations [c]) _ net = _
  rw [EStateM.bind, h]
  rfl

/-! ## Where cascades happen -/

/-- The rounds of the cascade in which `c` is to be satisfied in `start`, with roll-backs nested at most `n`
deep: the constraint that looks for a method, and the network in which it does. -/
inductive Round (n : Nat) (start : Network) (c : ConstraintId) : ConstraintId → Network → Prop
  | first : Round n start c c { start with mark := start.mark + 1 }
  | next {net net' : Network} {d o : ConstraintId} (h : Round n start c d net)
    (hi : install (withdraw n) (start.mark + 1) d net = .ok (some o) net') :
    Round n start c o { net' with journal := net'.journal.push (.resatisfying o c) }

/-- What operations are made of. -/
inductive Call where
  /-- a constraint is to be satisfied -/
  | establish (n : Nat) (c : ConstraintId)
  /-- a satisfied constraint is retracted -/
  | withdraw (n : Nat) (c : ConstraintId)
  /-- candidates are tried again -/
  | retry (n : Nat) (candidates : List ConstraintId)

/-- After a run, some operation comes to the point where the call is made on the network. The order in
which candidates are tried is left open. There are no other calls: see `Request.performUsing_watched`. -/
inductive Occurs : Call → Network → Prop
  | add {net : Network} {kind : Kind} {strength : Strength} (h : Run (fun _ _ => True) net)
    (hk : ∀ v ∈ kind.operands, v.index < net.vars.size) :
    Occurs (.establish (net.registered kind strength).generations ⟨net.constraints.size⟩)
      (net.registered kind strength)
  | enforce {net : Network} {c : ConstraintId} (h : Run (fun _ _ => True) net)
    (ha : (net.con c).attached = true) (hu : (net.con c).isSatisfied = false) :
    Occurs (.establish net.generations c) net
  | retract {net : Network} {c : ConstraintId} (h : Run (fun _ _ => True) net)
    (hs : (net.con c).isSatisfied = true) : Occurs (.withdraw net.generations c) net
  | destroy {net : Network} {c : ConstraintId} (h : Run (fun _ _ => True) net)
    (hs : (net.con c).isSatisfied = true) :
    Occurs (.withdraw net.generations c)
      { net with journal := net.journal.push (.destroying c) }
  | release {net net' : Network} {n : Nat} {c : ConstraintId} {found : List ConstraintId}
    (h : Occurs (.withdraw n c) net)
    (hr : release (net.con c).output (net.detached c) = .ok found net') :
    Occurs (.retry n found)
      { net' with journal := net'.journal.push (.repairing c (net.con c).output found.length) }
  | retry {net : Network} {n : Nat} {u : ConstraintId} {found : List ConstraintId}
    (h : Occurs (.retry n found) net) (hu : u ∈ found) (hs : (net.con u).isSatisfied = false) :
    Occurs (.establish n u) net
  | retried {net net' : Network} {n : Nat} {u : ConstraintId} {found : List ConstraintId}
    (h : Occurs (.retry n found) net) (hu : u ∈ found) (hs : (net.con u).isSatisfied = false)
    (hok : Network.establish n u net = .ok () net') : Occurs (.retry n found) net'
  | rollBack {start net met : Network} {n : Nat} {c d : ConstraintId} {flow : Flow} {v : VariableId}
    (h : Occurs (.establish (n + 1) c) start) (hr : Round n start c d net)
    (hflow : net.flowFor (start.mark + 1) d = some flow)
    (hw : walk (start.mark + 1) (net.takenOver (start.mark + 1) d flow).generations [d]
      (net.takenOver (start.mark + 1) d flow) = .ok (some v) met) :
    Occurs (.withdraw n d) (met.unwound (net.takenOver (start.mark + 1) d flow).vars d v)

/-- What holds of a network when a call is made. -/
def Call.Expects : Call → Network → Prop
  | .establish _ c, net => (net.Regular ∧ net.Acyclic) ∧
      (net.con c).attached = true ∧ (net.con c).isSatisfied = false
  | .withdraw _ c, net => net.Regular ∧ net.OrderedBut c
  | .retry _ candidates, net => (net.Regular ∧ net.Acyclic) ∧
      ∀ u ∈ candidates, (net.con u).attached = true

/-- Every round of a cascade is tracked. -/
theorem Round.tracked (h : Round n start c d net) (hstart : (Call.establish (n + 1) c).Expects start) :
    Tracked (start.mark + 1) d net := by
  obtain ⟨⟨hreg, hacyc⟩, ha, hu⟩ := hstart
  induction h with
  | first => exact .first hreg hacyc ha hu
  | next _ hi ih => exact (ih.ends_install.of_ok hi _ rfl).note

theorem regular_acyclic_of_run (h : Run (fun _ _ => True) net) : net.Regular ∧ net.Acyclic :=
  ⟨regular_of_run h, (runInvariant_ordered.holds h).acyclic⟩

theorem Occurs.expects {call : Call} (h : Occurs call net) : call.Expects net := by
  induction h with
  | add h hk =>
    obtain ⟨hreg, hacyc⟩ := regular_acyclic_of_run h
    exact ⟨⟨hreg.registered hk, ((Ordered.mk hreg.coherent hacyc).registered hk).acyclic⟩,
      registered_new_attached, registered_new_unsatisfied⟩
  | enforce h ha hu => exact ⟨regular_acyclic_of_run h, ha, hu⟩
  | retract h hs =>
    obtain ⟨hreg, hacyc⟩ := regular_acyclic_of_run h
    exact ⟨hreg, (Ordered.mk hreg.coherent hacyc).orderedBut hs⟩
  | destroy h hs =>
    obtain ⟨hreg, hacyc⟩ := regular_acyclic_of_run h
    exact ⟨hreg.of_quiet quiet_note,
      ((Ordered.mk hreg.coherent hacyc).orderedBut hs).of_sameGraph quiet_note.toSameGraph⟩
  | @release net net' n c found _ hr ih =>
    obtain ⟨hreg, hbut⟩ := ih
    obtain ⟨hord, -, hfound⟩ := (solvingInvariant_ordered.release 0 hbut).of_ok hr
    obtain ⟨hreg', -, -⟩ := (solvingInvariant_regular.release 0 ⟨hreg, hbut.satisfied⟩).of_ok hr
    exact ⟨⟨hreg'.of_quiet quiet_note, hord.acyclic.of_con rfl⟩, hfound⟩
  | retry _ hu hs ih => exact ⟨ih.1, ih.2 _ hu, hs⟩
  | @retried net net' n u found _ hu hs hok ih =>
    obtain ⟨⟨hreg, hacyc⟩, hfound⟩ := ih
    have ha := hfound u hu
    obtain ⟨hord, hkeeps⟩ := (solvingInvariant_ordered.ends_establish n ⟨hreg.coherent, hacyc⟩ ha
      hs).of_ok hok
    obtain ⟨hreg', -⟩ := (solvingInvariant_regular.ends_establish n hreg ha hs).of_ok hok
    exact ⟨⟨hreg', hord.acyclic⟩, fun w hw => (hkeeps.attached w).trans (hfound w hw)⟩
  | @rollBack start net met n c d flow v _ hr hflow hw ih =>
    have htracked := hr.tracked ih
    obtain ⟨⟨q, hvisit⟩, -⟩ := (htracked.ends_walk hflow).of_ok hw
    have hun : Quiet met (met.unwound (net.takenOver (start.mark + 1) d flow).vars d v) :=
      quiet_unwound hvisit.graph.variableCount.symm
    exact ⟨((htracked.regular.takenOver htracked.attached htracked.unsatisfied htracked.started
      hflow).of_sameMarks hvisit.graph hvisit.marks hvisit.counter).of_quiet hun,
      htracked.orderedBut.of_sameGraph (hvisit.graph.trans hun.toSameGraph)⟩

/-- Let a constraint find a method in some round of a cascade, in whatever operation after a run, and let no
division by zero stop the walk below it. It is rolled back exactly if its method closes a cycle with those of
the other satisfied constraints, and otherwise propagation is done. -/
theorem cycle_detection_exact (hcall : Occurs (.establish (n + 1) c) start)
    (hround : Round n start c d net) (hflow : net.flowFor (start.mark + 1) d = some flow)
    (hdivides : ∀ e met, walk (start.mark + 1)
      (net.takenOver (start.mark + 1) d flow).generations [d]
      (net.takenOver (start.mark + 1) d flow) ≠ .error (.refused (.divisionByZero e)) met) :
    ((net.takenOver (start.mark + 1) d flow).EntersRollBack (start.mark + 1) d ↔
      (net.takenOver (start.mark + 1) d flow).ClosesCycle d) ∧
    (¬ (net.takenOver (start.mark + 1) d flow).ClosesCycle d → ∃ net', ∀ rollback,
      propagate rollback (start.mark + 1) d (net.takenOver (start.mark + 1) d flow) = .ok () net') := by
  have hwalk := (hround.tracked hcall.expects).ends_walk hflow
  cases hanswer : walk (start.mark + 1)
      (net.takenOver (start.mark + 1) d flow).generations [d]
      (net.takenOver (start.mark + 1) d flow) with
  | error e met =>
    obtain ⟨b, rfl⟩ := hwalk.of_error hanswer
    exact absurd hanswer (hdivides b met)
  | ok answer met =>
    obtain ⟨-, hexact⟩ := hwalk.of_ok hanswer
    cases answer with
    | some v =>
      have hcycle := hexact.1 rfl
      exact ⟨⟨fun _ => hcycle, fun _ => ⟨v, met, fun _ => propagate_of_walk_some hanswer⟩⟩,
        fun hno => absurd hcycle hno⟩
    | none =>
      have hno : ¬ (net.takenOver (start.mark + 1) d flow).ClosesCycle d := fun hcycle =>
        nomatch hexact.2 hcycle
      refine ⟨⟨fun henters => ?_, fun hcycle => absurd hcycle hno⟩,
        fun _ => ⟨met, fun _ => propagate_of_walk_none hanswer⟩⟩
      -- propagation that is done has not gone into a roll-back, not even into one that does nothing
      obtain ⟨v, met', heq⟩ := henters
      have heq := heq fun _ => pure ()
      rw [propagate_of_walk_none hanswer] at heq
      cases heq

end Network

/-- Two variables are computed from a third one. -/
def forkedRequests : List Request :=
  [.addVariable "y" 1, .addVariable "z" 2, .addVariable "r" 3, .add (.equal ⟨1⟩ ⟨0⟩) .required,
    .add (.equal ⟨1⟩ ⟨2⟩) .required]

def forkedNetwork : Network :=
  (Request.runAll (fun _ _ => true) forkedRequests (.empty 0)).get (by decide +kernel)

namespace Network

/-- An equation between the two takes `y` over from the first one, which turns round and so closes a cycle.
What the walk meets is `r`, which the new equation has marked. -/
theorem cycle_detection_exact_forkedNetwork :
    ∃ start net, start = forkedNetwork.registered (.equal ⟨2⟩ ⟨0⟩) .required ∧
      Round 3 start ⟨2⟩ ⟨0⟩ net ∧ net.flowFor (start.mark + 1) ⟨0⟩ = some .backward ∧
      (net.takenOver (start.mark + 1) ⟨0⟩ .backward).EntersRollBack (start.mark + 1) ⟨0⟩ ∧
      (net.takenOver (start.mark + 1) ⟨0⟩ .backward).ClosesCycle ⟨0⟩ := by
  have hrun : Run (fun _ _ => True) forkedNetwork :=
    Run.of_runAll (fun _ _ _ => trivial) forkedRequests .empty (Option.some_get _).symm
  have hcall : Occurs (.establish (forkedNetwork.registered (.equal ⟨2⟩ ⟨0⟩) .required).generations
      ⟨forkedNetwork.constraints.size⟩) (forkedNetwork.registered (.equal ⟨2⟩ ⟨0⟩) .required) :=
    .add hrun (by decide +kernel)
  have hcount : forkedNetwork.constraints.size = 2 := by decide +kernel
  have hdepth : (forkedNetwork.registered (.equal ⟨2⟩ ⟨0⟩) .required).generations = 3 + 1 := by
    decide +kernel
  rw [hdepth, hcount] at hcall
  have hends : ∀ start, start = forkedNetwork.registered (.equal ⟨2⟩ ⟨0⟩) .required →
      Ends (install (withdraw 3) (start.mark + 1) ⟨2⟩) { start with mark := start.mark + 1 }
        (fun old net' =>
          let net := { net' with journal := net'.journal.push (.resatisfying ⟨0⟩ ⟨2⟩) }
          let taken := net.takenOver (start.mark + 1) ⟨0⟩ .backward
          old = some ⟨0⟩ ∧ net.flowFor (start.mark + 1) ⟨0⟩ = some .backward ∧
            Ends (walk (start.mark + 1) taken.generations [⟨0⟩]) taken
              (fun found _ => found = some ⟨2⟩) (fun _ _ => False))
        (fun _ _ => False) := by
    rintro _ rfl
    decide +kernel
  generalize forkedNetwork.registered (.equal ⟨2⟩ ⟨0⟩) .required = start at hcall hends ⊢
  obtain ⟨_, net', hinstall, rfl, hflow, hwalk⟩ := (hends start rfl).exists_ok
  obtain ⟨_, met, hwalk, rfl⟩ := hwalk.exists_ok
  have hround := Round.first.next hinstall
  obtain ⟨hexact, -⟩ := cycle_detection_exact hcall hround hflow fun e met' herror => by
    cases hwalk.symm.trans herror
  have henters : ({ net' with journal := net'.journal.push (.resatisfying ⟨0⟩ ⟨2⟩) }.takenOver
      (start.mark + 1) ⟨0⟩ .backward).EntersRollBack (start.mark + 1) ⟨0⟩ :=
    ⟨_, met, fun _ => propagate_of_walk_some hwalk⟩
  exact ⟨start, _, rfl, hround, hflow, henters, hexact.1 henters⟩

end Network

end ConstraintHierarchy
