import Mathlib.Data.Finset.Card
import Mathlib.Data.Finset.Range
import ConstraintHierarchy.Proofs.Structure

/-!
# Acyclic dataflow

The walk below a new method goes through everything that is computed from its output. If it ends
without meeting its own mark, nothing that the method reads lies there, so the method closes no cycle.
If it meets its mark the method is withdrawn, and what is left was acyclic before.

The same argument bounds the walks. The satisfied constraints upstream of a constraint are one more
for each generation, so a walk has no more generations than there are constraints; and the roll-backs
nested in one another take a constraint out of the graph each.

## Main definitions

* `Network.Acyclic`, `Network.Ordered`: no variable is computed from itself
* `Network.height`: the number of constraints upstream of a constraint
* `Network.graphSize`: the number of constraints in the graph
* `Network.Halts`: what a failing operation leaves of an ordered network

## Main results

* `Network.solvingInvariant_ordered`: satisfying and retracting constraints keep a network ordered
* `Network.dataflow_acyclic`: no run leads to a cycle of computations
-/

namespace ConstraintHierarchy

open Solve Relation

namespace Network

/-- No variable is computed, in whatever number of steps, from itself. -/
def Acyclic (net : Network) : Prop := ∀ v, ¬ TransGen net.Feeds v v

/-- The network is coherent and its dataflow acyclic. -/
structure Ordered (net : Network) : Prop where
  coherent : net.Coherent
  acyclic : net.Acyclic

/-- The network would be ordered without the satisfied constraint `c`. -/
structure OrderedBut (net : Network) (c : ConstraintId) : Prop where
  coherent : net.Coherent
  satisfied : (net.con c).isSatisfied = true
  acyclic : (net.detached c).Acyclic

section Acyclic

variable {net net' : Network} {c d e : ConstraintId} {v w : VariableId} {mark : Nat} {flow : Flow}

/-- A network with fewer methods has fewer computations. -/
theorem Acyclic.of_satisfied (h : net.Acyclic)
    (hs : ∀ d, (net'.con d).isSatisfied = true →
      (net.con d).isSatisfied = true ∧ net'.con d = net.con d) : net'.Acyclic := by
  have hfeeds : ∀ u w, net'.Feeds u w → net.Feeds u w := by
    rintro u w ⟨d, hd, hr, ho⟩
    obtain ⟨hsat, heq⟩ := hs d hd
    rw [heq] at hr ho
    exact ⟨d, hsat, hr, ho⟩
  exact fun v hv => h v (TransGen.mono hfeeds v v hv)

theorem Acyclic.of_con (h : net.Acyclic) (hc : net'.con = net.con) : net'.Acyclic :=
  h.of_satisfied fun _ hd => ⟨by rwa [hc] at hd, by rw [hc]⟩

theorem Acyclic.detached (h : net.Acyclic) (hc : c.index < net.constraints.size) :
    (net.detached c).Acyclic := by
  refine h.of_satisfied fun d hd => ?_
  obtain ⟨hne, hsat⟩ := (detached_isSatisfied_iff hc).1 hd
  exact ⟨hsat, detached_con_of_ne hne⟩

theorem Acyclic.output_notMem_reads (h : net.Acyclic) (hd : (net.con d).isSatisfied = true) :
    (net.con d).output ∉ (net.con d).reads :=
  fun hr => h _ (.single ⟨d, hd, hr, rfl⟩)

theorem Ordered.of_sameGraph (h : net.Ordered) (hs : SameGraph net net') : net'.Ordered :=
  ⟨h.coherent.of_sameGraph hs, h.acyclic.of_con hs.con⟩

theorem Ordered.detached (h : net.Ordered) (hc : c.index < net.constraints.size) :
    (net.detached c).Ordered :=
  ⟨h.coherent.detached hc, h.acyclic.detached hc⟩

theorem Ordered.orderedBut (h : net.Ordered) (hc : (net.con c).isSatisfied = true) :
    net.OrderedBut c :=
  ⟨h.coherent, hc, h.acyclic.detached (known_of_isSatisfied hc)⟩

theorem OrderedBut.of_sameGraph (h : net.OrderedBut c) (hs : SameGraph net net') :
    net'.OrderedBut c := by
  have hc : c.index < net.constraints.size := known_of_isSatisfied h.satisfied
  refine ⟨h.coherent.of_sameGraph hs, by rw [hs.con]; exact h.satisfied, ?_⟩
  refine h.acyclic.of_satisfied fun d hd => ?_
  obtain ⟨hne, hsat⟩ := (detached_isSatisfied_iff (by rw [hs.constraintCount]; exact hc)).1 hd
  rw [hs.con] at hsat
  refine ⟨(detached_isSatisfied_iff hc).2 ⟨hne, hsat⟩, ?_⟩
  rw [detached_con_of_ne hne, detached_con_of_ne hne, hs.con]

theorem Ordered.registered (h : net.Ordered) {kind : Kind} {strength : Strength}
    (hk : ∀ v ∈ kind.operands, v.index < net.vars.size) :
    (net.registered kind strength).Ordered := by
  refine ⟨h.coherent.registered hk, h.acyclic.of_satisfied fun d hd => ?_⟩
  have hne : d ≠ ⟨net.constraints.size⟩ :=
    (ne_of_isSatisfied registered_new_unsatisfied hd).symm
  rw [registered_isSatisfied] at hd
  exact ⟨hd, registered_con_of_ne hne⟩

theorem ordered_empty {patience : Nat} : (Network.empty patience).Ordered := by
  refine ⟨coherent_empty, fun v hv => ?_⟩
  obtain ⟨w, ⟨d, hd, -, -⟩, -⟩ := TransGen.head'_iff.1 hv
  exact absurd (known_of_isSatisfied hd) (by simp [Network.empty])

/-- What is computed is computed without `c`, or from what `c` reads and by way of its output. -/
theorem transGen_cases (hc : c.index < net.constraints.size) (h : TransGen net.Feeds v w) :
    TransGen (net.detached c).Feeds v w ∨
      ∃ r ∈ (net.con c).reads, net.Downstream v r ∧ net.Downstream (net.con c).output w := by
  have hstep : ∀ {x y}, net.Feeds x y → (net.detached c).Feeds x y ∨
      x ∈ (net.con c).reads ∧ (net.con c).output = y := by
    rintro x y ⟨d, hd, hr, ho⟩
    by_cases hdc : d = c
    · subst hdc
      exact .inr ⟨hr, ho⟩
    · refine .inl ⟨d, (detached_isSatisfied_iff hc).2 ⟨hdc, hd⟩, ?_⟩
      rw [detached_con_of_ne hdc]
      exact ⟨hr, ho⟩
  induction h with
  | single hf =>
    rcases hstep hf with hf | ⟨hr, rfl⟩
    · exact .inl (.single hf)
    · exact .inr ⟨v, hr, .refl, .refl⟩
  | @tail x y hpath hf ih =>
    rcases hstep hf with hf' | ⟨hr, rfl⟩
    · rcases ih with ih | ⟨r, hr, hvr, hx⟩
      · exact .inl (ih.tail hf')
      · exact .inr ⟨r, hr, hvr, hx.tail hf⟩
    · exact .inr ⟨x, hr, hpath.to_reflTransGen, .refl⟩

/-- A constraint closes no cycle if nothing that it reads is computed from its output. -/
theorem OrderedBut.ordered (h : net.OrderedBut c)
    (hr : ∀ r ∈ (net.con c).reads, ¬ net.Downstream (net.con c).output r) : net.Ordered := by
  refine ⟨h.coherent, fun v hv => ?_⟩
  rcases transGen_cases (known_of_isSatisfied h.satisfied) hv with hv | ⟨r, hmem, hvr, hcv⟩
  · exact h.acyclic v hv
  · exact hr r hmem (hcv.trans hvr)

end Acyclic

/-! ## Heights -/

open Classical in
/-- How many satisfied constraints there are upstream of `d`. -/
noncomputable def height (net : Network) (d : ConstraintId) : Nat :=
  ((Finset.range net.constraints.size).filter fun i => (net.con ⟨i⟩).isSatisfied = true ∧
    TransGen net.Feeds (net.con ⟨i⟩).output (net.con d).output).card

section Height

variable {net : Network} {d e : ConstraintId}

theorem Acyclic.height_lt (h : net.Acyclic) (hd : (net.con d).isSatisfied = true) :
    net.height d < net.constraints.size := by
  classical
  rw [height, ← Finset.card_range net.constraints.size]
  apply Finset.card_lt_card
  rw [Finset.card_range, Finset.filter_ssubset]
  exact ⟨d.index, Finset.mem_range.2 (known_of_isSatisfied hd), fun hpath => h _ hpath.2⟩

/-- What reads the output of `d` is higher than `d`. -/
theorem Acyclic.height_lt_height (h : net.Acyclic) (hd : (net.con d).isSatisfied = true)
    (hf : net.Feeds (net.con d).output (net.con e).output) : net.height d < net.height e := by
  classical
  apply Finset.card_lt_card
  rw [Finset.ssubset_iff_of_subset]
  · refine ⟨d.index, ?_, ?_⟩
    · rw [Finset.mem_filter, Finset.mem_range]
      exact ⟨known_of_isSatisfied hd, hd, .single hf⟩
    · rw [Finset.mem_filter]
      exact fun hmem => h _ hmem.2.2
  · intro i hi
    rw [Finset.mem_filter] at hi ⊢
    exact ⟨hi.1, hi.2.1, hi.2.2.tail hf⟩

end Height

/-! ## Downstream of a new method -/

/-- The height of `d` in the walk below `c`, which is at the bottom whatever it reads. -/
noncomputable def level (net : Network) (c d : ConstraintId) : Nat :=
  if d = c then 0 else (net.detached c).height d + 1

/-- The invariant of the walk below `c`, with `n` generations to follow: what is computed from the
output of `c` is not marked or lies downstream of something queued, and what is queued late is high
enough up. -/
structure Exploring (start : Network) (mark : Nat) (c : ConstraintId) (n : Nat) (net : Network)
    (ds next : List ConstraintId) : Prop extends Visiting start net (ds ++ next) where
  covered : ∀ w, start.Downstream (start.con c).output w → (start.var w).mark ≠ mark ∨
    ∃ d ∈ ds ++ next, start.Downstream (start.con d).output w
  current : ∀ d ∈ ds, start.constraints.size ≤ start.level c d + n
  following : ∀ d ∈ next, start.constraints.size < start.level c d + n

section Walk

variable {start net : Network} {mark n : Nat} {c d e : ConstraintId} {ds next : List ConstraintId}

theorem OrderedBut.level_le (h : start.OrderedBut c) (hd : (start.con d).isSatisfied = true) :
    start.level c d ≤ start.constraints.size := by
  unfold level
  split
  next => exact Nat.zero_le _
  next hne =>
    have hd' := (detached_isSatisfied_iff (known_of_isSatisfied h.satisfied)).2 ⟨hne, hd⟩
    have := h.acyclic.height_lt hd'
    rwa [detached_count] at this

/-- A satisfied constraint that reads the output of `d` and is not `c` is on a higher level. -/
theorem OrderedBut.level_lt_level (h : start.OrderedBut c) (hd : (start.con d).isSatisfied = true)
    (he : (start.con e).isSatisfied = true) (hec : e ≠ c)
    (hr : (start.con d).output ∈ (start.con e).reads) : start.level c d < start.level c e := by
  have hc := known_of_isSatisfied h.satisfied
  rw [level, level, if_neg hec]
  split
  next => exact Nat.succ_pos _
  next hdc =>
    apply Nat.succ_lt_succ
    apply h.acyclic.height_lt_height ((detached_isSatisfied_iff hc).2 ⟨hdc, hd⟩)
    refine ⟨e, (detached_isSatisfied_iff hc).2 ⟨hec, he⟩, ?_, rfl⟩
    rwa [detached_con_of_ne hdc, detached_con_of_ne hec]

/-- What the walk visits does not read its own output: `c` reads only what is marked. -/
theorem OrderedBut.output_notMem_reads (h : start.OrderedBut c)
    (hmarked : ∀ v ∈ (start.con c).reads, (start.var v).mark = mark)
    (he : (start.con e).isSatisfied = true) (hm : (start.var (start.con e).output).mark ≠ mark) :
    (start.con e).output ∉ (start.con e).reads := by
  intro hr
  by_cases hec : e = c
  · subst hec
    exact hm (hmarked _ hr)
  · apply h.acyclic.output_notMem_reads
      ((detached_isSatisfied_iff (known_of_isSatisfied h.satisfied)).2 ⟨hec, he⟩)
    rwa [detached_con_of_ne hec]

theorem Exploring.step (hs : start.OrderedBut c)
    (hmarked : ∀ v ∈ (start.con c).reads, (start.var v).mark = mark)
    (h : Exploring start mark c n net (d :: ds) next)
    (hm : (net.var (net.con d).output).mark ≠ mark) :
    Exploring start mark c n (net.recalculated d) ds
      (next ++ net.consumersOf (net.con d).output) := by
  have hnet : net.Coherent := hs.coherent.of_sameGraph h.graph
  have hm' : (start.var (start.con d).output).mark ≠ mark := by
    rwa [h.graph.con, h.marks] at hm
  have hsat : (start.con d).isSatisfied = true := h.queued d (by simp)
  have hvisit : Visiting start (net.recalculated d)
      (ds ++ (next ++ net.consumersOf (net.con d).output)) := by
    rw [← List.append_assoc]
    exact h.toVisiting.step hs.coherent
  refine ⟨hvisit, ?_, fun e he => h.current e (List.mem_cons_of_mem d he), ?_⟩
  · intro w hw
    rw [← List.append_assoc]
    rcases h.covered w hw with hunmarked | ⟨e, he, hpath⟩
    · exact .inl hunmarked
    · rcases List.mem_cons.1 he with rfl | he
      · -- a path below `d` is empty or starts with a constraint that is queued now
        rcases hpath.cases_head with rfl | ⟨u, ⟨e', hes, her, rfl⟩, hrest⟩
        · exact .inl hm'
        · refine .inr ⟨e', List.mem_append_right _ (hnet.mem_consumersOf.2 ?_), hrest⟩
          rw [h.graph.con]
          refine ⟨hes, her, fun heq => ?_⟩
          rw [← heq] at her hm'
          exact hs.output_notMem_reads hmarked hes hm' her
      · exact .inr ⟨e, List.mem_append_left _ he, hpath⟩
  · intro e he
    rcases List.mem_append.1 he with he | he
    · exact h.following e he
    · rw [hnet.mem_consumersOf, h.graph.con] at he
      have hec : e ≠ c := by
        rintro rfl
        exact hm' (hmarked _ he.2.1)
      have hlt := hs.level_lt_level hsat he.1 hec he.2.1
      have hle := h.current d (by simp)
      omega

theorem walkByGeneration_exploring {fail : Failure SolveError → Network → Prop}
    (hs : start.OrderedBut c) (hmarked : ∀ v ∈ (start.con c).reads, (start.var v).mark = mark)
    (hfail : ∀ d net, SameGraph start net → fail (.refused (.divisionByZero d)) net) :
    WalkByGeneration mark fail (Exploring start mark c) where
  coherent h := hs.coherent.of_sameGraph h.graph
  satisfied h d hd := by
    rw [h.graph.con]
    exact h.queued d (List.mem_append_left _ hd)
  step h hm _ := h.step hs hmarked hm
  refused h _ _ := hfail _ _ (h.graph.trans sameGraph_recalculated)
  turn {n net d ds} h := by
    refine ⟨by simpa using h.toVisiting, by simpa using h.covered, ?_, by simp⟩
    intro e he
    have := h.following e he
    omega
  endless {net d ds} h := by
    have hlt := h.following d (by simp)
    have hle := hs.level_le (h.queued d (by simp))
    omega

theorem exploring_start (hc : (start.con c).isSatisfied = true) :
    Exploring start mark c (start.constraints.size + start.patience) start [c] [] := by
  refine ⟨visiting_start hc, fun _ hw => .inr ⟨c, by simp, hw⟩, fun _ _ => ?_, by simp⟩
  omega

/-- What a walk that meets no mark has shown. -/
theorem Exploring.ordered (hs : start.OrderedBut c)
    (hmarked : ∀ v ∈ (start.con c).reads, (start.var v).mark = mark)
    (h : Exploring start mark c n net [] []) : net.Ordered := by
  refine Ordered.of_sameGraph (hs.ordered fun r hr hdown => ?_) h.graph
  rcases h.covered r hdown with hm | ⟨d, hd, -⟩
  · exact hm (hmarked r hr)
  · cases hd

end Walk

/-! ## Downstream of a lost method -/

/-- The invariant of a release, with `n` generations to follow: what is visited late is high enough
up. -/
structure Draining (start : Network) (n : Nat) (net : Network) (found : List ConstraintId)
    (vs next : List VariableId) (ds : List ConstraintId) : Prop
    extends Freeing start net found (vs ++ next) ds where
  current : ∀ v ∈ vs, ∀ e, (start.con e).isSatisfied = true → v ∈ (start.con e).reads →
    start.constraints.size ≤ start.height e + n
  visited : ∀ d ∈ ds, start.constraints.size ≤ start.height d + n
  following : ∀ v ∈ next, ∃ d, (start.con d).isSatisfied = true ∧ (start.con d).output = v ∧
    start.constraints.size ≤ start.height d + n

section Release

variable {start : Network}

theorem releaseByGeneration_draining {fail : Failure SolveError → Network → Prop}
    (hs : start.Ordered)
    (hfail : ∀ d net, SameGraph start net → fail (.refused (.divisionByZero d)) net) :
    ReleaseByGeneration fail (Draining start) where
  coherent h := hs.coherent.of_sameGraph h.graph
  known h v hv := by
    rw [h.graph.variableCount]
    exact h.known v (List.mem_append_left _ hv)
  satisfied h d hd := by
    rw [h.graph.con]
    exact h.satisfied d hd
  scan {n net found v vs next} h := by
    have hnet : net.Coherent := hs.coherent.of_sameGraph h.graph
    refine ⟨h.toFreeing.scan hs.coherent, fun w hw => h.current w (List.mem_cons_of_mem v hw), ?_,
      h.following⟩
    intro d hd
    rw [hnet.mem_consumersOf, h.graph.con] at hd
    exact h.current v (by simp) d hd.1 hd.2.1
  step {n net found vs next d ds} h _ := by
    have hfree := h.toFreeing.step hs.coherent
    rw [List.append_assoc] at hfree
    refine ⟨hfree, h.current, fun e he => h.visited e (List.mem_cons_of_mem d he), ?_⟩
    intro v hv
    rcases List.mem_append.1 hv with hv | hv
    · exact h.following v hv
    · rw [List.mem_singleton.1 hv, h.graph.con]
      exact ⟨d, h.satisfied d (by simp), rfl, h.visited d (by simp)⟩
  refused h _ := hfail _ _ (h.graph.trans sameGraph_recalculated)
  turn {n net found v vs} h := by
    refine ⟨by simpa using h.toFreeing, ?_, by simp, by simp⟩
    intro w hw e he hr
    obtain ⟨d, hd, rfl, hle⟩ := h.following w hw
    have hlt := hs.acyclic.height_lt_height hd ⟨e, he, hr, rfl⟩
    omega
  endless {net found v vs} h := by
    obtain ⟨d, hd, -, hle⟩ := h.following v (by simp)
    have hlt := hs.acyclic.height_lt hd
    omega

end Release

/-! ## Nested roll-backs -/

/-- How many constraints there are in the graph. -/
def graphSize (net : Network) : Nat :=
  ((Finset.range net.constraints.size).filter fun i => (net.con ⟨i⟩).attached = true).card

section GraphSize

variable {net net' : Network} {c : ConstraintId}

/-- There is always patience for as many roll-backs as there are constraints to take out. -/
theorem graphSize_lt_generations : net.graphSize < net.generations := by
  have hle : net.graphSize ≤ net.constraints.size :=
    (Finset.card_filter_le _ _).trans_eq (Finset.card_range _)
  unfold generations
  omega

theorem Keeps.graphSize (h : Keeps net net') : net'.graphSize = net.graphSize := by
  simp only [Network.graphSize, h.constraintCount, h.attached]

theorem graphSize_detached_lt (ha : (net.con c).attached = true) :
    (net.detached c).graphSize < net.graphSize := by
  have hc : c.index < net.constraints.size := known_of_attached ha
  apply Finset.card_lt_card
  rw [Finset.ssubset_iff_of_subset]
  · refine ⟨c.index, ?_, ?_⟩
    · rw [Finset.mem_filter, Finset.mem_range]
      exact ⟨hc, ha⟩
    · rw [Finset.mem_filter, detached_con_self hc]
      exact fun hmem => Bool.noConfusion hmem.2
  · intro i hi
    rw [Finset.mem_filter, detached_count] at hi
    rw [Finset.mem_filter]
    by_cases hic : (⟨i⟩ : ConstraintId) = c
    · exact ⟨hi.1, by rwa [hic]⟩
    · rwa [detached_con_of_ne hic] at hi

theorem graphSize_pos (ha : (net.con c).attached = true) : 0 < net.graphSize :=
  Nat.zero_lt_of_lt (graphSize_detached_lt ha)

end GraphSize

/-- What a failing operation leaves of an ordered network. Nothing is out of range, and there is a
limit only to the nesting of roll-backs: `deep` says that it was exceeded. -/
def Halts (deep : Prop) : Failure SolveError → Network → Prop
  | .refused (.divisionByZero _), _ => True
  | .refused _, net => net.Ordered
  | .outOfRange, _ => False
  | .endless, _ => deep

section Halts

variable {net net' : Network} {c : ConstraintId} {p q : Prop} {e : Failure SolveError}

theorem Halts.imp (h : Halts p e net) (hpq : p → q) : Halts q e net := by
  cases e with
  | refused reason => cases reason <;> exact h
  | outOfRange => exact h
  | endless => exact hpq h

theorem Ordered.halts_refused (h : net.Ordered) (reason : SolveError) :
    Halts p (.refused reason) net := by
  cases reason with
  | divisionByZero c => trivial
  | _ => exact h

theorem Halts.leaves (h : Halts p e net) : e.Leaves Ordered net := by
  cases e with
  | refused reason =>
    cases reason with
    | divisionByZero c => exact .inl trivial
    | _ => exact .inr h
  | outOfRange => exact h.elim
  | endless => exact .inl trivial

end Halts

/-- A method that is taken over leaves the other ones acyclic. -/
theorem Ordered.orderedBut_takenOver {net : Network} {c : ConstraintId} {mark : Nat} {flow : Flow}
    (h : net.Ordered) (ha : (net.con c).attached = true) (hu : (net.con c).isSatisfied = false) :
    (net.takenOver mark c flow).OrderedBut c := by
  have hc : c.index < net.constraints.size := known_of_attached ha
  refine ⟨h.coherent.takenOver ha hu, (takenOver_isSatisfied_iff h.coherent hc hu).2 (.inl rfl), ?_⟩
  refine h.acyclic.of_satisfied fun d hd => ?_
  rw [detached_isSatisfied_iff (by rwa [takenOver_count]),
    takenOver_isSatisfied_iff h.coherent hc hu] at hd
  obtain ⟨hsat, ho⟩ := hd.2.resolve_left hd.1
  exact ⟨hsat, by rw [detached_con_of_ne hd.1, takenOver_con_of_satisfied h.coherent hu hsat ho]⟩

/-- Satisfying and retracting constraints keep a network ordered, and they end unless more roll-backs
are nested than there are constraints in the graph. -/
theorem solvingInvariant_ordered :
    SolvingInvariant Ordered OrderedBut (fun n net e net' =>
      Halts (n < net.graphSize) e net' ∧ net'.constraints.size = net.constraints.size) where
  coherent h := h.coherent
  keep h hq := h.of_sameGraph hq.toSameGraph
  coherent_but h := h.coherent
  satisfied_but h := h.satisfied
  keep_but h hq := h.of_sameGraph hq.toSameGraph
  walk {net c flow} n mark h ha hu _ _ := by
    have hc : c.index < net.constraints.size := known_of_attached ha
    have hbut : (net.takenOver mark c flow).OrderedBut c := h.orderedBut_takenOver ha hu
    have hmarked : ∀ v ∈ ((net.takenOver mark c flow).con c).reads,
        ((net.takenOver mark c flow).var v).mark = mark := by
      intro v hv
      rw [takenOver_con_self h.coherent hc hu] at hv
      rw [takenOver_var h.coherent hc]
      exact if_pos hv
    refine (ends_walk_byGeneration (walkByGeneration_exploring hbut hmarked
      fun _ _ hg => ⟨trivial, hg.constraintCount.trans takenOver_count⟩) _
      (exploring_start hbut.satisfied)).mono_ok ?_
    intro met net' hend
    cases met with
    | none =>
      obtain ⟨m, hend⟩ := hend
      exact ⟨⟨_, hend.toVisiting⟩, fun _ => hend.ordered hbut hmarked, nofun⟩
    | some v =>
      obtain ⟨m, d, ds, next, hmet, -, -⟩ := hend
      exact ⟨⟨_, hmet.toVisiting⟩, nofun, fun _ _ => hbut.of_sameGraph hmet.graph⟩
  release {net c} n h := by
    have hc : c.index < net.constraints.size := known_of_isSatisfied h.satisfied
    have hs : (net.detached c).Ordered := ⟨h.coherent.detached hc, h.acyclic⟩
    have hout : (net.con c).output.index < (net.detached c).vars.size := by
      rw [detached_size]
      exact h.coherent.known_output hc
    have hinit : Draining (net.detached c) ((net.detached c).constraints.size +
        (net.detached c).patience) (net.released c) [] [(net.con c).output] [] [] := by
      refine ⟨freeing_released h.coherent h.satisfied, fun _ _ _ _ _ => ?_, by simp, by simp⟩
      omega
    refine (ends_release_byGeneration (releaseByGeneration_draining hs
      fun _ _ hg => ⟨trivial, hg.constraintCount⟩) hout hinit).mono_ok ?_
    rintro found net' ⟨m, hend⟩
    refine ⟨hs.of_sameGraph hend.graph, hend.graph, ?_⟩
    rw [hend.graph.con]
    exact hend.found
  unsatisfiable _ h _ _ := ⟨h, rfl⟩
  cycle _ _ h hk := ⟨h, hk.constraintCount.trans detached_count⟩
  spent _ ha := ⟨graphSize_pos ha, rfl⟩
  keeps hk hf := by rwa [hk.graphSize, hk.constraintCount] at hf
  nested ha hf := ⟨hf.1.imp fun hlt => Nat.lt_of_le_of_lt hlt (graphSize_detached_lt ha),
    hf.2.trans detached_count⟩

/-- A new constraint that nothing can satisfy is taken out of the graph again. -/
theorem ends_orDetach_ordered {net : Network} {c : ConstraintId} {n : Nat} (h : net.Ordered)
    (ha : (net.con c).attached = true) (hu : (net.con c).isSatisfied = false) :
    Ends (orDetach c (establish n c)) net (fun _ net' => net'.Ordered ∧ Keeps net net')
      (Halts (n < net.graphSize)) := by
  refine ends_orDetach (solvingInvariant_ordered.ends_establish n h ha hu)
    (fun _ _ hf _ => hf.1) ?_
  rintro net' ⟨hnet', hcount⟩
  have hnet' : net'.Ordered := hnet'
  have hc : c.index < net'.constraints.size := by
    rw [hcount]
    exact known_of_attached ha
  rw [ends_detach hc (hnet'.coherent.known c hc)]
  exact hnet'.detached hc

theorem runInvariant_ordered : RunInvariant (fun _ _ => True) Ordered where
  coherent h := h.coherent
  empty := ordered_empty
  quiet h hq := h.of_sameGraph hq.toSameGraph
  withVariable h := ⟨h.coherent.withVariable, h.acyclic.of_con rfl⟩
  edit _ := trivial
  add _ h _ hk := (ends_orDetach_ordered (h.registered hk) registered_new_attached
    registered_new_unsatisfied).mono (fun _ _ hend => hend.1) fun _ _ hf => hf.leaves
  establish n h ha hu := (solvingInvariant_ordered.ends_establish n h ha hu).mono
    (fun _ _ hend => hend.1) fun _ _ hf => hf.1.leaves
  withdraw n h hs := (solvingInvariant_ordered.ends_withdraw n (h.orderedBut hs)).mono
    (fun _ _ hend => hend.1) fun _ _ hf => hf.1.leaves
  drop h ha _ := h.detached (known_of_attached ha)

/-! ## Runs -/

/-- The variable `w` is computed by a satisfied constraint that reads `v`. -/
def ComputedFrom (net : Network) (w v : VariableId) : Prop :=
  ∃ x c k, net.getVariable? w = some x ∧ x.determinedBy = some c ∧
    net.getConstraint? c = some k ∧ k.isSatisfied = true ∧ v ∈ k.reads

/-- After every run, whatever was asked and refused, no variable is computed from itself in any number
of steps. -/
theorem dataflow_acyclic {net : Network} (h : Run (fun _ _ => True) net) (v : VariableId) :
    ¬ TransGen net.ComputedFrom v v := by
  have hnet := runInvariant_ordered.holds h
  have hfeeds : ∀ w u, net.ComputedFrom w u → net.Feeds u w := by
    rintro w u ⟨x, c, k, hx, hdet, hk, hsat, hr⟩
    obtain ⟨-, rfl⟩ := getVariable?_eq_some.1 hx
    obtain ⟨-, rfl⟩ := getConstraint?_eq_some.1 hk
    exact ⟨c, hsat, hr, ((hnet.coherent.determines w c).1 hdet).2⟩
  intro hv
  exact hnet.acyclic v (transGen_swap.1 (TransGen.mono hfeeds v v hv))

end Network

/-- A chain of equations is closed to a cycle, which is refused, and then turned round by an edit at
its other end. -/
def closedRequests : List Request :=
  [.addVariable "a" 1, .addVariable "b" 2, .addVariable "c" 3, .add (.stay ⟨0⟩) .normal,
    .add (.equal ⟨0⟩ ⟨1⟩) .required, .add (.equal ⟨1⟩ ⟨2⟩) .required,
    .add (.equal ⟨2⟩ ⟨0⟩) .required, .add (.edit ⟨2⟩) .strongPreferred]

def closedNetwork : Network :=
  (Request.runAll (fun _ _ => true) closedRequests .empty).get (by decide +kernel)

namespace Network

theorem dataflow_acyclic_closedNetwork :
    TransGen closedNetwork.ComputedFrom ⟨0⟩ ⟨2⟩ ∧ ¬ TransGen closedNetwork.ComputedFrom ⟨0⟩ ⟨0⟩ := by
  have hrun : Run (fun _ _ => True) closedNetwork :=
    Run.of_runAll (fun _ _ _ => trivial) closedRequests .empty (Option.some_get _).symm
  have hab : closedNetwork.ComputedFrom ⟨0⟩ ⟨1⟩ :=
    ⟨_, ⟨1⟩, _, getVariable?_eq_var (by decide +kernel), by decide +kernel,
      getConstraint?_eq_con (by decide +kernel), by decide +kernel, by decide +kernel⟩
  have hbc : closedNetwork.ComputedFrom ⟨1⟩ ⟨2⟩ :=
    ⟨_, ⟨2⟩, _, getVariable?_eq_var (by decide +kernel), by decide +kernel,
      getConstraint?_eq_con (by decide +kernel), by decide +kernel, by decide +kernel⟩
  exact ⟨.tail (.single hab) hbc, dataflow_acyclic hrun ⟨0⟩⟩

end Network

end ConstraintHierarchy
