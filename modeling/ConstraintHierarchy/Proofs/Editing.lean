import Mathlib.Data.Set.Insert
import ConstraintHierarchy.Proofs.Execution
import ConstraintHierarchy.Proofs.Rollback

/-!
# Temporary edits

To change a variable is to add an edit, to replay the plan of the edit and to retract the edit again.
The graph is meant to be the same afterwards. Two things can come in between. A constraint that closes
a cycle is given up for good, wherever in the course of an operation that happens; the journal says
which. And if the addition of the edit is refused after the edit has been registered, the rest of the
change, with it the removal, does not take place.

The edit itself is never given up. A constraint is rolled back when the walk below its method meets a
variable that is marked, and a constraint that reads nothing marks nothing. When its turn comes because
it has been displaced, its one variable is marked already and it finds no method at all.

## Main definitions

* `Network.graph`: the constraints that are part of the graph
* `Network.rolledBack`: the constraints that the journal says have been rolled back
* `Network.GivesUp`: the constraints that leave the graph are those rolled back

## Main results

* `Network.ends_establish_givesUp`, `Network.ends_withdraw_givesUp`: what satisfying and retracting
  constraints give up
* `Network.change_graph`: what a temporary edit leaves of the graph
* `Network.change_not_neutral`: that is not always what was there before
-/

namespace ConstraintHierarchy

open Solve Network

/-- The constraint whose roll-back the event announces. -/
def Event.rolledBack? : Event → Option ConstraintId
  | .rollingBack c _ => some c
  | _ => none

namespace Network

/-- The constraints that are part of the graph. -/
def graph (net : Network) : Set ConstraintId := {c | (net.con c).attached = true}

instance {net : Network} {c : ConstraintId} : Decidable (c ∈ net.graph) :=
  inferInstanceAs (Decidable ((net.con c).attached = true))

/-- The constraints that have been rolled back so far, in order. -/
def rolledBack (net : Network) : List ConstraintId :=
  net.journal.toList.filterMap Event.rolledBack?

section Graph

variable {net net' : Network} {c : ConstraintId}

theorem Keeps.graph (h : Keeps net net') : net'.graph = net.graph := by
  ext c
  show (net'.con c).attached = true ↔ (net.con c).attached = true
  rw [h.attached]

theorem graph_detached (hc : c.index < net.constraints.size) :
    (net.detached c).graph = net.graph \ {c} := by
  ext d
  show ((net.detached c).con d).attached = true ↔ (net.con d).attached = true ∧ d ≠ c
  by_cases hd : d = c
  · subst hd
    simp [detached_con_self hc]
  · simp [detached_con_of_ne hd, hd]

theorem new_notMem_graph : (⟨net.constraints.size⟩ : ConstraintId) ∉ net.graph :=
  fun h => Nat.lt_irrefl _ (known_of_attached h)

theorem graph_registered {kind : Kind} {strength : Strength} :
    (net.registered kind strength).graph = insert ⟨net.constraints.size⟩ net.graph := by
  ext d
  show ((net.registered kind strength).con d).attached = true ↔ d = _ ∨ (net.con d).attached = true
  by_cases hd : d = ⟨net.constraints.size⟩
  · subst hd
    simp [registered_new_attached]
  · simp [registered_con_of_ne hd, hd]

theorem rolledBack_congr (h : net'.journal = net.journal) : net'.rolledBack = net.rolledBack := by
  rw [rolledBack, h, rolledBack]

theorem rolledBack_push {e : Event} :
    { net with journal := net.journal.push e }.rolledBack =
      net.rolledBack ++ e.rolledBack?.toList := by
  cases e <;> simp [rolledBack, Event.rolledBack?, List.filterMap_cons]

/-- Most of what happens is no roll-back. -/
theorem rolledBack_note {e : Event} (he : e.rolledBack? = none) :
    { net with journal := net.journal.push e }.rolledBack = net.rolledBack := by
  rw [rolledBack_push, he, Option.toList_none, List.append_nil]

theorem takenOver_journal {mark : Nat} {flow : Flow} :
    (net.takenOver mark c flow).journal = net.journal := by
  simp only [takenOver, withoutMethod]
  split
  · exact alterVariables_journal
  · exact alterVariables_journal

theorem detached_journal : (net.detached c).journal = net.journal := alterVariables_journal

theorem rolledBack_registered {kind : Kind} {strength : Strength} :
    (net.registered kind strength).rolledBack = net.rolledBack := by
  simp [rolledBack, registered, Event.rolledBack?]

end Graph

/-! ## What is given up -/

/-- On the way from `net` to `net'` the constraints `gone` have been rolled back, which were part of the
graph and have an input, and nothing else has left the graph or joined it. -/
structure GivesUp (net net' : Network) (gone : List ConstraintId) : Prop where
  rolledBack : net'.rolledBack = net.rolledBack ++ gone
  graph : net'.graph = net.graph \ {c | c ∈ gone}
  kind : ∀ c, (net'.con c).kind = (net.con c).kind
  lost : ∀ c ∈ gone, c ∈ net.graph ∧ ∀ flow, (net.con c).kind.input flow ≠ none

namespace GivesUp

variable {net net' net'' : Network} {gone gone' : List ConstraintId} {c : ConstraintId}

theorem of_keeps (h : Keeps net net') (hr : net'.rolledBack = net.rolledBack) :
    GivesUp net net' [] where
  rolledBack := by rw [hr, List.append_nil]
  graph := by simp [h.graph]
  kind := h.kind
  lost := by simp

theorem graph_eq (h : GivesUp net net' []) : net'.graph = net.graph := by
  ext c
  simp [h.graph]

theorem trans (h : GivesUp net net' gone) (h' : GivesUp net' net'' gone') :
    GivesUp net net'' (gone ++ gone') where
  rolledBack := by rw [h'.rolledBack, h.rolledBack, List.append_assoc]
  graph := by
    ext c
    simp [h'.graph, h.graph, and_assoc]
  kind c := (h'.kind c).trans (h.kind c)
  lost c hc := by
    obtain hc | hc := List.mem_append.1 hc
    · exact h.lost c hc
    · obtain ⟨hin, hbinary⟩ := h'.lost c hc
      rw [h.graph] at hin
      rw [h.kind] at hbinary
      exact ⟨hin.1, hbinary⟩

/-- The roll-back of `c`, which has been announced and takes it out of the graph, may give up more. -/
theorem rollingBack (hc : c ∈ net.graph) (hbinary : ∀ flow, (net.con c).kind.input flow ≠ none)
    (h : Keeps net net') (hr : net'.rolledBack = net.rolledBack ++ [c])
    (h' : GivesUp (net'.detached c) net'' gone) : GivesUp net net'' (c :: gone) := by
  have hk : c.index < net'.constraints.size := known_of_attached ((h.attached c).trans hc)
  have hkind : ∀ d, ((net'.detached c).con d).kind = (net.con d).kind := by
    intro d
    by_cases hd : d = c
    · rw [hd, detached_con_self hk]
      exact h.kind c
    · rw [detached_con_of_ne hd, h.kind]
  have hgraph := graph_detached hk
  rw [h.graph] at hgraph
  refine ⟨?_, ?_, fun d => (h'.kind d).trans (hkind d), ?_⟩
  · rw [h'.rolledBack, rolledBack_congr detached_journal, hr, List.append_assoc]
    rfl
  · ext d
    simp [h'.graph, hgraph, and_assoc]
  · intro d hd
    obtain rfl | hd := List.mem_cons.1 hd
    · exact ⟨hc, hbinary⟩
    · obtain ⟨hin, hd⟩ := h'.lost d hd
      rw [hgraph] at hin
      rw [hkind] at hd
      exact ⟨hin.1, hd⟩

end GivesUp

/-! ## Satisfying and retracting -/

section Walks

variable {net start : Network} {c : ConstraintId} {mark n : Nat}

/-- A walk writes nothing into the journal. -/
theorem ends_walk_journal (hcoh : start.Coherent) (hsat : (start.con c).isSatisfied = true) :
    Ends (walk mark n [c]) start
      (fun _ net' => SameGraph start net' ∧ net'.journal = start.journal)
      (fun _ net' => SameGraph start net' ∧ net'.journal = start.journal) := by
  have inv : WalkInvariant mark
      (fun _ net' => SameGraph start net' ∧ net'.journal = start.journal)
      (fun net' q => Visiting start net' q ∧ net'.journal = start.journal) :=
    { coherent := fun h => hcoh.of_sameGraph h.1.graph
      satisfied := fun h d hd => by rw [h.1.graph.con]; exact h.1.queued d hd
      step := fun h _ _ => ⟨h.1.step hcoh, h.2⟩
      refused := fun h _ _ => ⟨(h.1.step hcoh).graph, h.2⟩
      endless := fun h => ⟨h.1.graph, h.2⟩ }
  refine (ends_walk inv n ⟨visiting_start hsat, rfl⟩).mono_ok ?_
  intro met net' hend
  cases met with
  | none => exact ⟨hend.1.graph, hend.2⟩
  | some v =>
    obtain ⟨d, q, hmet, -⟩ := hend
    exact ⟨hmet.1.graph, hmet.2⟩

/-- A release writes nothing into the journal. -/
theorem ends_release_journal (hcoh : net.Coherent) (hsat : (net.con c).isSatisfied = true) :
    Ends (release (net.con c).output) (net.detached c)
      (fun _ net' => SameGraph (net.detached c) net' ∧ net'.journal = net.journal)
      (fun _ net' => SameGraph (net.detached c) net' ∧ net'.journal = net.journal) := by
  have hk := known_of_isSatisfied hsat
  have hdetached : (net.detached c).Coherent := hcoh.detached hk
  have inv : ReleaseInvariant
      (fun _ net' => SameGraph (net.detached c) net' ∧ net'.journal = net.journal)
      (fun net' found q ds => Freeing (net.detached c) net' found q ds ∧
        net'.journal = net.journal) :=
    { coherent := fun h => hdetached.of_sameGraph h.1.graph
      known := fun h v hv => by rw [h.1.graph.variableCount]; exact h.1.known v hv
      satisfied := fun h d hd => by rw [h.1.graph.con]; exact h.1.satisfied d hd
      scan := fun h => ⟨h.1.scan hdetached, h.2⟩
      step := fun h _ => ⟨h.1.step hdetached, h.2⟩
      refused := fun h _ => ⟨(h.1.step hdetached).graph, h.2⟩
      endless := fun h => ⟨h.1.graph, h.2⟩ }
  have hout : (net.con c).output.index < (net.detached c).vars.size := by
    rw [detached_size]
    exact hcoh.known_output hk
  refine (ends_release inv hout ⟨freeing_released hcoh hsat, ?_⟩).mono_ok
    fun _ _ hend => ⟨hend.1.graph, hend.2⟩
  exact detached_journal

end Walks

/-- The rounds of a cascade, in which nothing has been rolled back. A constraint without input that looks
for a method finds its variable marked; only in the first round it may find nothing marked at all. -/
structure Tallying (start : Network) (mark rounds : Nat) (o : Option ConstraintId) (net : Network) :
    Prop extends Resatisfying Regular start mark rounds o net where
  kept : net.rolledBack = start.rolledBack
  marked : ∀ d, o = some d → (net.con d).input = none →
    (net.var (net.con d).output).mark = mark ∨ ∀ v, (net.var v).mark ≠ mark

section Cascade

variable {start net cur : Network} {mark rounds n : Nat} {c o : ConstraintId}

/-- The output of a constraint without input does not depend on its method. -/
theorem output_of_input_none {k l : Constraint} (hkind : l.kind = k.kind) (h : k.input = none) :
    l.output = k.output := by
  obtain ⟨w, hk | hk⟩ := Kind.input_eq_none_iff.1 h
  · rw [Constraint.output, Constraint.output, hkind, hk, Kind.output, Kind.output]
  · rw [Constraint.output, Constraint.output, hkind, hk, Kind.output, Kind.output]

/-- A constraint without input does not close a cycle. -/
theorem Tallying.input_ne_none {flow : Flow} {v : VariableId}
    (h : Tallying start mark rounds (some o) cur) (hflow : cur.flowFor mark o = some flow)
    (hmet : ((cur.takenOver mark o flow).var v).mark = mark) :
    ∀ flow, (cur.con o).kind.input flow ≠ none := by
  intro flow' hi
  obtain ⟨ha, -, -⟩ := h.displaced o rfl
  have hnone : (cur.con o).input = none := Kind.input_eq_none_iff.2 (Kind.input_eq_none_iff.1 hi)
  have hdirected : (cur.directed o flow).input = none :=
    Kind.input_eq_none_iff.2 (Kind.input_eq_none_iff.1 hi)
  obtain hout | hfresh := h.marked o rfl hnone
  · have hfree : (cur.var (cur.directed o flow).output).mark ≠ mark := (flowFor_some hflow).1.1
    have hsame : (cur.directed o flow).output = (cur.con o).output := output_of_input_none rfl hnone
    exact hfree (hsame ▸ hout)
  · rw [takenOver_var h.holds.coherent (known_of_attached ha),
      Constraint.reads_eq_nil hdirected] at hmet
    exact hfresh v hmet

/-- Whatever has happened to its method since, a constraint without input has the output that it
computed. -/
theorem output_of_displaced {v : VariableId} (hcoh : cur.Coherent) (hkeeps : Keeps cur net)
    (hc : (cur.var v).determinedBy = some c) (hi : (net.con c).input = none) :
    (net.con c).output = v := by
  have hkind : (cur.con c).kind = (net.con c).kind := (hkeeps.kind c).symm
  rw [← output_of_input_none hkind hi]
  exact ((hcoh.determines v c).1 hc).2

/-- What a round does to the tally: it gives nothing up, or the constraint that it installs and what
the roll-back of that gives up. -/
theorem Tallying.ends_install_tally
    (hroll : ∀ {net c}, net.Regular → (net.con c).isSatisfied = true →
      Ends (withdraw n c) net (fun _ net' => GivesUp (net.detached c) net' [])
        (fun _ net' => ∃ gone, GivesUp (net.detached c) net' gone))
    (h : Tallying start mark (rounds + 1) (some o) cur) :
    Ends (install (withdraw n) mark o) cur
      (fun o' next => next.rolledBack = start.rolledBack ∧
        ∀ d, o' = some d → (next.con d).input = none →
          (next.var (next.con d).output).mark = mark ∨ ∀ v, (next.var v).mark ≠ mark)
      (fun _ net' => ∃ gone, GivesUp start net' gone) := by
  obtain ⟨ha, hu, -⟩ := h.displaced o rfl
  have hcoh := h.holds.coherent
  have hstart : GivesUp start cur [] := .of_keeps h.keeps h.kept
  refine Network.ends_install hcoh ha hu (fun _ _ => ⟨[], hstart⟩) (fun _ _ => ⟨h.kept, nofun⟩) ?_
  intro flow hflow
  apply ends_propagate
  have hsat : ((cur.takenOver mark o flow).con o).isSatisfied = true :=
    (takenOver_isSatisfied_iff hcoh (known_of_attached ha) hu).2 (.inl rfl)
  have htaken : (cur.takenOver mark o flow).Coherent := hcoh.takenOver ha hu
  -- the walk keeps the graph, and the journal too
  have hsilent : ∀ {net'}, SameGraph (cur.takenOver mark o flow) net' →
      net'.journal = (cur.takenOver mark o flow).journal →
      Keeps cur net' ∧ net'.rolledBack = cur.rolledBack := fun hg hj =>
    ⟨keeps_takenOver.trans hg.keeps, rolledBack_congr (hj.trans takenOver_journal)⟩
  refine (((solvingInvariant_regular.walk n mark h.holds ha hu h.started hflow).and
    (ends_walk_met htaken hsat)).and (ends_walk_journal htaken hsat)).mono ?_ ?_
  · rintro met net' ⟨⟨⟨⟨q, hvisit⟩, -, hsome⟩, hmet⟩, hgraph, hjournal⟩
    obtain ⟨hkeeps, hrolled⟩ := hsilent hgraph hjournal
    cases met with
    | none =>
      refine ⟨hkeeps.variableCount, (rolledBack_congr rfl).trans (hrolled.trans h.kept),
        fun d hd hi => .inl ?_⟩
      show ((net'.alterVariable _ _).var (net'.con d).output).mark = mark
      rw [output_of_displaced hcoh hkeeps hd hi, alterVariable_var_self]
      rw [hkeeps.variableCount]
      exact hcoh.known_directed_output (known_of_attached ha)
    | some v =>
      have hun : Quiet net' (net'.unwound (cur.takenOver mark o flow).vars o v) :=
        quiet_unwound hvisit.graph.variableCount.symm
      have hback := solvingInvariant_regular.keep_but (hsome v rfl) hun
      have hannounced : (net'.unwound (cur.takenOver mark o flow).vars o v).rolledBack =
          cur.rolledBack ++ [o] := by
        rw [← hrolled]
        exact rolledBack_push (e := .rollingBack o v)
      have hgone : ∀ {net'' gone},
          GivesUp ((net'.unwound (cur.takenOver mark o flow).vars o v).detached o) net'' gone →
          ∃ gone, GivesUp start net'' gone := fun hgives =>
        ⟨_, hstart.trans (.rollingBack ha (h.input_ne_none hflow (hmet v rfl))
          (hkeeps.trans hun.keeps) hannounced hgives)⟩
      exact (hroll hback.1 hback.2).mono (fun _ _ hgives => hgone hgives)
        fun _ _ ⟨_, hgives⟩ => hgone hgives
  · rintro _ net' ⟨-, hgraph, hjournal⟩
    obtain ⟨hkeeps, hrolled⟩ := hsilent hgraph hjournal
    exact ⟨_, hstart.trans (.of_keeps hkeeps hrolled)⟩

theorem Tallying.ends_install
    (hroll : ∀ {net c}, net.Regular → (net.con c).isSatisfied = true →
      Ends (withdraw n c) net (fun _ net' => GivesUp (net.detached c) net' [])
        (fun _ net' => ∃ gone, GivesUp (net.detached c) net' gone))
    (h : Tallying start mark (rounds + 1) (some o) cur) :
    Ends (install (withdraw n) mark o) cur (Tallying start mark rounds)
      (fun _ net' => ∃ gone, GivesUp start net' gone) := by
  have hregular := solvingInvariant_regular.ends_install (n := n)
    (fun _ _ hq => solvingInvariant_regular.ends_withdraw n hq) h.toResatisfying
  exact (hregular.and (h.ends_install_tally hroll)).mono
    (fun _ _ hend => ⟨hend.1, hend.2.1, hend.2.2⟩) fun _ _ hf => hf.2

/-- In the first round nothing is marked. -/
theorem tallying_start (h : net.Regular) (ha : (net.con c).attached = true)
    (hu : (net.con c).isSatisfied = false) :
    Tallying net (net.mark + 1) (net.vars.size + 1) (some c) { net with mark := net.mark + 1 } := by
  refine ⟨solvingInvariant_regular.resatisfying_start h ha hu, rfl, fun d _ _ => .inr fun v hv => ?_⟩
  have hpast : (net.var v).mark ≤ net.mark := h.marksPast v
  exact absurd hv (Nat.ne_of_lt (Nat.lt_succ_of_le hpast))

/-- The retries of a retraction, each of which gives nothing up unless it is the last. -/
theorem ends_retryLevels_givesUp {found : List ConstraintId}
    (hretry : ∀ {net c}, net.Regular → (net.con c).attached = true →
      (net.con c).isSatisfied = false →
      Ends (establish n c) net (fun _ net' => GivesUp net net' [])
        (fun _ net' => ∃ gone, GivesUp net net' gone))
    (hfound : ∀ u ∈ found, u ∈ start.graph) (h : net.Regular) (hnet : GivesUp start net []) :
    Ends (retryLevels (establish n) found Strength.all) net (fun _ net' => GivesUp start net' [])
      (fun _ net' => ∃ gone, GivesUp start net' gone) := by
  let L : List ConstraintId → Network → Prop := fun us cur =>
    cur.Regular ∧ GivesUp start cur [] ∧ ∀ u ∈ us, u ∈ start.graph
  have hin : ∀ {us cur u}, L us cur → u ∈ us → (cur.con u).attached = true := by
    intro us cur u hcur hu
    have hmem : u ∈ cur.graph := by
      rw [hcur.2.1.graph_eq]
      exact hcur.2.2 u hu
    exact hmem
  refine (Network.ends_retryLevels (L := fun _ cur => L found cur) ?_ _ ⟨h, hnet, hfound⟩).mono_ok
    fun _ _ hend => hend.2.1
  intro level levels cur hcur
  refine (ends_retryLevel (J := L) ?_ ?_ ?_ found hcur).mono_ok
    fun _ _ hend => ⟨hend.1, hend.2.1, hfound⟩
  · exact fun hus u hu => known_of_attached (hin hus hu)
  · intro u us cur hus _ hunsat
    have ha := hin hus (List.mem_cons_self ..)
    refine ((solvingInvariant_regular.ends_establish n hus.1 ha hunsat).and
      (hretry hus.1 ha hunsat)).mono ?_ ?_
    · rintro _ next ⟨⟨hreg, -⟩, hgives⟩
      exact ⟨hreg, hus.2.1.trans hgives, fun w hw => hus.2.2 w (List.mem_cons_of_mem u hw)⟩
    · rintro _ next ⟨-, gone, hgives⟩
      exact ⟨_, hus.2.1.trans hgives⟩
  · exact fun hus _ => ⟨hus.1, hus.2.1, fun w hw => hus.2.2 w (List.mem_cons_of_mem _ hw)⟩

/-- A retraction gives up what its retries give up. -/
theorem ends_withdraw_of_retries
    (hretry : ∀ {net c}, net.Regular → (net.con c).attached = true →
      (net.con c).isSatisfied = false →
      Ends (establish n c) net (fun _ net' => GivesUp net net' [])
        (fun _ net' => ∃ gone, GivesUp net net' gone))
    (h : net.Regular) (hs : (net.con c).isSatisfied = true) :
    Ends (withdraw n c) net (fun _ net' => GivesUp (net.detached c) net' [])
      (fun _ net' => ∃ gone, GivesUp (net.detached c) net' gone) := by
  have hk := known_of_isSatisfied hs
  have hsilent : ∀ {net'}, SameGraph (net.detached c) net' → net'.journal = net.journal →
      GivesUp (net.detached c) net' [] := fun hg hj =>
    .of_keeps hg.keeps (rolledBack_congr (hj.trans detached_journal.symm))
  rw [withdraw, withdrawUsing, ends_bind, ends_readConstraint hk, ends_bind,
    ends_detach hk (h.coherent.known c hk), ends_bind]
  refine ((solvingInvariant_regular.release n ⟨h, hs⟩).and
    (ends_release_journal h.coherent hs)).mono ?_ fun _ _ hf => ⟨_, hsilent hf.2.1 hf.2.2⟩
  rintro found net' ⟨⟨hreg, hgraph, hfound⟩, -, hjournal⟩
  rw [ends_bind, ends_note]
  refine ends_retryLevels_givesUp hretry (fun u hu => ?_) (hreg.of_quiet quiet_note)
    ((hsilent hgraph hjournal).trans (.of_keeps quiet_note.keeps (rolledBack_note rfl)))
  show ((net.detached c).con u).attached = true
  rw [← hgraph.con]
  exact hfound u hu

/-- Satisfying a constraint gives nothing up if it is answered; if it fails, it gives up what it has
rolled back. -/
theorem ends_establish_givesUp (n : Nat) :
    ∀ {net : Network} {c : ConstraintId}, net.Regular → (net.con c).attached = true →
      (net.con c).isSatisfied = false →
      Ends (establish n c) net (fun _ net' => GivesUp net net' [])
        (fun _ net' => ∃ gone, GivesUp net net' gone) := by
  induction n with
  | zero => exact fun _ _ _ => ⟨[], .of_keeps (.refl _) rfl⟩
  | succ n ih =>
    intro net c h ha hu
    have hinstall : ∀ {rounds o cur}, Tallying net (net.mark + 1) (rounds + 1) (some o) cur →
        Ends (install (withdraw n) (net.mark + 1) o) cur (Tallying net (net.mark + 1) rounds)
          (fun _ net' => ∃ gone, GivesUp net net' gone) :=
      fun hround => hround.ends_install fun hreg hs => ends_withdraw_of_retries ih hreg hs
    rw [establish, establishUsing, ends_bind, ends_freshMark, ends_bind]
    refine (hinstall (tallying_start h ha hu)).mono_ok fun o cur hcur => ?_
    rw [ends_bind, ends_get, hcur.keeps.variableCount]
    refine (ends_resatisfy_within (J := Tallying net (net.mark + 1)) hinstall ?_ ?_ _ hcur).mono_ok ?_
    · intro rounds o d cur hround
      exact ⟨solvingInvariant_regular.resatisfying_journal hround.toResatisfying,
        (rolledBack_note rfl).trans hround.kept, hround.marked⟩
    · exact fun hround => Nat.not_lt_zero _ (hround.displaced _ rfl).2.2
    · rintro _ cur ⟨_, hround⟩
      exact .of_keeps hround.keeps hround.kept

theorem ends_withdraw_givesUp (n : Nat) (h : net.Regular) (hs : (net.con c).isSatisfied = true) :
    Ends (withdraw n c) net (fun _ net' => GivesUp (net.detached c) net' [])
      (fun _ net' => ∃ gone, GivesUp (net.detached c) net' gone) :=
  ends_withdraw_of_retries (ends_establish_givesUp n) h hs

end Cascade

/-! ## A temporary edit -/

/-- After a failure `e` the graph of `net` is there but for what has been rolled back, and the constraint
next in number is there if `kept` says so. The constraint that is refused for its cycle is among those
rolled back. -/
def Spares (net : Network) (kept : Prop) (e : Failure SolveError) (net' : Network) : Prop :=
  ∃ gone, net'.rolledBack = net.rolledBack ++ gone ∧ (∀ c ∈ gone, c ∈ net.graph) ∧
    (∀ d, e = .refused (.cycle d) → d ∈ gone) ∧
    ∀ c, c ∈ net'.graph ↔ c ∈ net.graph ∧ c ∉ gone ∨ c = ⟨net.constraints.size⟩ ∧ kept

section Edit

variable {net cur cur' net' : Network} {v : VariableId} {strength : Strength}
  {e : Failure SolveError} {gone : List ConstraintId} {p q : Prop} {c : ConstraintId}

theorem Spares.congr (h : Spares net p e net') (hpq : p ↔ q) : Spares net q e net' := by
  obtain ⟨gone, hrolled, hlost, hcycle, hgraph⟩ := h
  exact ⟨gone, hrolled, hlost, hcycle, fun c => by rw [hgraph, hpq]⟩

/-- Nothing has been given up. -/
theorem spares_of_graph (hg : net'.graph = net.graph) (hr : net'.rolledBack = net.rolledBack)
    (he : ∀ d, e ≠ .refused (.cycle d)) : Spares net False e net' :=
  ⟨[], by rw [hr, List.append_nil], by simp, fun d hd => absurd hd (he d), by simp [hg]⟩

theorem GivesUp.mem_gone (h : GivesUp net net' gone) (hin : c ∈ net.graph) (hout : c ∉ net'.graph) :
    c ∈ gone := by
  by_contra hc
  rw [h.graph] at hout
  exact hout ⟨hin, hc⟩

/-- The constraint that a failure names as the one that closes a cycle is among those given up. -/
theorem GivesUp.closing (h : GivesUp net net' gone) (hf : Fails net e net') {d : ConstraintId}
    (hd : e = .refused (.cycle d)) : d ∈ gone := by
  obtain ⟨d', heq, hin, hout⟩ := hf.promised _ hd rfl
  cases heq
  exact h.mem_gone hin fun hin' => Bool.noConfusion (hout.symm.trans hin')

/-- A new edit is not among those given up. -/
theorem GivesUp.edit_notMem (h : GivesUp (net.registered (.edit v) strength) net' gone) :
    (⟨net.constraints.size⟩ : ConstraintId) ∉ gone := by
  intro hc
  obtain ⟨-, hbinary⟩ := h.lost _ hc
  rw [registered_con_new] at hbinary
  exact hbinary none rfl

theorem GivesUp.lost_of_edit (h : GivesUp (net.registered (.edit v) strength) net' gone) :
    ∀ c ∈ gone, c ∈ net.graph := by
  intro c hc
  have hin := (h.lost c hc).1
  rw [graph_registered] at hin
  obtain rfl | hin := hin
  · exact absurd hc h.edit_notMem
  · exact hin

theorem GivesUp.mem_graph_edit (h : GivesUp (net.registered (.edit v) strength) net' gone) :
    c ∈ net'.graph ↔ c ∈ net.graph ∧ c ∉ gone ∨ c = ⟨net.constraints.size⟩ := by
  have hmem : c ∈ net'.graph ↔ (c = ⟨net.constraints.size⟩ ∨ c ∈ net.graph) ∧ c ∉ gone := by
    rw [h.graph, graph_registered]
    rfl
  rw [hmem]
  constructor
  · rintro ⟨rfl | hin, hc⟩
    · exact .inr rfl
    · exact .inl ⟨hin, hc⟩
  · rintro (⟨hin, hc⟩ | rfl)
    · exact ⟨.inr hin, hc⟩
    · exact ⟨.inl rfl, h.edit_notMem⟩

/-- The network while the edit is there: the constraint next in number has joined the graph of `net`,
and nothing has been rolled back. -/
structure Edited (net cur : Network) : Prop where
  regular : cur.Regular
  graph : cur.graph = insert ⟨net.constraints.size⟩ net.graph
  rolledBack : cur.rolledBack = net.rolledBack

theorem Edited.mem_graph (h : Edited net cur) : (⟨net.constraints.size⟩ : ConstraintId) ∈ cur.graph := by
  rw [h.graph]
  exact Set.mem_insert _ _

theorem Edited.of_quiet (h : Edited net cur) (hq : Quiet cur cur')
    (hr : cur'.rolledBack = cur.rolledBack) : Edited net cur' :=
  ⟨h.regular.of_quiet hq, hq.keeps.graph.trans h.graph, hr.trans h.rolledBack⟩

/-- An edit that has been registered stays in the graph, unless it is refused itself. -/
theorem ends_addConstraint_spares (h : net.Regular) (hv : v.index < net.vars.size) :
    Ends (addConstraint (.edit v) strength) net
      (fun c net' => c = ⟨net.constraints.size⟩ ∧ Edited net net' ∧ net'.vars.size = net.vars.size)
      (fun e net' => Spares net (e ≠ .refused (.unsatisfiable ⟨net.constraints.size⟩)) e net') := by
  have hk : ∀ w ∈ (Kind.edit v).operands, w.index < net.vars.size := by
    simpa [Kind.operands] using hv
  have hreg : (net.registered (.edit v) strength).Regular := h.registered hk
  rw [addConstraint, ends_bind, ends_checkVariables_known hk, ends_bind, ends_register hk, ends_bind,
    ends_nesting, ends_bind]
  refine ends_orDetach ((solvingInvariant_regular.ends_establish _ hreg registered_new_attached
    registered_new_unsatisfied).and (ends_establish_givesUp _ hreg registered_new_attached
    registered_new_unsatisfied)) ?_ ?_ |>.mono_ok ?_
  · rintro e net' ⟨hfails, gone, hgives⟩ hne
    refine ⟨gone, by rw [hgives.rolledBack, rolledBack_registered], hgives.lost_of_edit,
      fun d hd => hgives.closing hfails hd, fun c => ?_⟩
    rw [hgives.mem_graph_edit]
    simp [hne]
  · rintro net' ⟨hfails, gone, hgives⟩
    have hc := hfails.known_new
    rw [ends_detach hc (hfails.regular.coherent.known _ hc)]
    refine ⟨gone, ?_, hgives.lost_of_edit, by simp, fun c => ?_⟩
    · rw [rolledBack_congr detached_journal, hgives.rolledBack, rolledBack_registered]
    · have hnew : c ∈ net.graph → c ≠ ⟨net.constraints.size⟩ := by
        rintro hin rfl
        exact new_notMem_graph hin
      rw [graph_detached hc]
      simp only [Set.mem_sdiff, Set.mem_singleton_iff, hgives.mem_graph_edit]
      tauto
  · rintro _ net' ⟨⟨hreg', hkeeps⟩, hgives⟩
    refine ⟨rfl, ⟨hreg', by rw [hkeeps.graph, graph_registered], ?_⟩,
      hkeeps.variableCount.trans registered_size⟩
    rw [hgives.rolledBack, List.append_nil, rolledBack_registered]

/-- The extraction of the plan touches neither the graph nor the journal. -/
theorem Edited.ends_extractPlan (h : Edited net cur) (hs : cur.Settled) :
    Ends (extractPlan [⟨net.constraints.size⟩]) cur
      (fun plan cur' => Edited net cur' ∧ cur'.Executable plan.steps ∧
        cur'.vars.size = cur.vars.size)
      (fun _ _ => False) := by
  refine ((ends_extractPlan_planning hs h.regular.marksPast [⟨net.constraints.size⟩]).and
    (quietly_extractPlan [⟨net.constraints.size⟩] cur (Nat.zero_le _))).mono ?_ ?_
  · rintro plan cur' ⟨hplan, hquiet⟩
    have hjournal : cur'.journal = cur.journal := (congrArg Network.journal hplan.same :)
    exact ⟨h.of_quiet hquiet (rolledBack_congr hjournal),
      (hplan.executable hs).mono (congrArg Network.constraints hplan.same :)
        hplan.solution.variableCount.ge,
      hplan.solution.variableCount⟩
  · rintro e cur' ⟨⟨-, c, hc, hdet⟩, -⟩
    rw [List.mem_singleton.1 hc] at hdet
    exact Bool.noConfusion (hdet.symm.trans h.mem_graph)

/-- Nor does the replay, which stops only at a division by zero. -/
theorem Edited.ends_replay {plan : Plan} {value : Float} {n : Nat} (h : Edited net cur)
    (hp : cur.Executable plan.steps) (hv : v.index < cur.vars.size) :
    Ends (replay plan v value n) cur (fun _ cur' => Edited net cur')
      (fun e cur' => (∃ d, e = .refused (.divisionByZero d)) ∧ Edited net cur') := by
  have hleft : ∀ {cur'}, cur'.withoutValues = cur.withoutValues → Quiet cur cur' →
      Edited net cur' := fun hsame hq =>
    h.of_quiet hq (rolledBack_congr (congrArg Network.journal hsame :))
  exact ((ends_replay_frame n hp hv).and (quietly_replay plan v value n cur (Nat.zero_le _))).mono
    (fun _ _ hend => hleft hend.1 hend.2) fun _ _ hf => ⟨hf.1.1, hleft hf.1.2 hf.2.2⟩

/-- The removal of the edit leads back to the graph before, but for what is rolled back on the way. -/
theorem Edited.ends_retract (h : Edited net cur) :
    Ends (retract ⟨net.constraints.size⟩) cur
      (fun _ net' => net'.graph = net.graph ∧ net'.rolledBack = net.rolledBack)
      (Spares net False) := by
  have hk := known_of_attached h.mem_graph
  have hrolled : (cur.detached ⟨net.constraints.size⟩).rolledBack = net.rolledBack := by
    rw [rolledBack_congr detached_journal, h.rolledBack]
  have hgraph : (cur.detached ⟨net.constraints.size⟩).graph = net.graph := by
    rw [graph_detached hk, h.graph, Set.insert_sdiff_self_of_notMem new_notMem_graph]
  rw [retract, ends_bind]
  refine ends_checkAttached (fun _ => ?_) fun hdet =>
    Bool.noConfusion (hdet.symm.trans h.mem_graph)
  rw [ends_bind, ends_readConstraint hk]
  split
  next hs =>
    rw [ends_bind, ends_nesting]
    refine ((solvingInvariant_regular.ends_withdraw _ ⟨h.regular, hs⟩).and
      (ends_withdraw_givesUp _ h.regular hs)).mono ?_ ?_
    · rintro _ net' ⟨-, hgives⟩
      exact ⟨hgives.graph_eq.trans hgraph, by rw [hgives.rolledBack, List.append_nil, hrolled]⟩
    · rintro e net' ⟨hfails, gone, hgives⟩
      refine ⟨gone, by rw [hgives.rolledBack, hrolled], fun c hc => ?_,
        fun d hd => hgives.closing hfails hd, fun c => ?_⟩
      · rw [← hgraph]
        exact (hgives.lost c hc).1
      · rw [hgives.graph, hgraph, and_false, or_false]
        rfl
  next =>
    rw [ends_detach hk (h.regular.coherent.known _ hk)]
    exact ⟨hgraph, hrolled⟩

/-- What comes after the addition of the edit. -/
theorem Edited.ends_always {plan : Plan} {value : Float} {n : Nat} (h : Edited net cur)
    (hp : cur.Executable plan.steps) (hv : v.index < cur.vars.size) :
    Ends (always (replay plan v value n) (destroy ⟨net.constraints.size⟩)) cur
      (fun _ net' => net'.graph = net.graph ∧ net'.rolledBack = net.rolledBack)
      (Spares net False) := by
  refine ConstraintHierarchy.ends_always (h.ends_replay hp hv) (fun cur' hcur' => ?_) ?_ ?_
  · rw [destroy, ends_bind, ends_note]
    exact (hcur'.of_quiet quiet_note (rolledBack_note rfl)).ends_retract
  · rintro e net' ⟨d, rfl⟩ (⟨hbroken, -⟩ | hdone)
    · exact absurd rfl (hbroken _)
    · refine spares_of_graph hdone.1 hdone.2 fun c hc => ?_
      cases hc
  · rintro e e' net' ⟨d, hd⟩ ⟨gone, hr, hlost, -, hgraph⟩
    refine ⟨gone, hr, hlost, fun c hc => ?_, hgraph⟩
    rw [hd] at hc
    cases hc

/-- A temporary edit leaves the graph as it was, but for what is rolled back on the way, and but for the
edit itself if its addition is refused for another reason than that it cannot be satisfied. -/
theorem ends_change_spares {value : Float} {n : Nat} (h : net.Regular) (hs : net.Settled) :
    Ends (change v value strength n) net (fun _ net' => net'.graph = net.graph)
      (fun e net' => Spares net (v.index < net.vars.size ∧
        e ≠ .refused (.unsatisfiable ⟨net.constraints.size⟩) ∧
        addConstraint (.edit v) strength net = .error e net') e net') := by
  rw [change, ends_bind]
  by_cases hv : v.index < net.vars.size
  · refine ((ends_addConstraint_spares h hv).run.and
      (runInvariant_settled.ends_addConstraint hs trivial)).mono ?_ ?_
    · rintro _ net₁ ⟨⟨⟨rfl, hedited, hsize⟩, hadd⟩, hset⟩
      rw [ends_bind]
      refine (hedited.ends_extractPlan hset).mono ?_ fun _ _ hf => hf.elim
      rintro plan net₂ ⟨hedited₂, hexec, hsize₂⟩
      refine (hedited₂.ends_always hexec (by rwa [hsize₂, hsize])).mono (fun _ _ hend => hend.1) ?_
      exact fun _ _ hspares => hspares.congr (by simp [hadd])
    · rintro e net' ⟨⟨hspares, hadd⟩, -⟩
      exact hspares.congr (by simp [hv, hadd])
  · -- the edit is refused before it is registered
    rw [addConstraint, ends_bind]
    refine ends_checkVariables _ (fun e he => ?_) fun hk => absurd (hk v (by simp [Kind.operands])) hv
    refine (spares_of_graph rfl rfl ?_).congr (by simp [hv])
    rintro d ⟨⟩
    exact he.elim

end Edit

/-- After every run a temporary edit is answered and the graph is as it was; or it is refused. Then the
constraints that the journal says have been rolled back meanwhile have left the graph, among them the
one that is said to close a cycle; the edit has stayed in the graph if it was its addition that was
refused, unless the edit itself could not be satisfied; and everything else is as it was. -/
theorem change_graph {net : Network} (h : Run (fun _ _ => True) net) (v : VariableId)
    (value : Float) (strength : Strength) (n : Nat) :
    (∃ net', change v value strength n net = .ok () net' ∧ net'.graph = net.graph) ∨
    ∃ e net' gone, change v value strength n net = .error (.refused e) net' ∧
      net'.rolledBack = net.rolledBack ++ gone ∧ (∀ c ∈ gone, c ∈ net.graph) ∧
      (∀ d, e = .cycle d → d ∈ gone) ∧
      ∀ c, c ∈ net'.graph ↔ c ∈ net.graph ∧ c ∉ gone ∨
        c = ⟨net.constraints.size⟩ ∧ (∃ x, net.getVariable? v = some x) ∧ e ≠ .unsatisfiable c ∧
          addConstraint (.edit v) strength net = .error (.refused e) net' := by
  have hreg : net.Regular := regular_of_run h
  have hends : Ends (change v value strength n) net _ _ :=
    ends_change_spares hreg (runInvariant_settled.holds h)
  obtain ⟨net', hok | ⟨e, herror⟩⟩ :=
    requests_return (.inl h) (.change v value strength n) nofun
  · exact .inl ⟨net', hok, hends.of_ok hok⟩
  · obtain ⟨gone, hrolled, hlost, hcycle, hgraph⟩ := hends.of_error herror
    refine .inr ⟨e, net', gone, herror, hrolled, hlost, fun d hd => hcycle d (by rw [hd]), ?_⟩
    intro c
    have hknown : (∃ x, net.getVariable? v = some x) ↔ v.index < net.vars.size := by
      simp [getVariable?_eq_some]
    rw [hgraph, hknown]
    constructor
    · rintro (hold | ⟨rfl, hv, hne, hadd⟩)
      · exact .inl hold
      · exact .inr ⟨rfl, hv, fun he => hne (by rw [he]), hadd⟩
    · rintro (hold | ⟨rfl, hv, hne, hadd⟩)
      · exact .inl hold
      · exact .inr ⟨rfl, hv, fun he => hne (by cases he; rfl), hadd⟩

end Network

/-- An edit of `b` displaces the scaling, which then computes `a`, and so the equation is displaced whose
other end is the factor of the scaling. -/
def dependentRequests : List Request :=
  [.addVariable "m" 1, .addVariable "a" 1, .addVariable "b" 1, .addVariable "d" 0,
    .add (.equal ⟨0⟩ ⟨1⟩) .required, .add (.scale ⟨1⟩ ⟨2⟩ ⟨0⟩ ⟨3⟩) .required]

/-- An equation between `a` and itself waits until nobody computes `a`. -/
def waitingRequests : List Request :=
  [.addVariable "a" 1, .addVariable "b" 1, .add (.stay ⟨1⟩) .normal,
    .add (.equal ⟨1⟩ ⟨0⟩) .required, .add (.equal ⟨0⟩ ⟨0⟩) .normal]

def dependentNetwork : Network :=
  (Request.runAll Request.answered? dependentRequests .empty).get (by decide +kernel)

def waitingNetwork : Network :=
  (Request.runAll Request.answered? waitingRequests .empty).get (by decide +kernel)

namespace Network

theorem change_of_refusal? {net : Network} {v : VariableId} {value : Float} {strength : Strength}
    {n : Nat} {e : SolveError} (h : (Request.change v value strength n).refusal? net = some e) :
    change v value strength n net =
      .error (.refused e) ((Request.change v value strength n).after net) :=
  Request.perform_of_refusal? h

theorem ends_addConstraint_waitingNetwork :
    Ends (addConstraint (.edit ⟨0⟩) .preferred) waitingNetwork (fun _ _ => True)
      (fun _ _ => False) := by
  decide +kernel

/-- When the edit is retracted again, the equation that has waited is tried and given up. -/
theorem change_graph_waitingNetwork :
    ∃ net', change ⟨0⟩ 5 .preferred 1 waitingNetwork = .error (.refused (.cycle ⟨2⟩)) net' ∧
      ⟨2⟩ ∉ net'.graph ∧ ⟨3⟩ ∉ net'.graph := by
  have hrun : Run (fun _ _ => True) waitingNetwork :=
    Run.of_runAll (fun _ _ _ => trivial) waitingRequests .empty (Option.some_get _).symm
  have hcount : waitingNetwork.constraints.size = 3 := by decide +kernel
  have hrefusal : (Request.change ⟨0⟩ 5 .preferred 1).refusal? waitingNetwork =
      some (.cycle ⟨2⟩) := by decide +kernel
  obtain ⟨net', hok, -⟩ | ⟨e, net', gone, hrefused, -, -, hcycle, hgraph⟩ :=
    change_graph hrun ⟨0⟩ 5 .preferred 1
  · cases (change_of_refusal? hrefusal).symm.trans hok
  · have hsame := (change_of_refusal? hrefusal).symm.trans hrefused
    injection hsame with he _
    injection he with he
    subst he
    refine ⟨net', hrefused, ?_, ?_⟩
    · rw [hgraph]
      rintro (⟨-, hkept⟩ | ⟨hnew, -⟩)
      · exact hkept (hcycle _ rfl)
      · rw [hcount] at hnew
        cases hnew
    · rw [hgraph]
      rintro (⟨hin, -⟩ | ⟨-, -, -, hadd⟩)
      · exact absurd hin (by decide +kernel)
      · exact ends_addConstraint_waitingNetwork.of_error hadd

/-- A temporary edit can stay in the graph, although everything before it was answered; and a
constraint can be lost to it that has nothing to do with it. -/
theorem change_not_neutral :
    (∃ net v value strength n e net', Run (fun net r => ∃ net', r.perform net = .ok () net') net ∧
      change v value strength n net = .error (.refused e) net' ∧
      ⟨net.constraints.size⟩ ∈ net'.graph) ∧
    ∃ net v value strength n e net', Run (fun net r => ∃ net', r.perform net = .ok () net') net ∧
      change v value strength n net = .error (.refused e) net' ∧
      ⟨net.constraints.size⟩ ∉ net'.graph ∧ ∃ c ∈ net.graph, c ∉ net'.graph := by
  constructor
  · have hrefusal : (Request.change ⟨2⟩ 5 .normal 1).refusal? dependentNetwork =
        some (.unsatisfiable ⟨0⟩) := by decide +kernel
    refine ⟨dependentNetwork, ⟨2⟩, 5, .normal, 1, _, _, ?_, change_of_refusal? hrefusal,
      by decide +kernel⟩
    exact Run.of_runAll (fun _ _ => Request.of_answered?) dependentRequests .empty
      (Option.some_get _).symm
  · have hrefusal : (Request.change ⟨0⟩ 5 .preferred 1).refusal? waitingNetwork =
        some (.cycle ⟨2⟩) := by decide +kernel
    refine ⟨waitingNetwork, ⟨0⟩, 5, .preferred, 1, _, _, ?_, change_of_refusal? hrefusal,
      by decide +kernel, ⟨2⟩, by decide +kernel, by decide +kernel⟩
    exact Run.of_runAll (fun _ _ => Request.of_answered?) waitingRequests .empty
      (Option.some_get _).symm

end Network

end ConstraintHierarchy
