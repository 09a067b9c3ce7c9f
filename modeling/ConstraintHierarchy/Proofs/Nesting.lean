import Mathlib.Data.Finset.Card
import Mathlib.Data.Finset.Range
import ConstraintHierarchy.Proofs.Choice
import ConstraintHierarchy.Proofs.Quiet

/-!
# Roll-backs nested in one another

To satisfy a constraint may mean to roll it back, to roll it back is to retract it, and to retract it
is to satisfy others. What such an operation keeps is decided by the two propagation walks alone:
`CascadeInvariant` and `RepairInvariant` list what has to be shown about them, and the loops and the
recursion around them are dealt with here, once for all invariants. `SolvingInvariant` is the case of
an invariant that does not depend on values.

A cascade comes to an end because each of its rounds takes over a variable that the walk has not
visited before; so of the bounds in the definitions only those of the walks and of the nesting can be
exhausted.

## Main definitions

* `Network.unmarked`: the variables that a walk has not visited
* `Network.CascadeInvariant`: what the walk below a new method has to keep
* `Network.RepairInvariant`, `Network.SolvingInvariant`: what both walks have to keep

## Main results

* `Network.RepairInvariant.ends_establish`, `Network.RepairInvariant.ends_withdraw`
-/

namespace ConstraintHierarchy.Network

open Solve

/-! ## The rounds of a cascade -/

/-- The variables that the walk `mark` has not visited, by position. -/
def unmarked (net : Network) (mark : Nat) : Finset Nat :=
  (Finset.range net.vars.size).filter fun i => (net.var ⟨i⟩).mark ≠ mark

section Rounds

variable {net net' : Network} {mark : Nat} {c cause : ConstraintId} {flow : Flow}
  {rollback : ConstraintId → Solve Unit} {fail : Failure SolveError → Network → Prop}

theorem mem_unmarked {i : Nat} :
    i ∈ net.unmarked mark ↔ i < net.vars.size ∧ (net.var ⟨i⟩).mark ≠ mark := by
  simp [unmarked]

/-- A variable that is marked is not among the unmarked ones any more. -/
theorem unmarked_alterVariable {v : VariableId} (hv : v.index < net.vars.size) :
    (net.alterVariable v fun x => { x with mark := mark }).unmarked mark =
      (net.unmarked mark).erase v.index := by
  ext i
  rw [Finset.mem_erase, mem_unmarked, mem_unmarked, alterVariable_size]
  by_cases hi : (⟨i⟩ : VariableId) = v
  · subst hi
    simp [alterVariable_var_self hv]
  · rw [alterVariable_var_of_ne hi]
    have hne : i ≠ v.index := fun heq => hi (by rw [heq])
    simp [hne]

/-- The round in which `c` takes over its output visits one more variable at least. -/
theorem card_unmarked_lt (h : net.Coherent) (hc : c.index < net.constraints.size)
    (hflow : net.flowFor mark c = some flow)
    (hsize : net'.vars.size = net.vars.size)
    (hmarks : ∀ v, (net'.var v).mark = ((net.takenOver mark c flow).var v).mark) :
    ((net'.alterVariable (net.directed c flow).output
      fun x => { x with mark := mark }).unmarked mark).card < (net.unmarked mark).card := by
  have hout : (net.directed c flow).output.index < net.vars.size := h.known_directed_output hc
  have hfree : (net.var (net.directed c flow).output).mark ≠ mark := (flowFor_some hflow).1.1
  -- taking over marks what is read and takes no mark away
  have hsub : net'.unmarked mark ⊆ net.unmarked mark := by
    intro i hi
    rw [mem_unmarked, hsize, hmarks, takenOver_var h hc] at hi
    exact mem_unmarked.2 ⟨hi.1, fun hm => hi.2 (by simp [hm])⟩
  rw [unmarked_alterVariable (by rwa [hsize])]
  calc ((net'.unmarked mark).erase (net.directed c flow).output.index).card
      ≤ ((net.unmarked mark).erase (net.directed c flow).output.index).card :=
        Finset.card_le_card (Finset.erase_subset_erase _ hsub)
    _ < (net.unmarked mark).card := Finset.card_erase_lt_of_mem (mem_unmarked.2 ⟨hout, hfree⟩)

/-- A cascade that has `n` rounds left, when each round leaves one less for the next. -/
theorem ends_resatisfy_within {J : Nat → Option ConstraintId → Network → Prop}
    (install : ∀ {n o net}, J (n + 1) (some o) net → Ends (install rollback mark o) net (J n) fail)
    (journal : ∀ {n o d net}, J n o net →
      J n o { net with journal := net.journal.push (.resatisfying d cause) })
    (spent : ∀ {o net}, ¬ J 0 (some o) net) (n : Nat) :
    ∀ {o : Option ConstraintId} {net : Network}, J n o net →
      Ends (resatisfy rollback mark cause n o) net (fun _ net' => ∃ m, J m none net') fail := by
  induction n with
  | zero =>
    intro o net h
    cases o with
    | none => exact ⟨0, h⟩
    | some o => exact absurd h spent
  | succ n ih =>
    intro o net h
    cases o with
    | none => exact ⟨n + 1, h⟩
    | some o =>
      rw [resatisfy, ends_bind, ends_note, ends_bind]
      exact (install (journal h)).mono_ok fun _ _ h => ih h

end Rounds

/-! ## Invariants -/

/-- A property of networks that the cascade keeps by which a constraint is satisfied. `P o net` holds
while `o`, if there is one, is the unsatisfied constraint that looks for a method next, and `Q net c`
while the satisfied constraint `c` is about to be rolled back. A cascade that is started on `net` leaves
`fail net` behind when it fails. -/
structure CascadeInvariant (P : Option ConstraintId → Network → Prop)
    (Q : Network → ConstraintId → Prop) (fail : Network → Failure SolveError → Network → Prop) :
    Prop where
  coherent : ∀ {o net}, P o net → net.Coherent
  keep : ∀ {o net net'}, P o net → Quiet net net' → (∀ v, net'.value v = net.value v) → P o net'
  candidate : ∀ {net c}, P none net → (net.con c).attached = true →
    (net.con c).isSatisfied = false → P (some c) net
  given_up : ∀ {net c}, P (some c) net → (net.con c).strength ≠ .required → P none net
  /-- the walk below a new method, and the old values again if it closes a cycle -/
  walk : ∀ {net c flow} mark, P (some c) net → (net.con c).attached = true →
    (net.con c).isSatisfied = false → mark ≤ net.mark → net.flowFor mark c = some flow →
    Ends (walk mark (net.takenOver mark c flow).generations [c]) (net.takenOver mark c flow)
      (fun met net' => (∃ q, Visiting (net.takenOver mark c flow) net' q) ∧
        (met = none → P (net.var (net.directed c flow).output).determinedBy net') ∧
        ∀ v, met = some v → Q (net'.unwound (net.takenOver mark c flow).vars c v) c)
      (fail net)
  unsatisfiable : ∀ {net c}, P (some c) net → (net.con c).attached = true →
    (net.con c).isSatisfied = false → fail net (.refused (.unsatisfiable c)) net
  keeps : ∀ {net net' e net''}, Keeps net net' → fail net' e net'' → fail net e net''

/-- A property of networks that satisfying and retracting constraints keep. `Q net c` holds while the
satisfied constraint `c` is about to be retracted. An operation that is started on `net` and may nest
`n` roll-backs leaves `fail n net` behind when it fails. -/
structure RepairInvariant (P : Option ConstraintId → Network → Prop)
    (Q : Network → ConstraintId → Prop)
    (fail : Nat → Network → Failure SolveError → Network → Prop) : Prop where
  cascade : ∀ n, CascadeInvariant P Q (fail n)
  coherent_but : ∀ {net c}, Q net c → net.Coherent
  satisfied_but : ∀ {net c}, Q net c → (net.con c).isSatisfied = true
  /-- the walk below a lost method -/
  release : ∀ {net c} n, Q net c →
    Ends (release (net.con c).output) (net.detached c)
      (fun found net' => P none net' ∧ SameGraph (net.detached c) net' ∧
        ∀ u ∈ found, (net'.con u).attached = true)
      (fail n (net.detached c))
  cycle : ∀ {net net' c} n, (net.con c).attached = true → P none net' →
    Keeps (net.detached c) net' → fail n net (.refused (.cycle c)) net'
  spent : ∀ {net c}, P (some c) net → (net.con c).attached = true → fail 0 net .endless net
  nested : ∀ {n net c e net'}, (net.con c).attached = true → fail n (net.detached c) e net' →
    fail (n + 1) net e net'

/-- The state of a cascade with `n` rounds left: the invariant holds, and a displaced constraint is an
unsatisfied one of the graph while fewer than `n` variables are not visited. -/
structure Resatisfying (P : Network → Prop) (start : Network) (mark n : Nat)
    (o : Option ConstraintId) (net : Network) : Prop where
  holds : P net
  keeps : Keeps start net
  started : mark ≤ net.mark
  displaced : ∀ d, o = some d → (net.con d).attached = true ∧ (net.con d).isSatisfied = false ∧
    (net.unmarked mark).card < n

namespace CascadeInvariant

variable {P : Option ConstraintId → Network → Prop} {Q : Network → ConstraintId → Prop}
  {fail : Network → Failure SolveError → Network → Prop} {net start : Network} {c o : ConstraintId}
  {mark : Nat} {rollback retry : ConstraintId → Solve Unit}

/-! ### Satisfying -/

/-- What the invariant says about an attempt to satisfy a constraint. -/
def Retries (P : Option ConstraintId → Network → Prop)
    (fail : Network → Failure SolveError → Network → Prop) (retry : ConstraintId → Solve Unit) :
    Prop :=
  ∀ net c, P (some c) net → (net.con c).attached = true → (net.con c).isSatisfied = false →
    Ends (retry c) net (fun _ net' => P none net' ∧ Keeps net net') (fail net)

/-- What the invariant says about a roll-back: the cascade fails, with the cycle or before. -/
def RollsBack (Q : Network → ConstraintId → Prop)
    (fail : Network → Failure SolveError → Network → Prop) (rollback : ConstraintId → Solve Unit) :
    Prop :=
  ∀ net c, Q net c → (net.con c).attached = true →
    Ends (rollback c) net (fun _ => fail net (.refused (.cycle c))) (fail net)

theorem ends_install (inv : CascadeInvariant P Q fail) (hroll : RollsBack Q fail rollback)
    {rounds : Nat} (h : Resatisfying (P (some o)) start mark (rounds + 1) (some o) net) :
    Ends (install rollback mark o) net
      (fun o' => Resatisfying (P o') start mark rounds o') (fail start) := by
  obtain ⟨hnet, hkeeps, hstarted, hdisplaced⟩ := h
  obtain ⟨ha, hu, hrounds⟩ := hdisplaced o rfl
  have hcoh := inv.coherent hnet
  have ho : o.index < net.constraints.size := known_of_attached ha
  refine Network.ends_install hcoh ha hu
    (fun _ _ => inv.keeps hkeeps (inv.unsatisfiable hnet ha hu))
    (fun _ hweak => ⟨inv.given_up hnet hweak, hkeeps, hstarted, by simp⟩) ?_
  intro flow hflow
  apply ends_propagate
  refine (inv.walk mark hnet ha hu hstarted hflow).mono ?_ fun _ _ hf => inv.keeps hkeeps hf
  rintro met net' ⟨⟨q, hvisit⟩, hnone, hsome⟩
  have htaken : Keeps net net' := keeps_takenOver.trans hvisit.graph.keeps
  cases met with
  | none =>
    have hstarted' : mark ≤ net'.mark := by
      rw [hvisit.counter, takenOver_mark]
      exact hstarted
    have hmark : Quiet net' (net'.alterVariable (net.directed o flow).output
        fun x => { x with mark := mark }) :=
      quiet_alterVariable (fun _ => rfl) (fun _ => rfl) (fun _ => rfl) fun _ => .inr hstarted'
    refine ⟨htaken.variableCount, inv.keep (hnone rfl) hmark ?_,
      hkeeps.trans (htaken.trans hmark.keeps), hstarted', ?_⟩
    · exact fun _ => alterVariable_var_field fun _ => rfl
    intro d hd
    have hcount := card_unmarked_lt hcoh ho hflow htaken.variableCount hvisit.marks
    rw [hmark.con, hvisit.graph.con, takenOver_con_displaced hcoh hu hd]
    exact ⟨hcoh.attached d ((hcoh.determines _ d).1 hd).1, rfl, by omega⟩
  | some v =>
    -- the roll-back starts from the old values
    have hun : Quiet net' (net'.unwound (net.takenOver mark o flow).vars o v) :=
      quiet_unwound hvisit.graph.variableCount.symm
    have hkeeps' : Keeps net (net'.unwound (net.takenOver mark o flow).vars o v) :=
      htaken.trans hun.keeps
    refine (hroll _ o (hsome v rfl) ((hkeeps'.attached o).trans ha)).mono ?_ ?_
    · exact fun _ _ hf => inv.keeps (hkeeps.trans hkeeps') hf
    · exact fun _ _ hf => inv.keeps (hkeeps.trans hkeeps') hf

/-- Before the first round every variable may still have to be visited. -/
theorem resatisfying_start (inv : CascadeInvariant P Q fail) (hnet : P (some c) net)
    (ha : (net.con c).attached = true) (hu : (net.con c).isSatisfied = false) :
    Resatisfying (P (some c)) net (net.mark + 1) (net.vars.size + 1) (some c)
      { net with mark := net.mark + 1 } := by
  have hfresh : Quiet net { net with mark := net.mark + 1 } := quiet_freshMark
  refine ⟨inv.keep hnet hfresh fun _ => rfl, hfresh.keeps, Nat.le_refl _, ?_⟩
  rintro d ⟨⟩
  refine ⟨ha, hu, Nat.lt_succ_of_le ?_⟩
  exact (Finset.card_filter_le _ _).trans_eq (Finset.card_range _)

theorem resatisfying_journal (inv : CascadeInvariant P Q fail) {rounds : Nat}
    {o : Option ConstraintId} {e : Event} (h : Resatisfying (P o) start mark rounds o net) :
    Resatisfying (P o) start mark rounds o { net with journal := net.journal.push e } := by
  have hevent : Quiet net { net with journal := net.journal.push e } := quiet_note
  exact ⟨inv.keep h.holds hevent fun _ => rfl, h.keeps.trans hevent.keeps, h.started, h.displaced⟩

theorem ends_establishUsing (inv : CascadeInvariant P Q fail) (hroll : RollsBack Q fail rollback) :
    Retries P fail (establishUsing rollback) := by
  intro net c hnet ha hu
  rw [establishUsing, ends_bind, ends_freshMark, ends_bind]
  refine (inv.ends_install hroll (inv.resatisfying_start hnet ha hu)).mono_ok ?_
  intro o net' h
  rw [ends_bind, ends_get, h.keeps.variableCount]
  refine (ends_resatisfy_within
    (J := fun n o net' => Resatisfying (P o) net (net.mark + 1) n o net') ?_ ?_ ?_ _ h).mono_ok ?_
  · exact fun h => inv.ends_install hroll h
  · exact fun h => inv.resatisfying_journal h
  · exact fun h => Nat.not_lt_zero _ (h.displaced _ rfl).2.2
  · rintro - net' ⟨_, h⟩
    exact ⟨h.holds, h.keeps⟩

/-! ### Retracting -/

theorem ends_retryLevels (inv : CascadeInvariant P Q fail) (hretry : Retries P fail retry)
    {candidates : List ConstraintId} (hcand : ∀ u ∈ candidates, (start.con u).attached = true)
    (hnet : P none net) (hkeeps : Keeps start net) :
    Ends (retryLevels retry candidates Strength.all) net
      (fun _ net' => P none net' ∧ Keeps start net') (fail start) := by
  refine Network.ends_retryLevels (L := fun _ net => P none net ∧ Keeps start net) ?_ _
    ⟨hnet, hkeeps⟩
  rintro level levels net ⟨hnet, hkeeps⟩
  let J : List ConstraintId → Network → Prop := fun us net =>
    P none net ∧ Keeps start net ∧ ∀ u ∈ us, (start.con u).attached = true
  have hlevel : Ends (retryLevel retry level candidates) net (fun _ net' => J [] net')
      (fail start) := by
    refine ends_retryLevel (J := J) ?_ ?_ ?_ _ ⟨hnet, hkeeps, hcand⟩
    · rintro us net ⟨-, hkeeps, hus⟩ u hu
      exact known_of_attached ((hkeeps.attached u).trans (hus u hu))
    · rintro u us net ⟨hnet, hkeeps, hus⟩ - hunsat
      have ha : (net.con u).attached = true := (hkeeps.attached u).trans (hus u (by simp))
      refine (hretry net u (inv.candidate hnet ha hunsat) ha hunsat).mono ?_
        fun _ _ hf => inv.keeps hkeeps hf
      rintro - net' ⟨hnet', hkeeps'⟩
      exact ⟨hnet', hkeeps.trans hkeeps', fun w hw => hus w (List.mem_cons_of_mem u hw)⟩
    · rintro u us net ⟨hnet, hkeeps, hus⟩ -
      exact ⟨hnet, hkeeps, fun w hw => hus w (List.mem_cons_of_mem u hw)⟩
  exact hlevel.mono_ok fun _ _ h => ⟨h.1, h.2.1⟩

/-- A satisfied constraint is retracted: the walk below it restores the invariant, and the retries keep
it. -/
theorem ends_withdrawUsing (inv : CascadeInvariant P Q fail) (hretry : Retries P fail retry)
    (hcoh : net.Coherent) (hsat : (net.con c).isSatisfied = true)
    (hrelease : Ends (release (net.con c).output) (net.detached c)
      (fun found net' => P none net' ∧ SameGraph (net.detached c) net' ∧
        ∀ u ∈ found, (net'.con u).attached = true)
      (fail (net.detached c))) :
    Ends (withdrawUsing retry c) net (fun _ net' => P none net' ∧ Keeps (net.detached c) net')
      (fail (net.detached c)) := by
  apply Network.ends_withdrawUsing hcoh hsat
  refine hrelease.mono_ok ?_
  rintro found net' ⟨hnet', hgraph, hfound⟩ event
  have hevent : Quiet net' { net' with journal := net'.journal.push event } := quiet_note
  refine inv.ends_retryLevels hretry ?_ (inv.keep hnet' hevent fun _ => rfl)
    (hgraph.keeps.trans hevent.keeps)
  intro u hu
  rw [← hgraph.con]
  exact hfound u hu

end CascadeInvariant

namespace RepairInvariant

variable {P : Option ConstraintId → Network → Prop} {Q : Network → ConstraintId → Prop}
  {fail : Nat → Network → Failure SolveError → Network → Prop} {n : Nat} {net : Network}
  {c : ConstraintId} {rollback retry : ConstraintId → Solve Unit}

theorem ends_withdrawUsing (inv : RepairInvariant P Q fail)
    (hretry : CascadeInvariant.Retries P (fail n) retry) (h : Q net c) :
    Ends (withdrawUsing retry c) net (fun _ net' => P none net' ∧ Keeps (net.detached c) net')
      (fail n (net.detached c)) :=
  (inv.cascade n).ends_withdrawUsing hretry (inv.coherent_but h) (inv.satisfied_but h)
    (inv.release n h)

/-- A roll-back is a retraction one level deeper. -/
theorem rollsBack (inv : RepairInvariant P Q fail)
    (hroll : ∀ net c, Q net c → Ends (rollback c) net
      (fun _ net' => P none net' ∧ Keeps (net.detached c) net') (fail n (net.detached c))) :
    CascadeInvariant.RollsBack Q (fail (n + 1)) rollback := by
  intro net c h ha
  refine (hroll net c h).mono ?_ fun _ _ hf => inv.nested ha hf
  exact fun _ _ hend => inv.cycle (n + 1) ha hend.1 hend.2

theorem retries_establish (inv : RepairInvariant P Q fail) (n : Nat) :
    CascadeInvariant.Retries P (fail n) (establish n) := by
  induction n with
  | zero => exact fun _ _ hnet ha _ => inv.spent hnet ha
  | succ n ih =>
    exact (inv.cascade (n + 1)).ends_establishUsing
      (inv.rollsBack fun _ _ h => inv.ends_withdrawUsing ih h)

/-- Satisfying a constraint of the graph keeps the invariant. -/
theorem ends_establish (inv : RepairInvariant P Q fail) (n : Nat) (hnet : P (some c) net)
    (ha : (net.con c).attached = true) (hu : (net.con c).isSatisfied = false) :
    Ends (establish n c) net (fun _ net' => P none net' ∧ Keeps net net') (fail n net) :=
  inv.retries_establish n net c hnet ha hu

/-- Retracting a satisfied constraint restores the invariant. -/
theorem ends_withdraw (inv : RepairInvariant P Q fail) (n : Nat) (h : Q net c) :
    Ends (withdraw n c) net (fun _ net' => P none net' ∧ Keeps (net.detached c) net')
      (fail n (net.detached c)) :=
  inv.ends_withdrawUsing (inv.retries_establish n) h

end RepairInvariant

/-! ## Invariants of the solution alone -/

/-- A property `P` of networks that satisfying and retracting constraints keep, together with `Q net c`,
which holds while the satisfied constraint `c` is about to be retracted. Neither depends on values or
on the constraint that looks for a method. An operation that is started on `net` and may nest `n`
roll-backs leaves `fail n net` behind when it fails. -/
structure SolvingInvariant (P : Network → Prop) (Q : Network → ConstraintId → Prop)
    (fail : Nat → Network → Failure SolveError → Network → Prop) : Prop where
  coherent : ∀ {net}, P net → net.Coherent
  keep : ∀ {net net'}, P net → Quiet net net' → P net'
  coherent_but : ∀ {net c}, Q net c → net.Coherent
  satisfied_but : ∀ {net c}, Q net c → (net.con c).isSatisfied = true
  keep_but : ∀ {net net' c}, Q net c → Quiet net net' → Q net' c
  /-- the walk below a new method -/
  walk : ∀ {net c flow} n mark, P net → (net.con c).attached = true →
    (net.con c).isSatisfied = false → mark ≤ net.mark → net.flowFor mark c = some flow →
    Ends (walk mark (net.takenOver mark c flow).generations [c]) (net.takenOver mark c flow)
      (fun met net' => (∃ q, Visiting (net.takenOver mark c flow) net' q) ∧
        (met = none → P net') ∧ ∀ v, met = some v → Q net' c)
      (fail n net)
  /-- the walk below a lost method -/
  release : ∀ {net c} n, Q net c →
    Ends (release (net.con c).output) (net.detached c)
      (fun found net' => P net' ∧ SameGraph (net.detached c) net' ∧
        ∀ u ∈ found, (net'.con u).attached = true)
      (fail n (net.detached c))
  unsatisfiable : ∀ {net c} n, P net → (net.con c).attached = true →
    (net.con c).isSatisfied = false → fail n net (.refused (.unsatisfiable c)) net
  cycle : ∀ {net net' c} n, (net.con c).attached = true → P net' → Keeps (net.detached c) net' →
    fail n net (.refused (.cycle c)) net'
  spent : ∀ {net c}, P net → (net.con c).attached = true → fail 0 net .endless net
  keeps : ∀ {n net net' e net''}, Keeps net net' → fail n net' e net'' → fail n net e net''
  nested : ∀ {n net c e net'}, (net.con c).attached = true → fail n (net.detached c) e net' →
    fail (n + 1) net e net'

namespace SolvingInvariant

variable {P : Network → Prop} {Q : Network → ConstraintId → Prop}
  {fail : Nat → Network → Failure SolveError → Network → Prop} {n : Nat} {net start : Network}
  {c o : ConstraintId} {mark : Nat} {rollback : ConstraintId → Solve Unit}

theorem repair (inv : SolvingInvariant P Q fail) : RepairInvariant (fun _ => P) Q fail where
  cascade n :=
    { coherent := inv.coherent
      keep := fun h hq _ => inv.keep h hq
      candidate := fun h _ _ => h
      given_up := fun h _ => h
      walk := fun mark h ha hu hm hflow => by
        refine (inv.walk n mark h ha hu hm hflow).mono_ok ?_
        rintro met net' ⟨⟨q, hvisit⟩, hnone, hsome⟩
        refine ⟨⟨q, hvisit⟩, hnone, fun v hv => inv.keep_but (hsome v hv) ?_⟩
        exact quiet_unwound hvisit.graph.variableCount.symm
      unsatisfiable := inv.unsatisfiable n
      keeps := inv.keeps }
  coherent_but := inv.coherent_but
  satisfied_but := inv.satisfied_but
  release := inv.release
  cycle := inv.cycle
  spent := inv.spent
  nested := inv.nested

theorem ends_install (inv : SolvingInvariant P Q fail)
    (hroll : ∀ net c, Q net c → Ends (rollback c) net
      (fun _ net' => P net' ∧ Keeps (net.detached c) net') (fail n (net.detached c)))
    {rounds : Nat} (h : Resatisfying P start mark (rounds + 1) (some o) net) :
    Ends (install rollback mark o) net (Resatisfying P start mark rounds) (fail (n + 1) start) :=
  (inv.repair.cascade (n + 1)).ends_install (inv.repair.rollsBack hroll) h

theorem resatisfying_start (inv : SolvingInvariant P Q fail) (hnet : P net)
    (ha : (net.con c).attached = true) (hu : (net.con c).isSatisfied = false) :
    Resatisfying P net (net.mark + 1) (net.vars.size + 1) (some c)
      { net with mark := net.mark + 1 } :=
  (inv.repair.cascade 0).resatisfying_start hnet ha hu

theorem resatisfying_journal (inv : SolvingInvariant P Q fail) {rounds : Nat}
    {o : Option ConstraintId} {e : Event} (h : Resatisfying P start mark rounds o net) :
    Resatisfying P start mark rounds o { net with journal := net.journal.push e } :=
  (inv.repair.cascade 0).resatisfying_journal h

/-- Satisfying a constraint of the graph keeps the invariant. -/
theorem ends_establish (inv : SolvingInvariant P Q fail) (n : Nat) (hnet : P net)
    (ha : (net.con c).attached = true) (hu : (net.con c).isSatisfied = false) :
    Ends (establish n c) net (fun _ net' => P net' ∧ Keeps net net') (fail n net) :=
  inv.repair.ends_establish n hnet ha hu

/-- Retracting a satisfied constraint restores the invariant. -/
theorem ends_withdraw (inv : SolvingInvariant P Q fail) (n : Nat) (h : Q net c) :
    Ends (withdraw n c) net (fun _ net' => P net' ∧ Keeps (net.detached c) net')
      (fail n (net.detached c)) :=
  inv.repair.ends_withdraw n h

end SolvingInvariant

end ConstraintHierarchy.Network
