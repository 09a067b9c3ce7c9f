import ConstraintHierarchy.Proofs.Detection

/-!
# The calls inside an operation

An operation satisfies constraints and retracts them, and so do the roll-backs and the retries inside
of it. `Occurs` lists when this can happen. To see that nothing is missing from the list, every call is
watched: it is carried out if it is allowed and breaks down otherwise. Operations do not notice that they
are watched if the calls of the list are allowed.

## Main definitions

* `Network.watchedEstablish`, `Network.watchedWithdraw`: satisfying and retracting, watched
* `Request.performUsing`: a request with other means to satisfy and to retract constraints

## Main results

* `Network.watchedEstablish_eq`: all calls inside of one that occurs occur
* `Run.ends_replay`: a plan that is replayed leads from run to run, also if it divides by zero
* `Request.performUsing_watched`: all calls of a request occur
-/

namespace ConstraintHierarchy

open Solve Network

/-- Does `act` where it is allowed, and breaks down elsewhere. -/
noncomputable def Solve.only (allowed : Network → Prop) (act : Solve Unit) : Solve Unit := fun net =>
  open Classical in if allowed net then act net else .error .outOfRange net

theorem Solve.only_of_allowed {allowed : Network → Prop} {act : Solve Unit} {net : Network}
    (h : allowed net) : only allowed act net = act net :=
  if_pos h

namespace Network

/-- Satisfies `c` as `establish` does, but breaks down where a call is made that is not allowed. -/
noncomputable def watchedEstablish (allowed : Call → Network → Prop) :
    Nat → ConstraintId → Solve Unit
  | 0, _ => throw .endless
  | n + 1, c => only (allowed (.establish (n + 1) c)) (establishUsing
      (fun d => only (allowed (.withdraw n d)) (withdrawUsing (watchedEstablish allowed n) d)) c)

noncomputable def watchedWithdraw (allowed : Call → Network → Prop) (n : Nat) (c : ConstraintId) :
    Solve Unit :=
  only (allowed (.withdraw n c)) (withdrawUsing (watchedEstablish allowed n) c)

variable {net start : Network} {c d : ConstraintId} {mark n : Nat}

/-! ## Cascades -/

section Cascades

variable {rollback rollback' : ConstraintId → Solve Unit}

theorem propagate_congr (hroll : ∀ v met, walk mark net.generations [c] net = .ok (some v) met →
      rollback' c (met.unwound net.vars c v) = rollback c (met.unwound net.vars c v)) :
    propagate rollback' mark c net = propagate rollback mark c net := by
  show (walk mark net.generations [c] >>= _) net = (walk mark net.generations [c] >>= _) net
  refine bind_congr_run rfl fun answer met hwalk => ?_
  cases answer with
  | none => rfl
  | some v =>
    refine bind_congr_at rfl (ends_note.2 (bind_congr_at rfl (ends_modify.2 ?_)))
    exact bind_congr_run (hroll v met hwalk) fun _ _ _ => rfl

variable (hstart : Occurs (.establish (n + 1) c) start)
  (hroll : ∀ d net, Occurs (.withdraw n d) net → rollback d net = withdraw n d net)

include hstart hroll

theorem Round.install_congr (hround : Round n start c d net) :
    install rollback (start.mark + 1) d net = install (withdraw n) (start.mark + 1) d net := by
  have htracked := hround.tracked hstart.expects
  refine Network.install_congr htracked.regular.coherent htracked.attached htracked.unsatisfied
    fun flow hflow => ?_
  exact propagate_congr fun v met hwalk => hroll _ _ (hstart.rollBack hround hflow hwalk)

theorem resatisfy_congr (rounds : Nat) : ∀ {o : Option ConstraintId} {net : Network},
    (∀ d, o = some d →
      Round n start c d { net with journal := net.journal.push (.resatisfying d c) }) →
    resatisfy rollback (start.mark + 1) c rounds o net =
      resatisfy (withdraw n) (start.mark + 1) c rounds o net := by
  induction rounds with
  | zero =>
    intro o net _
    cases o <;> rfl
  | succ rounds ih =>
    intro o net hround
    cases o with
    | none => rfl
    | some d =>
      have hround := hround d rfl
      refine bind_congr_at rfl (ends_note.2 ?_)
      refine bind_congr_run (hround.install_congr hstart hroll) fun o' net' hi => ih ?_
      rintro e rfl
      exact hround.next hi

theorem establishUsing_congr : establishUsing rollback c start = establish (n + 1) c start := by
  refine bind_congr_at rfl (ends_freshMark.2 ?_)
  refine bind_congr_run (Round.first.install_congr hstart hroll) fun o net' hi => ?_
  refine bind_congr_at rfl (ends_get.2 (resatisfy_congr hstart hroll _ ?_))
  rintro d rfl
  exact Round.first.next hi

end Cascades

/-! ## Retries -/

section Retries

variable {found : List ConstraintId} {retry : ConstraintId → Solve Unit}

/-- Between the retries of one level the candidates are still to be tried. -/
theorem Occurs.ends_retryLevel (h : Occurs (.retry n found) net) {us : List ConstraintId}
    (hus : ∀ u ∈ us, u ∈ found) {level : Strength} :
    Ends (retryLevel (establish n) level us) net (fun _ net' => Occurs (.retry n found) net')
      fun _ _ => True := by
  let J : List ConstraintId → Network → Prop := fun us net =>
    Occurs (.retry n found) net ∧ ∀ u ∈ us, u ∈ found
  have hrest : ∀ {u us net net'}, J (u :: us) net → Occurs (.retry n found) net' → J us net' :=
    fun hJ h => ⟨h, fun w hw => hJ.2 w (List.mem_cons_of_mem _ hw)⟩
  refine (Network.ends_retryLevel (J := J) ?_ ?_ ?_ us ⟨h, hus⟩).mono_ok fun _ _ hJ => hJ.1
  · exact fun hJ u hu => known_of_attached (hJ.1.expects.2 u (hJ.2 u hu))
  · intro u us net hJ _ hu
    exact ends_true.run.mono (fun _ _ hrun => hrest hJ (hJ.1.retried (hJ.2 u (by simp)) hu hrun.2))
      fun _ _ _ => trivial
  · exact fun hJ _ => hrest hJ hJ.1

variable (hretry : ∀ u net, Occurs (.establish n u) net → retry u net = establish n u net)

include hretry

theorem retryLevel_congr {level : Strength} (us : List ConstraintId) :
    ∀ {net : Network}, Occurs (.retry n found) net → (∀ u ∈ us, u ∈ found) →
      retryLevel retry level us net = retryLevel (establish n) level us net := by
  induction us with
  | nil => exact fun _ _ => rfl
  | cons u us ih =>
    intro net h hus
    have hu := hus u (by simp)
    have hrest := fun w hw => hus w (List.mem_cons_of_mem u hw)
    refine bind_congr_at rfl ((ends_readConstraint (known_of_attached (h.expects.2 u hu))).2 ?_)
    dsimp only
    split
    next hs =>
      refine bind_congr_run (hretry u net (h.retry hu hs.2)) fun _ net' hok => ?_
      exact ih (h.retried hu hs.2 hok) hrest
    next => exact ih h hrest

theorem retryLevels_congr (levels : List Strength) :
    ∀ {net : Network}, Occurs (.retry n found) net →
      retryLevels retry found levels net = retryLevels (establish n) found levels net := by
  induction levels with
  | nil => exact fun _ => rfl
  | cons level levels ih =>
    intro net h
    exact bind_congr_at (retryLevel_congr hretry found h fun _ hu => hu)
      ((h.ends_retryLevel fun _ hu => hu).mono_ok fun _ _ h => ih h)

theorem withdrawUsing_congr (h : Occurs (.withdraw n c) net) :
    withdrawUsing retry c net = withdraw n c net := by
  obtain ⟨hreg, hbut⟩ := h.expects
  have hk := known_of_isSatisfied hbut.satisfied
  refine bind_congr_at rfl ((ends_readConstraint hk).2 ?_)
  refine bind_congr_at rfl ((ends_detach hk (hreg.coherent.known c hk)).2 ?_)
  refine bind_congr_run rfl fun found net' hr => ?_
  exact bind_congr_at rfl (ends_note.2 (retryLevels_congr hretry _ (h.release hr)))

end Retries

/-- Whatever is to be satisfied in a call that occurs, all calls inside of it occur too. -/
theorem watchedEstablish_eq (n : Nat) : ∀ c net, Occurs (.establish n c) net →
    watchedEstablish Occurs n c net = establish n c net := by
  induction n with
  | zero => exact fun _ _ _ => rfl
  | succ n ih =>
    intro c start h
    rw [watchedEstablish, only_of_allowed h]
    refine establishUsing_congr h fun d net hd => ?_
    rw [only_of_allowed hd]
    exact withdrawUsing_congr ih hd

theorem watchedWithdraw_eq (h : Occurs (.withdraw n c) net) :
    watchedWithdraw Occurs n c net = withdraw n c net := by
  rw [watchedWithdraw, only_of_allowed h]
  exact withdrawUsing_congr (watchedEstablish_eq n) h

/-! ## Operations -/

/-- Adds a constraint with other means to satisfy it. -/
def addUsing (establish : Nat → ConstraintId → Solve Unit) (kind : Kind) (strength : Strength) :
    Solve ConstraintId := do
  checkVariables kind.operands
  let c ← register kind strength
  let depth ← nesting
  orDetach c (establish depth c)
  return c

/-- Takes a constraint out of the graph with other means to repair what it leaves. -/
def retractUsing (withdraw : Nat → ConstraintId → Solve Unit) (c : ConstraintId) : Solve Unit := do
  checkAttached c
  if (← readConstraint c).isSatisfied then withdraw (← nesting) c else detach c

theorem addUsing_congr {establish' : Nat → ConstraintId → Solve Unit} {kind : Kind} {strength : Strength}
    (h : (∀ v ∈ kind.operands, v.index < net.vars.size) →
      establish' (net.registered kind strength).generations ⟨net.constraints.size⟩
          (net.registered kind strength) =
        establish (net.registered kind strength).generations ⟨net.constraints.size⟩
          (net.registered kind strength)) :
    addUsing establish' kind strength net = addConstraint kind strength net := by
  refine bind_congr_at rfl (ends_checkVariables _ (fun _ _ => trivial) fun hk => ?_)
  refine bind_congr_at rfl ((ends_register hk).2 ?_)
  refine bind_congr_at rfl (ends_nesting.2 ?_)
  exact bind_congr_run (orDetach_congr (h hk)) fun _ _ _ => rfl

theorem retractUsing_congr {withdraw' : Nat → ConstraintId → Solve Unit}
    (h : (net.con c).isSatisfied = true →
      withdraw' net.generations c net = withdraw net.generations c net) :
    retractUsing withdraw' c net = retract c net := by
  refine bind_congr_at rfl (ends_checkAttached (fun ha => ?_) fun _ _ _ => trivial)
  refine bind_congr_at rfl ((ends_readConstraint (known_of_attached ha)).2 ?_)
  split
  next hs => exact bind_congr_at rfl (ends_nesting.2 (h hs))
  next => rfl

/-- A constraint that cannot be executed leaves everything as it is. -/
theorem ends_execute_kept (h : net.Coherent) :
    Ends (execute c) net (fun _ _ => True) fun _ net' => net' = net := by
  by_cases hc : c.index < net.constraints.size
  · exact (ends_execute hc (h.known c hc)).2 ⟨fun _ _ => trivial, fun _ => rfl⟩
  · rw [execute, ends_bind, readConstraint, ends_bind, ends_get, getConstraint?,
      Array.getElem?_eq_none (by omega)]
    rfl

end Network

/-! ## Runs that go on inside an operation -/

namespace Run

/-- Executing constraints is a run, also if it stops half-way: that is where a shorter list would have
ended. -/
theorem ends_executeAll (cs : List ConstraintId) : ∀ {net : Network}, Run (fun _ _ => True) net →
    Ends (executeAll cs) net (fun _ => Run fun _ _ => True) (fun _ => Run fun _ _ => True) := by
  induction cs with
  | nil => exact fun h => h
  | cons c cs ih =>
    intro net h
    rw [executeAll, ends_bind]
    refine (ends_execute_kept (regular_of_run h).coherent).run.mono ?_ ?_
    · rintro _ net' ⟨-, hrun⟩
      refine ih (h.answered (r := .runPlan ⟨[c]⟩) trivial (Ends.eq_ok ?_))
      show Ends (execute c >>= fun _ => pure ()) net _ _
      rw [ends_bind]
      refine ends_true.run.mono ?_ ?_
      · rintro _ _ ⟨-, hrun'⟩
        cases hrun.symm.trans hrun'
        exact ⟨rfl, rfl⟩
      · rintro _ _ ⟨-, herror⟩
        cases hrun.symm.trans herror
    · rintro e _ ⟨rfl, -⟩
      exact h

theorem ends_replay {p : Plan} {v : VariableId} {value : Float} (n : Nat) :
    ∀ {net : Network}, Run (fun _ _ => True) net →
      Ends (replay p v value n) net (fun _ => Run fun _ _ => True) (fun _ => Run fun _ _ => True) := by
  induction n with
  | zero => exact fun h => h
  | succ n ih =>
    intro net h
    rw [replay, ends_bind]
    by_cases hv : v.index < net.vars.size
    · rw [ends_setValue hv, ends_bind]
      have hset := h.answered (r := .assign v value) trivial (assign_eq hv)
      exact (ends_executeAll p.steps hset).mono_ok fun _ _ h => ih h
    · rw [setValue, updateVariable, ends_bind, ends_get, if_neg hv]
      exact h

end Run

namespace Request

/-- Carries out a request with other means to satisfy and to retract constraints. -/
def performUsing (establish withdraw : Nat → ConstraintId → Solve Unit) : Request → Solve Unit
  | add kind strength => discard (addUsing establish kind strength)
  | enforce c => do
    checkAttached c
    if (← readConstraint c).isSatisfied then pure () else establish (← nesting) c
  | retract c => retractUsing withdraw c
  | destroy c => do
    note (.destroying c)
    retractUsing withdraw c
  | change v value strength iterations => do
    let edit ← addUsing establish (.edit v) strength
    let plan ← Network.extractPlan [edit]
    always (replay plan v value iterations) (do
      note (.destroying edit)
      retractUsing withdraw edit)
  | r => r.perform

theorem performUsing_self (r : Request) : r.performUsing establish Network.withdraw = r.perform := by
  cases r <;> rfl

/-- Whenever a request after a run comes to satisfy or to retract a constraint, also inside of another such
call, the call is one that `Occurs` lists: the request does the same if all others break down. -/
theorem performUsing_watched {net : Network} (h : Run (fun _ _ => True) net) (r : Request) :
    r.performUsing (watchedEstablish Occurs) (watchedWithdraw Occurs) net = r.perform net := by
  have hadd : ∀ {kind strength}, addUsing (watchedEstablish Occurs) kind strength net =
      addConstraint kind strength net :=
    addUsing_congr fun hk => watchedEstablish_eq _ _ _ (.add h hk)
  have hdestroy : ∀ {net' c}, Run (fun _ _ => True) net' →
      (do note (.destroying c); retractUsing (watchedWithdraw Occurs) c : Solve Unit) net' =
        Network.destroy c net' := fun h' =>
    bind_congr_at rfl (ends_note.2 (retractUsing_congr fun hs => watchedWithdraw_eq (.destroy h' hs)))
  cases r with
  | add kind strength => exact discard_congr hadd
  | enforce c =>
    refine bind_congr_at rfl (ends_checkAttached (fun ha => ?_) fun _ _ _ => trivial)
    refine bind_congr_at rfl ((ends_readConstraint (known_of_attached ha)).2 ?_)
    split
    next => rfl
    next hu =>
      exact bind_congr_at rfl (ends_nesting.2
        (watchedEstablish_eq _ _ _ (.enforce h ha (by simpa using hu))))
  | retract c => exact retractUsing_congr fun hs => watchedWithdraw_eq (.retract h hs)
  | destroy c => exact hdestroy h
  | change v value strength n =>
    refine bind_congr_run hadd fun edit net₁ hedit => bind_congr_run rfl fun plan net₂ hplan => ?_
    have h₁ := h.answered (r := .add (.edit v) strength) trivial (discard_of_ok hedit)
    have h₂ := h₁.answered (r := .extractPlan [edit]) trivial (discard_of_ok hplan)
    exact always_congr ((h₂.ends_replay n).mono (fun _ _ h => hdestroy h) fun _ _ h => hdestroy h)
  | _ => rfl

end Request

end ConstraintHierarchy
