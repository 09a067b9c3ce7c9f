import ConstraintHierarchy.Proofs.Nesting
import ConstraintHierarchy.Proofs.Runs

/-!
# Agreement of the records in every reachable network

A run ends with the first division by zero. A history goes on, whatever comes of a request: the next
one finds the network as the last one has left it. Annotations and dataflow can be wrong by then; what
variables and constraints record about one another cannot. Every failure leaves an operation at a
point where the records agree, a roll-back that fails itself included.

## Main definitions

* `Network.Reaches`: the networks that requests lead to, whatever comes of them
* `Network.Regular`: what holds of all of them
* `Network.Follows`: a regular network that comes later than another
* `Network.Fails`: what a failing attempt to satisfy or to retract a constraint leaves

## Main results

* `Network.records_agree`: the records agree in every reachable network
-/

namespace ConstraintHierarchy

open Solve Network

/-- The network that a request leaves, whether it is answered, refused or breaks down. -/
def Request.after (r : Request) (net : Network) : Network :=
  match r.perform net with
  | .ok _ net' => net'
  | .error _ net' => net'

theorem Request.after_of_ends {r : Request} {net : Network} {P : Network → Prop}
    (h : Ends r.perform net (fun _ => P) (fun _ => P)) : P (r.after net) := by
  unfold Request.after
  cases hr : r.perform net with
  | ok _ net' => exact h.of_ok hr
  | error e net' => exact h.of_error hr

/-- The reason for which a request is refused. -/
def Request.refusal? (r : Request) (net : Network) : Option SolveError :=
  match r.perform net with
  | .error (.refused e) _ => some e
  | _ => none

theorem Request.perform_of_refusal? {r : Request} {net : Network} {e : SolveError}
    (h : r.refusal? net = some e) : r.perform net = .error (.refused e) (r.after net) := by
  unfold Request.refusal? at h
  unfold Request.after
  split at h
  next hr =>
    cases h
    rw [hr]
  next => cases h

namespace Network

/-- The networks that requests lead to from `start`. -/
inductive Reaches (start : Network) : Network → Prop
  | refl : Reaches start start
  | step {net : Network} (h : Reaches start net) (r : Request) : Reaches start (r.after net)

/-! ## Later networks -/

/-- What holds of every network that is ever reached: the records agree, no mark is ahead of its time,
and methods were chosen by the rules. -/
structure Regular (net : Network) : Prop where
  coherent : net.Coherent
  marksPast : net.MarksPast
  chosen : ∀ c, (net.con c).isSatisfied = true → (net.con c).Chosen

/-- The network `net'` comes later than `net`: no constraint is lost, what it says and how much it is
wanted are the same, and if it has left the graph it is not back. -/
structure Evolves (net net' : Network) : Prop where
  constraintCount : net.constraints.size ≤ net'.constraints.size
  kind : ∀ c, c.index < net.constraints.size → (net'.con c).kind = (net.con c).kind
  strength : ∀ c, c.index < net.constraints.size → (net'.con c).strength = (net.con c).strength
  attached : ∀ c, c.index < net.constraints.size → (net'.con c).attached = true →
    (net.con c).attached = true

/-- The network `net'` is regular and comes later than `net`. -/
structure Follows (net net' : Network) : Prop extends Evolves net net' where
  regular : net'.Regular

/-- What is left when the attempt to satisfy or to retract a constraint fails. The only promise that
can be made to the caller is about a cycle, and the constraint that closes it is out of the graph. -/
structure Fails (net : Network) (e : Failure SolveError) (net' : Network) : Prop
    extends Follows net net' where
  promised : ∀ s, e = .refused s → s.isRolledBack = true →
    ∃ d, s = .cycle d ∧ (net.con d).attached = true ∧ (net'.con d).attached = false

section Regular

variable {net net' : Network} {c : ConstraintId} {mark : Nat} {flow : Flow}

theorem Regular.of_sameMarks (h : net.Regular) (hg : SameGraph net net')
    (hm : ∀ v, (net'.var v).mark = (net.var v).mark) (hn : net'.mark = net.mark) :
    net'.Regular := by
  refine ⟨h.coherent.of_sameGraph hg, fun v => ?_, by rw [hg.con]; exact h.chosen⟩
  rw [hm, hn]
  exact h.marksPast v

theorem Regular.of_quiet (h : net.Regular) (hq : Quiet net net') : net'.Regular :=
  ⟨h.coherent.of_sameGraph hq.toSameGraph, hq.marksPast h.marksPast,
    by rw [hq.con]; exact h.chosen⟩

theorem Regular.takenOver (h : net.Regular) (ha : (net.con c).attached = true)
    (hu : (net.con c).isSatisfied = false) (hm : mark ≤ net.mark)
    (hflow : net.flowFor mark c = some flow) : (net.takenOver mark c flow).Regular := by
  have hc : c.index < net.constraints.size := known_of_attached ha
  refine ⟨h.coherent.takenOver ha hu, fun v => ?_, fun d hd => ?_⟩
  · rw [takenOver_var h.coherent hc, takenOver_mark]
    show (if v ∈ (net.directed c flow).reads then mark else (net.var v).mark) ≤ net.mark
    split
    · exact hm
    · exact h.marksPast v
  · rcases (takenOver_isSatisfied_iff h.coherent hc hu).1 hd with rfl | ⟨hs, ho⟩
    · rw [takenOver_con_self h.coherent hc hu]
      exact chosen_directed hflow
    · rw [takenOver_con_of_satisfied h.coherent hu hs ho]
      exact h.chosen d hs

theorem Regular.detached (h : net.Regular) (hc : c.index < net.constraints.size) :
    (net.detached c).Regular := by
  refine ⟨h.coherent.detached hc, h.marksPast.detached h.coherent hc, fun d hd => ?_⟩
  obtain ⟨hne, hs⟩ := (detached_isSatisfied_iff hc).1 hd
  rw [detached_con_of_ne hne]
  exact h.chosen d hs

theorem Regular.registered (h : net.Regular) {kind : Kind} {strength : Strength}
    (hk : ∀ v ∈ kind.operands, v.index < net.vars.size) :
    (net.registered kind strength).Regular := by
  refine ⟨h.coherent.registered hk, h.marksPast.registered hk, fun d hd => ?_⟩
  rw [registered_con_of_ne (ne_of_isSatisfied registered_new_unsatisfied hd).symm]
  rw [registered_isSatisfied] at hd
  exact h.chosen d hd

theorem Regular.withVariable (h : net.Regular) {name : String} {value : Float} :
    (net.withVariable name value).Regular := by
  refine ⟨h.coherent.withVariable, fun v => ?_, h.chosen⟩
  rw [withVariable_var_field (p := Variable.mark) fun _ _ => rfl]
  exact h.marksPast v

theorem regular_empty {patience : Nat} : (Network.empty patience).Regular := by
  refine ⟨coherent_empty, fun v => ?_, fun c hc => ?_⟩
  · rw [var_of_unknown (by simp [Network.empty])]
    exact Nat.zero_le _
  · exact absurd (known_of_isSatisfied hc) (by simp [Network.empty])

end Regular

section Later

variable {net net' net'' : Network} {c : ConstraintId} {e : Failure SolveError}

theorem Keeps.evolves (h : Keeps net net') : Evolves net net' where
  constraintCount := Nat.le_of_eq h.constraintCount.symm
  kind c _ := h.kind c
  strength c _ := h.strength c
  attached c _ ha := (h.attached c).symm.trans ha

theorem Evolves.trans (h : Evolves net net') (h' : Evolves net' net'') : Evolves net net'' where
  constraintCount := Nat.le_trans h.constraintCount h'.constraintCount
  kind c hc := (h'.kind c (Nat.lt_of_lt_of_le hc h.constraintCount)).trans (h.kind c hc)
  strength c hc := (h'.strength c (Nat.lt_of_lt_of_le hc h.constraintCount)).trans (h.strength c hc)
  attached c hc ha :=
    h.attached c hc (h'.attached c (Nat.lt_of_lt_of_le hc h.constraintCount) ha)

theorem evolves_detached (hc : c.index < net.constraints.size) : Evolves net (net.detached c) := by
  refine ⟨Nat.le_of_eq detached_count.symm, ?_, ?_, ?_⟩
  · intro d _
    by_cases hd : d = c
    · rw [hd, detached_con_self hc]
    · rw [detached_con_of_ne hd]
  · intro d _
    by_cases hd : d = c
    · rw [hd, detached_con_self hc]
    · rw [detached_con_of_ne hd]
  · intro d _ ha
    have hne := ne_of_detached_attached hc ha
    rwa [detached_con_of_ne hne] at ha

theorem evolves_registered {kind : Kind} {strength : Strength} :
    Evolves net (net.registered kind strength) := by
  have hold : ∀ d : ConstraintId, d.index < net.constraints.size →
      (net.registered kind strength).con d = net.con d := by
    intro d hd
    apply registered_con_of_ne
    rintro rfl
    exact Nat.lt_irrefl _ hd
  refine ⟨by simp, ?_, ?_, ?_⟩
  · intro d hd
    rw [hold d hd]
  · intro d hd
    rw [hold d hd]
  · intro d hd ha
    rwa [hold d hd] at ha

/-- A constraint that was registered is known ever after. -/
theorem Evolves.known_new {kind : Kind} {strength : Strength}
    (h : Evolves (net.registered kind strength) net') :
    (⟨net.constraints.size⟩ : ConstraintId).index < net'.constraints.size := by
  have hle := h.constraintCount
  rw [registered_count] at hle
  exact hle

theorem Follows.trans (h : Follows net net') (h' : Follows net' net'') : Follows net net'' :=
  ⟨h.toEvolves.trans h'.toEvolves, h'.regular⟩

theorem Follows.refl (h : net.Regular) : Follows net net := ⟨(Keeps.refl net).evolves, h⟩

theorem Regular.follows (h : net'.Regular) (hk : Keeps net net') : Follows net net' :=
  ⟨hk.evolves, h⟩

theorem Regular.follows_detached (h : net.Regular) (hc : c.index < net.constraints.size) :
    Follows net (net.detached c) :=
  ⟨evolves_detached hc, h.detached hc⟩

/-- A failure that promises nothing. -/
theorem Follows.fails (h : Follows net net') (he : ∀ s, e = .refused s → s.isRolledBack = false) :
    Fails net e net' :=
  ⟨h, fun s hs hp => Bool.noConfusion ((he s hs).symm.trans hp)⟩

/-- The failure of an attempt that comes after other changes. -/
theorem Fails.of_evolves (h : Evolves net net') (hf : Fails net' e net'')
    (ha : ∀ d, (net'.con d).attached = true → (net.con d).attached = true) : Fails net e net'' := by
  refine ⟨⟨h.trans hf.toEvolves, hf.regular⟩, fun s hs hp => ?_⟩
  obtain ⟨d, hd, hbefore, hafter⟩ := hf.promised s hs hp
  exact ⟨d, hd, ha d hbefore, hafter⟩

end Later

/-! ## Satisfying and retracting -/

/-- Satisfying and retracting constraints keep a network regular, and so do their failures. -/
theorem solvingInvariant_regular :
    SolvingInvariant Regular (fun net c => net.Regular ∧ (net.con c).isSatisfied = true)
      (fun _ => Fails) where
  coherent h := h.coherent
  keep h hq := h.of_quiet hq
  coherent_but h := h.1.coherent
  satisfied_but h := h.2
  keep_but h hq := ⟨h.1.of_quiet hq, by rw [hq.con]; exact h.2⟩
  walk {net c flow} n mark h ha hu hm hflow := by
    have hreg : (net.takenOver mark c flow).Regular := h.takenOver ha hu hm hflow
    have hcoh := hreg.coherent
    have hsat : ((net.takenOver mark c flow).con c).isSatisfied = true :=
      (takenOver_isSatisfied_iff h.coherent (known_of_attached ha) hu).2 (.inl rfl)
    have hvisit : ∀ {net' q}, Visiting (net.takenOver mark c flow) net' q → net'.Regular :=
      fun hv => hreg.of_sameMarks hv.graph hv.marks hv.counter
    have hleft : ∀ {net' q}, Visiting (net.takenOver mark c flow) net' q → Follows net net' :=
      fun hv => (hvisit hv).follows (keeps_takenOver.trans hv.graph.keeps)
    have inv : WalkInvariant mark (Fails net) (Visiting (net.takenOver mark c flow)) :=
      walkInvariant_visiting hcoh (fun h => (hleft (h.step hcoh)).fails (by rintro _ ⟨⟩; rfl))
        fun h => (hleft h).fails nofun
    refine (ends_walk inv _ (visiting_start hsat)).mono_ok ?_
    intro met net' hend
    cases met with
    | none => exact ⟨⟨_, hend⟩, fun _ => hvisit hend, nofun⟩
    | some v =>
      obtain ⟨d, q, hmet, -, -⟩ := hend
      refine ⟨⟨_, hmet⟩, nofun, fun _ _ => ⟨hvisit hmet, ?_⟩⟩
      rw [hmet.graph.con]
      exact hsat
  release {net c} n h := by
    have hc : c.index < net.constraints.size := known_of_isSatisfied h.2
    have hreg : (net.detached c).Regular := h.1.detached hc
    have hcoh := hreg.coherent
    have hout : (net.con c).output.index < (net.detached c).vars.size := by
      rw [detached_size]
      exact h.1.coherent.known_output hc
    have hfree : ∀ {net' found q ds}, Freeing (net.detached c) net' found q ds → net'.Regular :=
      fun hf => hreg.of_sameMarks hf.graph hf.marks hf.counter
    have hleft : ∀ {net' found q ds}, Freeing (net.detached c) net' found q ds →
        Follows (net.detached c) net' := fun hf => (hfree hf).follows hf.graph.keeps
    have inv : ReleaseInvariant (Fails (net.detached c)) (Freeing (net.detached c)) :=
      releaseInvariant_freeing hcoh (fun h => (hleft (h.step hcoh)).fails (by rintro _ ⟨⟩; rfl))
        fun h => (hleft h).fails nofun
    refine (ends_release inv hout (freeing_released h.1.coherent h.2)).mono_ok ?_
    intro found net' hend
    refine ⟨hfree hend, hend.graph, ?_⟩
    rw [hend.graph.con]
    exact hend.found
  unsatisfiable _ h _ _ := (Follows.refl h).fails (by rintro _ ⟨⟩; rfl)
  cycle {net net' c} n ha h hk := by
    have hc : c.index < net.constraints.size := known_of_attached ha
    refine ⟨⟨(evolves_detached hc).trans hk.evolves, h⟩, ?_⟩
    rintro _ ⟨⟩ _
    refine ⟨c, rfl, ha, ?_⟩
    rw [hk.attached, detached_con_self hc]
  spent h _ := (Follows.refl h).fails nofun
  keeps hk hf := hf.of_evolves hk.evolves fun d hd => (hk.attached d).symm.trans hd
  nested {n net c e net'} ha hf := by
    have hc : c.index < net.constraints.size := known_of_attached ha
    refine hf.of_evolves (evolves_detached hc) fun d hd => ?_
    rwa [detached_con_of_ne (ne_of_detached_attached hc hd)] at hd

/-! ## Whole requests -/

section Requests

variable {net₀ net : Network}

theorem Follows.of_quiet {net' : Network} (h : Follows net₀ net) (hq : Quiet net net') :
    Follows net₀ net' :=
  h.trans ((h.regular.of_quiet hq).follows hq.keeps)

theorem Follows.withVariable (h : Follows net₀ net) {name : String} {value : Float} :
    Follows net₀ (net.withVariable name value) :=
  ⟨h.toEvolves.trans ⟨Nat.le_refl _, fun _ _ => rfl, fun _ _ => rfl, fun _ _ ha => ha⟩,
    h.regular.withVariable⟩

theorem operationInvariant_follows :
    OperationInvariant (fun _ _ => True) (Follows net₀) (fun _ => Follows net₀) where
  coherent h := h.regular.coherent
  note _ h := h.of_quiet quiet_note
  refused _ h := h
  edit _ := trivial
  add {net kind strength} h _ hk := by
    have hreg : Follows net₀ (net.registered kind strength) :=
      ⟨h.toEvolves.trans evolves_registered, h.regular.registered hk⟩
    refine ends_orDetach (solvingInvariant_regular.ends_establish _ hreg.regular
      registered_new_attached registered_new_unsatisfied) ?_ ?_ |>.mono_ok ?_
    · exact fun _ _ hleft _ => hreg.trans hleft.toFollows
    · intro net' hleft
      have hc := hleft.known_new
      rw [ends_detach hc (hleft.regular.coherent.known _ hc)]
      exact hreg.trans (hleft.toFollows.trans (hleft.regular.follows_detached hc))
    · exact fun _ _ hend => hreg.trans (hend.1.follows hend.2)
  establish h ha hu := (solvingInvariant_regular.ends_establish _ h.regular ha hu).mono
    (fun _ _ hend => h.trans (hend.1.follows hend.2)) fun _ _ hleft => h.trans hleft.toFollows
  withdraw {net c} h hs := by
    have hdrop := h.trans (h.regular.follows_detached (known_of_isSatisfied hs))
    exact (solvingInvariant_regular.ends_withdraw _ ⟨h.regular, hs⟩).mono
      (fun _ _ hend => hdrop.trans (hend.1.follows hend.2)) fun _ _ hleft =>
        hdrop.trans hleft.toFollows
  drop h ha _ := h.trans (h.regular.follows_detached (known_of_attached ha))

theorem ends_perform_follows (r : Request) (h : Follows net₀ net) :
    Ends r.perform net (fun _ => Follows net₀) (fun _ => Follows net₀) :=
  operationInvariant_follows.ends_perform Follows.of_quiet (fun _ _ h => h)
    (fun h => h.withVariable) (fun _ h => h) h trivial

theorem Regular.after (h : net.Regular) (r : Request) : (r.after net).Regular :=
  (Request.after_of_ends (ends_perform_follows r (.refl h))).regular

theorem Reaches.foldl (rs : List Request) (hr : Reaches net₀ net) :
    Reaches net₀ (rs.foldl (fun net r => r.after net) net) := by
  induction rs generalizing net with
  | nil => exact hr
  | cons r rs ih => exact ih (hr.step r)

theorem Reaches.of_outcome? {net' : Network} {r : Request} (h : Reaches net₀ net)
    (hr : r.outcome? net = some net') : Reaches net₀ net' := by
  have hafter : r.after net = net' := by
    unfold Request.outcome? at hr
    unfold Request.after
    split at hr
    next hok =>
      rw [hok]
      exact Option.some.inj hr
    next => cases hr
    next herror =>
      rw [herror]
      exact Option.some.inj hr
    next => cases hr
  exact hafter ▸ h.step r

theorem Reaches.of_runAll {test : Network → Request → Bool} (rs : List Request) :
    ∀ {net : Network}, Reaches net₀ net → Request.runAll test rs net = some net' →
      Reaches net₀ net' := by
  induction rs with
  | nil =>
    intro net h hr
    cases hr
    exact h
  | cons r rs ih =>
    intro net h hr
    obtain ⟨net₁, hr₁, hrs⟩ := Option.bind_eq_some_iff.1 hr
    dsimp only at hr₁
    split at hr₁
    next => exact ih (h.of_outcome? hr₁) hrs
    next => cases hr₁

/-- What runs lead to is reached. -/
theorem reaches_of_run {admits : Network → Request → Prop} (h : Run admits net) :
    ∃ patience, Reaches (.empty patience) net := by
  induction h with
  | @empty patience => exact ⟨patience, .refl⟩
  | @answered net net' r _ _ hr ih =>
    obtain ⟨patience, hreach⟩ := ih
    have hafter : r.after net = net' := by rw [Request.after, hr]
    exact ⟨patience, hafter ▸ hreach.step r⟩
  | @refused net net' r e _ _ hr _ ih =>
    obtain ⟨patience, hreach⟩ := ih
    have hafter : r.after net = net' := by rw [Request.after, hr]
    exact ⟨patience, hafter ▸ hreach.step r⟩

theorem Reaches.follows (hr : Reaches net₀ net) (h : net₀.Regular) : Follows net₀ net := by
  induction hr with
  | refl => exact .refl h
  | step _ r ih => exact Request.after_of_ends (ends_perform_follows r ih)

theorem Reaches.regular {patience : Nat} (h : Reaches (.empty patience) net) : net.Regular :=
  (h.follows regular_empty).regular

theorem regular_of_run {admits : Network → Request → Prop} (h : Run admits net) : net.Regular := by
  obtain ⟨patience, hreach⟩ := reaches_of_run h
  exact hreach.regular

end Requests

/-- In every network that requests lead to, answered or refused for whatever reason, a variable lists
the constraints of the graph that mention it, oldest first and once per mention; it is computed by a
constraint exactly if that constraint is satisfied and has it as its output; satisfied constraints are
in the graph; and every id names something. In every later network a constraint still says the same
and is wanted as much, and once it has left the graph it is not back. -/
theorem records_agree {patience : Nat} {net later : Network} (h : Reaches (.empty patience) net)
    (hl : Reaches net later) :
    (∀ v x, net.getVariable? v = some x →
      x.constraints = net.mentions v ∧
      (∀ c, x.determinedBy = some c ↔
        ∃ k, net.getConstraint? c = some k ∧ k.isSatisfied = true ∧ k.output = v) ∧
      ∀ c ∈ x.constraints, c.index < net.constraints.size) ∧
    ∀ c k, net.getConstraint? c = some k →
      (k.isSatisfied = true → k.attached = true) ∧
      (∀ v ∈ k.kind.operands, v.index < net.vars.size) ∧
      ∃ k', later.getConstraint? c = some k' ∧ k'.kind = k.kind ∧ k'.strength = k.strength ∧
        (k.attached = false → k'.attached = false) := by
  have hreg : net.Regular := h.regular
  have hcoh := hreg.coherent
  have hlater : Follows net later := hl.follows hreg
  refine ⟨?_, ?_⟩
  · intro v x hx
    obtain ⟨-, rfl⟩ := getVariable?_eq_some.1 hx
    refine ⟨hcoh.listed v, fun c => ?_, fun c hc => hcoh.known_listed hc⟩
    rw [hcoh.determines]
    constructor
    · rintro ⟨hs, ho⟩
      exact ⟨net.con c, getConstraint?_eq_con (known_of_isSatisfied hs), hs, ho⟩
    · rintro ⟨k, hk, hs, ho⟩
      obtain ⟨-, rfl⟩ := getConstraint?_eq_some.1 hk
      exact ⟨hs, ho⟩
  · intro c k hk
    obtain ⟨hc, rfl⟩ := getConstraint?_eq_some.1 hk
    have hc' : c.index < later.constraints.size := Nat.lt_of_lt_of_le hc hlater.constraintCount
    refine ⟨hcoh.attached c, hcoh.known c hc, later.con c, getConstraint?_eq_con hc',
      hlater.kind c hc, hlater.strength c hc, fun hd => ?_⟩
    rw [← Bool.not_eq_true] at hd ⊢
    exact fun ha => hd (hlater.attached c hc ha)

end Network

/-- The stay takes `v1` over from the scaling, which is then computed backward and divides by zero. -/
def dividedRequests : List Request :=
  [.addVariable "a" 1, .addVariable "b" 2, .addVariable "m" 0, .addVariable "d" 0,
    .add (.scale ⟨0⟩ ⟨1⟩ ⟨2⟩ ⟨3⟩) .required, .add (.stay ⟨1⟩) .preferred]

def dividedNetwork : Network := dividedRequests.foldl (fun net r => r.after net) .empty

namespace Network

theorem records_agree_dividedNetwork :
    (∃ x, dividedNetwork.getVariable? ⟨0⟩ = some x ∧ x.determinedBy = some ⟨0⟩ ∧
      x.constraints = dividedNetwork.mentions ⟨0⟩ ∧
      ∃ k, dividedNetwork.getConstraint? ⟨0⟩ = some k ∧ k.isSatisfied = true ∧ k.output = ⟨0⟩) ∧
    ∃ k, ((Request.destroy ⟨0⟩).after dividedNetwork).getConstraint? ⟨0⟩ = some k ∧
      k.attached = false ∧
      ∃ k', ((Request.enforce ⟨0⟩).after ((Request.destroy ⟨0⟩).after dividedNetwork)).getConstraint?
        ⟨0⟩ = some k' ∧ k'.attached = false := by
  have hreach : Reaches .empty dividedNetwork := .foldl dividedRequests .refl
  have hx : dividedNetwork.getVariable? ⟨0⟩ = some (dividedNetwork.var ⟨0⟩) :=
    getVariable?_eq_var (by decide +kernel)
  have hd : (dividedNetwork.var ⟨0⟩).determinedBy = some ⟨0⟩ := by decide +kernel
  have hk : ((Request.destroy ⟨0⟩).after dividedNetwork).getConstraint? ⟨0⟩ =
      some { kind := .scale ⟨0⟩ ⟨1⟩ ⟨2⟩ ⟨3⟩, strength := .required } := by decide +kernel
  have hrecord := (records_agree hreach .refl).1 ⟨0⟩ _ hx
  obtain ⟨k', hk', -, -, hdetached⟩ :=
    ((records_agree (hreach.step (.destroy ⟨0⟩)) (Reaches.refl.step (.enforce ⟨0⟩))).2 _ _ hk).2.2
  exact ⟨⟨_, hx, hd, hrecord.1, (hrecord.2.1 ⟨0⟩).1 hd⟩, _, hk, rfl, k', hk', hdetached rfl⟩

end Network

end ConstraintHierarchy
