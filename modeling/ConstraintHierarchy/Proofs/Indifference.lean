import ConstraintHierarchy.Proofs.Execution

/-!
# Two executions compared

Two networks that differ in the values of their variables only are told apart by nothing but a division
by zero: values are computed from values, and methods, marks and the order of things are decided on the
rest. Two networks that differ in their patience only are told apart by nothing but the end of the
shorter one. Both are statements about two executions at once, and they are proved by the same rules for
pairs of actions.

`Alike s R act act'` says that `act` and `act'`, executed on networks that differ in the aspect `s` only,
give answers related by `R` or fail for the same reason, and leave networks that differ in `s` only, unless
one of them ends in a failure that `s` excuses. There is one lemma for every action, and it follows the
definition of the action; the aspect matters where values are computed and where generations are counted.
Where values are put back in the middle, as a cycle is rolled back, they may be different values in the two
networks, and values again.

## Main definitions

* `Aspect`, `Aspect.Same`: what two networks may differ in
* `Solve.Matches`: two outcomes are the same but for an aspect
* `Solve.Alike`, `Solve.Indifferent`: actions do the same but for an aspect

## Main results

* `Solve.Alike.bind`: two sequences of actions
* `Network.alike_establish`, `Network.alike_withdraw`: roll-backs included
* `Network.indifferent_addConstraint`, `Network.indifferent_retract`
* `Network.indifferent_extractPlan`: the steps of a plan and their order
-/

namespace ConstraintHierarchy

open Solve Network

/-! ## What networks may differ in -/

/-- The failure is the refusal to divide by zero. -/
def Failure.isDivision : Failure SolveError → Bool
  | .refused (.divisionByZero _) => true
  | _ => false

/-- The failure is the end of patience. -/
def Failure.isEndless : Failure SolveError → Bool
  | .endless => true
  | _ => false

/-- The network with another patience. -/
def Network.withPatience (net : Network) (q : Nat) : Network := { net with patience := q }

/-- What two networks may differ in. -/
inductive Aspect where
  /-- the values of their variables -/
  | values
  /-- how long walks are followed: the patience is `p` in the first network and `q` in the second -/
  | patience (p q : Nat)

namespace Aspect

/-- What is seen of a value. -/
def seen : Aspect → Float → Float
  | values, _ => 0
  | patience _ _, x => x

/-- What is seen of a variable. -/
def view (s : Aspect) (x : Variable) : Variable := { x with value := s.seen x.value }

/-- The first network may have less patience than the second. -/
def SamePatience : Aspect → Nat → Nat → Prop
  | values, n, m => n = m
  | patience p q, n, m => n = p ∧ m = q ∧ p ≤ q

/-- What follows for the number of generations for which a walk is followed. -/
def SameGenerations : Aspect → Nat → Nat → Prop
  | values, n, m => n = m
  | patience _ _, n, m => n ≤ m

/-- The networks differ in the given aspect only. -/
structure Same (s : Aspect) (net net' : Network) : Prop where
  mark : net.mark = net'.mark
  vars : net.vars.map s.view = net'.vars.map s.view
  constraints : net.constraints = net'.constraints
  journal : net.journal = net'.journal
  patience : s.SamePatience net.patience net'.patience

/-- The failures by which the first network is told apart. -/
def excuses : Aspect → Failure SolveError → Bool
  | values => Failure.isDivision
  | patience _ _ => Failure.isEndless

/-- The failures by which the second network is told apart. More patience is never a reason to fail. -/
def excuses' : Aspect → Failure SolveError → Bool
  | values => Failure.isDivision
  | patience _ _ => fun _ => false

variable {s : Aspect} {n m : Nat}

/-- All values look the same. -/
theorem seen_values (a b : Float) : values.seen a = values.seen b := rfl

theorem exists_succ_of_sameGenerations (h : s.SameGenerations (n + 1) m) :
    ∃ k, m = k + 1 ∧ s.SameGenerations n k := by
  cases s with
  | values => exact ⟨n, Eq.symm h, rfl⟩
  | patience p q =>
    exact ⟨m - 1, (Nat.succ_pred_eq_of_pos (Nat.zero_lt_of_lt h)).symm, Nat.le_pred_of_lt h⟩

theorem same_values_iff {net net' : Network} :
    values.Same net net' ↔ net.withoutValues = net'.withoutValues := by
  unfold withoutValues
  rw [Network.mk.injEq]
  constructor
  · rintro ⟨hmark, hvars, hcons, hjournal, hpatience⟩
    exact ⟨hmark, hvars, hcons, hjournal, hpatience⟩
  · rintro ⟨hmark, hvars, hcons, hjournal, hpatience⟩
    exact ⟨hmark, hvars, hcons, hjournal, hpatience⟩

theorem same_patience_iff {p q : Nat} {net net' : Network} :
    (patience p q).Same net net' ↔ p ≤ q ∧ net.patience = p ∧ net' = net.withPatience q := by
  have hview : ∀ xs : Array Variable, xs.map (patience p q).view = xs := fun xs => Array.map_id' xs
  constructor
  · rintro ⟨hmark, hvars, hcons, hjournal, hp, hq, hle⟩
    rw [hview, hview] at hvars
    refine ⟨hle, hp, ?_⟩
    rw [withPatience, hmark, hvars, hcons, hjournal, ← hq]
  · rintro ⟨hle, hp, rfl⟩
    exact ⟨rfl, rfl, rfl, rfl, hp, rfl, hle⟩

end Aspect

/-! ## Pairs of actions -/

namespace Solve

variable {α β γ δ : Type}

/-- The outcome is a failure of the given sort. -/
def fails (p : Failure SolveError → Bool) : EStateM.Result (Failure SolveError) Network α → Bool
  | .ok _ _ => false
  | .error e _ => p e

/-- The outcome is the refusal to divide by zero. -/
abbrev divides (o : EStateM.Result (Failure SolveError) Network α) : Bool := fails Failure.isDivision o

/-- Two outcomes are answers related by `R`, or the same failure, and the networks left differ in the
aspect `s` only. -/
inductive Matches (s : Aspect) (R : α → β → Prop) :
    EStateM.Result (Failure SolveError) Network α → EStateM.Result (Failure SolveError) Network β → Prop
  | ok {a : α} {b : β} {net net' : Network} (h : R a b) (hnet : s.Same net net') :
      Matches s R (.ok a net) (.ok b net')
  | error {e : Failure SolveError} {net net' : Network} (hnet : s.Same net net') :
      Matches s R (.error e net) (.error e net')

/-- On networks that differ in the aspect `s` only the outcomes of the two actions match, unless they
are excused. -/
def Alike (s : Aspect) (R : α → β → Prop) (act : Solve α) (act' : Solve β) : Prop :=
  ∀ net net' : Network, s.Same net net' → fails s.excuses (act net) = false →
    fails s.excuses' (act' net') = false → Matches s R (act net) (act' net')

/-- What an action answers, and what it does but to the aspect, does not depend on the aspect. -/
abbrev Indifferent (s : Aspect) (act : Solve α) : Prop := Alike s Eq act act

section Rules

variable {s : Aspect} {R : α → β → Prop} {S : γ → δ → Prop} {act : Solve α} {act' : Solve β}
  {f : α → Solve γ} {g : β → Solve δ} {net net' : Network}

theorem alike_pure {a : α} {b : β} (h : R a b) : Alike s R (pure a) (pure b) :=
  fun _ _ hnet _ _ => .ok h hnet

theorem alike_throw {e : Failure SolveError} : Alike s R (throw e : Solve α) (throw e : Solve β) :=
  fun _ _ hnet _ _ => .error hnet

theorem alike_refuse {e : SolveError} : Alike s R (refuse e : Solve α) (refuse e : Solve β) :=
  alike_throw

/-- The first halves of two actions are not excused unless the actions are, so they match; and if they
are answered, the second halves have to. -/
theorem Matches.bind (h : fails s.excuses (act net) = false → fails s.excuses' (act' net') = false →
      Matches s R (act net) (act' net'))
    (hfg : ∀ a b n n', act net = .ok a n → act' net' = .ok b n' → R a b → s.Same n n' →
      fails s.excuses (f a n) = false → fails s.excuses' (g b n') = false →
      Matches s S (f a n) (g b n'))
    (hd : fails s.excuses ((act >>= f) net) = false)
    (hd' : fails s.excuses' ((act' >>= g) net') = false) :
    Matches s S ((act >>= f) net) ((act' >>= g) net') := by
  simp only [Bind.bind, EStateM.bind] at hd hd' ⊢
  cases hr : act net with
  | ok a n =>
    rw [hr] at h hd
    cases hr' : act' net' with
    | ok b n' =>
      rw [hr'] at h hd'
      obtain ⟨hab, hn⟩ := h rfl rfl
      exact hfg a b n n' hr hr' hab hn hd hd'
    | error e' n' =>
      rw [hr'] at h hd'
      cases h rfl hd'
  | error e n =>
    rw [hr] at h hd
    cases hr' : act' net' with
    | ok b n' =>
      rw [hr'] at h
      cases h hd rfl
    | error e' n' =>
      rw [hr'] at h hd'
      cases h hd hd' with
      | error hn => exact .error hn

theorem Alike.bind (h : Alike s R act act') (hfg : ∀ a b, R a b → Alike s S (f a) (g b)) :
    Alike s S (act >>= f) (act' >>= g) := fun net net' hnet =>
  Matches.bind (h net net' hnet) fun a b n n' _ _ hab hn => hfg a b hab n n' hn

/-- The rule for actions that give the same answer. -/
theorem Alike.andThen {act' : Solve α} {g : α → Solve δ} (h : Alike s Eq act act')
    (hfg : ∀ a, Alike s S (f a) (g a)) : Alike s S (act >>= f) (act' >>= g) :=
  Alike.bind h fun a _ hab => hab ▸ hfg a

theorem Alike.ite {p : Prop} [Decidable p] {act₁ : Solve α} {act₂ : Solve β} (h : Alike s R act act')
    (h' : Alike s R act₁ act₂) : Alike s R (if p then act else act₁) (if p then act' else act₂) := by
  by_cases hp : p
  · rwa [if_pos hp, if_pos hp]
  · rwa [if_neg hp, if_neg hp]

/-- An action that is always excused is alike to any other. -/
theorem alike_of_excused (h : (∀ net, fails s.excuses (act net) = true) ∨
    ∀ net, fails s.excuses' (act' net) = true) : Alike s R act act' := by
  intro net net' _ hd hd'
  rcases h with h | h
  · rw [h net] at hd
    cases hd
  · rw [h net'] at hd'
    cases hd'

/-- The first execution may have come to the end of its patience where the second has not. -/
theorem alike_endless {m : Nat} (hm : s.SameGenerations 0 m) (h : m = 0 → act' = throw .endless) :
    Alike s R (throw .endless) act' := by
  cases s with
  | values =>
    rw [h (Eq.symm hm)]
    exact alike_throw
  | patience p q => exact alike_of_excused (.inl fun _ => rfl)

end Rules

/-! ## Reads and writes -/

section Primitives

variable {s : Aspect} {net net' : Network} {v : VariableId} {c : ConstraintId}

theorem size_of_same (h : s.Same net net') : net.vars.size = net'.vars.size := by
  simpa using congrArg Array.size h.vars

/-- A variable is in both networks or in neither. -/
theorem getVariable?_cases (v : VariableId) (h : s.Same net net') :
    (net.getVariable? v = none ∧ net'.getVariable? v = none) ∨
      ∃ x y, net.getVariable? v = some x ∧ net'.getVariable? v = some y ∧ s.view x = s.view y := by
  have hmap : (net.getVariable? v).map s.view = (net'.getVariable? v).map s.view := by
    simpa [getVariable?] using congrArg (fun xs => xs[v.index]?) h.vars
  cases hx : net.getVariable? v with
  | none =>
    rw [hx, Option.map_none] at hmap
    exact .inl ⟨rfl, Option.map_eq_none_iff.1 hmap.symm⟩
  | some x =>
    rw [hx, Option.map_some] at hmap
    obtain ⟨y, hy, hxy⟩ := Option.map_eq_some_iff.1 hmap.symm
    exact .inr ⟨x, y, rfl, hy, hxy.symm⟩

theorem getConstraint?_eq (c : ConstraintId) (h : s.Same net net') :
    net.getConstraint? c = net'.getConstraint? c := by
  rw [getConstraint?, h.constraints, getConstraint?]

theorem sameGenerations_of_same (h : s.Same net net') :
    s.SameGenerations net.generations net'.generations := by
  obtain ⟨-, -, hcons, -, hpatience⟩ := h
  unfold generations
  rw [hcons]
  cases s with
  | values => exact congrArg (_ + · + 1) hpatience
  | patience p q =>
    obtain ⟨hp, hq, hle⟩ := hpatience
    rw [hp, hq]
    exact Nat.succ_le_succ (Nat.add_le_add_left hle _)

theorem getElem_view {xs ys : Array Variable} {i : Nat} (hx : i < xs.size) (hy : i < ys.size)
    (h : xs.map s.view = ys.map s.view) : s.view xs[i] = s.view ys[i] := by
  simpa [hx, hy] using congrArg (fun zs => zs[i]?) h

/-- Variables that look the same are altered alike, and then still do. -/
theorem map_modify_view {xs ys : Array Variable} {f g : Variable → Variable} {i : Nat}
    (h : xs.map s.view = ys.map s.view)
    (hfg : ∀ x y : Variable, s.view x = s.view y → s.view (f x) = s.view (g y)) :
    (xs.modify i f).map s.view = (ys.modify i g).map s.view := by
  have hsize : xs.size = ys.size := by simpa using congrArg Array.size h
  refine Array.ext (by simpa using hsize) fun j hj hj' => ?_
  have hx : j < xs.size := by simpa using hj
  have hxy := getElem_view hx (hsize ▸ hx) h
  simp only [Array.getElem_map, Array.getElem_modify]
  split
  · exact hfg _ _ hxy
  · exact hxy

theorem alike_get : Alike s s.Same (get : Solve Network) get :=
  fun _ _ hnet _ _ => .ok hnet hnet

theorem alike_modify {f g : Network → Network} (h : ∀ n n' : Network, s.Same n n' → s.Same (f n) (g n')) :
    Alike s Eq (modify f : Solve Unit) (modify g) :=
  fun _ _ hnet _ _ => .ok rfl (h _ _ hnet)

theorem alike_readVariable :
    Alike s (fun x y => s.view x = s.view y) (readVariable v) (readVariable v) := by
  refine alike_get.bind fun n n' hn => ?_
  obtain ⟨hx, hy⟩ | ⟨x, y, hx, hy, hxy⟩ := getVariable?_cases v hn
  · rw [hx, hy]
    exact alike_throw
  · rw [hx, hy]
    exact alike_pure hxy

theorem indifferent_readConstraint : Indifferent s (readConstraint c) := by
  refine alike_get.bind fun n n' hn => ?_
  rw [getConstraint?_eq c hn]
  cases n'.getConstraint? c with
  | none => exact alike_throw
  | some k => exact alike_pure rfl

theorem alike_readVariables (vs : List VariableId) :
    Alike s (fun xs ys => xs.map s.view = ys.map s.view) (readVariables vs) (readVariables vs) := by
  induction vs with
  | nil => exact alike_pure rfl
  | cons v vs ih =>
    refine alike_readVariable.bind fun x y hxy => ih.bind fun xs ys hxys => alike_pure ?_
    rw [List.map_cons, List.map_cons, hxy, hxys]

theorem alike_updateVariable {f g : Variable → Variable}
    (h : ∀ x y : Variable, s.view x = s.view y → s.view (f x) = s.view (g y)) :
    Alike s Eq (updateVariable v f) (updateVariable v g) := by
  refine alike_get.bind fun n n' hn => ?_
  rw [size_of_same hn]
  refine (alike_modify fun m m' hm => ?_).ite alike_throw
  exact { hm with vars := map_modify_view hm.vars h }

theorem indifferent_updateVariable {f : Variable → Variable}
    (h : ∀ x, s.view (f x) = f (s.view x)) : Indifferent s (updateVariable v f) :=
  alike_updateVariable fun x y hxy => by rw [h, h, hxy]

theorem indifferent_updateConstraint {f : Constraint → Constraint} :
    Indifferent s (updateConstraint c f) := by
  refine alike_get.bind fun n n' hn => ?_
  rw [hn.constraints]
  refine (alike_modify fun m m' hm => ?_).ite alike_throw
  exact { hm with constraints := by rw [hm.constraints] }

theorem alike_readValue :
    Alike s (fun a b => s.seen a = s.seen b) (readValue v) (readValue v) :=
  alike_readVariable.bind fun _ _ h => alike_pure (congrArg Variable.value h)

theorem alike_setValue {a b : Float} (h : s.seen a = s.seen b) :
    Alike s Eq (setValue v a) (setValue v b) :=
  alike_updateVariable fun x y hxy => by
    show { s.view x with value := s.seen a } = { s.view y with value := s.seen b }
    rw [hxy, h]

theorem indifferent_note {e : Event} : Indifferent s (note e) :=
  alike_modify fun _ _ hn => { hn with journal := by rw [hn.journal] }

theorem indifferent_freshMark : Indifferent s freshMark :=
  Alike.andThen (alike_modify fun _ _ hn => { hn with mark := by rw [hn.mark] }) fun _ =>
    alike_get.bind fun _ _ hn => alike_pure hn.mark

theorem indifferent_checkVariable : Indifferent s (checkVariable v) := by
  refine alike_get.bind fun n n' hn => ?_
  obtain ⟨hx, hy⟩ | ⟨x, y, hx, hy, -⟩ := getVariable?_cases v hn
  · rw [hx, hy]
    exact alike_refuse
  · rw [hx, hy]
    exact alike_pure rfl

theorem indifferent_checkVariables (vs : List VariableId) : Indifferent s (checkVariables vs) := by
  induction vs with
  | nil => exact alike_pure rfl
  | cons v vs ih => exact indifferent_checkVariable.andThen fun _ => ih

theorem indifferent_checkAttached : Indifferent s (checkAttached c) := by
  refine alike_get.bind fun n n' hn => ?_
  rw [getConstraint?_eq c hn]
  cases n'.getConstraint? c with
  | none => exact alike_refuse
  | some k => exact (alike_pure rfl).ite alike_refuse

theorem indifferent_checkAllAttached (cs : List ConstraintId) : Indifferent s (checkAllAttached cs) := by
  induction cs with
  | nil => exact alike_pure rfl
  | cons c cs ih => exact indifferent_checkAttached.andThen fun _ => ih

end Primitives

end Solve

/-! ## Methods and propagation -/

namespace Network

section Propagation

variable {s : Aspect} {c d : ConstraintId} {v : VariableId} {mark : Nat}

theorem indifferent_attachTo (vs : List VariableId) : Indifferent s (attachTo c vs) := by
  induction vs with
  | nil => exact alike_pure rfl
  | cons v vs ih => exact Alike.andThen (indifferent_updateVariable fun _ => rfl) fun _ => ih

theorem indifferent_detachFrom (vs : List VariableId) : Indifferent s (detachFrom c vs) := by
  induction vs with
  | nil => exact alike_pure rfl
  | cons v vs ih => exact Alike.andThen (indifferent_updateVariable fun _ => rfl) fun _ => ih

theorem indifferent_detach : Indifferent s (detach c) :=
  indifferent_readConstraint.andThen fun k =>
    (indifferent_detachFrom k.kind.operands).andThen fun _ => indifferent_updateConstraint

theorem unaryFlow_congr {strength : Strength} {x y : Variable} (h : s.view x = s.view y) :
    unaryFlow strength mark x = unaryFlow strength mark y :=
  (congrArg (unaryFlow strength mark) h :)

theorem binaryFlow_congr {strength : Strength} {x x' y y' : Variable} (h : s.view x = s.view x')
    (h' : s.view y = s.view y') : binaryFlow strength mark x y = binaryFlow strength mark x' y' :=
  (congrArg₂ (binaryFlow strength mark) h h' :)

theorem indifferent_chooseFlow : Indifferent s (chooseFlow mark c) := by
  refine indifferent_readConstraint.andThen fun k => ?_
  cases k.kind with
  | stay v => exact alike_readVariable.bind fun _ _ h => alike_pure (unaryFlow_congr h)
  | edit v => exact alike_readVariable.bind fun _ _ h => alike_pure (unaryFlow_congr h)
  | equal a b =>
    exact alike_readVariable.bind fun _ _ h => alike_readVariable.bind fun _ _ h' =>
      alike_pure (binaryFlow_congr h h')
  | scale a b factor offset =>
    exact alike_readVariable.bind fun _ _ h => alike_readVariable.bind fun _ _ h' =>
      alike_pure (binaryFlow_congr h h')

theorem indifferent_markAll (vs : List VariableId) : Indifferent s (markAll mark vs) := by
  induction vs with
  | nil => exact alike_pure rfl
  | cons v vs ih => exact Alike.andThen (indifferent_updateVariable fun _ => rfl) fun _ => ih

/-- A result looks the same if what it is computed from does. -/
theorem seen_congr₃ {a b m a' b' m' : Float} (f : Float → Float → Float → Float)
    (ha : s.seen a = s.seen a') (hb : s.seen b = s.seen b') (hm : s.seen m = s.seen m') :
    s.seen (f a b m) = s.seen (f a' b' m') := by
  cases s with
  | values => rfl
  | patience p q =>
    change a = a' at ha
    change b = b' at hb
    change m = m' at hm
    rw [ha, hb, hm]

/-- Only whether it divides by zero depends on values. -/
theorem indifferent_execute : Indifferent s (execute c) := by
  refine indifferent_readConstraint.andThen fun k => ?_
  cases k.kind with
  | stay v => exact alike_pure rfl
  | edit v => exact alike_pure rfl
  | equal a b =>
    exact (alike_readValue.bind fun _ _ h => alike_setValue h).ite
      (alike_readValue.bind fun _ _ h => alike_setValue h)
  | scale a b factor offset =>
    refine alike_readValue.bind fun m m' hm => alike_readValue.bind fun o o' ho =>
      (alike_readValue.bind fun x x' hx => alike_setValue ?_).ite ?_
    · exact seen_congr₃ (fun x m o => x * m + o) hx hm ho
    · cases s with
      | values =>
        by_cases hzero : (m == 0.0) = true
        · rw [if_pos hzero]
          exact alike_of_excused (.inl fun _ => rfl)
        by_cases hzero' : (m' == 0.0) = true
        · rw [if_pos hzero']
          exact alike_of_excused (.inr fun _ => rfl)
        rw [if_neg hzero, if_neg hzero']
        exact alike_readValue.bind fun _ _ _ => alike_setValue (Aspect.seen_values _ _)
      | patience p q =>
        obtain rfl : m = m' := hm
        exact alike_refuse.ite (alike_readValue.bind fun x x' hx =>
          alike_setValue (seen_congr₃ (fun x m o => (x - o) / m) hx rfl ho))

theorem annotation_view (k : Constraint) (xs ps : List Variable) :
    k.annotation (xs.map s.view).head? (ps.map s.view) = k.annotation xs.head? ps := by
  have hall : (ps.map s.view).all (·.stay) = ps.all (·.stay) := by
    rw [List.all_map]
    rfl
  cases xs with
  | nil => rfl
  | cons x xs =>
    simp only [List.map_cons, List.head?_cons, Constraint.annotation, hall]
    rfl

theorem indifferent_recalculate : Indifferent s (recalculate c) := by
  refine indifferent_readConstraint.andThen fun k => (alike_readVariables _).bind fun xs ys hxs =>
    (alike_readVariables _).bind fun ps qs hps => ?_
  have hsame : k.annotation xs.head? ps = k.annotation ys.head? qs := by
    rw [← annotation_view, hxs, hps, annotation_view]
  rw [hsame]
  exact Alike.andThen (indifferent_updateVariable fun _ => rfl) fun _ =>
    indifferent_execute.ite (alike_pure rfl)

theorem indifferent_satisfiedAmong (cs : List ConstraintId) : Indifferent s (satisfiedAmong cs) := by
  induction cs with
  | nil => exact alike_pure rfl
  | cons c cs ih => exact indifferent_readConstraint.andThen fun _ => ih.andThen fun _ => alike_pure rfl

theorem indifferent_consumers : Indifferent s (consumers v) := by
  refine alike_readVariable.bind fun x y hxy => ?_
  have hsame : x.constraints.filter (x.determinedBy ≠ some ·) =
      y.constraints.filter (y.determinedBy ≠ some ·) :=
    (congrArg (fun z : Variable => z.constraints.filter (z.determinedBy ≠ some ·)) hxy :)
  rw [hsame]
  exact indifferent_satisfiedAmong _

theorem indifferent_visit : Indifferent s (visit mark d) := by
  refine indifferent_readConstraint.andThen fun k => alike_readVariable.bind fun x y hxy => ?_
  have hmark : x.mark = y.mark := (congrArg Variable.mark hxy :)
  rw [hmark]
  exact (alike_pure rfl).ite (indifferent_recalculate.andThen fun _ =>
    indifferent_consumers.andThen fun _ => alike_pure rfl)

theorem indifferent_visitAll (ds : List ConstraintId) : Indifferent s (visitAll mark ds) := by
  induction ds with
  | nil => exact alike_pure rfl
  | cons d ds ih =>
    refine indifferent_visit.andThen fun found => ?_
    cases found with
    | met v => exact alike_pure rfl
    | onward next =>
      refine ih.andThen fun more => ?_
      cases more with
      | met v => exact alike_pure rfl
      | onward more => exact alike_pure rfl

theorem alike_walk (n : Nat) : ∀ (m : Nat) (ds : List ConstraintId), s.SameGenerations n m →
    Alike s Eq (walk mark n ds) (walk mark m ds) := by
  induction n with
  | zero =>
    intro m ds hm
    cases ds with
    | nil => cases m <;> exact alike_pure rfl
    | cons d ds =>
      refine alike_endless hm ?_
      rintro rfl
      rfl
  | succ n ih =>
    intro m ds hm
    obtain ⟨m, rfl, hm'⟩ := Aspect.exists_succ_of_sameGenerations hm
    cases ds with
    | nil => exact alike_pure rfl
    | cons d ds =>
      refine (indifferent_visitAll (d :: ds)).andThen fun found => ?_
      cases found with
      | met v => exact alike_pure rfl
      | onward next => exact ih m next hm'

/-- Values are put back, each from where it was read. -/
theorem alike_restoreValues {before before' : Array Variable}
    (h : before.map s.view = before'.map s.view) :
    Alike s Eq (restoreValues before) (restoreValues before') := by
  refine alike_modify fun n n' hn => { hn with vars := ?_ }
  have hsize := size_of_same hn
  have hsize' : before.size = before'.size := by simpa using congrArg Array.size h
  refine Array.ext (by simp [hsize, hsize']) fun i hi hi' => ?_
  simp only [Array.size_map, Array.size_zipWith] at hi
  simp only [Array.getElem_map, Array.getElem_zipWith]
  have hx : s.view n.vars[i] = s.view n'.vars[i] := getElem_view (by omega) (by omega) hn.vars
  have hold : s.view before[i] = s.view before'[i] := getElem_view (by omega) (by omega) h
  show { s.view n.vars[i] with value := (s.view before[i]).value } =
    { s.view n'.vars[i] with value := (s.view before'[i]).value }
  rw [hx, hold]

theorem indifferent_collectUnsatisfied (cs : List ConstraintId) :
    ∀ found, Indifferent s (collectUnsatisfied found cs) := by
  induction cs with
  | nil => exact fun _ => alike_pure rfl
  | cons c cs ih => exact fun found => indifferent_readConstraint.andThen fun _ => (ih found).ite (ih _)

theorem indifferent_recalculateAll (ds : List ConstraintId) : Indifferent s (recalculateAll ds) := by
  induction ds with
  | nil => exact alike_pure rfl
  | cons d ds ih =>
    exact indifferent_recalculate.andThen fun _ => indifferent_readConstraint.andThen fun _ =>
      ih.andThen fun _ => alike_pure rfl

theorem indifferent_releaseAll (vs : List VariableId) :
    ∀ found, Indifferent s (releaseAll found vs) := by
  induction vs with
  | nil => exact fun _ => alike_pure rfl
  | cons v vs ih =>
    intro found
    refine alike_readVariable.bind fun x y hxy => ?_
    have hlist : x.constraints = y.constraints := (congrArg Variable.constraints hxy :)
    rw [hlist]
    exact (indifferent_collectUnsatisfied y.constraints found).andThen fun found =>
      indifferent_consumers.andThen fun cs => (indifferent_recalculateAll cs).andThen fun next =>
        (ih found).andThen fun _ => alike_pure rfl

theorem alike_releaseFrom (n : Nat) :
    ∀ (m : Nat) (found : List ConstraintId) (vs : List VariableId), s.SameGenerations n m →
      Alike s Eq (releaseFrom found n vs) (releaseFrom found m vs) := by
  induction n with
  | zero =>
    intro m found vs hm
    cases vs with
    | nil => cases m <;> exact alike_pure rfl
    | cons v vs =>
      refine alike_endless hm ?_
      rintro rfl
      rfl
  | succ n ih =>
    intro m found vs hm
    obtain ⟨m, rfl, hm'⟩ := Aspect.exists_succ_of_sameGenerations hm
    cases vs with
    | nil => exact alike_pure rfl
    | cons v vs =>
      exact (indifferent_releaseAll (v :: vs) found).andThen fun r => ih m r.1 r.2 hm'

theorem indifferent_release : Indifferent s (release v) :=
  Alike.andThen (indifferent_updateVariable fun _ => rfl) fun _ =>
    alike_get.bind fun _ _ hn => alike_releaseFrom _ _ _ _ (sameGenerations_of_same hn)

end Propagation

/-! ## Adding and retracting -/

section Incremental

variable {s : Aspect} {c : ConstraintId} {mark n m : Nat}
  {rollback rollback' retry retry' : ConstraintId → Solve Unit}

/-- The values from before the walk are put back, and they need not be the same in both networks. -/
theorem alike_propagate (h : ∀ c, Alike s Eq (rollback c) (rollback' c)) :
    Alike s Eq (propagate rollback mark c) (propagate rollback' mark c) := by
  refine alike_get.bind fun n n' hn => alike_get.bind fun m m' hm => ?_
  refine (alike_walk _ _ _ (sameGenerations_of_same hm)).andThen fun met => ?_
  cases met with
  | none => exact alike_pure rfl
  | some v =>
    exact indifferent_note.andThen fun _ => (alike_restoreValues hn.vars).andThen fun _ =>
      (h c).andThen fun _ => alike_refuse

theorem indifferent_displace (o : Option ConstraintId) : Indifferent s (displace o) := by
  cases o with
  | none => exact alike_pure rfl
  | some o => exact indifferent_updateConstraint

theorem alike_install (h : ∀ c, Alike s Eq (rollback c) (rollback' c)) :
    Alike s Eq (install rollback mark c) (install rollback' mark c) := by
  refine indifferent_chooseFlow.andThen fun flow => indifferent_updateConstraint.andThen fun _ =>
    indifferent_readConstraint.andThen fun k => .ite ?_ (.ite alike_refuse (alike_pure rfl))
  refine (indifferent_markAll _).andThen fun _ => alike_readVariable.bind fun x y hxy => ?_
  have hby : x.determinedBy = y.determinedBy := (congrArg Variable.determinedBy hxy :)
  rw [hby]
  refine (indifferent_displace _).andThen fun _ => ?_
  refine Alike.andThen (indifferent_updateVariable fun _ => rfl) fun _ => ?_
  refine (alike_propagate h).andThen fun _ => ?_
  exact Alike.andThen (indifferent_updateVariable fun _ => rfl) fun _ => alike_pure rfl

theorem alike_resatisfy {cause : ConstraintId} (h : ∀ c, Alike s Eq (rollback c) (rollback' c))
    (n : Nat) :
    ∀ o, Alike s Eq (resatisfy rollback mark cause n o) (resatisfy rollback' mark cause n o) := by
  induction n with
  | zero =>
    intro o
    cases o with
    | none => exact alike_pure rfl
    | some o => exact alike_throw
  | succ n ih =>
    intro o
    cases o with
    | none => exact alike_pure rfl
    | some o => exact indifferent_note.andThen fun _ => (alike_install h).andThen ih

theorem alike_establishUsing (h : ∀ c, Alike s Eq (rollback c) (rollback' c)) :
    Alike s Eq (establishUsing rollback c) (establishUsing rollback' c) := by
  refine indifferent_freshMark.andThen fun mark => (alike_install h).andThen fun displaced =>
    alike_get.bind fun n n' hn => ?_
  rw [size_of_same hn]
  exact alike_resatisfy h _ _

theorem alike_retryLevel {level : Strength} (h : ∀ c, Alike s Eq (retry c) (retry' c))
    (us : List ConstraintId) : Alike s Eq (retryLevel retry level us) (retryLevel retry' level us) := by
  induction us with
  | nil => exact alike_pure rfl
  | cons u us ih =>
    exact indifferent_readConstraint.andThen fun k => ((h u).andThen fun _ => ih).ite ih

theorem alike_retryLevels {candidates : List ConstraintId} (h : ∀ c, Alike s Eq (retry c) (retry' c))
    (levels : List Strength) :
    Alike s Eq (retryLevels retry candidates levels) (retryLevels retry' candidates levels) := by
  induction levels with
  | nil => exact alike_pure rfl
  | cons level levels ih => exact (alike_retryLevel h candidates).andThen fun _ => ih

theorem alike_withdrawUsing (h : ∀ c, Alike s Eq (retry c) (retry' c)) :
    Alike s Eq (withdrawUsing retry c) (withdrawUsing retry' c) :=
  indifferent_readConstraint.andThen fun _ => indifferent_detach.andThen fun _ =>
    indifferent_release.andThen fun _ => indifferent_note.andThen fun _ => alike_retryLevels h _

/-- Roll-backs nest, and each level is alike because the one below it is. -/
theorem alike_establish (n : Nat) :
    ∀ (m : Nat) (c : ConstraintId), s.SameGenerations n m →
      Alike s Eq (establish n c) (establish m c) := by
  induction n with
  | zero =>
    intro m c hm
    refine alike_endless hm ?_
    rintro rfl
    rfl
  | succ n ih =>
    intro m c hm
    obtain ⟨m, rfl, hm'⟩ := Aspect.exists_succ_of_sameGenerations hm
    exact alike_establishUsing fun _ => alike_withdrawUsing fun u => ih m u hm'

theorem alike_withdraw (h : s.SameGenerations n m) : Alike s Eq (withdraw n c) (withdraw m c) :=
  alike_withdrawUsing fun u => alike_establish n m u h

theorem alike_nesting : Alike s s.SameGenerations nesting nesting :=
  alike_get.bind fun _ _ hn => alike_pure (sameGenerations_of_same hn)

theorem indifferent_enforce : Indifferent s (enforce c) :=
  indifferent_checkAttached.andThen fun _ => indifferent_readConstraint.andThen fun _ =>
    (alike_pure rfl).ite (alike_nesting.bind fun n m h => alike_establish n m c h)

theorem indifferent_retract : Indifferent s (retract c) :=
  indifferent_checkAttached.andThen fun _ => indifferent_readConstraint.andThen fun _ =>
    (alike_nesting.bind fun _ _ h => alike_withdraw h).ite indifferent_detach

theorem indifferent_destroy : Indifferent s (destroy c) :=
  indifferent_note.andThen fun _ => indifferent_retract

theorem indifferent_register {kind : Kind} {strength : Strength} :
    Indifferent s (register kind strength) := by
  refine alike_get.bind fun n n' hn => ?_
  rw [hn.constraints]
  refine (indifferent_attachTo _).andThen fun _ => Alike.andThen (alike_modify fun m m' hm => ?_)
    fun _ => indifferent_note.andThen fun _ => alike_pure rfl
  exact { hm with constraints := by rw [hm.constraints] }

theorem fails_of_orDetach {p : Failure SolveError → Bool} {act : Solve Unit} {net : Network}
    (hp : ∀ d, p (.refused (.unsatisfiable d)) = false) (h : fails p (orDetach c act net) = false) :
    fails p (act net) = false := by
  unfold orDetach at h
  split at h
  next d _ hr =>
    rw [hr]
    exact hp d
  next => exact h

/-- A constraint that is found unsatisfiable in one network is in the other, and is taken out of both. -/
theorem alike_orDetach {act act' : Solve Unit} (h : Alike s Eq act act') :
    Alike s Eq (orDetach c act) (orDetach c act') := by
  have hdetach : Indifferent s (do detach c; refuse (.unsatisfiable c) : Solve Unit) :=
    indifferent_detach.andThen fun _ => alike_refuse
  intro net net' hnet hd hd'
  have hact := h net net' hnet (fails_of_orDetach (fun _ => by cases s <;> rfl) hd)
    (fails_of_orDetach (fun _ => by cases s <;> rfl) hd')
  unfold orDetach at hd hd' ⊢
  generalize act net = result at hact hd ⊢
  generalize act' net' = result' at hact hd' ⊢
  cases hact with
  | ok hab hn => exact .ok hab hn
  | @error e n n' hn =>
    split
    next d m heq =>
      cases heq
      by_cases hc : d = c
      · simp only [hc, if_true] at hd hd' ⊢
        exact hdetach n n' hn hd hd'
      · simp only [if_neg hc]
        exact .error hn
    next hother =>
      split
      next d m heq =>
        cases heq
        exact absurd rfl (hother d n)
      next => exact .error hn

theorem indifferent_addConstraint {kind : Kind} {strength : Strength} :
    Indifferent s (addConstraint kind strength) :=
  (indifferent_checkVariables _).andThen fun _ => indifferent_register.andThen fun c =>
    alike_nesting.bind fun n m h => (alike_orDetach (alike_establish n m c h)).andThen fun _ =>
      alike_pure rfl

end Incremental

/-! ## Plans -/

section Plans

variable {s : Aspect} {c : ConstraintId} {v : VariableId} {mark : Nat}

theorem indifferent_inputKnown {k : Constraint} : Indifferent s (inputKnown mark k) := by
  unfold inputKnown
  cases k.input with
  | none => exact alike_pure rfl
  | some v =>
    exact alike_readVariable.bind fun x y hxy => alike_pure
      (congrArg (fun z : Variable => z.mark == mark || z.stay || z.determinedBy.isNone) hxy :)

theorem indifferent_planAll (cs : List ConstraintId) : Indifferent s (planAll mark cs) := by
  induction cs with
  | nil => exact alike_pure rfl
  | cons c cs ih =>
    refine indifferent_readConstraint.andThen fun k => alike_readVariable.bind fun x y hxy =>
      indifferent_inputKnown.andThen fun known => ?_
    have hmark : x.mark = y.mark := (congrArg Variable.mark hxy :)
    rw [hmark]
    refine Alike.ite ?_ ih
    exact Alike.andThen (indifferent_updateVariable fun _ => rfl) fun _ =>
      indifferent_consumers.andThen fun _ => ih.andThen fun _ => alike_pure rfl

theorem indifferent_planFrom (n : Nat) :
    ∀ cs : List ConstraintId, Indifferent s (planFrom mark n cs) := by
  induction n with
  | zero =>
    intro cs
    cases cs with
    | nil => exact alike_pure rfl
    | cons c cs => exact alike_throw
  | succ n ih =>
    intro cs
    cases cs with
    | nil => exact alike_pure rfl
    | cons c cs =>
      exact (indifferent_planAll (c :: cs)).andThen fun r => (ih r.2).andThen fun _ => alike_pure rfl

theorem indifferent_makePlan (sources : List ConstraintId) : Indifferent s (makePlan sources) := by
  refine (indifferent_checkAllAttached sources).andThen fun _ => indifferent_freshMark.andThen fun mark =>
    alike_get.bind fun n n' hn => ?_
  rw [size_of_same hn]
  exact (indifferent_planFrom _ sources).andThen fun _ => alike_pure rfl

theorem indifferent_satisfiedInputs (cs : List ConstraintId) : Indifferent s (satisfiedInputs cs) := by
  induction cs with
  | nil => exact alike_pure rfl
  | cons c cs ih =>
    exact indifferent_checkAttached.andThen fun _ => indifferent_readConstraint.andThen fun _ =>
      ih.andThen fun _ => alike_pure rfl

theorem indifferent_extractPlan (cs : List ConstraintId) : Indifferent s (extractPlan cs) :=
  (indifferent_satisfiedInputs cs).andThen indifferent_makePlan

theorem indifferent_executeAll (cs : List ConstraintId) : Indifferent s (executeAll cs) := by
  induction cs with
  | nil => exact alike_pure rfl
  | cons c cs ih => exact indifferent_execute.andThen fun _ => ih

theorem indifferent_runPlan (p : Plan) : Indifferent s (runPlan p) := indifferent_executeAll p.steps

end Plans

/-! ## Requests from outside -/

section Outside

variable {s : Aspect} {v : VariableId} {a b : Float}

theorem alike_addVariable {name : String} (h : s.seen a = s.seen b) :
    Alike s Eq (addVariable name a) (addVariable name b) := by
  refine alike_get.bind fun n n' hn => ?_
  rw [size_of_same hn]
  refine Alike.andThen (alike_modify fun m m' hm => { hm with vars := ?_ }) fun _ => alike_pure rfl
  rw [Array.map_push, Array.map_push, hm.vars]
  simp only [Aspect.view, h]

theorem alike_valueOf : Alike s (fun a b => s.seen a = s.seen b) (valueOf v) (valueOf v) :=
  indifferent_checkVariable.andThen fun _ => alike_readValue

theorem alike_assign (h : s.seen a = s.seen b) : Alike s Eq (assign v a) (assign v b) :=
  indifferent_checkVariable.andThen fun _ => alike_setValue h

end Outside

end Network

end ConstraintHierarchy
