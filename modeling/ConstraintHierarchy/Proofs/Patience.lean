import ConstraintHierarchy.Proofs.Indifference

/-!
# Patience

A walk along a cycle of computations may go on for ever, so a network says how long its walks are
followed. This number decides about nothing but the moment when an operation is given up. An operation
that comes to an end of its own accord comes to the same end with more patience, with the same answer or
refusal and the same network but for the number. So an operation on a network either is given up whatever
the patience, or it has one outcome for every patience that is large enough.

## Main results

* `Solve.ends_withPatience`: an action that is not given up does the same with more patience
* `Request.perform_settles`: the two cases for a request
* `Request.runAll_withPatience`: the same for the requests of a run
-/

namespace ConstraintHierarchy

open Solve Network

/-! ## Actions -/

namespace Solve

variable {α : Type} {p q : Nat}

theorem fails_excuses' (o : EStateM.Result (Failure SolveError) Network α) :
    fails (Aspect.patience p q).excuses' o = false := by
  cases o with
  | ok _ _ => rfl
  | error _ _ => rfl

theorem fails_isEndless {o : EStateM.Result (Failure SolveError) Network α}
    (h : ∀ left, o ≠ .error .endless left) : fails Failure.isEndless o = false := by
  cases o with
  | ok _ _ => rfl
  | error e left =>
    cases e with
    | endless => exact absurd rfl (h left)
    | _ => rfl

theorem ends_withPatience (net : Network) {act : Solve α} (h : Indifferent (.patience net.patience q) act)
    (hq : net.patience ≤ q) :
    Ends act net
      (fun a net' => net'.patience = net.patience ∧
        act (net.withPatience q) = .ok a (net'.withPatience q))
      (fun e net' => e ≠ .endless → net'.patience = net.patience ∧
        act (net.withPatience q) = .error e (net'.withPatience q)) := by
  have hmatch := h net (net.withPatience q) (Aspect.same_patience_iff.2 ⟨hq, rfl, rfl⟩)
  unfold Ends
  generalize act (net.withPatience q) = more at hmatch ⊢
  cases hr : act net with
  | ok a net' =>
    rw [hr] at hmatch
    cases hmatch rfl (fails_excuses' _) with
    | ok hab hsame =>
      obtain ⟨-, hp, rfl⟩ := Aspect.same_patience_iff.1 hsame
      exact ⟨hp, by rw [hab]⟩
  | error e net' =>
    rw [hr] at hmatch
    intro he
    have hgo : ∀ left, (.error e net' : EStateM.Result (Failure SolveError) Network α) ≠
        .error .endless left := by
      rintro left ⟨⟩
      exact he rfl
    cases hmatch (fails_isEndless hgo) (fails_excuses' _) with
    | error hsame =>
      obtain ⟨-, hp, rfl⟩ := Aspect.same_patience_iff.1 hsame
      exact ⟨hp, rfl⟩

theorem alike_discard {β : Type} {s : Aspect} {R : α → β → Prop} {act : Solve α} {act' : Solve β}
    (h : Alike s R act act') : Alike s Eq (discard act) (discard act') := by
  intro net net' hnet hd hd'
  simp only [discard, Functor.mapConst, EStateM.map, Function.comp_apply] at hd hd' ⊢
  have hmatch := h net net' hnet
  generalize act net = o at hd hmatch ⊢
  generalize act' net' = o' at hd' hmatch ⊢
  have hact : fails s.excuses o = false := by
    cases o with
    | ok _ _ => rfl
    | error _ _ => exact hd
  have hact' : fails s.excuses' o' = false := by
    cases o' with
    | ok _ _ => rfl
    | error _ _ => exact hd'
  cases hmatch hact hact' with
  | ok _ hn => exact .ok rfl hn
  | error hn => exact .error hn

/-- If one of the halves is given up, then so is the whole. -/
theorem alike_always {act act' cleanup cleanup' : Solve Unit} (h : Alike (.patience p q) Eq act act')
    (h' : Alike (.patience p q) Eq cleanup cleanup') :
    Alike (.patience p q) Eq (always act cleanup) (always act' cleanup') := by
  intro net net' hnet hd hd'
  have hmatch := h net net' hnet
  unfold always at hd hd' ⊢
  generalize act net = o at hmatch hd ⊢
  generalize act' net' = o' at hmatch hd' ⊢
  have hgo : ∀ left, o ≠ .error .endless left := by
    rintro left rfl
    cases hd
  cases hmatch (fails_isEndless hgo) (fails_excuses' _) with
  | ok _ hn => exact h' _ _ hn hd hd'
  | @error e n n' hn =>
    cases e with
    | outOfRange => exact .error hn
    | endless => exact .error hn
    | refused e =>
      have hclean := h' n n' hn
      dsimp only at hd hd' ⊢
      generalize cleanup n = o at hclean hd ⊢
      generalize cleanup' n' = o' at hclean hd' ⊢
      have hgo : ∀ left, o ≠ .error .endless left := by
        rintro left rfl
        cases hd
      cases hclean (fails_isEndless hgo) (fails_excuses' _) with
      | ok _ hm => exact .error hm
      | @error e' m m' hm =>
        cases e' with
        | refused _ => exact .error hm
        | outOfRange => exact .error hm
        | endless => exact .error hm

end Solve

namespace Network

theorem indifferent_replay {s : Aspect} {plan : Plan} {v : VariableId} {value : Float} (n : Nat) :
    Indifferent s (replay plan v value n) := by
  induction n with
  | zero => exact alike_pure rfl
  | succ n ih =>
    exact (alike_setValue rfl).andThen fun _ => (indifferent_runPlan plan).andThen fun _ => ih

theorem indifferent_change {p q : Nat} {v : VariableId} {value : Float} {strength : Strength} {n : Nat} :
    Indifferent (.patience p q) (change v value strength n) :=
  indifferent_addConstraint.andThen fun edit => (indifferent_extractPlan [edit]).andThen fun _ =>
    alike_always (indifferent_replay n) indifferent_destroy

end Network

/-! ## Requests -/

namespace Request

variable {p q : Nat} {net net' : Network}

theorem indifferent_perform (r : Request) : Indifferent (.patience p q) r.perform := by
  cases r with
  | addVariable name value => exact alike_discard (alike_addVariable rfl)
  | valueOf v => exact alike_discard alike_valueOf
  | assign v value => exact alike_assign rfl
  | freshMark => exact alike_discard indifferent_freshMark
  | add kind strength => exact alike_discard indifferent_addConstraint
  | enforce c => exact indifferent_enforce
  | retract c => exact indifferent_retract
  | destroy c => exact indifferent_destroy
  | change v value strength n => exact indifferent_change
  | makePlan sources => exact alike_discard (indifferent_makePlan sources)
  | extractPlan cs => exact alike_discard (indifferent_extractPlan cs)
  | runPlan p => exact indifferent_runPlan p

/-- A request on a network is given up whatever the patience, or from some patience on it has one
outcome, and the network left differs in its patience only. -/
theorem perform_settles (r : Request) (net : Network) :
    (∀ q, ∃ left, r.perform (net.withPatience q) = .error .endless left) ∨
      ∃ p, ∀ q, p ≤ q → Ends r.perform (net.withPatience p)
        (fun _ left => r.perform (net.withPatience q) = .ok () (left.withPatience q))
        (fun e left => e ≠ .endless ∧
          r.perform (net.withPatience q) = .error e (left.withPatience q)) := by
  by_cases hall : ∀ q, ∃ left, r.perform (net.withPatience q) = .error .endless left
  · exact .inl hall
  · obtain ⟨p, hp⟩ := not_forall.1 hall
    refine .inr ⟨p, fun q hq => ?_⟩
    have hmore := ends_withPatience (net.withPatience p) (q := q) r.indifferent_perform hq
    have hgo : Ends r.perform (net.withPatience p) (fun _ _ => True) (fun e _ => e ≠ .endless) := by
      unfold Ends
      split
      next => trivial
      next e left hr =>
        rintro rfl
        exact hp ⟨left, hr⟩
    exact (hmore.and hgo).mono (fun _ _ hend => hend.1.2) fun _ _ hf => ⟨hf.2, (hf.1 hf.2).2⟩

/-- The last scaling divides by zero and leaves a cycle. Once its factor is one, `a` is one less after each
turn of the cycle, and when it is zero the scaling that computes `u` divides by it. -/
def shrinkingRequests : List Request :=
  [.addVariable "a" 4, .addVariable "b" 0, .addVariable "m" 0, .addVariable "d" 0,
    .addVariable "p" (-1), .addVariable "q" 1, .addVariable "u" 0, .addVariable "o" 0,
    .addVariable "w" 5, .add (.stay ⟨1⟩) .preferred, .add (.scale ⟨0⟩ ⟨3⟩ ⟨4⟩ ⟨5⟩) .required,
    .add (.stay ⟨8⟩) .preferred, .add (.scale ⟨6⟩ ⟨8⟩ ⟨0⟩ ⟨7⟩) .required,
    .add (.scale ⟨0⟩ ⟨1⟩ ⟨2⟩ ⟨3⟩) .required, .assign ⟨2⟩ 1, .assign ⟨0⟩ 4]

def shrinkingNetwork (patience : Nat) : Network :=
  shrinkingRequests.foldl (fun net r => r.after net) (.empty patience)

example :
    Ends (Request.destroy ⟨0⟩).perform (shrinkingNetwork 0) (fun _ _ => False)
      (fun e _ => e = .endless) ∧
    Ends (Request.destroy ⟨0⟩).perform (shrinkingNetwork 10) (fun _ _ => False)
      (fun e net => e = .refused (.divisionByZero ⟨3⟩) ∧ net.value ⟨0⟩ = 0) := by
  decide +kernel

theorem refusal?_withPatience {r : Request} {e : SolveError} (hq : net.patience ≤ q)
    (h : r.refusal? net = some e) :
    (r.after net).patience = net.patience ∧ r.refusal? (net.withPatience q) = some e ∧
      r.after (net.withPatience q) = (r.after net).withPatience q := by
  obtain ⟨hp, hr⟩ := (ends_withPatience net r.indifferent_perform hq).of_error
    (perform_of_refusal? h) nofun
  exact ⟨hp, by rw [refusal?, hr], by rw [after, hr]⟩

theorem outcome?_withPatience {r : Request} (hq : net.patience ≤ q) (h : r.outcome? net = some net') :
    net'.patience = net.patience ∧ r.outcome? (net.withPatience q) = some (net'.withPatience q) := by
  have hmore := ends_withPatience net r.indifferent_perform hq
  unfold outcome? at h ⊢
  split at h
  next hok =>
    cases h
    obtain ⟨hp, hr⟩ := hmore.of_ok hok
    exact ⟨hp, by rw [hr]⟩
  next => cases h
  next e left hne herror =>
    cases h
    obtain ⟨hp, hr⟩ := hmore.of_error herror nofun
    refine ⟨hp, ?_⟩
    rw [hr]
    cases e with
    | divisionByZero c => exact absurd rfl (hne c)
    | _ => rfl
  next => cases h

/-- A run that does not break down is the same run with more patience. -/
theorem runAll_withPatience {test : Network → Request → Bool}
    (htest : ∀ net q r, test (net.withPatience q) r = test net r) (rs : List Request) :
    ∀ {net : Network}, net.patience ≤ q → runAll test rs net = some net' →
      net'.patience = net.patience ∧
        runAll test rs (net.withPatience q) = some (net'.withPatience q) := by
  induction rs with
  | nil =>
    rintro net - h
    cases h
    exact ⟨rfl, rfl⟩
  | cons r rs ih =>
    intro net hq h
    obtain ⟨net₁, hr₁, hrs⟩ := Option.bind_eq_some_iff.1 h
    dsimp only at hr₁
    split at hr₁
    next ht =>
      obtain ⟨hp, hr⟩ := outcome?_withPatience hq hr₁
      obtain ⟨hp', hrs'⟩ := ih (hp ▸ hq) hrs
      refine ⟨hp'.trans hp, Option.bind_eq_some_iff.2 ⟨net₁.withPatience q, ?_, hrs'⟩⟩
      dsimp only
      rw [htest, if_pos ht, hr]
    next => cases hr₁

end Request

end ConstraintHierarchy
