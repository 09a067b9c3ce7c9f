import ConstraintHierarchy.Proofs.Exchange
import ConstraintHierarchy.Proofs.Optimality

/-!
# The exchange law for retractions

A satisfied constraint that is destroyed in a tree-shaped network leaves its output free, and everything that
was computed from it through main inputs carries the weakest strength; nothing else carries more or less than
before. An unsatisfied constraint on one of these variables can now be satisfied, and that costs nothing,
because what it takes over is free. It is the only one: if there were another, then the two of them together
with all that is satisfied and at least as strong would need more variables than carry that strength. So the
destroyed constraint is replaced by one constraint at most, a strongest one.

## Main definitions

* `Network.Along`: the variables that a variable feeds through main inputs
* `Network.Vacated`: the network after the release
* `Network.Refilled`: the stages of the retries

## Main results

* `Network.Vacated.ends_establish`: a blocked constraint is satisfied and no other is lost
* `Network.Vacated.not_both`: two blocked constraints cannot both be satisfied
* `Network.destroy_exchange`: what replaces a destroyed constraint
-/

namespace ConstraintHierarchy

open Solve Relation

namespace Network

variable {net net' start : Network} {c d e u w : ConstraintId} {v x : VariableId}

/-- The variable `w` is `v`, or satisfied constraints lead from `v` to `w` through their main inputs. -/
def Along (net : Network) : VariableId → VariableId → Prop :=
  ReflTransGen fun v w => ∃ d k, net.getConstraint? d = some k ∧ k.isSatisfied = true ∧
    k.input = some v ∧ k.output = w

/-- The network `start` after `c` has left the graph and its output has been released: what the output fed
carries the weakest strength, and everything else what it carried before. -/
structure Vacated (net : Network) (c : ConstraintId) (start : Network) : Prop where
  sound : start.Sound
  regular : start.Regular
  gone : (start.con c).attached = false
  con : ∀ d, d ≠ c → start.con d = net.con d
  free : ∀ v, net.Along (net.con c).output v → (start.var v).walkStrength = .weakest
  elsewhere : ∀ v, ¬ net.Along (net.con c).output v →
    (start.var v).walkStrength = (net.var v).walkStrength

/-- The stages of the retries: nothing has been satisfied yet and what is blocked is still to come, or a
strongest of the blocked constraints has been satisfied at no cost. -/
inductive Refilled (start : Network) (pending : ConstraintId → Prop) (net : Network) : Prop
  | vacant (hquiet : Quiet start net) (hpending : ∀ e, start.Blocked e → pending e)
  | taken {u : ConstraintId} (hu : start.Blocked u)
    (hfirst : ∀ e, start.Blocked e → (start.con u).strength.rank ≤ (start.con e).strength.rank)
    (hsound : net.Sound) (hkeeps : Keeps start net)
    (hblocked : ∀ e, net.Blocked e → start.Blocked e)
    (hsatisfied : ∀ e, (net.con e).isSatisfied = true ↔ e = u ∨ (start.con e).isSatisfied = true)

/-! ## Main inputs -/

theorem Along.step (h : net.Along v x) (hd : (net.con d).isSatisfied = true)
    (hin : (net.con d).input = some x) : net.Along v (net.con d).output :=
  h.tail ⟨d, _, getConstraint?_eq_con (known_of_isSatisfied hd), hd, hin, rfl⟩

/-- Strength is only lost along main inputs. -/
theorem Settled.rank_le_along (h : net.Settled) (hc : (net.con c).isSatisfied = true)
    (hv : net.Along (net.con c).output v) :
    (net.con c).strength.rank ≤ (net.var v).walkStrength.rank := by
  induction hv with
  | refl => exact h.strength_le hc
  | tail _ hstep ih =>
    obtain ⟨d, k, hk, hd, hin, rfl⟩ := hstep
    obtain ⟨-, rfl⟩ := getConstraint?_eq_some.1 hk
    exact Nat.le_trans ih (h.rank_le_output hd (Constraint.mem_outputs_iff.2 (.inr hin)))

/-! ## The release -/

/-- A release leaves the strength of what the output did not feed. -/
theorem ends_release_along (h : net.Settled) (hc : (net.con c).isSatisfied = true) :
    Ends (release (net.con c).output) (net.detached c)
      (fun _ net' => ∀ v, ¬ net.Along (net.con c).output v →
        (net'.var v).walkStrength = (net.var v).walkStrength) (fun _ _ => True) := by
  have hk : c.index < net.constraints.size := known_of_isSatisfied hc
  have hdrop : (net.detached c).Coherent := h.coherent.detached hk
  have hfreeing : ReleaseInvariant (fun _ _ => True) (Freeing (net.detached c)) :=
    releaseInvariant_freeing hdrop (fun _ => trivial) fun _ => trivial
  let P : Network → List ConstraintId → List VariableId → List ConstraintId → Prop := fun cur _ _ _ =>
    ∀ v, ¬ net.Along (net.con c).output v → (cur.var v).walkStrength = (net.var v).walkStrength
  have hstep : ∀ {cur found q d ds}, Freeing (net.detached c) cur found q (d :: ds) →
      P cur found q (d :: ds) → P (cur.recalculated d) found (q ++ [(cur.con d).output]) ds := by
    intro cur found q d ds hf hsame v hv
    obtain ⟨hne, hd⟩ := (detached_isSatisfied_iff hk).1 (hf.satisfied d (by simp))
    have hcon : cur.con d = net.con d := by rw [hf.graph.con, detached_con_of_ne hne]
    by_cases hout : v = (cur.con d).output
    · -- what a constraint reads is not along the way if its output is not
      subst hout
      rw [recalculated_var_output ((hfreeing.coherent hf).known_output
        (by rw [hf.graph.constraintCount, detached_count]; exact known_of_isSatisfied hd))]
      show (cur.annotationFor d).walkStrength = _
      rw [hcon] at hv ⊢
      rw [h.walkStrength_eq_annotation hd]
      cases hin : (net.con d).input with
      | none =>
        rw [annotationFor_walkStrength_of_none (by rw [hcon, hin]),
          annotationFor_walkStrength_of_none hin, hcon]
      | some a =>
        rw [annotationFor_walkStrength_of_some (by rw [hcon, hin]),
          annotationFor_walkStrength_of_some hin, hcon, hsame a fun ha => hv (ha.step hd hin)]
    · rw [recalculated_var_of_ne hout]
      exact hsame v hv
  have inv := hfreeing.and (P := P) (fun _ hsame => hsame) hstep
  have hinit : P (net.released c) [] [(net.con c).output] [] := by
    intro v hv
    have hne : v ≠ (net.con c).output := by
      rintro rfl
      exact hv .refl
    exact congrArg Annotation.walkStrength (released_current_of_ne h.coherent hc hne)
  refine (ends_release inv ?_ ⟨freeing_released h.coherent hc, hinit⟩).mono_ok fun _ _ hend => hend.2
  rw [detached_size]
  exact h.coherent.known_output hk

/-- What the released output fed carries the weakest strength. -/
theorem walkStrength_of_along (hnet : net.Coherent) (hc : (net.con c).isSatisfied = true)
    (hset : start.Settled) (hgraph : SameGraph (net.detached c) start)
    (hv : net.Along (net.con c).output v) : (start.var v).walkStrength = .weakest := by
  have hk : c.index < net.constraints.size := known_of_isSatisfied hc
  have hout : (start.var (net.con c).output).walkStrength = .weakest := by
    have hnone : (start.var (net.con c).output).determinedBy = none :=
      (hgraph.determinedBy _).trans (detached_determinedBy_output hnet hc)
    exact congrArg Annotation.walkStrength ((hset.exact _).trans (due_of_none hnone))
  induction hv with
  | refl => exact hout
  | @tail a b _ hstep ih =>
    obtain ⟨d, k, hd, hs, hin, rfl⟩ := hstep
    obtain ⟨-, rfl⟩ := getConstraint?_eq_some.1 hd
    by_cases hdc : d = c
    · rw [hdc]
      exact hout
    · have hcon : start.con d = net.con d := by rw [hgraph.con, detached_con_of_ne hdc]
      have hs' : (start.con d).isSatisfied = true := by rwa [hcon]
      have hstrength := hset.walkStrength_eq_annotation hs'
      rw [annotationFor_walkStrength_of_some (by rw [hcon, hin]), ih, hcon] at hstrength
      apply Strength.rank_injective
      rw [hstrength, Strength.rank_weakerOf]
      exact Nat.max_eq_right (Strength.rank_le_six _)

theorem Vacated.of_quiet (h : Vacated net c start) (hq : Quiet start net') : Vacated net c net' where
  sound := h.sound.of_quiet hq
  regular := h.regular.of_quiet hq
  gone := by rw [hq.con]; exact h.gone
  con := by rw [hq.con]; exact h.con
  free v hv := (congrArg Annotation.walkStrength (hq.current v)).trans (h.free v hv)
  elsewhere v hv := (congrArg Annotation.walkStrength (hq.current v)).trans (h.elsewhere v hv)

/-- A release vacates what the output fed and finds what it blocks. -/
theorem ends_release_vacated (h : net.TreeSolution) (hreg : net.Regular)
    (hc : (net.con c).isSatisfied = true) :
    Ends (release (net.con c).output) (net.detached c)
      (fun found start => Vacated net c start ∧ (∀ u ∈ found, (start.con u).attached = true) ∧
        ∀ e, start.Blocked e → e ∈ found) (fun _ _ => True) := by
  have hk : c.index < net.constraints.size := known_of_isSatisfied hc
  refine (((ends_release_settled (h.settled.unsettled hc)).and (ends_release_tracking h hc)).and
    ((ends_release_along h.settled hc).and (solvingInvariant_regular.release 0 ⟨hreg, hc⟩))).mono ?_
    fun _ _ _ => trivial
  rintro found start ⟨⟨⟨hset, hgraph, hfound⟩, htrack⟩, helse, hregular, -, -⟩
  refine ⟨⟨h.sound_of_release hk hset hgraph htrack, hregular, ?_, fun d hd => ?_, fun v hv => ?_, helse⟩,
    fun u hu => (hfound u hu).1, fun e he => htrack.mem_of_blocked hgraph.con he⟩
  · rw [hgraph.con, detached_con_self hk]
  · rw [hgraph.con, detached_con_of_ne hd]
  · exact walkStrength_of_along h.settled.coherent hc hset hgraph hv

/-! ## What is blocked -/

namespace Vacated

theorem ne (h : Vacated net c start) (hd : (start.con d).attached = true) : d ≠ c := by
  rintro rfl
  rw [h.gone] at hd
  cases hd

/-- An unsatisfied constraint that is stronger than one of its outputs has become so. -/
theorem along (h : Vacated net c start) (hnet : net.TreeSolution) (ha : (start.con u).attached = true)
    (hu : (start.con u).isSatisfied = false) (hv : v ∈ (start.con u).kind.outputs)
    (hs : (start.con u).strength.StrongerThan (start.var v).walkStrength) :
    net.Along (net.con c).output v := by
  by_contra hv'
  have hcon := h.con u (h.ne ha)
  rw [h.elsewhere v hv'] at hs
  rw [hcon] at ha hu hv hs
  exact hnet.unblocked u ⟨ha, hu, v, hv, hs⟩

/-- Before, it was too weak for all of its outputs. -/
theorem rank_le (h : Vacated net c start) (hnet : net.TreeSolution) (hu : start.Blocked u)
    (hv : v ∈ (start.con u).kind.outputs) :
    (net.var v).walkStrength.rank ≤ (start.con u).strength.rank := by
  obtain ⟨ha, hs, -⟩ := hu
  have hcon := h.con u (h.ne ha)
  rw [hcon] at ha hs hv ⊢
  exact Nat.not_lt.1 fun hlt => hnet.unblocked u ⟨ha, hs, v, hv, hlt⟩

/-- A blocked constraint has a possible output among what was fed, and it is no stronger than `c`. -/
theorem blocked (h : Vacated net c start) (hnet : net.TreeSolution)
    (hc : (net.con c).isSatisfied = true) (hu : start.Blocked u) :
    (∃ v ∈ (start.con u).kind.outputs, net.Along (net.con c).output v) ∧
      (net.con c).strength.rank ≤ (start.con u).strength.rank := by
  obtain ⟨ha, hs, v, hv, hlt⟩ := id hu
  have hpath := h.along hnet ha hs hv hlt
  exact ⟨⟨v, hv, hpath⟩, Nat.le_trans (hnet.settled.rank_le_along hc hpath) (h.rank_le hnet hu hv)⟩

end Vacated

/-! ## Counting -/

/-- The variables that carry strength `s` are computed by as many satisfied constraints, each of which is
that strong and has all of its possible outputs among them. -/
theorem Settled.exists_holders {s : Strength} (h : net.Settled) (hs : s.StrongerThan .weakest) :
    ∃ ds : Finset ConstraintId, ds.card = (net.held s).card ∧
      ∀ d ∈ ds, (net.con d).isSatisfied = true ∧ (net.con d).strength.rank ≤ s.rank ∧
        ∀ x ∈ (net.con d).kind.outputs, x ∈ net.held s := by
  have hholder : ∀ v ∈ net.held s, ∃ d, (net.con d).isSatisfied = true ∧ (net.con d).output = v := by
    intro v hv
    exact h.exists_determiner (Nat.lt_of_le_of_lt ((mem_held hs).1 hv) hs)
  choose! holder hsat hout using hholder
  refine ⟨(net.held s).image holder, Finset.card_image_of_injOn fun v hv x hx heq => ?_, fun d hd => ?_⟩
  · rw [← hout v hv, ← hout x hx, heq]
  · obtain ⟨v, hv, rfl⟩ := Finset.mem_image.1 hd
    have hrank : (net.var (net.con (holder v)).output).walkStrength.rank ≤ s.rank := by
      rw [hout v hv]
      exact (mem_held hs).1 hv
    exact ⟨hsat v hv, Nat.le_trans (h.strength_le (hsat v hv)) hrank,
      fun x hx => (mem_held hs).2 (Nat.le_trans (h.rank_le_output (hsat v hv) hx) hrank)⟩

/-- Satisfied constraints compute a variable each. -/
theorem Coherent.card_le_of_outputs (h : net.Coherent) {ds : Finset ConstraintId}
    {vs : Finset VariableId}
    (hds : ∀ d ∈ ds, (net.con d).isSatisfied = true ∧ (net.con d).output ∈ vs) : ds.card ≤ vs.card := by
  refine Finset.card_le_card_of_injOn (fun d => (net.con d).output) (fun d hd => (hds d hd).2) ?_
  intro d hd e he heq
  have hdet := h.determinedBy_output (hds d hd).1
  have heq : (net.con d).output = (net.con e).output := heq
  rw [heq, h.determinedBy_output (hds e he).1] at hdet
  exact (Option.some.inj hdet).symm

/-! ## Satisfying what is blocked -/

/-- A cascade that a blocked constraint starts ends with it satisfied. -/
theorem Exchange.ends_install_satisfied {net₀ : Network} {o : ConstraintId}
    {rollback : ConstraintId → Solve Unit} (h : Exchange net₀ c (some o) net)
    (hcas : Cascading net₀ (some o) net) (hov : Overriding net₀ c (some o) net)
    (hb : net₀.Blocked c) :
    Ends (install rollback (net₀.mark + 1) o) net (fun _ net' => (net'.con c).isSatisfied = true)
      (fun _ _ => True) := by
  obtain ⟨ha, -⟩ := hcas.2.2 o rfl
  cases h with
  | start hq =>
    refine hov.ends_install_step hcas (fun hf => ?_) fun flow net' _ ht hover => ?_
    · exact absurd (hq.blocked_iff.2 hb) (hov.not_blocked ha hf)
    · exact ((first hq ht hover).1.satisfied c).2 (.inl rfl)
  | displaced hex hy hoffer =>
    refine hov.ends_install_step hcas (fun _ => ?_) fun flow net' hf ht hover => ?_
    · exact (hex.satisfied c).2 (.inl rfl)
    · exact ((next hex hf ht hover).1.satisfied c).2 (.inl rfl)

/-- A blocked constraint is satisfied, and if that costs another one, then one that is weaker. -/
theorem Sound.ends_establish_blocked (h : net.Sound) (hb : net.Blocked c) (n : Nat) :
    Ends (establish n c) net
      (fun _ net' => net'.Sound ∧ Keeps net net' ∧ (∀ e, net'.Blocked e → net.Blocked e) ∧
        ∃ lost, Exchanged net c lost net' ∧ ∀ d, lost = some d →
          (net.con d).strength = (net.var (net'.con c).output).walkStrength)
      (fun _ _ => True) := by
  obtain ⟨ha, hu, -⟩ := id hb
  have hreq : ∀ e, (net.con e).attached = true → (net.con e).strength = .required →
      (net.con e).isSatisfied = false → e = c := by
    intro e hea her heu
    rw [h.required e hea her] at heu
    cases heu
  have hsat : Ends (establish n c) net
      (fun _ net' => Exchange net c none net' ∧ (net'.con c).isSatisfied = true)
      (fun _ _ => True) := by
    cases n with
    | zero => trivial
    | succ n =>
      let J : Option ConstraintId → Network → Prop := fun o cur =>
        (Cascading net o cur ∧ Overriding net c o cur) ∧ Exchange net c o cur ∧
          (o = none → (cur.con c).isSatisfied = true)
      have hroll : Withdraws (withdrawUsing (establish n)) := withdraws_withdraw n
      have hstart : J (some c) { net with mark := net.mark + 1 } :=
        ⟨⟨.start h.settled ha hu, .start h.tree h.marksPast hreq⟩, .start quiet_freshMark, nofun⟩
      refine (ends_establishUsing (J := J) hstart ?_ ?_ fun _ => trivial).mono_ok
        fun _ _ hend => ⟨hend.2.1, hend.2.2 rfl⟩
      · rintro o cur ⟨⟨hcas, hov⟩, hex, -⟩
        exact (((hroll.ends_install hcas).and (hov.ends_install hcas)).and
          ((hex.ends_install hcas hov).and (hex.ends_install_satisfied hcas hov hb))).mono
          (fun _ _ hend => ⟨hend.1, hend.2.1, fun _ => hend.2.2⟩) fun _ _ _ => trivial
      · rintro o cur event ⟨⟨hcas, hov⟩, hex, hs⟩
        exact ⟨⟨hcas.journal, hov.journal⟩, hex.journal, hs⟩
  refine ((ends_establish_tree n h.settled h.tree h.marksPast ha hu hreq).and hsat).mono ?_
    fun _ _ _ => trivial
  rintro - net' ⟨⟨hsound, hkeeps, hblocked⟩, hex, hs⟩
  refine ⟨hsound, hkeeps, fun e he => (hblocked e he).1, ?_⟩
  cases hex with
  | idle hidle => exact absurd (hs.symm.trans hidle) nofun
  | filled hfilled _ => exact ⟨none, hfilled, nofun⟩
  | lost hlost hstrength =>
    refine ⟨_, hlost, ?_⟩
    rintro d ⟨⟩
    exact hstrength

namespace Vacated

/-- What a blocked constraint takes over is free, so no other constraint is lost. -/
theorem ends_establish (h : Vacated net c start) (hnet : net.TreeSolution) (hu : start.Blocked u)
    (n : Nat) :
    Ends (establish n u) start
      (fun _ net' => net'.Sound ∧ Keeps start net' ∧ (∀ e, net'.Blocked e → start.Blocked e) ∧
        ∀ e, (net'.con e).isSatisfied = true ↔ e = u ∨ (start.con e).isSatisfied = true)
      (fun _ _ => True) := by
  refine (h.sound.ends_establish_blocked hu n).mono_ok ?_
  rintro - net' ⟨hsound, hkeeps, hblocked, lost, hex, hstrength⟩
  refine ⟨hsound, hkeeps, hblocked, fun e => ?_⟩
  have hnone : lost = none := by
    cases lost with
    | none => rfl
    | some d =>
      have hout : (net'.con u).output ∈ (start.con u).kind.outputs := by
        rw [← hkeeps.kind]
        exact Kind.output_mem_outputs
      have hfree := h.free _ (h.along hnet hu.1 hu.2.1 hout hex.stronger)
      exact absurd ((hstrength d rfl).trans hfree) (h.regular.chosen d (hex.loses d rfl)).strength
  rw [hex.satisfied, hnone]
  simp

/-- Two blocked constraints are not both satisfied in a network that satisfies all constraints of their
strength that were satisfied: too few variables carry that strength. -/
theorem not_both (h : Vacated net c start) (hnet : net.TreeSolution) (hu : start.Blocked u)
    (hw : start.Blocked w) (hne : u ≠ w)
    (hle : (start.con u).strength.rank ≤ (start.con w).strength.rank) (hcoh : net'.Coherent)
    (hkeeps : Keeps start net') (hsu : (net'.con u).isSatisfied = true)
    (hsw : (net'.con w).isSatisfied = true)
    (hold : ∀ d, (start.con d).isSatisfied = true →
      (start.con d).strength.rank ≤ (start.con w).strength.rank → (net'.con d).isSatisfied = true) :
    False := by
  have hs : (start.con w).strength.StrongerThan .weakest := by
    obtain ⟨-, -, v, -, hlt⟩ := hw
    exact Nat.lt_of_lt_of_le hlt (Strength.rank_le_six _)
  obtain ⟨ds, hcard, hds⟩ := hnet.settled.exists_holders hs
  have hnew : ∀ {d}, start.Blocked d → d ∉ ds.erase c := by
    intro d hd hmem
    obtain ⟨hsat, -, -⟩ := hds d (Finset.mem_of_mem_erase hmem)
    rw [← h.con d (h.ne hd.1), hd.2.1] at hsat
    cases hsat
  -- the constraints in question, `c` being the only holder that may be missing
  have hmore : (net.held (start.con w).strength).card < (insert u (insert w (ds.erase c))).card := by
    have humem : u ∉ insert w (ds.erase c) := by
      rw [Finset.mem_insert, not_or]
      exact ⟨hne, hnew hu⟩
    have herase : ds.card - 1 ≤ (ds.erase c).card := Finset.pred_card_le_card_erase
    rw [Finset.card_insert_of_notMem humem, Finset.card_insert_of_notMem (hnew hw)]
    omega
  refine Nat.not_le.2 hmore (hcoh.card_le_of_outputs fun d hd => ?_)
  have hout : (net'.con d).output ∈ (start.con d).kind.outputs := by
    rw [← hkeeps.kind]
    exact Kind.output_mem_outputs
  rcases Finset.mem_insert.1 hd with rfl | hd
  · exact ⟨hsu, (mem_held hs).2 (Nat.le_trans (h.rank_le hnet hu hout) hle)⟩
  rcases Finset.mem_insert.1 hd with rfl | hd
  · exact ⟨hsw, (mem_held hs).2 (h.rank_le hnet hw hout)⟩
  · obtain ⟨hdc, hmem⟩ := Finset.mem_erase.1 hd
    obtain ⟨hsat, hstrength, houts⟩ := hds d hmem
    rw [← h.con d hdc] at hsat hstrength houts
    exact ⟨hold d hsat hstrength, houts _ hout⟩

end Vacated

/-! ## The retries -/

/-- To satisfy a constraint that is not blocked changes nothing, unless it fails. -/
theorem Sound.ends_establish_quiet (h : net.Sound) (ha : (net.con c).attached = true)
    (hu : (net.con c).isSatisfied = false) (hb : ¬ net.Blocked c) (n : Nat) :
    Ends (establish n c) net (fun _ net' => Quiet net net') (fun _ _ => True) := by
  cases n with
  | zero => trivial
  | succ n =>
    refine (ends_establish_unblocked n h.settled.coherent ha hu hb).mono ?_ fun _ _ _ => trivial
    rintro - net' ⟨-, rfl⟩
    exact quiet_freshMark

namespace Refilled

variable {pending pending' : ConstraintId → Prop} {cur : Network}

theorem keeps (h : Refilled start pending cur) : Keeps start cur := by
  cases h with
  | vacant hquiet _ => exact hquiet.keeps
  | taken _ _ _ hkeeps _ _ => exact hkeeps

theorem mono (h : Refilled start pending cur)
    (hp : ∀ e, cur.Blocked e → pending e → pending' e) : Refilled start pending' cur := by
  cases h with
  | vacant hquiet hpending =>
    exact .vacant hquiet fun e he => hp e (hquiet.blocked_iff.2 he) (hpending e he)
  | taken hu hfirst hsound hkeeps hblocked hsatisfied =>
    exact .taken hu hfirst hsound hkeeps hblocked hsatisfied

/-- The first blocked constraint that is tried is satisfied, and no other one is. -/
theorem ends_establish (h : Refilled start pending cur) (hvac : Vacated net c start)
    (hnet : net.TreeSolution) (ha : (start.con w).attached = true)
    (hw : (cur.con w).isSatisfied = false)
    (hfirst : ∀ e, pending e → (start.con w).strength.rank ≤ (start.con e).strength.rank)
    (hp : ∀ e, e ≠ w → pending e → pending' e) (n : Nat) :
    Ends (establish n w) cur (fun _ => Refilled start pending') (fun _ _ => True) := by
  have hacur : (cur.con w).attached = true := (h.keeps.attached w).trans ha
  cases h with
  | vacant hquiet hpending =>
    have hcur := hvac.of_quiet hquiet
    by_cases hb : cur.Blocked w
    · refine (hcur.ends_establish hnet hb n).mono_ok ?_
      rintro - net' ⟨hsound, hkeeps, hblocked, hsatisfied⟩
      refine .taken (hquiet.blocked_iff.1 hb) (fun e he => hfirst e (hpending e he)) hsound
        (hquiet.keeps.trans hkeeps) (fun e he => hquiet.blocked_iff.1 (hblocked e he)) fun e => ?_
      rw [hsatisfied, hquiet.con]
    · refine (hcur.sound.ends_establish_quiet hacur hw hb n).mono_ok fun _ net' hq => ?_
      refine .vacant (hquiet.trans hq) fun e he => hp e ?_ (hpending e he)
      rintro rfl
      exact hb (hquiet.blocked_iff.2 he)
  | @taken u hu hmin hsound hkeeps hblocked hsatisfied =>
    have hsu : (cur.con u).isSatisfied = true := (hsatisfied u).2 (.inl rfl)
    by_cases hb : cur.Blocked w
    · -- what this could cost is weaker, so `u` and all that is as strong as `w` would be satisfied with `w`
      refine (hsound.ends_establish_blocked hb n).mono_ok ?_
      rintro - net' ⟨hsound', hkeeps', -, lost, hex, hstrength⟩
      have hkept : ∀ d, (cur.con d).isSatisfied = true →
          (start.con d).strength.rank ≤ (start.con w).strength.rank →
          (net'.con d).isSatisfied = true := by
        intro d hd hle
        refine (hex.satisfied d).2 (.inr ⟨hd, fun hlost => Nat.not_le.2 ?_ hle⟩)
        have hlt : (cur.con w).strength.rank < (cur.con d).strength.rank := by
          rw [hstrength d hlost]
          exact hex.stronger
        rwa [hkeeps.strength, hkeeps.strength] at hlt
      have hsw := hblocked w hb
      exact (hvac.not_both hnet hu hsw (ne_of_isSatisfied hw hsu).symm (hmin w hsw)
        hsound'.settled.coherent (hkeeps.trans hkeeps') (hkept u hsu (hmin w hsw))
        ((hex.satisfied w).2 (.inl rfl)) fun d hd => hkept d ((hsatisfied d).2 (.inr hd))).elim
    · refine (hsound.ends_establish_quiet hacur hw hb n).mono_ok fun _ net' hq => ?_
      refine .taken hu hmin (hsound.of_quiet hq) (hkeeps.trans hq.keeps)
        (fun e he => hblocked e (hq.blocked_iff.1 he)) fun e => ?_
      rw [hq.con]
      exact hsatisfied e

/-- The candidates are tried from the strongest down. -/
theorem ends_retryLevels (hvac : Vacated net c start) (hnet : net.TreeSolution)
    {found : List ConstraintId} (hfound : ∀ u ∈ found, (start.con u).attached = true)
    (hblocked : ∀ e, start.Blocked e → e ∈ found) (n : Nat) :
    Ends (retryLevels (establish n) found Strength.all) start
      (fun _ => Refilled start fun _ => False) (fun _ _ => True) := by
  let L : List Strength → Network → Prop := fun levels cur =>
    levels.Pairwise (fun a b => a.rank ≤ b.rank) ∧
      Refilled start (fun e => e ∈ found ∧ (start.con e).strength ∈ levels) cur
  have hinit : L Strength.all start :=
    ⟨by decide, .vacant (.refl start) fun e he => ⟨hblocked e he, Strength.mem_all _⟩⟩
  refine (Network.ends_retryLevels (L := L) ?_ _ hinit).mono_ok
    fun _ _ hL => hL.2.mono fun e _ he => by simpa using he.2
  rintro level levels cur ⟨hsorted, hcur⟩
  obtain ⟨hhead, htail⟩ := List.pairwise_cons.1 hsorted
  -- within a level, what is blocked on this level is still to come
  let J : List ConstraintId → Network → Prop := fun us cur =>
    (∀ u ∈ us, (start.con u).attached = true) ∧ Refilled start (fun e => e ∈ found ∧
      ((start.con e).strength ∈ levels ∨ ((start.con e).strength = level ∧ e ∈ us))) cur
  have hJ : J found cur := by
    refine ⟨hfound, hcur.mono fun e _ he => ⟨he.1, ?_⟩⟩
    exact (List.mem_cons.1 he.2).symm.imp_right fun heq => ⟨heq, he.1⟩
  refine (ends_retryLevel (J := J) ?_ ?_ ?_ _ hJ).mono_ok
    fun _ _ hend => ⟨htail, hend.2.mono fun e _ he => by simpa using he⟩
  · rintro us cur ⟨hus, hr⟩ u hu
    exact known_of_attached ((hr.keeps.attached u).trans (hus u hu))
  · rintro u us cur ⟨hus, hr⟩ hlevel hu
    rw [hr.keeps.strength] at hlevel
    refine (hr.ends_establish hvac hnet (hus u (by simp)) hu (fun e he => ?_) (fun e hne he => ?_)
      n).mono_ok fun _ _ hend => ⟨fun w hw => hus w (List.mem_cons_of_mem u hw), hend⟩
    · rw [hlevel]
      rcases he.2 with hin | ⟨heq, -⟩
      · exact hhead _ hin
      · rw [heq]
    · exact he.imp_right fun he => he.imp_right fun he =>
        ⟨he.1, (List.mem_cons.1 he.2).resolve_left hne⟩
  · rintro u us cur ⟨hus, hr⟩ hpass
    refine ⟨fun w hw => hus w (List.mem_cons_of_mem u hw), hr.mono fun e he hpending => ?_⟩
    refine hpending.imp_right fun hpending => hpending.imp_right fun hpending => ⟨hpending.1, ?_⟩
    refine (List.mem_cons.1 hpending.2).resolve_left ?_
    rintro rfl
    exact hpass ⟨(hr.keeps.strength e).trans hpending.1, he.2.1⟩

end Refilled

/-! ## Whole retractions -/

theorem ends_withdraw_refilled (h : net.TreeSolution) (hreg : net.Regular)
    (hc : (net.con c).isSatisfied = true) (n : Nat) :
    Ends (withdraw n c) net
      (fun _ net' => net'.TreeSolution ∧ ∃ start, Vacated net c start ∧
        Refilled start (fun _ => False) net') (fun _ _ => True) := by
  have hrefill : Ends (withdraw n c) net (fun _ net' => ∃ start, Vacated net c start ∧
      Refilled start (fun _ => False) net') (fun _ _ => True) := by
    refine ends_withdrawUsing h.settled.coherent hc ?_
    refine (ends_release_vacated h hreg hc).mono_ok ?_
    rintro found start ⟨hvac, hfound, hblocked⟩ event
    have hnote : Quiet start { start with journal := start.journal.push event } := quiet_note
    exact (Refilled.ends_retryLevels (hvac.of_quiet hnote) h hfound
      (fun e he => hblocked e (hnote.blocked_iff.1 he)) n).mono_ok
      fun _ _ hend => ⟨_, hvac.of_quiet hnote, hend⟩
  exact ((ends_withdraw_tree n h hc).and hrefill).mono (fun _ _ hend => hend) fun _ _ _ => trivial

theorem ends_retract_refilled (h : net.TreeSolution) (hreg : net.Regular)
    (hc : (net.con c).isSatisfied = true) :
    Ends (retract c) net
      (fun _ net' => net'.TreeSolution ∧ ∃ start, Vacated net c start ∧
        Refilled start (fun _ => False) net') (fun _ _ => True) := by
  rw [retract, ends_bind]
  refine ends_checkAttached (fun _ => ?_) fun _ _ _ => trivial
  rw [ends_bind, ends_readConstraint (known_of_isSatisfied hc), if_pos hc, ends_bind, ends_nesting]
  exact ends_withdraw_refilled h hreg hc _

theorem ends_destroy_refilled (h : net.TreeSolution) (hreg : net.Regular)
    (hc : (net.con c).isSatisfied = true) :
    Ends (destroy c) net
      (fun _ net' => net'.TreeSolution ∧ ∃ start, Vacated net c start ∧
        Refilled start (fun _ => False) net') (fun _ _ => True) := by
  -- what is written to the journal is no part of the solution
  have hnote : Quiet net { net with journal := net.journal.push (.destroying c) } := quiet_note
  rw [destroy, ends_bind, ends_note]
  refine (ends_retract_refilled (h.of_quiet hnote) (hreg.of_quiet hnote) hc).mono_ok ?_
  rintro - net' ⟨hsol, start, hvac, hrefilled⟩
  exact ⟨hsol, start, ⟨hvac.sound, hvac.regular, hvac.gone, hvac.con, hvac.free, hvac.elsewhere⟩, hrefilled⟩

theorem Vacated.isSatisfied_iff (h : Vacated net c start) :
    (start.con e).isSatisfied = true ↔ (net.con e).isSatisfied = true ∧ e ≠ c := by
  constructor
  · intro hs
    have hne := h.ne (h.sound.settled.coherent.attached e hs)
    rw [← h.con e hne]
    exact ⟨hs, hne⟩
  · rintro ⟨hs, hne⟩
    rwa [h.con e hne]

/-- After a tree-shaped run, let a satisfied constraint be destroyed. All other satisfied constraints still
are, and at most one more is. Its possible outputs have one in common with the variables that the output of
the destroyed constraint fed through main inputs, it is no stronger than the destroyed constraint, and what is
left unsatisfied with such an output is no stronger than it. If there is none, whatever is left unsatisfied
with such an output has the weakest strength. -/
theorem destroy_exchange {k : Constraint} (h : net.TreeRun) (hk : net.getConstraint? c = some k)
    (hs : k.isSatisfied = true) (hok : destroy c net = .ok () net') :
    (∃ u l, net.getConstraint? u = some l ∧ l.attached = true ∧ l.isSatisfied = false ∧
      net'.satisfied = insert u (net.satisfied \ {c}) ∧
      (∃ v ∈ l.kind.outputs, net.Along k.output v) ∧ ¬ l.strength.StrongerThan k.strength ∧
      ∀ w m, net'.getConstraint? w = some m → m.attached = true → m.isSatisfied = false →
        (∃ v ∈ m.kind.outputs, net.Along k.output v) → ¬ m.strength.StrongerThan l.strength) ∨
    (net'.satisfied = net.satisfied \ {c} ∧
      ∀ w m, net'.getConstraint? w = some m → m.attached = true → m.isSatisfied = false →
        (∃ v ∈ m.kind.outputs, net.Along k.output v) → m.strength = .weakest) := by
  have hnet := h.solution
  have hreg : net.Regular := regular_of_run h
  obtain ⟨-, rfl⟩ := getConstraint?_eq_some.1 hk
  obtain ⟨hsol, start, hvac, hrefilled⟩ := (ends_destroy_refilled hnet hreg hs).of_ok hok
  cases hrefilled with
  | vacant hquiet _ =>
    refine .inr ⟨?_, ?_⟩
    · ext e
      rw [mem_satisfied, hquiet.con, hvac.isSatisfied_iff, ← mem_satisfied]
      rfl
    · rintro w m hm ha hu ⟨v, hv, hpath⟩
      obtain ⟨-, rfl⟩ := getConstraint?_eq_some.1 hm
      have hfree : (net'.var v).walkStrength = .weakest :=
        (congrArg Annotation.walkStrength (hquiet.current v)).trans (hvac.free v hpath)
      have hle : Strength.weakest.rank ≤ (net'.con w).strength.rank := by
        rw [← hfree]
        exact Nat.not_lt.1 fun hlt => hsol.unblocked w ⟨ha, hu, v, hv, hlt⟩
      exact Strength.rank_injective (Nat.le_antisymm (Strength.rank_le_six _) hle)
  | @taken u hu hfirst _ hkeeps _ hsatisfied =>
    have hcon := hvac.con u (hvac.ne hu.1)
    obtain ⟨hout, hrank⟩ := hvac.blocked hnet hs hu
    refine .inl ⟨u, start.con u, ?_, hu.1, hu.2.1, ?_, hout, Nat.not_lt.2 hrank, ?_⟩
    · rw [hcon]
      exact getConstraint?_eq_con (known_of_attached (hcon ▸ hu.1))
    · ext e
      rw [mem_satisfied, hsatisfied, hvac.isSatisfied_iff, ← mem_satisfied]
      rfl
    · rintro w m hm ha hu' ⟨v, hv, hpath⟩ hstronger
      obtain ⟨-, rfl⟩ := getConstraint?_eq_some.1 hm
      -- it would have been blocked, and tried before `u`
      rw [hkeeps.attached] at ha
      rw [hkeeps.kind] at hv
      rw [hkeeps.strength] at hstronger
      have hunsat : (start.con w).isSatisfied = false := by
        by_contra hsat
        rw [(hsatisfied w).2 (.inr (by simpa using hsat))] at hu'
        cases hu'
      have hlt : (start.con w).strength.StrongerThan (start.var v).walkStrength := by
        rw [hvac.free v hpath]
        exact Nat.lt_of_lt_of_le hstronger (Strength.rank_le_six _)
      exact Nat.not_lt.2 (hfirst w ⟨ha, hunsat, v, hv, hlt⟩) hstronger

theorem ends_destroy_chainedNetwork :
    Ends (destroy ⟨1⟩) chainedNetwork (fun _ net' => (net'.con ⟨4⟩).isSatisfied = true)
      (fun _ _ => False) := by
  decide +kernel

/-- The stay on `b` is destroyed, which also fed `a` through the equality. Of the two constraints that wait for
one of these variables the scaling is the stronger one. -/
theorem destroy_exchange_chainedNetwork :
    ∃ net', destroy ⟨1⟩ chainedNetwork = .ok () net' ∧
      net'.satisfied = insert ⟨4⟩ (chainedNetwork.satisfied \ {⟨1⟩}) := by
  have hk : chainedNetwork.getConstraint? ⟨1⟩ =
      some { kind := .stay ⟨1⟩, strength := .preferred, flow := some .forward, attached := true } := by
    decide +kernel
  have hscale : ⟨4⟩ ∉ chainedNetwork.satisfied := by
    rintro ⟨k, hk, hs⟩
    obtain rfl := Option.some.inj (chainedNetwork_scale.symm.trans hk)
    cases hs
  obtain ⟨_, net', hok, hsat⟩ := ends_destroy_chainedNetwork.exists_ok
  have hmem : ⟨4⟩ ∈ net'.satisfied := mem_satisfied.2 hsat
  refine ⟨net', hok, ?_⟩
  rcases destroy_exchange treeRun_chainedNetwork hk rfl hok with ⟨u, l, -, -, -, hset, -⟩ | ⟨hset, -⟩
  · rw [hset] at hmem ⊢
    obtain rfl : ⟨4⟩ = u := hmem.resolve_right fun hold => hscale hold.1
    rfl
  · rw [hset] at hmem
    exact absurd hmem.1 hscale

end Network

end ConstraintHierarchy
