import Mathlib.Combinatorics.SimpleGraph.Acyclic
import ConstraintHierarchy.Proofs.Runs

/-!
# Tree-shaped graphs

The binary constraints of a network are the edges of a graph on its variables. The network is
tree-shaped if they form a forest and if the parameters of scale constraints lie outside of it. What
the proofs use of a forest is that every edge is a bridge: its two ends are not linked by the others.

## Main definitions

* `Network.Edge`, `Network.Linked`: edges, and chains of them
* `Network.TreeShaped`: the graph is a forest
* `Network.TreeRun`: the networks that runs lead to whose graph is a forest all the time

## Main results

* `Network.TreeShaped.not_linked`: every edge is a bridge
* `Network.TreeShaped.anti`: fewer constraints are still a forest
-/

namespace ConstraintHierarchy

/-! ## Ends of a constraint -/

namespace Kind

/-- A stay or an edit of `v`. -/
def Anchors (k : Kind) (v : VariableId) : Prop := k = .stay v ∨ k = .edit v

/-- A binary constraint with the ends `a` and `b`, in either order. -/
def Joins : Kind → VariableId → VariableId → Prop
  | .equal x y, a, b => (a = x ∧ b = y) ∨ (a = y ∧ b = x)
  | .scale x y _ _, a, b => (a = x ∧ b = y) ∨ (a = y ∧ b = x)
  | .stay _, _, _ => False
  | .edit _, _, _ => False

instance : (k : Kind) → (a b : VariableId) → Decidable (k.Joins a b)
  | .equal x y, a, b => inferInstanceAs (Decidable ((a = x ∧ b = y) ∨ (a = y ∧ b = x)))
  | .scale x y _ _, a, b => inferInstanceAs (Decidable ((a = x ∧ b = y) ∨ (a = y ∧ b = x)))
  | .stay _, _, _ => inferInstanceAs (Decidable False)
  | .edit _, _, _ => inferInstanceAs (Decidable False)

variable {k : Kind} {flow : Option Flow} {a b v : VariableId}

theorem Joins.symm (h : k.Joins a b) : k.Joins b a := by
  cases k with
  | stay v => exact h
  | edit v => exact h
  | equal x y => exact Or.symm (h.imp And.symm And.symm)
  | scale x y factor offset => exact Or.symm (h.imp And.symm And.symm)

/-- Whichever way a constraint flows, it joins its input and its output. -/
theorem joins_of_input (h : k.input flow = some a) : k.Joins a (k.output flow) := by
  cases k with
  | stay v => cases h
  | edit v => cases h
  | equal x y =>
    rcases flow with _ | _ | _ <;> cases h <;> simp [Joins, output]
  | scale x y factor offset =>
    rcases flow with _ | _ | _ <;> cases h <;> simp [Joins, output]

theorem Joins.mem_outputs (h : k.Joins a b) : a ∈ k.outputs := by
  cases k with
  | stay v => exact h.elim
  | edit v => exact h.elim
  | equal x y => rcases h with ⟨rfl, -⟩ | ⟨rfl, -⟩ <;> simp [outputs]
  | scale x y factor offset => rcases h with ⟨rfl, -⟩ | ⟨rfl, -⟩ <;> simp [outputs]

theorem Joins.eq_or_eq (h : k.Joins a b) (hv : v ∈ k.outputs) : v = a ∨ v = b := by
  cases k with
  | stay w => exact h.elim
  | edit w => exact h.elim
  | equal x y => rcases h with ⟨rfl, rfl⟩ | ⟨rfl, rfl⟩ <;> simp_all [outputs, or_comm]
  | scale x y factor offset =>
    rcases h with ⟨rfl, rfl⟩ | ⟨rfl, rfl⟩ <;> simp_all [outputs, or_comm]

theorem anchors_or_joins (hv : v ∈ k.outputs) : k.Anchors v ∨ ∃ w, k.Joins v w := by
  cases k with
  | stay w => exact .inl (.inl (by rw [List.mem_singleton.1 hv]))
  | edit w => exact .inl (.inr (by rw [List.mem_singleton.1 hv]))
  | equal x y =>
    rcases List.mem_pair.1 hv with rfl | rfl
    · exact .inr ⟨y, .inl ⟨rfl, rfl⟩⟩
    · exact .inr ⟨x, .inr ⟨rfl, rfl⟩⟩
  | scale x y factor offset =>
    rcases List.mem_pair.1 hv with rfl | rfl
    · exact .inr ⟨y, .inl ⟨rfl, rfl⟩⟩
    · exact .inr ⟨x, .inr ⟨rfl, rfl⟩⟩

theorem Anchors.mem_outputs (h : k.Anchors v) : v ∈ k.outputs := by
  rcases h with rfl | rfl <;> simp [outputs]

theorem Anchors.eq_of_mem (h : k.Anchors a) (hv : v ∈ k.outputs) : v = a := by
  rcases h with rfl | rfl <;> simpa [outputs] using hv

end Kind

theorem Constraint.joins_of_input {k : Constraint} {v : VariableId} (h : k.input = some v) :
    k.kind.Joins v k.output :=
  Kind.joins_of_input h

/-! ## The graph of a network -/

namespace Network

open Solve Relation

/-- The constraint `d` is in the graph and joins `a` and `b`. -/
def Edge (net : Network) (d : ConstraintId) (a b : VariableId) : Prop :=
  (net.con d).attached = true ∧ (net.con d).kind.Joins a b

/-- A chain of edges, all of which satisfy `p`, leads from `a` to `b`. -/
abbrev Linked (net : Network) (p : ConstraintId → Prop) : VariableId → VariableId → Prop :=
  ReflTransGen fun a b => ∃ d, p d ∧ net.Edge d a b

/-- The variable `v` is a parameter of a constraint in the graph. -/
def IsParameter (net : Network) (v : VariableId) : Prop :=
  ∃ c, (net.con c).attached = true ∧ v ∈ (net.con c).kind.parameters

/-- Variables are adjacent if an edge joins them. -/
def adjacency (net : Network) : SimpleGraph VariableId where
  Adj a b := a ≠ b ∧ ∃ d, net.Edge d a b
  symm := ⟨fun _ _ h => ⟨h.1.symm, h.2.imp fun _ hd => ⟨hd.1, hd.2.symm⟩⟩⟩
  loopless := ⟨fun _ h => h.1 rfl⟩

/-- The edges form a forest, without loops, parallel edges and cycles, and no parameter is the end
of an edge. -/
structure TreeShaped (net : Network) : Prop where
  noLoop : ∀ d a, ¬ net.Edge d a a
  noParallel : ∀ d e a b, net.Edge d a b → net.Edge e a b → d = e
  acyclic : net.adjacency.IsAcyclic
  parameters : ∀ v, net.IsParameter v → ∀ d w, ¬ net.Edge d v w

/-- The networks that runs lead to while the graph is tree-shaped at every moment, a constraint that
is being added included. -/
abbrev TreeRun : Network → Prop :=
  Run fun net r => ∀ net', r.opening net = .ok () net' → net'.TreeShaped

variable {net net' : Network} {p q : ConstraintId → Prop} {a b v x y : VariableId}
  {c d o : ConstraintId}

theorem Edge.symm (h : net.Edge d a b) : net.Edge d b a := ⟨h.1, h.2.symm⟩

theorem Linked.symm (h : net.Linked p a b) : net.Linked p b a := by
  induction h with
  | refl => exact .refl
  | tail _ hstep ih =>
    obtain ⟨d, hd, hedge⟩ := hstep
    exact .head ⟨d, hd, hedge.symm⟩ ih

theorem Linked.mono (h : net.Linked p a b) (hpq : ∀ d, p d → q d) : net.Linked q a b :=
  h.lift id fun _ _ ⟨d, hd, hedge⟩ => ⟨d, hpq d hd, hedge⟩

theorem linked_of_edge (hd : p d) (h : net.Edge d a b) : net.Linked p a b := .single ⟨d, hd, h⟩

/-- A chain that leads away from a variable ends at the end of an edge. -/
theorem Linked.eq_or_edge (h : net.Linked p a b) : a = b ∨ ∃ d w, net.Edge d b w := by
  rcases h.cases_tail with heq | ⟨w, -, d, -, hedge⟩
  · exact .inl heq.symm
  · exact .inr ⟨d, w, hedge.symm⟩

theorem TreeShaped.ne (h : net.TreeShaped) (hedge : net.Edge d a b) : a ≠ b := by
  rintro rfl
  exact h.noLoop d a hedge

/-- Every edge is a bridge: without it, nothing links its two ends. -/
theorem TreeShaped.not_linked (h : net.TreeShaped) (hedge : net.Edge o x y) (hp : ¬ p o) :
    ¬ net.Linked p x y := by
  intro hlink
  have hadj : net.adjacency.Adj x y := ⟨h.ne hedge, o, hedge⟩
  have hbridge := SimpleGraph.isAcyclic_iff_forall_isBridge.1 h.acyclic
    ((SimpleGraph.mem_edgeSet _).2 hadj)
  -- a step of the chain is by an edge other than `o`, so it has other ends
  have hstep : ∀ {a b d}, p d → net.Edge d a b →
      (net.adjacency.deleteEdges {s(x, y)}).Adj a b := by
    intro a b d hd hab
    rw [SimpleGraph.deleteEdges_adj]
    refine ⟨⟨h.ne hab, d, hab⟩, ?_⟩
    rw [Set.mem_singleton_iff, Sym2.eq_iff]
    have hne : d ≠ o := by
      rintro rfl
      exact hp hd
    rintro (⟨rfl, rfl⟩ | ⟨rfl, rfl⟩)
    · exact hne (h.noParallel d o _ _ hab hedge)
    · exact hne (h.noParallel d o _ _ hab hedge.symm)
  have hreach : ∀ w, net.Linked p x w →
      (net.adjacency.deleteEdges {s(x, y)}).Reachable x w := by
    intro w hw
    induction hw with
    | refl => exact SimpleGraph.Reachable.refl _
    | tail _ hlast ih =>
      obtain ⟨d, hd, hab⟩ := hlast
      exact ih.trans (hstep hd hab).reachable
  exact SimpleGraph.isBridge_iff.1 hbridge (hreach y hlink)

/-- A graph with fewer edges and parameters is still a forest. -/
theorem TreeShaped.of_edges (h : net.TreeShaped)
    (hedge : ∀ {d a b}, net'.Edge d a b → net.Edge d a b)
    (hparam : ∀ c, (net'.con c).attached = true → ∀ v ∈ (net'.con c).kind.parameters,
      (net.con c).attached = true ∧ v ∈ (net.con c).kind.parameters) : net'.TreeShaped := by
  refine ⟨fun d a he => h.noLoop d a (hedge he),
    fun d e a b hd he => h.noParallel d e a b (hedge hd) (hedge he), ?_, ?_⟩
  · refine h.acyclic.anti ?_
    intro a b hab
    exact ⟨hab.1, hab.2.imp fun _ he => hedge he⟩
  · rintro v ⟨c, hc, hv⟩ d w he
    exact h.parameters v ⟨c, hparam c hc v hv⟩ d w (hedge he)

/-- A graph with fewer constraints is still a forest. -/
theorem TreeShaped.anti (h : net.TreeShaped)
    (hkind : ∀ d, (net'.con d).attached = true →
      (net.con d).attached = true ∧ (net'.con d).kind = (net.con d).kind) : net'.TreeShaped :=
  h.of_edges (fun he => ⟨(hkind _ he.1).1, (hkind _ he.1).2 ▸ he.2⟩)
    fun c hc _ hv => ⟨(hkind c hc).1, (hkind c hc).2 ▸ hv⟩

/-- A stay and an edit are no edges. -/
theorem TreeShaped.registered_anchor (h : net.TreeShaped) {kind : Kind} {strength : Strength}
    (hk : kind.Anchors v) : (net.registered kind strength).TreeShaped := by
  have hunary : (∀ a b, ¬ kind.Joins a b) ∧ kind.parameters = [] := by
    rcases hk with rfl | rfl <;> exact ⟨fun _ _ hj => hj, rfl⟩
  refine h.of_edges ?_ ?_
  · rintro d a b ⟨ha, hj⟩
    by_cases hd : d = ⟨net.constraints.size⟩
    · rw [hd, registered_con_new] at hj
      exact absurd hj (hunary.1 a b)
    · rw [registered_con_of_ne hd] at ha hj
      exact ⟨ha, hj⟩
  · intro c ha v hv
    by_cases hc : c = ⟨net.constraints.size⟩
    · rw [hc, registered_con_new, hunary.2] at hv
      cases hv
    · rw [registered_con_of_ne hc] at ha hv
      exact ⟨ha, hv⟩

theorem TreeShaped.of_keeps (h : net.TreeShaped) (hk : Keeps net net') : net'.TreeShaped :=
  h.anti fun d hd => ⟨(hk.attached d).symm.trans hd, hk.kind d⟩

/-! ## A test for forests

The graph is a forest if no variable is joined to two older ones. This can be computed, and it is how
a forest grows if every new edge hangs a new variable on those that are there. -/

end Network

/-- The index of the newer end of a binary constraint. -/
def Kind.newest? : Kind → Option Nat
  | .equal x y | .scale x y _ _ => some (max x.index y.index)
  | .stay _ | .edit _ => none

theorem Kind.Joins.newest? {k : Kind} {a b : VariableId} (h : k.Joins a b) :
    k.newest? = some (max a.index b.index) := by
  cases k with
  | stay v => exact h.elim
  | edit v => exact h.elim
  | equal x y => rcases h with ⟨rfl, rfl⟩ | ⟨rfl, rfl⟩ <;> simp [Kind.newest?, Nat.max_comm]
  | scale x y factor offset =>
    rcases h with ⟨rfl, rfl⟩ | ⟨rfl, rfl⟩ <;> simp [Kind.newest?, Nat.max_comm]

theorem Kind.Joins.eq {k : Kind} {a b b' : VariableId} (h : k.Joins a b) (h' : k.Joins a b') :
    b = b' := by
  cases k with
  | stay v => exact h.elim
  | edit v => exact h.elim
  | equal x y =>
    rcases h with ⟨rfl, rfl⟩ | ⟨rfl, rfl⟩ <;> rcases h' with ⟨h₁, h₂⟩ | ⟨h₁, h₂⟩ <;> simp_all
  | scale x y factor offset =>
    rcases h with ⟨rfl, rfl⟩ | ⟨rfl, rfl⟩ <;> rcases h' with ⟨h₁, h₂⟩ | ⟨h₁, h₂⟩ <;> simp_all

/-- A graph is acyclic if no vertex has two neighbours of lower height. -/
theorem isAcyclic_of_height {V : Type} {G : SimpleGraph V} (height : V → Nat)
    (hne : ∀ a b, G.Adj a b → height a ≠ height b)
    (hlow : ∀ a b b', G.Adj a b → G.Adj a b' → height b < height a → height b' < height a →
      b = b') : G.IsAcyclic := by
  classical
  intro v p hp
  -- turn the cycle so that it starts at a vertex of maximal height
  obtain ⟨u, hu, hmax⟩ := p.support.toFinset.exists_max_image height ⟨v, by simp⟩
  rw [List.mem_toFinset] at hu
  have hcycle := hp.rotate hu
  have hle : ∀ w ∈ (p.rotate u hu).support, height w ≤ height u := by
    intro w hw
    exact hmax w (by simpa using hw)
  have hsnd := (p.rotate u hu).adj_snd hcycle.not_nil
  have hpen := ((p.rotate u hu).adj_penultimate hcycle.not_nil).symm
  refine hcycle.snd_ne_penultimate (hlow u _ _ hsnd hpen ?_ ?_)
  · exact lt_of_le_of_ne (hle _ (SimpleGraph.Walk.getVert_mem_support _ _)) (hne _ _ hsnd).symm
  · exact lt_of_le_of_ne (hle _ (SimpleGraph.Walk.getVert_mem_support _ _)) (hne _ _ hpen).symm

/-- If `k'` is an edge, its newer end is another than that of `k`. -/
def Kind.HangsApart (k k' : Kind) : Prop := k'.newest? = none ∨ k.newest? ≠ k'.newest?

/-- If `k'` is an edge, it does not end at a parameter of `k`. -/
def Kind.ParametersApart (k k' : Kind) : Prop :=
  k'.newest? = none ∨ ∀ p ∈ k.parameters, p ∉ k'.outputs

instance (k k' : Kind) : Decidable (k.HangsApart k') := inferInstanceAs (Decidable (_ ∨ _))

instance (k k' : Kind) : Decidable (k.ParametersApart k') := inferInstanceAs (Decidable (_ ∨ _))

/-- No two edges of the graph have the same newer end, none is a loop, and none ends at a parameter. -/
def Network.Rooted (net : Network) : Prop :=
  ∀ i < net.constraints.size, (net.con ⟨i⟩).attached = true →
    (∀ v ∈ (net.con ⟨i⟩).kind.outputs, ¬ (net.con ⟨i⟩).kind.Joins v v) ∧
    ∀ j < net.constraints.size, (net.con ⟨j⟩).attached = true →
      (i = j ∨ (net.con ⟨i⟩).kind.HangsApart (net.con ⟨j⟩).kind) ∧
        (net.con ⟨i⟩).kind.ParametersApart (net.con ⟨j⟩).kind

instance (net : Network) : Decidable net.Rooted :=
  inferInstanceAs (Decidable (∀ i < _, _ → _))

/-- The request leaves every edge of the graph hanging on an older variable. -/
def Request.growsForest (net : Network) (r : Request) : Bool :=
  match r.opening net with
  | .ok _ net' => decide net'.Rooted
  | .error _ _ => true

namespace Network

variable {net : Network} {a b : VariableId} {d e : ConstraintId}

theorem Rooted.ne (h : net.Rooted) (hd : net.Edge d a b) : a ≠ b := by
  rintro rfl
  exact (h d.index (known_of_attached hd.1) hd.1).1 a hd.2.mem_outputs hd.2

theorem Rooted.eq_of_newest (h : net.Rooted) {b' : VariableId} (hd : net.Edge d a b)
    (he : net.Edge e a b') (hb : b.index ≤ a.index) (hb' : b'.index ≤ a.index) : d = e := by
  have hcase := (h d.index (known_of_attached hd.1) hd.1).2 e.index (known_of_attached he.1) he.1
  have hnd : (net.con d).kind.newest? = some a.index := by
    rw [hd.2.newest?, Nat.max_eq_left hb]
  have hne : (net.con e).kind.newest? = some a.index := by
    rw [he.2.newest?, Nat.max_eq_left hb']
  rcases hcase.1 with heq | hnone | hne'
  · cases d
    cases e
    exact congrArg _ heq
  · exact absurd (hne.symm.trans hnone) (by simp)
  · exact absurd (hnd.trans hne.symm) hne'

theorem Rooted.treeShaped (h : net.Rooted) : net.TreeShaped := by
  refine ⟨fun d a hd => h.ne hd rfl, ?_, ?_, ?_⟩
  · intro d e a b hd he
    rcases Nat.le_total b.index a.index with hle | hle
    · exact h.eq_of_newest hd he hle hle
    · exact h.eq_of_newest hd.symm he.symm hle hle
  · refine isAcyclic_of_height VariableId.index ?_ ?_
    · rintro a b ⟨hne, -⟩ heq
      cases a
      cases b
      exact hne (congrArg _ heq)
    · rintro a b b' ⟨-, d, hd⟩ ⟨-, e, he⟩ hb hb'
      cases h.eq_of_newest hd he (Nat.le_of_lt hb) (Nat.le_of_lt hb')
      exact hd.2.eq he.2
  · rintro v ⟨c, hc, hv⟩ d w hd
    have hcase := (h c.index (known_of_attached hc) hc).2 d.index (known_of_attached hd.1) hd.1
    rcases hcase.2 with hnone | hp
    · exact absurd (hd.2.newest?.symm.trans hnone) (by simp)
    · exact hp v hv hd.2.mem_outputs

theorem treeShaped_of_growsForest {r : Request} (h : r.growsForest net = true) (net' : Network)
    (hopen : r.opening net = .ok () net') : net'.TreeShaped := by
  rw [Request.growsForest, hopen] at h
  exact (of_decide_eq_true h).treeShaped

theorem TreeRun.of_runAll {rs : List Request} {net : Network}
    (h : Request.runAll Request.growsForest rs .empty = some net) : net.TreeRun :=
  Run.of_runAll (fun _ _ hr => treeShaped_of_growsForest hr) rs .empty h

end Network

end ConstraintHierarchy
