import Mathlib.Data.List.Nodup
import Mathlib.Data.Prod.Lex
import Mathlib.Data.String.Basic
import ConstraintHierarchy.Script.Similar

/-!
# Suggestions

The names that are suggested for one that nobody declared are the first ones of a ranking: the closest
name comes first, and of two that are as close the one that is earlier in the alphabet. No two different
names share a place in the ranking, so it does not matter in which order the declared names are listed.

## Main definitions

* `Precedes`: the order of the ranking
* `Ranks`: all names within the limit, in this order

## Main results

* `ranks_mergeSort`, `Ranks.unique`: there is a ranking, and only one
* `similarNames_closest`: the names suggested are the first three of it
-/

namespace ConstraintHierarchy.Script

/-- The first name is closer to the target, or as close and earlier in the alphabet. -/
def Precedes (target a b : String) : Prop :=
  editDistance a target < editDistance b target ∨
    editDistance a target = editDistance b target ∧ a < b

/-- The name is not the target, and at most so many edits away from it. -/
def WithinReach (target : String) (limit : Nat) (n : String) : Prop :=
  1 ≤ editDistance n target ∧ editDistance n target ≤ limit

instance (target a b : String) : Decidable (Precedes target a b) :=
  inferInstanceAs (Decidable (_ ∨ _))

instance (target : String) (limit : Nat) (n : String) : Decidable (WithinReach target limit n) :=
  inferInstanceAs (Decidable (_ ∧ _))

/-- The list consists of the names within reach, closest first. -/
structure Ranks (names : List String) (target : String) (limit : Nat) (ranking : List String) :
    Prop where
  mem_iff : ∀ n, n ∈ ranking ↔ n ∈ names ∧ WithinReach target limit n
  pairwise : ranking.Pairwise (Precedes target)

section Order

variable {target a b : String} {p q : Nat × String}

theorem precedes_iff :
    Precedes target a b ↔ toLex (editDistance a target, a) < toLex (editDistance b target, b) := by
  rw [Precedes, Prod.Lex.toLex_lt_toLex]

theorem closerOrEqual_iff : closerOrEqual p q = true ↔ toLex p ≤ toLex q := by
  simp [closerOrEqual, Prod.Lex.toLex_le_toLex]

theorem pairwise_closerOrEqual (ps : List (Nat × String)) :
    (ps.mergeSort closerOrEqual).Pairwise fun p q => toLex p ≤ toLex q := by
  have hsorted : (ps.mergeSort closerOrEqual).Pairwise fun p q => closerOrEqual p q = true := by
    apply List.pairwise_mergeSort
    · intro p q r hpq hqr
      rw [closerOrEqual_iff] at hpq hqr ⊢
      exact hpq.trans hqr
    · intro p q
      rw [Bool.or_eq_true, closerOrEqual_iff, closerOrEqual_iff]
      exact le_total _ _
  exact hsorted.imp closerOrEqual_iff.1

theorem Precedes.asymm (h : Precedes target a b) : ¬ Precedes target b a := by
  rw [precedes_iff] at h ⊢
  exact lt_asymm h

theorem Precedes.ne (h : Precedes target a b) : a ≠ b := by
  rintro rfl
  exact h.asymm h

end Order

section Ranking

variable {names names' ranking ranking' : List String} {target : String} {limit : Nat}

/-- The names within reach, each with its distance. -/
def candidates (names : List String) (target : String) (limit : Nat) : List (Nat × String) :=
  (names.map fun n => (editDistance n target, n)).filter fun p => decide (0 < p.1 ∧ p.1 ≤ limit)

theorem mem_candidates {p : Nat × String} : p ∈ candidates names target limit ↔
    p.1 = editDistance p.2 target ∧ p.2 ∈ names ∧ WithinReach target limit p.2 := by
  obtain ⟨d, n⟩ := p
  rw [candidates, List.mem_filter, List.mem_map, decide_eq_true_eq]
  constructor
  · rintro ⟨⟨_, hn, heq⟩, hreach⟩
    obtain ⟨rfl, rfl⟩ := Prod.mk.inj heq
    exact ⟨rfl, hn, hreach⟩
  · rintro ⟨hd, hn, hreach⟩
    obtain rfl : d = editDistance n target := hd
    exact ⟨⟨n, hn, rfl⟩, hreach⟩

theorem nodup_candidates (h : names.Nodup) : (candidates names target limit).Nodup := by
  refine List.Nodup.filter _ (h.map fun a b heq => ?_)
  exact (Prod.mk.inj heq).2

/-- Sorting the names within reach ranks them. -/
theorem ranks_mergeSort (h : names.Nodup) (target : String) (limit : Nat) : Ranks names target limit
    (((candidates names target limit).mergeSort closerOrEqual).map Prod.snd) where
  mem_iff n := by
    rw [List.mem_map]
    constructor
    · rintro ⟨p, hp, rfl⟩
      exact (mem_candidates.1 (List.mem_mergeSort.1 hp)).2
    · rintro ⟨hn, hreach⟩
      exact ⟨(editDistance n target, n),
        List.mem_mergeSort.2 (mem_candidates.2 ⟨rfl, hn, hreach⟩), rfl⟩
  pairwise := by
    have hdistinct := (List.mergeSort_perm (candidates names target limit) closerOrEqual).nodup_iff.2
      (nodup_candidates h)
    rw [List.pairwise_map]
    refine ((pairwise_closerOrEqual _).and hdistinct).imp_of_mem fun {p q} hp hq hpq => ?_
    have hp' := (mem_candidates.1 (List.mem_mergeSort.1 hp)).1
    have hq' := (mem_candidates.1 (List.mem_mergeSort.1 hq)).1
    rw [precedes_iff, ← hp', ← hq']
    exact lt_of_le_of_ne hpq.1 hpq.2

theorem similarNames_eq_take : similarNames names target limit =
    (((candidates names target limit).mergeSort closerOrEqual).map Prod.snd).take 3 :=
  List.map_take ..

theorem Ranks.unique (h : Ranks names target limit ranking) (h' : Ranks names target limit ranking') :
    ranking = ranking' := by
  have hnodup : ∀ {l : List String}, l.Pairwise (Precedes target) → l.Nodup :=
    fun hl => hl.imp fun hab => hab.ne
  have hperm : ranking.Perm ranking' := by
    rw [List.perm_ext_iff_of_nodup (hnodup h.pairwise) (hnodup h'.pairwise)]
    exact fun n => (h.mem_iff n).trans (h'.mem_iff n).symm
  exact hperm.eq_of_pairwise (fun a b _ _ hab hba => absurd hba hab.asymm) h.pairwise h'.pairwise

theorem Ranks.of_perm (h : Ranks names target limit ranking) (hperm : names.Perm names') :
    Ranks names' target limit ranking where
  mem_iff n := by rw [h.mem_iff, hperm.mem_iff]
  pairwise := h.pairwise

/-- A name that is left out comes after those that are not. -/
theorem Ranks.precedes_of_omitted (h : Ranks names target limit ranking) {k : Nat} {m n : String}
    (hm : m ∈ ranking.take k) (hn : n ∈ ranking) (hout : n ∉ ranking.take k) :
    Precedes target m n := by
  have hpairwise := h.pairwise
  rw [← List.take_append_drop k ranking] at hn hpairwise
  have hdrop : n ∈ ranking.drop k := (List.mem_append.1 hn).resolve_left hout
  exact (List.pairwise_append.1 hpairwise).2.2 m hm n hdrop

end Ranking

/-- There is one ranking of the different names within reach of the target, by distance and then by
name, and the first three of it are suggested, or all if there are fewer. So the order in which the names
are listed does not matter, and no name that is left out precedes one that is suggested. -/
theorem similarNames_closest {names : List String} (hnames : names.Nodup) (target : String)
    (limit : Nat) :
    (∃ ranking, Ranks names target limit ranking ∧
      (∀ other, Ranks names target limit other → other = ranking) ∧
      similarNames names target limit = ranking.take 3) ∧
    (∀ names', names.Perm names' →
      similarNames names' target limit = similarNames names target limit) ∧
    ∀ n ∈ names, WithinReach target limit n → n ∉ similarNames names target limit →
      ∀ m ∈ similarNames names target limit, Precedes target m n := by
  have hranks := ranks_mergeSort hnames target limit
  refine ⟨⟨_, hranks, fun _ h => h.unique hranks, similarNames_eq_take⟩, fun names' hperm => ?_, ?_⟩
  · have hranks' := ranks_mergeSort (hperm.nodup_iff.1 hnames) target limit
    rw [similarNames_eq_take, similarNames_eq_take, hranks'.unique (hranks.of_perm hperm)]
  · intro n hn hreach hout m hm
    rw [similarNames_eq_take] at hm hout
    exact hranks.precedes_of_omitted hm ((hranks.mem_iff n).2 ⟨hn, hreach⟩) hout

/-- Five names are within reach, and two of them are left out. -/
theorem similarNames_closest_five :
    ["b", "a", "aa", "ba", "abc", "ab"].Nodup ∧
    similarNames ["ab", "abc", "ba", "aa", "a", "b"] "aa" 2 = ["a", "ab", "ba"] ∧
    Precedes "aa" "ba" "abc" := by
  have hnames : ["b", "a", "aa", "ba", "abc", "ab"].Nodup := by decide
  have hranks : Ranks ["b", "a", "aa", "ba", "abc", "ab"] "aa" 2 ["a", "ab", "ba", "abc", "b"] := by
    refine ⟨fun n => ⟨fun hn => ?_, fun hn => ?_⟩, by decide +kernel⟩
    · have hall : ∀ n ∈ ["a", "ab", "ba", "abc", "b"],
          n ∈ ["b", "a", "aa", "ba", "abc", "ab"] ∧ WithinReach "aa" 2 n := by decide +kernel
      exact hall n hn
    · have hall : ∀ n ∈ ["b", "a", "aa", "ba", "abc", "ab"],
          WithinReach "aa" 2 n → n ∈ ["a", "ab", "ba", "abc", "b"] := by decide +kernel
      exact hall n hn.1 hn.2
  obtain ⟨⟨ranking, -, hunique, hsimilar⟩, hperm, homitted⟩ := similarNames_closest hnames "aa" 2
  rw [← hunique _ hranks] at hsimilar
  refine ⟨hnames, (hperm _ (by decide)).trans hsimilar, ?_⟩
  rw [hsimilar] at homitted
  exact homitted "abc" (by decide) (by decide +kernel) (by decide) "ba" (by decide)

end ConstraintHierarchy.Script
