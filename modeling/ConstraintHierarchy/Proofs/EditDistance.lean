import Mathlib.Order.Bounds.Defs
import Mathlib.Order.MinMax
import ConstraintHierarchy.Script.Similar

/-!
# Edit distance

The edit distance of two words is the least number of edits of single characters that turn one into the
other, through whatever words in between. It is computed from the table of the distances between the
beginnings of the two words, of which one row is kept at a time.

The words of the table grow at their ends, so the table is indexed by words that are read backwards: a
longer beginning is then the shorter one with a character in front.

## Main definitions

* `Edit`, `Edits`: one edit, and so many edits in a row
* `distance`: the entries of the table, by the recurrence that defines them
* `rowOf`: a row of the table

## Main results

* `foldl_nextRow`: the rows computed are the rows of the table
* `edits_distance`, `distance_le_of_edits`: so many edits suffice, and fewer do not
* `editDistance_least`: the edit distance is the least number of edits, and a metric
-/

namespace ConstraintHierarchy.Script

/-- A character is put into a word, taken out of it or replaced by another one. -/
inductive Edit : List Char → List Char → Prop
  | insert (before after : List Char) (c : Char) : Edit (before ++ after) (before ++ c :: after)
  | delete (before after : List Char) (c : Char) : Edit (before ++ c :: after) (before ++ after)
  | substitute (before after : List Char) {c d : Char} (h : c ≠ d) :
      Edit (before ++ c :: after) (before ++ d :: after)

/-- The second word comes from the first one by so many edits. -/
inductive Edits : Nat → List Char → List Char → Prop
  | none (xs : List Char) : Edits 0 xs xs
  | more {n : Nat} {xs ys zs : List Char} : Edits n xs ys → Edit ys zs → Edits (n + 1) xs zs

/-- The distance of two words, by what becomes of their first characters. -/
def distance : List Char → List Char → Nat
  | [], ys => ys.length
  | x :: xs, [] => (x :: xs).length
  | x :: xs, y :: ys =>
    min (min (distance xs (y :: ys) + 1) (distance (x :: xs) ys + 1))
      (distance xs ys + if x = y then 0 else 1)

variable {xs ys zs : List Char} {m n : Nat}

/-! ## Sequences of edits -/

section Edits

theorem Edit.symm (h : Edit xs ys) : Edit ys xs := by
  cases h with
  | insert before after c => exact .delete before after c
  | delete before after c => exact .insert before after c
  | substitute before after hne => exact .substitute before after hne.symm

theorem Edit.cons (c : Char) (h : Edit xs ys) : Edit (c :: xs) (c :: ys) := by
  cases h with
  | insert before after d => exact .insert (c :: before) after d
  | delete before after d => exact .delete (c :: before) after d
  | substitute before after hne => exact .substitute (c :: before) after hne

theorem Edit.reverse (h : Edit xs ys) : Edit xs.reverse ys.reverse := by
  cases h with
  | insert before after c =>
    simpa using Edit.insert after.reverse before.reverse c
  | delete before after c =>
    simpa using Edit.delete after.reverse before.reverse c
  | substitute before after hne =>
    simpa using Edit.substitute after.reverse before.reverse hne

theorem Edit.edits (h : Edit xs ys) : Edits 1 xs ys := .more (.none xs) h

theorem Edits.trans (h : Edits m xs ys) (h' : Edits n ys zs) : Edits (m + n) xs zs := by
  induction h' with
  | none => exact h
  | more _ hedit ih => exact .more (ih h) hedit

theorem Edits.symm (h : Edits n xs ys) : Edits n ys xs := by
  induction h with
  | none xs => exact .none xs
  | @more n _ _ _ _ hedit ih =>
    rw [Nat.add_comm]
    exact hedit.symm.edits.trans ih

theorem Edits.cons (c : Char) (h : Edits n xs ys) : Edits n (c :: xs) (c :: ys) := by
  induction h with
  | none xs => exact .none (c :: xs)
  | more _ hedit ih => exact .more ih (hedit.cons c)

theorem Edits.reverse (h : Edits n xs ys) : Edits n xs.reverse ys.reverse := by
  induction h with
  | none xs => exact .none xs.reverse
  | more _ hedit ih => exact .more ih hedit.reverse

theorem edits_reverse_iff : Edits n xs.reverse ys.reverse ↔ Edits n xs ys := by
  refine ⟨fun h => ?_, Edits.reverse⟩
  simpa using h.reverse

theorem edits_zero_iff : Edits 0 xs ys ↔ xs = ys := by
  constructor
  · intro h
    cases h
    rfl
  · rintro rfl
    exact .none xs

theorem edits_nil_length (ys : List Char) : Edits ys.length [] ys := by
  induction ys with
  | nil => exact .none []
  | cons y ys ih => exact .more ih (.insert [] ys y)

end Edits

/-! ## The table counts edits -/

section Distance

@[simp] theorem distance_nil_left (ys : List Char) : distance [] ys = ys.length := by
  rw [distance]

@[simp] theorem distance_nil_right (xs : List Char) : distance xs [] = xs.length := by
  cases xs <;> rw [distance]

theorem distance_cons_cons (x y : Char) (xs ys : List Char) : distance (x :: xs) (y :: ys) =
    min (min (distance xs (y :: ys) + 1) (distance (x :: xs) ys + 1))
      (distance xs ys + if x = y then 0 else 1) := by
  rw [distance]

/-- The entries of the table can be reached. -/
theorem edits_distance (xs ys : List Char) : Edits (distance xs ys) xs ys := by
  fun_induction distance xs ys with
  | case1 ys => exact edits_nil_length ys
  | case2 x xs => exact (edits_nil_length (x :: xs)).symm
  | case3 x xs y ys hdelete hinsert hkeep =>
    -- the least of the three ways is one of them
    rcases min_choice (min (distance xs (y :: ys) + 1) (distance (x :: xs) ys + 1))
      (distance xs ys + if x = y then 0 else 1) with h | h <;> rw [h]
    · rcases min_choice (distance xs (y :: ys) + 1) (distance (x :: xs) ys + 1) with h | h <;> rw [h]
      · rw [Nat.add_comm]
        exact (Edit.delete [] xs x).edits.trans hdelete
      · exact .more hinsert (.insert [] ys y)
    · by_cases hxy : x = y
      · subst hxy
        simpa using hkeep.cons x
      · rw [if_neg hxy]
        exact .more (hkeep.cons x) (.substitute [] ys hxy)

theorem distance_cons_right_le (y : Char) (xs ys : List Char) :
    distance xs (y :: ys) ≤ distance xs ys + 1 := by
  cases xs with
  | nil => simp
  | cons x xs =>
    rw [distance_cons_cons]
    omega

theorem distance_cons_left_le (x : Char) (xs ys : List Char) :
    distance (x :: xs) ys ≤ distance xs ys + 1 := by
  cases ys with
  | nil => simp
  | cons y ys =>
    rw [distance_cons_cons]
    omega

theorem distance_le_cons_right (y : Char) (xs ys : List Char) :
    distance xs ys ≤ distance xs (y :: ys) + 1 := by
  induction xs with
  | nil =>
    simp only [distance_nil_left, List.length_cons]
    omega
  | cons x xs ih =>
    have hleft := distance_cons_left_le x xs ys
    rw [distance_cons_cons]
    omega

theorem distance_cons_right_le_cons (c d : Char) (xs ys : List Char) :
    distance xs (d :: ys) ≤ distance xs (c :: ys) + 1 := by
  induction xs with
  | nil => simp
  | cons x xs ih =>
    rw [distance_cons_cons, distance_cons_cons]
    split <;> split <;> omega

/-- Two words that are close stay so if both get the same first character. -/
theorem distance_cons_right_mono (c : Char)
    (h : ∀ xs, distance xs zs ≤ distance xs ys + 1) (xs : List Char) :
    distance xs (c :: zs) ≤ distance xs (c :: ys) + 1 := by
  induction xs with
  | nil =>
    have := h []
    simp only [distance_nil_left, List.length_cons] at this ⊢
    omega
  | cons x xs ih =>
    have hxs := h xs
    have hcons := h (x :: xs)
    rw [distance_cons_cons, distance_cons_cons]
    omega

theorem distance_append_right_mono (before : List Char)
    (h : ∀ xs, distance xs zs ≤ distance xs ys + 1) (xs : List Char) :
    distance xs (before ++ zs) ≤ distance xs (before ++ ys) + 1 := by
  induction before generalizing xs with
  | nil => exact h xs
  | cons c before ih => exact distance_cons_right_mono c ih xs

/-- An edit changes the distance from any word by one at most. -/
theorem distance_le_of_edit (h : Edit ys zs) (xs : List Char) :
    distance xs zs ≤ distance xs ys + 1 := by
  cases h with
  | insert before after c =>
    exact distance_append_right_mono before (distance_cons_right_le c · after) xs
  | delete before after c =>
    exact distance_append_right_mono before (distance_le_cons_right c · after) xs
  | @substitute before after c d _ =>
    exact distance_append_right_mono before (distance_cons_right_le_cons c d · after) xs

theorem distance_self (xs : List Char) : distance xs xs = 0 := by
  induction xs with
  | nil => simp
  | cons x xs ih => simp [distance_cons_cons, ih]

theorem distance_le_of_edits (h : Edits n xs ys) : distance xs ys ≤ n := by
  induction h with
  | none xs => exact (distance_self xs).le
  | @more n xs ys zs _ hedit ih =>
    have := distance_le_of_edit hedit xs
    omega

end Distance

/-! ## The rows of the table -/

section Rows

/-- The entries of a row for a word and for all that continue it by characters of the given list. Words
are read backwards. -/
def rowOf (xs ys : List Char) : List Char → List Nat
  | [] => [distance xs ys]
  | z :: zs => distance xs ys :: rowOf xs (z :: ys) zs

theorem rowOf_eq_cons (xs ys zs : List Char) :
    ∃ rest, rowOf xs ys zs = distance xs ys :: rest := by
  cases zs with
  | nil => exact ⟨[], rfl⟩
  | cons z zs => exact ⟨rowOf xs (z :: ys) zs, rfl⟩

theorem rowFrom_rowOf (x : Char) (xs ys zs : List Char) :
    distance (x :: xs) ys :: rowFrom x (distance (x :: xs) ys) zs (rowOf xs ys zs) =
      rowOf (x :: xs) ys zs := by
  induction zs generalizing ys with
  | nil => rfl
  | cons z zs ih =>
    obtain ⟨rest, hrest⟩ := rowOf_eq_cons xs (z :: ys) zs
    have hnext := ih (z :: ys)
    rw [hrest] at hnext
    rw [rowOf, rowOf, hrest, rowFrom, ← distance_cons_cons, hnext]

theorem nextRow_rowOf (ys xs : List Char) (x : Char) :
    nextRow ys (rowOf xs [] ys) x = rowOf (x :: xs) [] ys := by
  obtain ⟨rest, hrest⟩ := rowOf_eq_cons xs [] ys
  have hfirst : (rowOf xs [] ys).headD 0 + 1 = distance (x :: xs) [] := by simp [hrest]
  rw [nextRow, hfirst]
  exact rowFrom_rowOf x xs [] ys

theorem foldl_nextRow (ws xs ys : List Char) :
    ws.foldl (nextRow ys) (rowOf xs [] ys) = rowOf (ws.reverse ++ xs) [] ys := by
  induction ws generalizing xs with
  | nil => rfl
  | cons w ws ih =>
    rw [List.foldl_cons, nextRow_rowOf, ih, List.reverse_cons, List.append_assoc,
      List.singleton_append]

theorem rowOf_nil (ys zs : List Char) : rowOf [] ys zs = List.range' ys.length (zs.length + 1) := by
  induction zs generalizing ys with
  | nil => simp [rowOf]
  | cons z zs ih =>
    rw [rowOf, ih, distance_nil_left]
    exact List.range'_succ.symm

theorem getLastD_rowOf (xs ys zs : List Char) (d : Nat) :
    (rowOf xs ys zs).getLastD d = distance xs (zs.reverse ++ ys) := by
  induction zs generalizing ys d with
  | nil => rfl
  | cons z zs ih =>
    rw [rowOf, List.getLastD_cons, ih, List.reverse_cons, List.append_assoc, List.singleton_append]

theorem editDistance_eq_distance (a b : String) :
    editDistance a b = distance a.toList.reverse b.toList.reverse := by
  have hfirst : List.range (b.toList.length + 1) = rowOf [] [] b.toList := by
    rw [rowOf_nil, List.range_eq_range', List.length_nil]
  rw [editDistance, hfirst, foldl_nextRow, getLastD_rowOf, List.append_nil, List.append_nil]

end Rows

/-- The edit distance can be reached, and no fewer edits do. -/
theorem isLeast_editDistance (a b : String) :
    IsLeast {n | Edits n a.toList b.toList} (editDistance a b) := by
  rw [editDistance_eq_distance]
  constructor
  · exact edits_reverse_iff.1 (edits_distance _ _)
  · intro n hn
    exact distance_le_of_edits (edits_reverse_iff.2 hn)

/-- The edit distance of two strings is the least number of characters to insert, delete or substitute,
one at a time, that turns one into the other. So it is symmetric, it is zero between equal strings only,
and a detour is no shorter. -/
theorem editDistance_least (a b : String) :
    IsLeast {n | Edits n a.toList b.toList} (editDistance a b) ∧
    editDistance b a = editDistance a b ∧
    (editDistance a b = 0 ↔ a = b) ∧
    ∀ c, editDistance a c ≤ editDistance a b + editDistance b c := by
  have hab := isLeast_editDistance a b
  have hba := isLeast_editDistance b a
  refine ⟨hab, le_antisymm (hba.2 hab.1.symm) (hab.2 hba.1.symm), ?_, fun c => ?_⟩
  · constructor
    · intro hzero
      have hedits : Edits 0 a.toList b.toList := hzero ▸ hab.1
      exact String.toList_injective (edits_zero_iff.1 hedits)
    · rintro rfl
      exact Nat.le_zero.1 (hab.2 (Edits.none a.toList))
  · exact (isLeast_editDistance a c).2 (hab.1.trans (isLeast_editDistance b c).1)

end ConstraintHierarchy.Script
