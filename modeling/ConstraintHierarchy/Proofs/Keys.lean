import Mathlib.Data.List.Nodup
import ConstraintHierarchy.Toml.Document

/-!
# Keys of documents

A document gives each key once: all its tables, however they came into being and however deep they are,
have different keys. While a document is read, the table under the latest header is kept apart, and there
is no other table in its place.

## Main definitions

* `Value.WellKeyed`, `Entries.WellKeyed`: the tables in a value, and in the entries of a table, have
  different keys
* `tableAt`: the table that the path of a header leads to
* `Yields`: what holds of everything that a scanner reads
* `Draft.WellKeyed`: what holds of a document while it is read

## Main results

* `descend_eq_some`: `descend` works on the table at its path
* `Draft.WellKeyed.extend`: a line keeps what holds of a document
* `wellKeyed_of_parse?`: documents give each key once
-/

namespace ConstraintHierarchy.Toml

open Text Text.Scan

/-- The tables in a value have different keys. -/
inductive Value.WellKeyed : Value → Prop
  | string {s : String} {span : Span} : WellKeyed (.string s span)
  | integer {n : Int} {span : Span} : WellKeyed (.integer n span)
  | float {x : Float} {span : Span} : WellKeyed (.float x span)
  | boolean {b : Bool} {span : Span} : WellKeyed (.boolean b span)
  | datetime {span : Span} : WellKeyed (.datetime span)
  | array {elements : List Value} {span : Span} (h : ∀ v ∈ elements, WellKeyed v) :
      WellKeyed (.array elements span)
  | table {origin : Origin} {entries : List (Key × Value)} {span : Option Span}
      (hkeys : (entries.map (·.1.item)).Nodup) (hvalues : ∀ e ∈ entries, WellKeyed e.2) :
      WellKeyed (.table origin entries span)
  | tables {elements : List Value} {span : Option Span} (h : ∀ v ∈ elements, WellKeyed v) :
      WellKeyed (.tables elements span)

/-- The entries have different keys, and so have the tables in their values. -/
structure Entries.WellKeyed (es : Entries) : Prop where
  keys : (es.map (·.1.item)).Nodup
  values : ∀ e ∈ es, e.2.WellKeyed

/-- The table that the path of a header leads to. One that is missing has no entries. -/
def tableAt : List Key → Entries → Entries
  | [], es => es
  | k :: ks, es =>
    match es.get? k with
    | some (.table _ sub _) => tableAt ks sub
    | some (.tables elements _) =>
      match elements.getLast? with
      | some (.table _ sub _) => tableAt ks sub
      | _ => []
    | _ => []

variable {α β : Type} {es es' : Entries} {k : Key} {v w : Value} {path : List Key}

/-! ## Entries -/

section Entries

theorem get?_eq_none_iff : es.get? k = none ↔ k.item ∉ es.map (·.1.item) := by
  simp [Entries.get?]

theorem exists_mem_of_get? (h : es.get? k = some v) : ∃ e ∈ es, e.2 = v := by
  obtain ⟨e, hfind, rfl⟩ := Option.map_eq_some_iff.1 h
  exact ⟨e, List.mem_of_find?_eq_some hfind, rfl⟩

theorem get?_append_self (h : es.get? k = none) : Entries.get? (es ++ [(k, v)]) k = some v := by
  have hfind : es.find? (fun e => e.1.item == k.item) = none := Option.map_eq_none_iff.1 h
  simp [Entries.get?, List.find?_append, hfind]

theorem get?_replace_self (h : es.get? k = some w) : (es.replace k v).get? k = some v := by
  obtain ⟨e, hfind, -⟩ := Option.map_eq_some_iff.1 h
  have hkey : (e.1.item == k.item) = true := by simpa using List.find?_some hfind
  have hsame : ((fun e : Key × Value => e.1.item == k.item) ∘
      fun e => if e.1.item == k.item then (e.1, v) else e) = fun e => e.1.item == k.item := by
    funext e
    rw [Function.comp_apply]
    split <;> rfl
  rw [Entries.get?, Entries.replace, List.find?_map, hsame, hfind, Option.map_some, if_pos hkey,
    Option.map_some]

theorem get?_without_self (es : Entries) (k : Key) : (es.without k).get? k = none := by
  simp [get?_eq_none_iff, Entries.without]

theorem keys_replace (es : Entries) (k : Key) (v : Value) :
    (es.replace k v).map (·.1.item) = es.map (·.1.item) := by
  rw [Entries.replace, List.map_map]
  refine List.map_congr_left fun e _ => ?_
  rw [Function.comp_apply]
  split <;> rfl

namespace Entries.WellKeyed

theorem nil : Entries.WellKeyed [] := ⟨List.nodup_nil, by simp⟩

theorem ofTable {origin : Origin} {span : Option Span} (h : (Value.table origin es span).WellKeyed) :
    es.WellKeyed := by
  cases h with
  | table hkeys hvalues => exact ⟨hkeys, hvalues⟩

theorem table (h : es.WellKeyed) (origin : Origin) (span : Option Span) :
    (Value.table origin es span).WellKeyed := .table h.keys h.values

theorem get? (h : es.WellKeyed) (hget : es.get? k = some v) : v.WellKeyed := by
  obtain ⟨e, he, rfl⟩ := exists_mem_of_get? hget
  exact h.values e he

theorem append (h : es.WellKeyed) (hnew : es.get? k = none) (hv : v.WellKeyed) :
    Entries.WellKeyed (es ++ [(k, v)]) where
  keys := by
    rw [List.map_append, List.map_singleton, ← List.concat_eq_append]
    exact h.keys.concat (get?_eq_none_iff.1 hnew)
  values e he := by
    rcases List.mem_append.1 he with he | he
    · exact h.values e he
    · obtain rfl := List.mem_singleton.1 he
      exact hv

theorem replace (h : es.WellKeyed) (k : Key) (hv : v.WellKeyed) : (es.replace k v).WellKeyed where
  keys := by
    rw [keys_replace]
    exact h.keys
  values e he := by
    obtain ⟨e', he', rfl⟩ := List.mem_map.1 he
    split
    · exact hv
    · exact h.values e' he'

theorem without (h : es.WellKeyed) (k : Key) : (es.without k).WellKeyed where
  keys := h.keys.sublist (List.filter_sublist.map _)
  values e he := h.values e (List.mem_of_mem_filter he)

end Entries.WellKeyed

/-- Changing the latest table of an array of tables. -/
theorem wellKeyed_tables_concat {elements : List Value} {span : Option Span}
    (h : (Value.tables elements span).WellKeyed) (hv : v.WellKeyed) (span' : Option Span) :
    (Value.tables (elements.dropLast ++ [v]) span').WellKeyed := by
  cases h with
  | tables h =>
    refine .tables fun w hw => ?_
    rcases List.mem_append.1 hw with hw | hw
    · exact h w (List.dropLast_subset _ hw)
    · obtain rfl := List.mem_singleton.1 hw
      exact hv

theorem wellKeyed_getLast {elements : List Value} {span : Option Span}
    (h : (Value.tables elements span).WellKeyed) (hlast : elements.getLast? = some v) :
    v.WellKeyed := by
  cases h with
  | tables h => exact h v (List.mem_of_getLast? hlast)

end Entries

/-! ## Adding to tables -/

section Insertion

theorem Entries.WellKeyed.insert {key : Key} (hes : es.WellKeyed) (hv : v.WellKeyed)
    (h : Toml.insert path key v es = some es') : es'.WellKeyed := by
  induction path generalizing es es' with
  | nil =>
    rw [Toml.insert] at h
    split at h
    · cases h
    · next hnew =>
      obtain rfl := Option.some.inj h
      exact hes.append (by simpa using hnew) hv
  | cons k ks ih =>
    rw [Toml.insert] at h
    split at h
    · next hget =>
      obtain ⟨sub, hsub, heq⟩ := Option.bind_eq_some_iff.1 h
      obtain rfl := Option.some.inj heq
      exact hes.append hget ((ih .nil hsub).table _ _)
    · next origin sub span hget =>
      split at h
      · obtain ⟨sub', hsub, heq⟩ := Option.bind_eq_some_iff.1 h
        obtain rfl := Option.some.inj heq
        exact hes.replace k ((ih (.ofTable (hes.get? hget)) hsub).table _ _)
      · cases h
    · next elements span hget =>
      split at h
      · next origin sub last hlast =>
        have htables := hes.get? hget
        split at h
        · obtain ⟨sub', hsub, heq⟩ := Option.bind_eq_some_iff.1 h
          obtain rfl := Option.some.inj heq
          have hsub' := ih (.ofTable (wellKeyed_getLast htables hlast)) hsub
          exact hes.replace k (wellKeyed_tables_concat htables (hsub'.table _ _) _)
        · cases h
      · cases h
    · cases h

theorem Entries.WellKeyed.insertPath (hes : es.WellKeyed) (hv : v.WellKeyed)
    (h : Toml.insertPath path v es = some es') : es'.WellKeyed := by
  obtain ⟨key, -, hinsert⟩ := Option.bind_eq_some_iff.1 h
  exact hes.insert hv hinsert

theorem tableAt_nil (path : List Key) : tableAt path [] = [] := by
  cases path <;> rfl

theorem Entries.WellKeyed.tableAt (hes : es.WellKeyed) (path : List Key) :
    (Toml.tableAt path es).WellKeyed := by
  induction path generalizing es with
  | nil => exact hes
  | cons k ks ih =>
    rw [Toml.tableAt]
    split
    · next hget => exact ih (.ofTable (hes.get? hget))
    · next hget =>
      split
      · next hlast => exact ih (.ofTable (wellKeyed_getLast (hes.get? hget) hlast))
      · exact .nil
    · exact .nil

/-- What `descend` does, it does to the table at the path, and the result takes the place of this
table. -/
theorem descend_eq_some {f : Entries → Option (α × Entries)} {a : α}
    (h : descend path f es = some (a, es')) :
    f (tableAt path es) = some (a, tableAt path es') ∧
      (es.WellKeyed → (tableAt path es').WellKeyed → es'.WellKeyed) := by
  induction path generalizing es es' with
  | nil => exact ⟨h, fun _ h => h⟩
  | cons k ks ih =>
    rw [descend] at h
    split at h
    · next hget =>
      obtain ⟨⟨b, sub⟩, hsub, heq⟩ := Option.bind_eq_some_iff.1 h
      obtain ⟨rfl, rfl⟩ := Prod.mk.inj (Option.some.inj heq)
      obtain ⟨hf, hkeyed⟩ := ih hsub
      rw [tableAt_nil] at hf
      simp only [tableAt, hget, get?_append_self hget]
      exact ⟨hf, fun hes hnew => hes.append hget ((hkeyed .nil hnew).table _ _)⟩
    · next origin sub span hget =>
      split at h
      · cases h
      · obtain ⟨⟨b, sub'⟩, hsub, heq⟩ := Option.bind_eq_some_iff.1 h
        obtain ⟨rfl, rfl⟩ := Prod.mk.inj (Option.some.inj heq)
        obtain ⟨hf, hkeyed⟩ := ih hsub
        simp only [tableAt, hget, get?_replace_self hget]
        exact ⟨hf, fun hes hnew =>
          hes.replace k ((hkeyed (.ofTable (hes.get? hget)) hnew).table _ _)⟩
    · next elements span hget =>
      split at h
      · next origin sub last hlast =>
        obtain ⟨⟨b, sub'⟩, hsub, heq⟩ := Option.bind_eq_some_iff.1 h
        obtain ⟨rfl, rfl⟩ := Prod.mk.inj (Option.some.inj heq)
        obtain ⟨hf, hkeyed⟩ := ih hsub
        simp only [tableAt, hget, get?_replace_self hget, hlast, List.getLast?_concat]
        refine ⟨hf, fun hes hnew => ?_⟩
        have htables := hes.get? hget
        have hsub' := hkeyed (.ofTable (wellKeyed_getLast htables hlast)) hnew
        exact hes.replace k (wellKeyed_tables_concat htables (hsub'.table _ _) _)
      · cases h
    · cases h

/-- What every step keeps holds at the end. -/
theorem foldlM_preserves {P : β → Prop} {f : β → α → Option β} {as : List α} {b b' : β} (hb : P b)
    (hstep : ∀ a ∈ as, ∀ b b', P b → f b a = some b' → P b') (h : as.foldlM f b = some b') : P b' := by
  induction as generalizing b with
  | nil =>
    obtain rfl := Option.some.inj h
    exact hb
  | cons a as ih =>
    rw [List.foldlM_cons] at h
    obtain ⟨c, hc, hrest⟩ := Option.bind_eq_some_iff.1 h
    exact ih (hstep a List.mem_cons_self b c hb hc)
      (fun a ha => hstep a (List.mem_cons_of_mem _ ha)) hrest

end Insertion

/-! ## What scanners read -/

section Scanners

/-- Everything that the scanner reads has the property. -/
def Yields (p : Scan α) (P : α → Prop) : Prop :=
  ∀ ⦃cursor rest : Cursor⦄ ⦃a : α⦄, p cursor = some (a, rest) → P a

variable {p q : Scan α} {P : α → Prop} {Q : β → Prop}

theorem yields_pure {a : α} (h : P a) : Yields (pure a) P := by
  intro cursor rest b hb
  obtain ⟨rfl, -⟩ := Prod.mk.inj (Option.some.inj hb)
  exact h

theorem yields_failure : Yields (failure : Scan α) P := by
  intro cursor rest a ha
  cases ha

theorem Yields.bind {f : α → Scan β} (hp : Yields p P) (hf : ∀ a, P a → Yields (f a) Q) :
    Yields (p >>= f) Q := by
  intro cursor rest b hb
  obtain ⟨⟨a, middle⟩, ha, hrest⟩ := Option.bind_eq_some_iff.1 hb
  exact hf a (hp ha) hrest

/-- What is read first does not matter. -/
theorem yields_bind {f : α → Scan β} (hf : ∀ a, Yields (f a) Q) : Yields (p >>= f) Q :=
  Yields.bind (fun _ _ _ _ => trivial) fun a (_ : True) => hf a

theorem Yields.orElse (hp : Yields p P) (hq : Yields q P) : Yields (p <|> q) P := by
  intro cursor rest a ha
  change (p cursor <|> q cursor) = some (a, rest) at ha
  cases hcursor : p cursor with
  | none =>
    rw [hcursor] at ha
    exact hq ha
  | some r =>
    rw [hcursor] at ha
    exact hp (hcursor.trans ha)

theorem Yields.seqRight {p : Scan α} {q : Scan β} (hq : Yields q Q) : Yields (p *> q) Q := by
  rw [seqRight_eq_bind]
  exact yields_bind fun _ => hq

theorem Yields.seqLeft {q : Scan β} (hp : Yields p P) : Yields (p <* q) P := by
  rw [seqLeft_eq_bind]
  exact hp.bind fun _ ha => yields_bind fun _ => yields_pure ha

theorem Yields.attempt (hp : Yields p P) : Yields (attempt p) fun o => ∀ a, o = some a → P a := by
  rintro cursor rest o ho a rfl
  rw [Scan.attempt] at ho
  split at ho
  · cases ho
  · next ha =>
    obtain ⟨heq, -⟩ := Prod.mk.inj (Option.some.inj ho)
    obtain rfl := Option.some.inj heq
    exact hp ha

theorem Yields.manyUpTo (hp : Yields p P) (n : Nat) :
    Yields (manyUpTo p n) fun as => ∀ a ∈ as, P a := by
  induction n with
  | zero => exact yields_pure (by simp)
  | succ n ih =>
    intro cursor rest as has
    rw [Scan.manyUpTo] at has
    beta_reduce at has
    split at has
    · obtain ⟨rfl, -⟩ := Prod.mk.inj (Option.some.inj has)
      simp
    · next a middle ha =>
      obtain ⟨⟨as', rest'⟩, has', heq⟩ := Option.bind_eq_some_iff.1 has
      obtain ⟨rfl, -⟩ := Prod.mk.inj (Option.some.inj heq)
      exact List.forall_mem_cons.2 ⟨hp ha, ih has'⟩

theorem Yields.many (hp : Yields p P) : Yields (many p) fun as => ∀ a ∈ as, P a :=
  yields_bind fun cursor => hp.manyUpTo cursor.rest.length

theorem Yields.located (hp : Yields p P) : Yields (located p) fun a => P a.item :=
  yields_bind fun _ => hp.bind fun _ ha => yields_bind fun _ => yields_pure ha

theorem Yields.run {a : α} {s : String} (hp : Yields p P) (h : p.run s = some a) : P a := by
  obtain ⟨⟨b, cursor⟩, hb, hrest⟩ := Option.bind_eq_some_iff.1 h
  change (if cursor.rest.isEmpty then some b else none) = some a at hrest
  obtain ⟨-, heq⟩ := Option.ite_none_right_eq_some.1 hrest
  obtain rfl := Option.some.inj heq
  exact hp hb

end Scanners

/-! ## Values -/

section Values

variable {value : Scan Value}

theorem yields_scalar : Yields scalar Value.WellKeyed := by
  refine .orElse (yields_bind fun _ => yields_pure .string) (.orElse ?_ (.orElse ?_ (.orElse ?_ ?_)))
  · exact yields_bind fun _ => yields_pure .datetime
  · exact yields_bind fun _ => yields_pure .float
  · exact yields_bind fun _ => yields_pure .integer
  · exact .orElse (yields_bind fun _ => yields_pure .boolean) (yields_bind fun _ => yields_pure .boolean)

theorem yields_elements (h : Yields value Value.WellKeyed) :
    Yields (elements value) fun vs => ∀ v ∈ vs, v.WellKeyed := by
  refine yields_bind fun _ => h.attempt.bind fun o ho => ?_
  cases o with
  | none => exact yields_pure (by simp)
  | some v =>
    refine yields_bind fun _ => (Yields.many (.seqLeft (.seqRight h))).bind fun vs hvs => ?_
    refine yields_bind fun _ => yields_bind fun _ => yields_pure ?_
    exact List.forall_mem_cons.2 ⟨ho v rfl, hvs⟩

theorem yields_array (h : Yields value Value.WellKeyed) : Yields (array value) Value.WellKeyed :=
  (Yields.located (.seqLeft (.seqRight (yields_elements h)))).bind fun _ hvs => yields_pure (.array hvs)

theorem yields_keyValue (h : Yields value Value.WellKeyed) :
    Yields (keyValue value) fun e => e.2.WellKeyed :=
  yields_bind fun _ => yields_bind fun _ => yields_bind fun _ => h.bind fun _ hv => yields_pure hv

theorem yields_pairs (h : Yields value Value.WellKeyed) :
    Yields (pairs value) fun ps => ∀ e ∈ ps, e.2.WellKeyed := by
  refine yields_bind fun _ => (yields_keyValue h).seqLeft.attempt.bind fun o ho => ?_
  cases o with
  | none => exact yields_pure (by simp)
  | some e =>
    refine (Yields.many (.seqLeft (.seqRight (yields_keyValue h)))).bind fun ps hps => yields_pure ?_
    exact List.forall_mem_cons.2 ⟨ho e rfl, hps⟩

theorem yields_inlineTable (h : Yields value Value.WellKeyed) :
    Yields (inlineTable value) Value.WellKeyed := by
  refine (Yields.located (.seqLeft (.seqRight (yields_pairs h)))).bind fun ps hps => ?_
  split
  · next hinsert =>
    refine yields_pure (Entries.WellKeyed.table ?_ _ _)
    refine foldlM_preserves .nil (fun e he _ _ hes hes' => ?_) hinsert
    exact hes.insertPath (hps e he) hes'
  · exact yields_failure

theorem yields_value (n : Nat) : Yields (Toml.value n) Value.WellKeyed := by
  induction n with
  | zero => exact yields_failure
  | succ n ih =>
    refine .orElse yields_scalar (.orElse ?_ ?_) <;> split
    · exact yields_failure
    · exact yields_array ih
    · exact yields_failure
    · exact yields_inlineTable ih

end Values

/-! ## Documents -/

section Documents

variable {d d' : Draft}

/-- The value on the line has different keys in its tables. -/
def Line.WellKeyed : Line → Prop
  | .pair _ v => v.WellKeyed
  | _ => True

/-- What is made so far has different keys, and the place of the table kept apart is free. -/
structure Draft.WellKeyed (d : Draft) : Prop where
  root : d.root.WellKeyed
  current : d.current.WellKeyed
  vacant : d.isElement = false → ∀ key, d.path.getLast? = some key →
    (tableAt d.path.dropLast d.root).get? key = none

theorem yields_line : Yields line Line.WellKeyed := by
  refine .orElse (.seqRight (yields_pure trivial)) (.orElse (.seqRight ?_) (.orElse ?_ ?_))
  · exact yields_pure trivial
  · exact yields_bind fun _ => yields_bind fun _ => yields_pure trivial
  · refine .orElse (yields_bind fun _ => yields_bind fun _ => yields_pure trivial) ?_
    exact (yields_keyValue (yields_value depthLimit)).bind fun _ hv => yields_bind fun _ => yields_pure hv

theorem yields_document : Yields document fun ls => ∀ l ∈ ls, l.WellKeyed :=
  yields_bind fun _ => yields_bind fun _ => yields_line.seqLeft.many

theorem Draft.WellKeyed.complete (hd : d.WellKeyed) (h : d.complete = some es) : es.WellKeyed := by
  rw [Draft.complete] at h
  split at h
  · obtain rfl := Option.some.inj h
    exact hd.current
  · next key hkey =>
    obtain ⟨⟨_, root⟩, hdescend, heq⟩ := Option.bind_eq_some_iff.1 h
    obtain rfl := Option.some.inj heq
    obtain ⟨hplaced, hkeyed⟩ := descend_eq_some hdescend
    refine hkeyed hd.root ?_
    have hparent := hd.root.tableAt d.path.dropLast
    have htable := hd.current.table .header d.span
    split at hplaced
    · split at hplaced
      · next ts span hget =>
        obtain ⟨-, heq⟩ := Prod.mk.inj (Option.some.inj hplaced)
        rw [← heq]
        refine hparent.replace key (.tables fun v hv => ?_)
        cases hparent.get? hget with
        | tables hts =>
          rcases List.mem_append.1 hv with hv | hv
          · exact hts v hv
          · obtain rfl := List.mem_singleton.1 hv
            exact htable
      · cases hplaced
    · next helement =>
      obtain ⟨-, heq⟩ := Prod.mk.inj (Option.some.inj hplaced)
      rw [← heq]
      exact hparent.append (hd.vacant (by simpa using helement) key hkey) htable

theorem Draft.WellKeyed.openTable {header : Located (List Key)} (hd : d.WellKeyed)
    (h : d.openTable header = some d') : d'.WellKeyed := by
  obtain ⟨es, hcomplete, h⟩ := Option.bind_eq_some_iff.1 h
  obtain ⟨key, hkey, h⟩ := Option.bind_eq_some_iff.1 h
  obtain ⟨⟨current, root⟩, hdescend, heq⟩ := Option.bind_eq_some_iff.1 h
  obtain rfl := Option.some.inj heq
  have hes := hd.complete hcomplete
  obtain ⟨hplaced, hkeyed⟩ := descend_eq_some hdescend
  have hparent := hes.tableAt header.item.dropLast
  -- the table opened is new, or one without a header that is taken out of its place
  have hopened : Entries.WellKeyed current ∧ (tableAt header.item.dropLast root).WellKeyed ∧
      (tableAt header.item.dropLast root).get? key = none := by
    split at hplaced
    · next hget =>
      obtain ⟨rfl, hroot⟩ := Prod.mk.inj (Option.some.inj hplaced)
      rw [← hroot]
      exact ⟨.nil, hparent, hget⟩
    · next sub span hget =>
      obtain ⟨rfl, hroot⟩ := Prod.mk.inj (Option.some.inj hplaced)
      rw [← hroot]
      exact ⟨.ofTable (hparent.get? hget), hparent.without key, get?_without_self _ key⟩
    · cases hplaced
  obtain ⟨hcurrent, htable, hvacant⟩ := hopened
  refine ⟨hkeyed hes htable, hcurrent, fun _ key' hkey' => ?_⟩
  obtain rfl := Option.some.inj (hkey.symm.trans hkey')
  exact hvacant

theorem Draft.WellKeyed.openElement {header : Located (List Key)} (hd : d.WellKeyed)
    (h : d.openElement header = some d') : d'.WellKeyed := by
  obtain ⟨es, hcomplete, h⟩ := Option.bind_eq_some_iff.1 h
  obtain ⟨key, -, h⟩ := Option.bind_eq_some_iff.1 h
  obtain ⟨⟨_, root⟩, hdescend, heq⟩ := Option.bind_eq_some_iff.1 h
  obtain rfl := Option.some.inj heq
  have hes := hd.complete hcomplete
  obtain ⟨hplaced, hkeyed⟩ := descend_eq_some hdescend
  have hparent := hes.tableAt header.item.dropLast
  refine ⟨hkeyed hes ?_, .nil, by simp⟩
  split at hplaced
  · next hget =>
    obtain ⟨-, heq⟩ := Prod.mk.inj (Option.some.inj hplaced)
    rw [← heq]
    exact hparent.append hget (.tables (by simp))
  · obtain ⟨-, heq⟩ := Prod.mk.inj (Option.some.inj hplaced)
    rw [← heq]
    exact hparent
  · cases hplaced

theorem Draft.WellKeyed.add (hd : d.WellKeyed) (hv : v.WellKeyed) (h : d.add path v = some d') :
    d'.WellKeyed := by
  obtain ⟨current, hinsert, heq⟩ := Option.bind_eq_some_iff.1 h
  obtain rfl := Option.some.inj heq
  exact ⟨hd.root, hd.current.insertPath hv hinsert, hd.vacant⟩

theorem Draft.WellKeyed.extend {l : Line} (hd : d.WellKeyed) (hl : l.WellKeyed)
    (h : d.extend l = some d') : d'.WellKeyed := by
  cases l with
  | empty =>
    obtain rfl := Option.some.inj h
    exact hd
  | header path => exact hd.openTable h
  | elementHeader path => exact hd.openElement h
  | pair path v => exact hd.add hl h

/-- A document gives each key once. -/
theorem wellKeyed_of_parse? {source : String} (h : parse? source = some es) : es.WellKeyed := by
  obtain ⟨ls, hls, h⟩ := Option.bind_eq_some_iff.1 h
  obtain ⟨d, hd, hcomplete⟩ := Option.bind_eq_some_iff.1 h
  have hlines : ∀ l ∈ ls, l.WellKeyed := yields_document.run hls
  have hdraft : d.WellKeyed := by
    refine foldlM_preserves ⟨.nil, .nil, by simp⟩ (fun l hl d d' hd hd' => ?_) hd
    exact hd.extend (hlines l hl) hd'
  exact hdraft.complete hcomplete

end Documents

end ConstraintHierarchy.Toml
