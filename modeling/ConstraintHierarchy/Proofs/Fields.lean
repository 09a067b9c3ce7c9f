import Mathlib.Data.List.Nodup
import ConstraintHierarchy.Settings.Decode

/-!
# Fields of settings

Entries are set one after the other. What setting one entry does to what a record holds under a name is
said once, for any record, and from it follows what setting all of them does: the entries can be set if
each of them can, an entry shows under its name, and nothing else changes. The fields of the three
sections are such records.

## Main definitions

* `Datum`, `Gives`: what a field holds, and the scalars that stand for it
* `Acts`: what setting an entry does to a record
* `Covers`: the fields of a record are all that it holds

## Main results

* `Acts.isOk_setEntries`, `Acts.keeps_setEntries`, `Acts.puts_setEntries`: what setting all entries does
* `Covers.acts`: setting a field to a scalar
* `covers_scriptFields`, `covers_chainFields`, `covers_projectionFields`: the fields of the sections
-/

namespace ConstraintHierarchy

open Toml (Key Value Entries)

/-- What a field holds. -/
inductive Datum where
  | strength (s : Strength)
  | count (n : Nat)
  | number (x : Float)

def ScriptSettings.datum? (s : ScriptSettings) : String → Option Datum
  | "edit_strength" => some (.strength s.editStrength)
  | "change_iterations" => some (.count s.changeIterations)
  | _ => none

def ChainSettings.datum? (s : ChainSettings) : String → Option Datum
  | "length" => some (.count s.length)
  | "stay_strength" => some (.strength s.stayStrength)
  | "edit_strength" => some (.strength s.editStrength)
  | "iterations" => some (.count s.iterations)
  | _ => none

def ProjectionSettings.datum? (s : ProjectionSettings) : String → Option Datum
  | "size" => some (.count s.size)
  | "scale" => some (.number s.scale)
  | "offset" => some (.number s.offset)
  | "stay_strength" => some (.strength s.stayStrength)
  | "edit_strength" => some (.strength s.editStrength)
  | "change_iterations" => some (.count s.changeIterations)
  | _ => none

namespace Settings

/-- A value that is no table and no array, wherever it is written. -/
inductive Scalar where
  | string (s : String)
  | integer (n : Int)
  | float (x : Float)
  | boolean (b : Bool)
  | datetime

def scalar? : Value → Option Scalar
  | .string s _ => some (.string s)
  | .integer n _ => some (.integer n)
  | .float x _ => some (.float x)
  | .boolean b _ => some (.boolean b)
  | .datetime _ => some .datetime
  | .array _ _ => none
  | .table _ _ _ => none
  | .tables _ _ => none

/-- What a scalar says. A strength is given by its name, and a number also by an integer. -/
inductive Gives : Scalar → Datum → Prop
  | strength (s : Strength) : Gives (.string s.name) (.strength s)
  | count (n : Nat) : Gives (.integer n) (.count n)
  | float (x : Float) : Gives (.float x) (.number x)
  | whole (n : Int) : Gives (.integer n) (.number (Float.ofInt n))

/-- A field that holds such a datum can be given by the scalar. -/
def Accepts : Datum → Scalar → Prop
  | .strength _, .string name => ∃ s : Strength, s.name = name
  | .count _, .integer n => 0 ≤ n
  | .number _, .float _ => True
  | .number _, .integer _ => True
  | _, _ => False

variable {α σ δ : Type} {c : Scalar} {d d' : Datum} {v : Value} {key : Key} {entries : Entries}

/-! ## Scalars and data -/

section Data

theorem gives_strength_iff {l : Strength} : Gives c (.strength l) ↔ c = .string l.name := by
  constructor
  · intro h
    cases h
    rfl
  · rintro rfl
    exact .strength l

theorem gives_count_iff {n : Nat} : Gives c (.count n) ↔ c = .integer n := by
  constructor
  · intro h
    cases h
    rfl
  · rintro rfl
    exact .count n

theorem gives_number_iff {x : Float} :
    Gives c (.number x) ↔ c = .float x ∨ ∃ n, c = .integer n ∧ x = Float.ofInt n := by
  constructor
  · intro h
    cases h with
    | float => exact .inl rfl
    | whole n => exact .inr ⟨n, rfl, rfl⟩
  · rintro (rfl | ⟨n, rfl, rfl⟩)
    · exact .float x
    · exact .whole n

/-- The data are both strengths, both counts or both numbers. -/
inductive SameKind : Datum → Datum → Prop
  | strength (l l' : Strength) : SameKind (.strength l) (.strength l')
  | count (n n' : Nat) : SameKind (.count n) (.count n')
  | number (x x' : Float) : SameKind (.number x) (.number x')

theorem Gives.unique (h : Gives c d) (h' : Gives c d') (hkind : SameKind d d') : d = d' := by
  cases hkind with
  | strength l l' =>
    rw [gives_strength_iff] at h h'
    have hname : l.name = l'.name := Scalar.string.inj (h.symm.trans h')
    have hlevel := Strength.ofName?_name l
    rw [hname, Strength.ofName?_name] at hlevel
    rw [Option.some.inj hlevel]
  | count n n' =>
    rw [gives_count_iff] at h h'
    rw [Int.ofNat.inj (Scalar.integer.inj (h.symm.trans h'))]
  | number x x' =>
    rw [gives_number_iff] at h h'
    rcases h with rfl | ⟨n, rfl, rfl⟩ <;> rcases h' with h' | ⟨n', h', rfl⟩ <;> cases h' <;> rfl

/-- The decoder reads the scalars that give a datum of one kind. -/
structure Decodes (decode : Decoder α) (mk : α → Datum) : Prop where
  ok_iff : ∀ {v c x}, scalar? v = some c → (decode v = .ok x ↔ Gives c (mk x))
  accepts_iff : ∀ {c x}, Accepts (mk x) c ↔ ∃ y, Gives c (mk y)

theorem strengthName_eq_ok_iff {name : String} {span : Option Span} {l : Strength} :
    strengthName name span = .ok l ↔ l.name = name := by
  rw [strengthName]
  constructor
  · intro h
    split at h
    · next hname =>
      obtain rfl := Except.ok.inj h
      exact Strength.name_of_ofName? hname
    · cases h
  · rintro rfl
    rw [Strength.ofName?_name]

theorem decodes_strength : Decodes strength .strength where
  ok_iff {v c l} hc := by
    rw [gives_strength_iff]
    cases v <;> cases hc
    case string name span =>
      rw [strength, strengthName_eq_ok_iff, Scalar.string.injEq]
      exact eq_comm
    all_goals simp [strength]
  accepts_iff {c l} := by
    simp only [gives_strength_iff]
    cases c <;> simp [Accepts, eq_comm]

theorem decodes_count : Decodes count .count where
  ok_iff {v c n} hc := by
    rw [gives_count_iff]
    cases v <;> cases hc
    case integer m span =>
      rw [count, Scalar.integer.injEq]
      split
      · rw [Except.ok.injEq]
        omega
      · simp only [reduceCtorEq, false_iff]
        omega
    all_goals simp [count]
  accepts_iff {c n} := by
    simp only [gives_count_iff]
    cases c with
    | integer m =>
      simp only [Accepts, Scalar.integer.injEq]
      exact ⟨Int.eq_ofNat_of_zero_le, fun ⟨n, hn⟩ => hn ▸ Int.natCast_nonneg n⟩
    | _ => simp [Accepts]

theorem decodes_number : Decodes number .number where
  ok_iff {v c x} hc := by
    rw [gives_number_iff]
    cases v <;> cases hc <;> simp [number, eq_comm]
  accepts_iff {c x} := by
    simp only [gives_number_iff]
    cases c <;> simp [Accepts]

end Data

/-! ## Setting entries -/

section Entries

theorem bind_eq_ok {x : Except Misfit α} {f : α → Except Misfit σ} {b : σ} :
    (x >>= f) = .ok b ↔ ∃ a, x = .ok a ∧ f a = .ok b := by
  cases x with
  | error m => simp [bind, Except.bind]
  | ok a => simp [bind, Except.bind]

theorem atSpan_eq_ok_iff {span : Option Span} {x : Except Misfit α} {a : α} :
    atSpan span x = .ok a ↔ x = .ok a := by
  rcases x with ⟨reason, _ | place⟩ | b <;> simp [atSpan]

/-- What setting an entry does to a record, seen through what the record holds under each name. `Domain`
says which values are looked at, `Fits` which of them a name takes, and `Puts` what such a value makes of
what was there. -/
structure Acts (fields : List (Field σ)) (get : σ → String → δ) (Domain : Value → Prop)
    (Fits : String → Value → Prop) (Puts : Value → δ → δ → Prop) : Prop where
  isOk_iff : ∀ s key {v}, Domain v → ((∃ s', setEntry fields s (key, v) = .ok s') ↔ Fits key.item v)
  puts : ∀ {s s' key v}, Domain v → setEntry fields s (key, v) = .ok s' →
    Puts v (get s key.item) (get s' key.item)
  keeps : ∀ {s s' key v}, Domain v → setEntry fields s (key, v) = .ok s' →
    ∀ name, name ≠ key.item → get s' name = get s name

variable {fields : List (Field σ)} {get : σ → String → δ} {Domain : Value → Prop}
  {Fits : String → Value → Prop} {Puts : Value → δ → δ → Prop} {r r' : σ}

theorem setEntries_cons_eq_ok_iff {e : Key × Value} : setEntries fields r (e :: entries) = .ok r' ↔
    ∃ r₁, setEntry fields r e = .ok r₁ ∧ setEntries fields r₁ entries = .ok r' := by
  rw [setEntries, List.foldlM_cons, bind_eq_ok]
  rfl

/-- All entries can be set if each of them can. -/
theorem Acts.isOk_setEntries (h : Acts fields get Domain Fits Puts) (hdomain : ∀ e ∈ entries, Domain e.2)
    (r : σ) : (∃ r', setEntries fields r entries = .ok r') ↔ ∀ e ∈ entries, Fits e.1.item e.2 := by
  induction entries generalizing r with
  | nil => exact ⟨by simp, fun _ => ⟨r, rfl⟩⟩
  | cons e entries ih =>
    obtain ⟨he, hentries⟩ := List.forall_mem_cons.1 hdomain
    simp only [setEntries_cons_eq_ok_iff, List.forall_mem_cons]
    constructor
    · rintro ⟨r', r₁, hfirst, hrest⟩
      exact ⟨(h.isOk_iff r e.1 he).1 ⟨r₁, hfirst⟩, (ih hentries r₁).1 ⟨r', hrest⟩⟩
    · rintro ⟨hfirst, hrest⟩
      obtain ⟨r₁, hr₁⟩ := (h.isOk_iff r e.1 he).2 hfirst
      obtain ⟨r', hr'⟩ := (ih hentries r₁).2 hrest
      exact ⟨r', r₁, hr₁, hr'⟩

theorem Acts.keeps_setEntries (h : Acts fields get Domain Fits Puts) (hdomain : ∀ e ∈ entries, Domain e.2)
    (hset : setEntries fields r entries = .ok r') {name : String}
    (hname : ∀ e ∈ entries, e.1.item ≠ name) : get r' name = get r name := by
  induction entries generalizing r with
  | nil =>
    obtain rfl := Except.ok.inj hset
    rfl
  | cons e entries ih =>
    obtain ⟨he, hentries⟩ := List.forall_mem_cons.1 hdomain
    obtain ⟨hother, hothers⟩ := List.forall_mem_cons.1 hname
    obtain ⟨r₁, hfirst, hrest⟩ := setEntries_cons_eq_ok_iff.1 hset
    exact (ih hentries hrest hothers).trans (h.keeps he hfirst name hother.symm)

/-- An entry does what it does as if it were the only one, as no other entry has its key. -/
theorem Acts.puts_setEntries (h : Acts fields get Domain Fits Puts) (hdomain : ∀ e ∈ entries, Domain e.2)
    (hkeys : (entries.map (·.1.item)).Nodup) (hset : setEntries fields r entries = .ok r')
    {e : Key × Value} (he : e ∈ entries) : Puts e.2 (get r e.1.item) (get r' e.1.item) := by
  induction entries generalizing r with
  | nil => cases he
  | cons e' entries ih =>
    obtain ⟨he', hentries⟩ := List.forall_mem_cons.1 hdomain
    obtain ⟨hnew, hkeys⟩ := List.nodup_cons.1 hkeys
    obtain ⟨r₁, hfirst, hrest⟩ := setEntries_cons_eq_ok_iff.1 hset
    rcases List.mem_cons.1 he with rfl | he
    · have hkept : get r' e.1.item = get r₁ e.1.item := by
        refine h.keeps_setEntries hentries hrest fun e'' he'' heq => hnew ?_
        exact List.mem_map.2 ⟨e'', he'', heq⟩
      rw [hkept]
      exact h.puts he' hfirst
    · have hother : e.1.item ≠ e'.1.item := by
        intro heq
        exact hnew (List.mem_map.2 ⟨e, he, heq⟩)
      rw [← h.keeps he' hfirst _ hother]
      exact ih hentries hkeys hrest he

end Entries

/-! ## Fields of a section -/

section Fields

variable {fields : List (Field σ)} {datum? : σ → String → Option Datum} {r : σ}

/-- The field is read by one decoder, and shows under its name only. -/
structure Shows (datum? : σ → String → Option Datum) (name : String) (decode : Decoder α)
    (update : σ → α → σ) (mk : α → Datum) : Prop where
  decodes : Decodes decode mk
  shown : ∀ r, ∃ x, datum? r name = some (mk x)
  updated : ∀ r x, datum? (update r x) name = some (mk x)
  others : ∀ r x other, other ≠ name → datum? (update r x) other = datum? r other

/-- The fields of a record are what it holds. -/
structure Covers (fields : List (Field σ)) (datum? : σ → String → Option Datum) : Prop where
  shows : ∀ f ∈ fields, ∃ (α : Type) (decode : Decoder α) (update : σ → α → σ) (mk : α → Datum),
    f = field f.name decode update ∧ Shows datum? f.name decode update mk
  known : ∀ r name, datum? r name ≠ none → name ∈ fields.map (·.name)

theorem setEntry_eq_ok_iff {fields : List (Field σ)} {r r' : σ} :
    setEntry fields r (key, v) = .ok r' ↔
      ∃ f, fields.find? (·.name == key.item) = some f ∧ f.set v r = .ok r' := by
  rw [setEntry]
  cases fields.find? (·.name == key.item) with
  | none => simp
  | some f => simp [atSpan_eq_ok_iff]

theorem field_set_eq_ok_iff {name : String} {decode : Decoder α} {update : σ → α → σ} {r r' : σ} :
    (field name decode update).set v r = .ok r' ↔ ∃ x, decode v = .ok x ∧ update r x = r' := by
  simp only [field, bind_eq_ok, pure, Except.pure, Except.ok.injEq]

theorem find?_name_eq_some {f : Field σ} {name : String}
    (h : fields.find? (·.name == name) = some f) : f ∈ fields ∧ f.name = name :=
  ⟨List.mem_of_find?_eq_some h, by simpa using List.find?_some h⟩

theorem exists_find?_name {name : String} (h : name ∈ fields.map (·.name)) :
    ∃ f, fields.find? (·.name == name) = some f := by
  obtain ⟨f, hf, hname⟩ := List.mem_map.1 h
  exact Option.isSome_iff_exists.1 (List.find?_isSome.2 ⟨f, hf, by simpa using hname⟩)

/-- What is read for an entry that can be set. -/
theorem Covers.exists_of_setEntry {r r' : σ} (h : Covers fields datum?)
    (hset : setEntry fields r (key, v) = .ok r') :
    ∃ (α : Type) (decode : Decoder α) (update : σ → α → σ) (mk : α → Datum) (x : α),
      Shows datum? key.item decode update mk ∧ decode v = .ok x ∧ update r x = r' := by
  obtain ⟨f, hfind, hset⟩ := setEntry_eq_ok_iff.1 hset
  obtain ⟨hf, hname⟩ := find?_name_eq_some hfind
  obtain ⟨α, decode, update, mk, hfield, hshows⟩ := h.shows f hf
  rw [hfield] at hset
  obtain ⟨x, hx, hr'⟩ := field_set_eq_ok_iff.1 hset
  exact ⟨α, decode, update, mk, x, hname ▸ hshows, hx, hr'⟩

/-- Setting a field of a section to a scalar. -/
theorem Covers.acts (h : Covers fields datum?) (r₀ : σ) :
    Acts fields datum? (fun v => (scalar? v).isSome)
      (fun name v => ∀ c, scalar? v = some c → ∃ d, datum? r₀ name = some d ∧ Accepts d c)
      (fun v _ d' => ∀ c, scalar? v = some c → ∃ d, d' = some d ∧ Gives c d) where
  isOk_iff r key v hv := by
    obtain ⟨c, hc⟩ := Option.isSome_iff_exists.1 hv
    constructor
    · rintro ⟨r', hset⟩ c' hc'
      obtain ⟨α, decode, update, mk, x, hshows, hx, -⟩ := h.exists_of_setEntry hset
      obtain ⟨y, hy⟩ := hshows.shown r₀
      exact ⟨mk y, hy, hshows.decodes.accepts_iff.2 ⟨x, (hshows.decodes.ok_iff hc').1 hx⟩⟩
    · intro hfits
      obtain ⟨d, hd, haccepts⟩ := hfits c hc
      obtain ⟨f, hfind⟩ := exists_find?_name (h.known r₀ key.item (by simp [hd]))
      obtain ⟨hf, hname⟩ := find?_name_eq_some hfind
      obtain ⟨α, decode, update, mk, hfield, hshows⟩ := h.shows f hf
      obtain ⟨y, hy⟩ := hshows.shown r₀
      rw [hname, hd] at hy
      obtain rfl := Option.some.inj hy
      obtain ⟨x, hx⟩ := hshows.decodes.accepts_iff.1 haccepts
      refine ⟨update r x, setEntry_eq_ok_iff.2 ⟨f, hfind, ?_⟩⟩
      rw [hfield]
      exact field_set_eq_ok_iff.2 ⟨x, (hshows.decodes.ok_iff hc).2 hx, rfl⟩
  puts {r r' key v} _ hset c hc := by
    obtain ⟨α, decode, update, mk, x, hshows, hx, rfl⟩ := h.exists_of_setEntry hset
    exact ⟨mk x, hshows.updated r x, (hshows.decodes.ok_iff hc).1 hx⟩
  keeps {r r' key v} _ hset name hne := by
    obtain ⟨α, decode, update, mk, x, hshows, -, rfl⟩ := h.exists_of_setEntry hset
    exact hshows.others r x name hne

theorem covers_scriptFields : Covers scriptFields ScriptSettings.datum? where
  shows := by
    simp only [scriptFields, List.forall_mem_cons]
    refine ⟨⟨_, _, _, _, rfl, decodes_strength, fun _ => ⟨_, rfl⟩, fun _ _ => rfl, ?_⟩,
      ⟨_, _, _, _, rfl, decodes_count, fun _ => ⟨_, rfl⟩, fun _ _ => rfl, ?_⟩, by simp⟩
    -- the other key is no field, another one or, which is excluded, the same one
    all_goals
      intro r x other hne
      unfold ScriptSettings.datum?
      split <;> first | rfl | exact absurd rfl hne
  known r name h := by
    unfold ScriptSettings.datum? at h
    split at h
    case h_3 => exact absurd rfl h
    all_goals simp [scriptFields, field]

theorem covers_chainFields : Covers chainFields ChainSettings.datum? where
  shows := by
    simp only [chainFields, List.forall_mem_cons]
    refine ⟨⟨_, _, _, _, rfl, decodes_count, fun _ => ⟨_, rfl⟩, fun _ _ => rfl, ?_⟩,
      ⟨_, _, _, _, rfl, decodes_strength, fun _ => ⟨_, rfl⟩, fun _ _ => rfl, ?_⟩,
      ⟨_, _, _, _, rfl, decodes_strength, fun _ => ⟨_, rfl⟩, fun _ _ => rfl, ?_⟩,
      ⟨_, _, _, _, rfl, decodes_count, fun _ => ⟨_, rfl⟩, fun _ _ => rfl, ?_⟩, by simp⟩
    all_goals
      intro r x other hne
      unfold ChainSettings.datum?
      split <;> first | rfl | exact absurd rfl hne
  known r name h := by
    unfold ChainSettings.datum? at h
    split at h
    case h_5 => exact absurd rfl h
    all_goals simp [chainFields, field]

theorem covers_projectionFields : Covers projectionFields ProjectionSettings.datum? where
  shows := by
    simp only [projectionFields, List.forall_mem_cons]
    refine ⟨⟨_, _, _, _, rfl, decodes_count, fun _ => ⟨_, rfl⟩, fun _ _ => rfl, ?_⟩,
      ⟨_, _, _, _, rfl, decodes_number, fun _ => ⟨_, rfl⟩, fun _ _ => rfl, ?_⟩,
      ⟨_, _, _, _, rfl, decodes_number, fun _ => ⟨_, rfl⟩, fun _ _ => rfl, ?_⟩,
      ⟨_, _, _, _, rfl, decodes_strength, fun _ => ⟨_, rfl⟩, fun _ _ => rfl, ?_⟩,
      ⟨_, _, _, _, rfl, decodes_strength, fun _ => ⟨_, rfl⟩, fun _ _ => rfl, ?_⟩,
      ⟨_, _, _, _, rfl, decodes_count, fun _ => ⟨_, rfl⟩, fun _ _ => rfl, ?_⟩, by simp⟩
    all_goals
      intro r x other hne
      unfold ProjectionSettings.datum?
      split <;> first | rfl | exact absurd rfl hne
  known r name h := by
    unfold ProjectionSettings.datum? at h
    split at h
    case h_7 => exact absurd rfl h
    all_goals simp [projectionFields, field]

end Fields

end Settings

end ConstraintHierarchy
