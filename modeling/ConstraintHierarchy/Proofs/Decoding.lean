import Mathlib
import ConstraintHierarchy.Settings.Document
import ConstraintHierarchy.Proofs.Fields
import ConstraintHierarchy.Proofs.Keys

/-!
# Decoding of settings

A document whose values are tables of scalars makes settings exactly if all its keys are known and all
its scalars are of the right kind. Every field that it lists then holds what is written, and the others
hold what they do when nothing is said. A section is set like a field of a section, by the table of its
entries.

## Main definitions

* `initially`: all fields, with what they hold when nothing is said
* `Settings.datum?`: what settings hold
* `Admissible`, `Reflects`: the documents that make settings, and the settings that they make
* `SameContent`: documents that say the same in another order

## Main results

* `acts_sections`: setting a section to a table of scalars
* `isOk_decode_iff`, `reflects_of_decode`: what a document makes
* `Reflects.unique`: there is nothing else that settings hold
* `parse_field_by_field`: which documents make settings, and which settings they make
-/

namespace ConstraintHierarchy

open Toml (Key Value Entries)

/-- What the settings hold under a key of a section. -/
def Settings.datum? (s : Settings) : String → String → Option Datum
  | "script" => s.script.datum?
  | "chain" => s.chain.datum?
  | "projection" => s.projection.datum?
  | _ => fun _ => none

namespace Settings

/-! ## What a document says -/

/-- The entries of a table. -/
def table? : Value → Option Entries
  | .table _ sub _ => some sub
  | _ => none

/-- All fields by section and key, with what they hold when nothing is said. -/
def initially : String → String → Option Datum
  | "script", "edit_strength" => some (.strength .preferred)
  | "script", "change_iterations" => some (.count 10)
  | "chain", "length" => some (.count 100)
  | "chain", "stay_strength" => some (.strength .strongDefault)
  | "chain", "edit_strength" => some (.strength .preferred)
  | "chain", "iterations" => some (.count 100)
  | "projection", "size" => some (.count 100)
  | "projection", "scale" => some (.number 10.0)
  | "projection", "offset" => some (.number 1000.0)
  | "projection", "stay_strength" => some (.strength .normal)
  | "projection", "edit_strength" => some (.strength .preferred)
  | "projection", "change_iterations" => some (.count 10)
  | _, _ => none

/-- The values of a document are tables of scalars. -/
def TablesOfScalars (entries : Entries) : Prop :=
  ∀ e ∈ entries, ∃ sub, table? e.2 = some sub ∧ ∀ e' ∈ sub, (scalar? e'.2).isSome

/-- A table lists the scalar under the key. -/
def Listed (sub : Entries) (key : String) (c : Scalar) : Prop :=
  ∃ e ∈ sub, e.1.item = key ∧ scalar? e.2 = some c

/-- A document lists the scalar under the key of a section. -/
def Lists (entries : Entries) (name key : String) (c : Scalar) : Prop :=
  ∃ e ∈ entries, e.1.item = name ∧ ∃ sub, table? e.2 = some sub ∧ Listed sub key c

/-- All that a document lists, in its order. -/
def listing (entries : Entries) : List (String × String × Scalar) :=
  entries.flatMap fun e => ((table? e.2).getD []).filterMap fun e' =>
    (scalar? e'.2).map fun c => (e.1.item, e'.1.item, c)

/-- The document has known sections, and these list known fields with scalars of the right kind. -/
structure Admissible (entries : Entries) : Prop where
  sections : ∀ e ∈ entries, e.1.item ∈ ["script", "chain", "projection"]
  fields : ∀ name key c, Lists entries name key c → ∃ d, initially name key = some d ∧ Accepts d c

/-- The settings hold what the document lists, and what they hold anyway under the other keys. -/
structure Reflects (entries : Entries) (s : Settings) : Prop where
  given : ∀ name key c, Lists entries name key c → ∃ d, s.datum? name key = some d ∧ Gives c d
  omitted : ∀ name key, (∀ c, ¬ Lists entries name key c) → s.datum? name key = initially name key

/-- The documents have the same sections, and these list the same scalars under the same keys, in
whatever order and spelling. -/
structure SameContent (entries entries' : Entries) : Prop where
  sections : ∀ name, (∃ e ∈ entries, e.1.item = name) ↔ ∃ e ∈ entries', e.1.item = name
  fields : ∀ name key c, Lists entries name key c ↔ Lists entries' name key c

variable {ρ : Type} {c : Scalar} {d d' : Datum} {v : Value} {key : Key} {s s' : Settings}
  {entries entries' : Entries}

/-! ## Sections -/

section Sections

/-- The field of the settings is a record of its own, which shows under the name and nowhere else. -/
structure IsSection (f : Field Settings) (fields : List (Field ρ)) (datum? : ρ → String → Option Datum)
    (part : Settings → ρ) (put : Settings → ρ → Settings) : Prop where
  covers : Covers fields datum?
  set_table : ∀ origin sub span s, f.set (.table origin sub span) s =
    setEntries fields (part s) sub >>= fun r => pure (put s r)
  shown : ∀ s, s.datum? f.name = datum? (part s)
  part_put : ∀ s r, part (put s r) = r
  others : ∀ s r other, other ≠ f.name → (put s r).datum? other = s.datum? other

theorem datum?_congr {name : String} (hscript : name = "script" → s.script = s'.script)
    (hchain : name = "chain" → s.chain = s'.chain)
    (hprojection : name = "projection" → s.projection = s'.projection) :
    s.datum? name = s'.datum? name := by
  unfold Settings.datum?
  split
  · rw [hscript rfl]
  · rw [hchain rfl]
  · rw [hprojection rfl]
  · rfl

theorem exists_section {f : Field Settings} (hf : f ∈ sections) :
    ∃ (ρ : Type) (fields : List (Field ρ)) (datum? : ρ → String → Option Datum) (part : Settings → ρ)
      (put : Settings → ρ → Settings), IsSection f fields datum? part put := by
  simp only [sections, List.mem_cons, List.not_mem_nil, or_false] at hf
  rcases hf with rfl | rfl | rfl
  · refine ⟨_, _, _, Settings.script, fun s r => { s with script := r }, covers_scriptFields,
      fun _ _ _ _ => rfl, fun _ => rfl, fun _ _ => rfl, fun s r other hne => ?_⟩
    exact datum?_congr (fun h => absurd h hne) (fun _ => rfl) fun _ => rfl
  · refine ⟨_, _, _, Settings.chain, fun s r => { s with chain := r }, covers_chainFields,
      fun _ _ _ _ => rfl, fun _ => rfl, fun _ _ => rfl, fun s r other hne => ?_⟩
    exact datum?_congr (fun _ => rfl) (fun h => absurd h hne) fun _ => rfl
  · refine ⟨_, _, _, Settings.projection, fun s r => { s with projection := r },
      covers_projectionFields, fun _ _ _ _ => rfl, fun _ => rfl, fun _ _ => rfl,
      fun s r other hne => ?_⟩
    exact datum?_congr (fun _ => rfl) (fun _ => rfl) fun h => absurd h hne

theorem datum?_initial (name key : String) : initial.datum? name key = initially name key := by
  unfold initially
  split
  -- a key of no field
  case h_13 =>
    unfold Settings.datum?
    split
    · unfold ScriptSettings.datum?
      split <;> simp_all
    · unfold ChainSettings.datum?
      split <;> simp_all
    · unfold ProjectionSettings.datum?
      split <;> simp_all
    · rfl
  all_goals rfl

variable {f : Field Settings} {fields : List (Field ρ)} {datum? : ρ → String → Option Datum}
  {part : Settings → ρ} {put : Settings → ρ → Settings} {sub : Entries} {r : ρ}

theorem table?_eq_some_iff : table? v = some sub ↔ ∃ origin span, v = .table origin sub span := by
  cases v <;> simp [table?]

theorem IsSection.set_eq_ok_iff (h : IsSection f fields datum? part put) (hv : table? v = some sub) :
    f.set v s = .ok s' ↔ ∃ r, setEntries fields (part s) sub = .ok r ∧ put s r = s' := by
  obtain ⟨origin, span, rfl⟩ := table?_eq_some_iff.1 hv
  simp only [h.set_table, bind_eq_ok, pure, Except.pure, Except.ok.injEq]

theorem IsSection.datum?_initial (h : IsSection f fields datum? part put) (key : String) :
    datum? (part initial) key = initially f.name key := by
  rw [← h.shown, Settings.datum?_initial]

theorem IsSection.isOk_iff (h : IsSection f fields datum? part put)
    (hscalars : ∀ e ∈ sub, (scalar? e.2).isSome) (s : Settings) :
    (∃ r, setEntries fields (part s) sub = .ok r) ↔
      ∀ key c, Listed sub key c → ∃ d, initially f.name key = some d ∧ Accepts d c := by
  rw [(h.covers.acts (part initial)).isOk_setEntries hscalars]
  simp only [h.datum?_initial]
  constructor
  · rintro hfits key c ⟨e, he, rfl, hc⟩
    exact hfits e he c hc
  · intro hfits e he c hc
    exact hfits e.1.item c ⟨e, he, rfl, hc⟩

theorem IsSection.puts (h : IsSection f fields datum? part put) (hkeys : (sub.map (·.1.item)).Nodup)
    (hscalars : ∀ e ∈ sub, (scalar? e.2).isSome) (hset : setEntries fields (part s) sub = .ok r) :
    (∀ key c, Listed sub key c → ∃ d, (put s r).datum? f.name key = some d ∧ Gives c d) ∧
      ∀ key, (∀ c, ¬ Listed sub key c) → (put s r).datum? f.name key = s.datum? f.name key := by
  have hacts := h.covers.acts (part initial)
  simp only [h.shown, h.part_put]
  constructor
  · rintro key c ⟨e, he, rfl, hc⟩
    exact hacts.puts_setEntries hscalars hkeys hset he c hc
  · intro key homitted
    refine hacts.keeps_setEntries hscalars hset fun e he hkey => ?_
    obtain ⟨c, hc⟩ := Option.isSome_iff_exists.1 (hscalars e he)
    exact homitted c ⟨e, he, hkey, hc⟩

/-- What is read for a table that can be set. -/
theorem exists_of_setEntry_sections (hsub : table? v = some sub)
    (hset : setEntry sections s (key, v) = .ok s') :
    ∃ (f : Field Settings) (ρ : Type) (fields : List (Field ρ)) (datum? : ρ → String → Option Datum)
      (part : Settings → ρ) (put : Settings → ρ → Settings) (r : ρ), f ∈ sections ∧
        f.name = key.item ∧ IsSection f fields datum? part put ∧
        setEntries fields (part s) sub = .ok r ∧ put s r = s' := by
  obtain ⟨f, hfind, hset⟩ := setEntry_eq_ok_iff.1 hset
  obtain ⟨hf, hname⟩ := find?_name_eq_some hfind
  obtain ⟨ρ, fields, datum?, part, put, hsection⟩ := exists_section hf
  obtain ⟨r, hr, hs'⟩ := (hsection.set_eq_ok_iff hsub).1 hset
  exact ⟨f, ρ, fields, datum?, part, put, r, hf, hname, hsection, hr, hs'⟩

/-- Setting a section to a table of scalars. -/
theorem acts_sections : Acts sections Settings.datum?
    (fun v => ∃ sub, table? v = some sub ∧ (sub.map (·.1.item)).Nodup ∧
      ∀ e ∈ sub, (scalar? e.2).isSome)
    (fun name v => name ∈ ["script", "chain", "projection"] ∧ ∀ sub, table? v = some sub →
      ∀ key c, Listed sub key c → ∃ d, initially name key = some d ∧ Accepts d c)
    (fun v data data' => ∀ sub, table? v = some sub →
      (∀ key c, Listed sub key c → ∃ d, data' key = some d ∧ Gives c d) ∧
        ∀ key, (∀ c, ¬ Listed sub key c) → data' key = data key) where
  isOk_iff s key v := by
    rintro ⟨sub, hsub, hkeys, hscalars⟩
    constructor
    · rintro ⟨s', hset⟩
      obtain ⟨f, ρ, fields, datum?, part, put, r, hf, hname, hsection, hr, -⟩ :=
        exists_of_setEntry_sections hsub hset
      rw [← hname]
      refine ⟨List.mem_map_of_mem hf, fun sub' hsub' => ?_⟩
      obtain rfl := Option.some.inj (hsub.symm.trans hsub')
      exact (hsection.isOk_iff hscalars s).1 ⟨r, hr⟩
    · rintro ⟨hname, hfits⟩
      obtain ⟨f, hfind⟩ : ∃ f, sections.find? (·.name == key.item) = some f := exists_find?_name hname
      obtain ⟨hf, hname⟩ := find?_name_eq_some hfind
      obtain ⟨ρ, fields, datum?, part, put, hsection⟩ := exists_section hf
      obtain ⟨r, hr⟩ := (hsection.isOk_iff hscalars s).2 (hname ▸ hfits sub hsub)
      exact ⟨put s r, setEntry_eq_ok_iff.2 ⟨f, hfind, (hsection.set_eq_ok_iff hsub).2 ⟨r, hr, rfl⟩⟩⟩
  puts {s s' key v} := by
    rintro ⟨sub, hsub, hkeys, hscalars⟩ hset sub' hsub'
    obtain rfl := Option.some.inj (hsub.symm.trans hsub')
    obtain ⟨f, ρ, fields, datum?, part, put, r, hf, hname, hsection, hr, rfl⟩ :=
      exists_of_setEntry_sections hsub hset
    rw [← hname]
    exact hsection.puts hkeys hscalars hr
  keeps {s s' key v} := by
    rintro ⟨sub, hsub, -⟩ hset name hne
    obtain ⟨f, ρ, fields, datum?, part, put, r, hf, hname, hsection, -, rfl⟩ :=
      exists_of_setEntry_sections hsub hset
    exact hsection.others s r name (hname ▸ hne)

end Sections

/-! ## Documents -/

section Documents

theorem domain_of_tablesOfScalars (hkeys : entries.WellKeyed) (hshape : TablesOfScalars entries) :
    ∀ e ∈ entries, ∃ sub, table? e.2 = some sub ∧ (sub.map (·.1.item)).Nodup ∧
      ∀ e' ∈ sub, (scalar? e'.2).isSome := by
  intro e he
  obtain ⟨sub, hsub, hscalars⟩ := hshape e he
  obtain ⟨origin, span, htable⟩ := table?_eq_some_iff.1 hsub
  have hvalue := hkeys.values e he
  rw [htable] at hvalue
  exact ⟨sub, hsub, (Entries.WellKeyed.ofTable hvalue).keys, hscalars⟩

theorem isOk_decode_iff (hkeys : entries.WellKeyed) (hshape : TablesOfScalars entries) :
    (∃ s, decode entries = .ok s) ↔ Admissible entries := by
  rw [decode, acts_sections.isOk_setEntries (domain_of_tablesOfScalars hkeys hshape)]
  constructor
  · intro hfits
    refine ⟨fun e he => (hfits e he).1, ?_⟩
    rintro name key c ⟨e, he, rfl, sub, hsub, hlisted⟩
    exact (hfits e he).2 sub hsub key c hlisted
  · intro h e he
    refine ⟨h.sections e he, fun sub hsub key c hlisted => ?_⟩
    exact h.fields e.1.item key c ⟨e, he, rfl, sub, hsub, hlisted⟩

theorem reflects_of_decode (hkeys : entries.WellKeyed) (hshape : TablesOfScalars entries)
    (h : decode entries = .ok s) : Reflects entries s where
  given := by
    rintro name key c ⟨e, he, rfl, sub, hsub, hlisted⟩
    have hputs := acts_sections.puts_setEntries (domain_of_tablesOfScalars hkeys hshape) hkeys.keys h he
    exact (hputs sub hsub).1 key c hlisted
  omitted name key homitted := by
    have hdomain := domain_of_tablesOfScalars hkeys hshape
    rw [← datum?_initial]
    by_cases hname : ∃ e ∈ entries, e.1.item = name
    · obtain ⟨e, he, rfl⟩ := hname
      obtain ⟨sub, hsub, -⟩ := hdomain e he
      have hputs := acts_sections.puts_setEntries hdomain hkeys.keys h he
      refine (hputs sub hsub).2 key fun c hlisted => homitted c ?_
      exact ⟨e, he, rfl, sub, hsub, hlisted⟩
    · exact congrFun (acts_sections.keeps_setEntries hdomain h (by simpa using hname)) key

/-- Settings that hold the same under all keys are the same. -/
theorem ext_datum? (h : s.datum? = s'.datum?) : s = s' := by
  obtain ⟨script, chain, projection⟩ := s
  obtain ⟨script', chain', projection'⟩ := s'
  have hscript : script = script' := by
    have hdatum := congrFun (congrFun h "script")
    cases script
    cases script'
    cases hdatum "edit_strength"
    cases hdatum "change_iterations"
    rfl
  have hchain : chain = chain' := by
    have hdatum := congrFun (congrFun h "chain")
    cases chain
    cases chain'
    cases hdatum "length"
    cases hdatum "stay_strength"
    cases hdatum "edit_strength"
    cases hdatum "iterations"
    rfl
  have hprojection : projection = projection' := by
    have hdatum := congrFun (congrFun h "projection")
    cases projection
    cases projection'
    cases hdatum "size"
    cases hdatum "scale"
    cases hdatum "offset"
    cases hdatum "stay_strength"
    cases hdatum "edit_strength"
    cases hdatum "change_iterations"
    rfl
  rw [hscript, hchain, hprojection]

/-- All settings hold a datum of the same kind under a key. -/
theorem sameKind_datum? {name key : String} (hd : s.datum? name key = some d)
    (hd' : s'.datum? name key = some d') : SameKind d d' := by
  unfold Settings.datum? at hd
  split at hd
  · unfold ScriptSettings.datum? at hd
    split at hd <;> cases hd <;> cases hd' <;> constructor
  · unfold ChainSettings.datum? at hd
    split at hd <;> cases hd <;> cases hd' <;> constructor
  · unfold ProjectionSettings.datum? at hd
    split at hd <;> cases hd <;> cases hd' <;> constructor
  · cases hd

theorem Reflects.unique (h : Reflects entries s) (h' : Reflects entries s') : s = s' := by
  refine ext_datum? (funext fun name => funext fun key => ?_)
  by_cases hlisted : ∃ c, Lists entries name key c
  · obtain ⟨c, hc⟩ := hlisted
    obtain ⟨d, hd, hgives⟩ := h.given name key c hc
    obtain ⟨d', hd', hgives'⟩ := h'.given name key c hc
    rw [hd, hd', hgives.unique hgives' (sameKind_datum? hd hd')]
  · have homitted := not_exists.1 hlisted
    rw [h.omitted name key homitted, h'.omitted name key homitted]

theorem SameContent.symm (h : SameContent entries entries') : SameContent entries' entries :=
  ⟨fun name => (h.sections name).symm, fun name key c => (h.fields name key c).symm⟩

theorem SameContent.admissible (h : SameContent entries entries') (hentries : Admissible entries) :
    Admissible entries' where
  sections e he := by
    obtain ⟨e', he', hname⟩ := (h.sections e.1.item).2 ⟨e, he, rfl⟩
    exact hname ▸ hentries.sections e' he'
  fields name key c hc := hentries.fields name key c ((h.fields name key c).2 hc)

theorem SameContent.reflects (h : SameContent entries entries') (hs : Reflects entries s) :
    Reflects entries' s where
  given name key c hc := hs.given name key c ((h.fields name key c).2 hc)
  omitted name key homitted :=
    hs.omitted name key fun c hc => homitted c ((h.fields name key c).1 hc)

/-- Documents with the same content make the same settings. -/
theorem SameContent.decode_eq_ok (h : SameContent entries entries') (hkeys : entries.WellKeyed)
    (hkeys' : entries'.WellKeyed) (hshape : TablesOfScalars entries) (hshape' : TablesOfScalars entries')
    (hs : decode entries = .ok s) : decode entries' = .ok s := by
  have hadmissible : Admissible entries' := h.admissible ((isOk_decode_iff hkeys hshape).1 ⟨s, hs⟩)
  obtain ⟨s', hs'⟩ := (isOk_decode_iff hkeys' hshape').2 hadmissible
  have hreflects : Reflects entries' s := h.reflects (reflects_of_decode hkeys hshape hs)
  rw [hreflects.unique (reflects_of_decode hkeys' hshape' hs'), hs']

theorem lists_iff_mem_listing {name key : String} :
    Lists entries name key c ↔ (name, key, c) ∈ listing entries := by
  simp only [Lists, Listed, listing, List.mem_flatMap, List.mem_filterMap, Option.map_eq_some_iff]
  constructor
  · rintro ⟨e, he, rfl, sub, hsub, e', he', rfl, hc⟩
    rw [← Option.getD_some (a := sub) (b := []), ← hsub] at he'
    exact ⟨e, he, e', he', c, hc, rfl⟩
  · rintro ⟨e, he, e', he', c', hc', heq⟩
    obtain ⟨rfl, hpair⟩ := Prod.mk.inj heq
    obtain ⟨rfl, rfl⟩ := Prod.mk.inj hpair
    cases hsub : table? e.2 with
    | none => simp [hsub] at he'
    | some sub =>
      rw [hsub, Option.getD_some] at he'
      exact ⟨e, he, rfl, sub, hsub, e', he', rfl, hc'⟩

theorem parse_eq_ok_iff {source : String} (h : Toml.parse? source = some entries) :
    parse source = .ok s ↔ decode entries = .ok s := by
  rw [parse, h]
  cases hdecode : decode entries <;> simp [hdecode]

end Documents

/-- A document whose values are tables of scalars makes settings exactly if its sections and the keys in
them are known and every scalar is of the kind that its field takes. The settings then hold what the
document lists, and in all other fields what they hold when nothing is said. The order in which the
sections and the keys stand does not matter. -/
theorem parse_field_by_field {source : String} {entries : Entries}
    (hdocument : Toml.parse? source = some entries) (hshape : TablesOfScalars entries) :
    ((∃ s, parse source = .ok s) ↔ Admissible entries) ∧
    (∀ s, parse source = .ok s → Reflects entries s) ∧
    ∀ source' entries', Toml.parse? source' = some entries' → TablesOfScalars entries' →
      SameContent entries entries' → ∀ s, parse source = .ok s ↔ parse source' = .ok s := by
  have hkeys := Toml.wellKeyed_of_parse? hdocument
  simp only [parse_eq_ok_iff hdocument]
  refine ⟨isOk_decode_iff hkeys hshape, fun s hs => reflects_of_decode hkeys hshape hs, ?_⟩
  intro source' entries' hdocument' hshape' hsame s
  have hkeys' := Toml.wellKeyed_of_parse? hdocument'
  rw [parse_eq_ok_iff hdocument']
  exact ⟨hsame.decode_eq_ok hkeys hkeys' hshape hshape',
    hsame.symm.decode_eq_ok hkeys' hkeys hshape' hshape⟩

/-- Three of the twelve fields. -/
def threeFields : String :=
  "[chain]\nlength = 7\nstay_strength = \"normal\"\n\n[projection]\nscale = 4\n"

def threeFieldsEntries : Entries :=
  [(⟨"chain", ⟨1, 6⟩⟩, .table .header
      [(⟨"length", ⟨8, 14⟩⟩, .integer 7 ⟨17, 18⟩),
       (⟨"stay_strength", ⟨19, 32⟩⟩, .string "normal" ⟨35, 43⟩)] (some ⟨0, 43⟩)),
   (⟨"projection", ⟨46, 56⟩⟩, .table .header
      [(⟨"scale", ⟨58, 63⟩⟩, .integer 4 ⟨66, 67⟩)] (some ⟨45, 67⟩))]

/-- The same fields in another order and spelling. -/
def reorderedFields : String :=
  "[projection]\nscale = 4\n[chain]\nstay_strength = 'normal'\nlength = 0x7\n"

def reorderedFieldsEntries : Entries :=
  [(⟨"projection", ⟨1, 11⟩⟩, .table .header
      [(⟨"scale", ⟨13, 18⟩⟩, .integer 4 ⟨21, 22⟩)] (some ⟨0, 22⟩)),
   (⟨"chain", ⟨24, 29⟩⟩, .table .header
      [(⟨"stay_strength", ⟨31, 44⟩⟩, .string "normal" ⟨47, 55⟩),
       (⟨"length", ⟨56, 62⟩⟩, .integer 7 ⟨65, 68⟩)] (some ⟨23, 68⟩))]

theorem sameContent_reorderedFields : SameContent threeFieldsEntries reorderedFieldsEntries where
  sections name := by
    have hreverse : reorderedFieldsEntries.map (·.1.item) =
      (threeFieldsEntries.map (·.1.item)).reverse := rfl
    rw [← List.mem_map, ← List.mem_map, hreverse, List.mem_reverse]
  fields name key c := by
    have hreverse : listing reorderedFieldsEntries = (listing threeFieldsEntries).reverse := rfl
    rw [lists_iff_mem_listing, lists_iff_mem_listing, hreverse, List.mem_reverse]

theorem admissible_threeFields : Admissible threeFieldsEntries where
  sections := by simp [threeFieldsEntries]
  fields name key c hc := by
    have hlisting : listing threeFieldsEntries = [("chain", "length", .integer 7),
      ("chain", "stay_strength", .string "normal"), ("projection", "scale", .integer 4)] := rfl
    rw [lists_iff_mem_listing, hlisting] at hc
    simp only [List.mem_cons, Prod.mk.injEq, List.not_mem_nil, or_false] at hc
    rcases hc with ⟨rfl, rfl, rfl⟩ | ⟨rfl, rfl, rfl⟩ | ⟨rfl, rfl, rfl⟩
    · exact ⟨_, rfl, by simp [Accepts]⟩
    · exact ⟨_, rfl, .normal, rfl⟩
    · exact ⟨_, rfl, trivial⟩

/-- A document in two orders makes the same settings, with what it lists and with the initial size. -/
theorem parse_field_by_field_reordered :
    Toml.parse? threeFields = some threeFieldsEntries ∧ TablesOfScalars threeFieldsEntries ∧
    Toml.parse? reorderedFields = some reorderedFieldsEntries ∧
    TablesOfScalars reorderedFieldsEntries ∧
    ∃ s, parse threeFields = .ok s ∧ parse reorderedFields = .ok s ∧
      s.chain.length = 7 ∧ s.chain.stayStrength = .normal ∧ s.projection.size = 100 := by
  have hdocument : Toml.parse? threeFields = some threeFieldsEntries := by cbv
  have hdocument' : Toml.parse? reorderedFields = some reorderedFieldsEntries := by cbv
  have hshape : TablesOfScalars threeFieldsEntries := by
    simp [-Prod.forall, TablesOfScalars, threeFieldsEntries, table?, scalar?]
  have hshape' : TablesOfScalars reorderedFieldsEntries := by
    simp [-Prod.forall, TablesOfScalars, reorderedFieldsEntries, table?, scalar?]
  obtain ⟨hok, hreflects, hsettings⟩ := parse_field_by_field hdocument hshape
  obtain ⟨s, hs⟩ := hok.2 admissible_threeFields
  have hs' := (hsettings _ _ hdocument' hshape' sameContent_reorderedFields s).1 hs
  refine ⟨hdocument, hshape, hdocument', hshape', s, hs, hs', ?_, ?_, ?_⟩
  · obtain ⟨_, hd, hgives⟩ := (hreflects s hs).given "chain" "length" (.integer 7)
      (lists_iff_mem_listing.2 (.head _))
    obtain rfl := Option.some.inj hd
    exact Datum.count.inj (hgives.unique (.count 7) (.count _ _))
  · obtain ⟨_, hd, hgives⟩ := (hreflects s hs).given "chain" "stay_strength" (.string "normal")
      (lists_iff_mem_listing.2 (.tail _ (.head _)))
    obtain rfl := Option.some.inj hd
    exact Datum.strength.inj (hgives.unique (.strength .normal) (.strength _ _))
  · have hsize := (hreflects s hs).omitted "projection" "size" fun c hc => by
      simpa [listing, threeFieldsEntries, table?, scalar?] using lists_iff_mem_listing.1 hc
    exact Datum.count.inj (Option.some.inj hsize)

end Settings

end ConstraintHierarchy
