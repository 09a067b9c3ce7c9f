import ConstraintHierarchy.Proofs.Effects
import ConstraintHierarchy.Proofs.Misfits
import ConstraintHierarchy.Proofs.Tiling
import ConstraintHierarchy.Script.Diagnostics

/-!
# Which errors can be shown

A report puts labels on the source, and it cannot do so if a label ends before it starts. All places
that errors point at come from tokens: the place of a token, of a name or of a whole statement, which
reaches from its first token to its last. They lie within the source. The one exception is the error at
the end of a source that is over too early. It reaches from the end of the source back to the end of the
last token, and there is nothing between them only if the source ends with that token.

## Main definitions

* `Span.Within`: a place in the source
* `BreaksOff`: a source that is over in the middle of a statement, with blanks or a comment at its end
* `Marks`: a property of all places that a statement mentions

## Main results

* `marks_of_parse`: the places that statements mention lie within the source
* `labels_executeAll`: errors point at places that the statements so far mention
* `report_shown_iff`: errors can be shown, except those at the end of a source that breaks off
-/

namespace ConstraintHierarchy

/-- The span lies within the source and does not end before it starts. -/
def Span.Within (span : Span) (source : String) : Prop :=
  span.start ≤ span.stop ∧ span.stop ≤ byteLength source.toList

namespace Script

/-- The source is over in the middle of a statement, and something follows its last token. -/
structure BreaksOff (source : String) : Prop where
  viable : Viable ((tokens source).map (·.item))
  incomplete : ¬ IsScript ((tokens source).map (·.item))
  trailing : ∃ t, (tokens source).getLast? = some t ∧ t.span.stop < byteLength source.toList

/-- All places that the statement mentions have the property. -/
def Marks (P : Span → Prop) (st : Located Statement) : Prop :=
  P st.span ∧ ∀ n ∈ st.item.names, P n.span

/-! ## Places of tokens and statements -/

section Places

variable {source : String} {phrase : List (Located Token)} {st : Located Statement}

theorem Placed.within {span : Span} {before text after : List Char}
    (h : Placed source span before text after) : span.Within source := by
  rw [h.span_eq, Span.Within, h.split, byteLength_append, byteLength_append]
  dsimp only
  omega

theorem within_of_mem_tokens {t : Located Token} (ht : t ∈ tokens source) : t.span.Within source := by
  obtain ⟨before, text, after, hplaced, -⟩ := (tiled_tokens source).cuts rfl ht
  exact hplaced.within

/-- The first token starts before the last one ends. -/
theorem start_le_stop (hwithin : ∀ t ∈ phrase, t.span.Within source)
    (hpairwise : phrase.Pairwise fun t u => t.span.stop ≤ u.span.start) {first last : Located Token}
    (hfirst : phrase.head? = some first) (hlast : phrase.getLast? = some last) :
    first.span.start ≤ last.span.stop := by
  have hmem := List.mem_of_getLast? hlast
  cases phrase with
  | nil => cases hmem
  | cons t phrase =>
    cases hfirst
    have hle := (hwithin first (by simp)).1
    rcases List.mem_cons.1 hmem with rfl | hmem
    · exact hle
    · have hbefore := (List.pairwise_cons.1 hpairwise).1 last hmem
      have hle' := (hwithin last (by simp [hmem])).1
      omega

theorem Spells.nameToken_mem {stmt : Statement} (h : Spells phrase stmt) {n : Name}
    (hn : n ∈ stmt.names) : nameToken n ∈ phrase := by
  cases h <;> simp only [Statement.names, List.mem_cons, List.not_mem_nil, or_false] at hn
  case scale => rcases hn with rfl | rfl | rfl | rfl <;> simp
  case equal => rcases hn with rfl | rfl <;> simp
  all_goals simp [hn]

theorem Reads.marks (h : Reads phrase st) (hwithin : ∀ t ∈ phrase, t.span.Within source)
    (hpairwise : phrase.Pairwise fun t u => t.span.stop ≤ u.span.start) :
    Marks (·.Within source) st := by
  refine ⟨?_, fun n hn => hwithin _ (h.spells.nameToken_mem hn)⟩
  obtain ⟨first, hfirst, hstart⟩ := Option.map_eq_some_iff.1 h.start
  obtain ⟨last, hlast, hstop⟩ := Option.map_eq_some_iff.1 h.stop
  rw [Span.Within, ← hstart, ← hstop]
  exact ⟨start_le_stop hwithin hpairwise hfirst hlast, (hwithin last (List.mem_of_getLast? hlast)).2⟩

/-- The places that the statements of a script mention lie within it. -/
theorem marks_of_parse {ss : List (Located Statement)} (h : parse source = .ok ss) (hst : st ∈ ss) :
    Marks (·.Within source) st := by
  obtain ⟨phrases, hreads, hflatten⟩ := statements_eq_ok.1 h
  obtain ⟨i, hi, rfl⟩ := List.mem_iff_getElem.1 hst
  have hlen := hreads.length_eq
  have hphrase : phrases[i] ∈ phrases := List.getElem_mem _
  have hsub : phrases[i].Sublist (tokens source) := hflatten ▸ List.sublist_flatten_of_mem hphrase
  exact (hreads.get (by omega) hi).marks (fun t ht => within_of_mem_tokens (hsub.mem ht))
    ((tiled_tokens source).pairwise.sublist hsub)

end Places

/-! ## Labels of script errors -/

section Labels

variable {P : Span → Prop} {s s' : Session} {st : Located Statement}

theorem Effect.names_of_ok (h : Effect s st (.ok () s')) (hst : Marks P st)
    (hs : ∀ d ∈ s.names, P d.span) : ∀ d ∈ s'.names, P d.span := by
  cases h with
  | declared hst' _ =>
    rw [Marks, hst'] at hst
    rintro d hd
    rcases List.mem_append.1 hd with hd | hd
    · exact hs d hd
    · rw [List.mem_singleton.1 hd]
      exact hst.2 _ (by simp [Statement.names])
  | _ => exact hs

/-- A refused statement points at itself, at one of its names, or at a declaration. -/
theorem Effect.labels_of_refused {e : ScriptError} (h : Effect s st (.error (.refused e) s'))
    (hst : Marks P st) (hs : ∀ d ∈ s.names, P d.span) : ∀ l ∈ e.diagnostic.labels, P l.span := by
  cases h with
  | undeclared hn _ => exact List.forall_mem_singleton.2 (hst.2 _ hn)
  | redeclared hst' hd =>
    rw [Marks, hst'] at hst
    exact List.forall_mem_cons.2 ⟨hst.2 _ (by simp [Statement.names]),
      List.forall_mem_singleton.2 (hs _ (List.mem_of_find?_eq_some hd))⟩
  | unsolved _ => exact List.forall_mem_singleton.2 hst.1
  | broken _ hf => exact absurd rfl (hf e)
  | unmet _ => exact List.forall_mem_singleton.2 hst.1

/-- The error of a run points at what its statements mention. -/
theorem labels_executeAll {settings : ScriptSettings} {ss : List (Located Statement)}
    {e : ScriptError} (hss : ∀ st ∈ ss, Marks P st) (hs : ∀ d ∈ s.names, P d.span)
    (h : executeAll settings ss s = .error (.refused e) s') : ∀ l ∈ e.diagnostic.labels, P l.span := by
  induction ss generalizing s with
  | nil => cases h
  | cons st ss ih =>
    obtain ⟨hst, hss⟩ := List.forall_mem_cons.1 hss
    have heffect := effect_execute settings st s
    have hexecute : executeAll settings (st :: ss) s =
        EStateM.bind (execute settings st) (fun _ => executeAll settings ss) s := rfl
    rw [hexecute, EStateM.bind] at h
    cases hrun : execute settings st s with
    | ok _ s₁ =>
      rw [hrun] at h heffect
      exact ih hss (heffect.names_of_ok hst hs) h
    | error f s₁ =>
      rw [hrun] at h heffect
      cases h
      exact heffect.labels_of_refused hst hs

end Labels

/-! ## Reports -/

theorem exists_report?_iff {d : Diagnostic} {source file : String} :
    (∃ text, d.report? source file = some text) ↔ ∀ l ∈ d.labels, l.span.start ≤ l.span.stop := by
  unfold Diagnostic.report?
  split
  next hany =>
    obtain ⟨l, hl, hlt⟩ := List.any_eq_true.1 hany
    refine ⟨nofun, fun h => ?_⟩
    have hle := h l hl
    have hlt' := of_decide_eq_true hlt
    omega
  next hany =>
    refine ⟨fun _ l hl => ?_, fun _ => ?_⟩
    · by_contra hlt
      exact hany (List.any_eq_true.2 ⟨l, hl, decide_eq_true (by omega)⟩)
    · dsimp only
      split <;> exact ⟨_, rfl⟩

/-- A parse error points at a token, unless the source is over too early. -/
theorem place_of_parse_error {source : String} {e : ParseError} (h : parse source = .error e) :
    (¬ Viable ((tokens source).map (·.item)) ∧ e.span.Within source) ∨
    (Viable ((tokens source).map (·.item)) ∧ ¬ IsScript ((tokens source).map (·.item)) ∧
      ∃ t, (tokens source).getLast? = some t ∧
        e.span = ⟨byteLength source.toList, t.span.stop⟩) := by
  obtain ⟨before, after, slots, hstops, rfl⟩ := statements_eq_error h
  cases after with
  | cons t after =>
    refine .inl ⟨fun hviable => ?_, ?_⟩
    · obtain ⟨-, slots', hslots⟩ := viable_iff.1 hviable
      rw [hstops.pending_eq_none] at hslots
      cases hslots
    · rw [complaint_cons_span]
      exact within_of_mem_tokens (by rw [hstops.split]; simp)
  | nil =>
    have hsplit := hstops.split
    rw [List.append_nil] at hsplit
    subst hsplit
    refine .inr ⟨viable_iff.2 ⟨fun t => writable_of_mem_tokens, slots, hstops.pending⟩,
      fun hscript => hstops.pending_ne (isScript_iff.1 hscript).2, ?_⟩
    rw [complaint_nil.1, endOfInput]
    cases hlast : (tokens source).getLast? with
    | some t => exact ⟨t, rfl, rfl⟩
    | none =>
      have hpending := hstops.pending
      rw [List.getLast?_eq_none_iff.1 hlast] at hpending
      exact absurd (Option.some.inj hpending).symm (hstops.incomplete rfl)

/-- The labels of a run that fails: all of them lie within the source, unless the source breaks off, and
then there is one, from the end of the source back to the end of its last token. -/
theorem labels_run {settings : ScriptSettings} {source : String} {patience : Nat} {f : Failure RunError}
    (h : (run settings source patience).result = .error f) :
    ∃ e, f = .refused e ∧
      ((¬ BreaksOff source ∧ ∀ l ∈ e.diagnostic.labels, l.span.Within source) ∨
        BreaksOff source ∧ ∃ t l, (tokens source).getLast? = some t ∧ e.diagnostic.labels = [l] ∧
          l.span = ⟨byteLength source.toList, t.span.stop⟩) := by
  rw [run] at h
  cases hparse : parse source with
  | error e =>
    rw [hparse] at h
    cases h
    refine ⟨.parse e, rfl, ?_⟩
    rcases place_of_parse_error hparse with ⟨hviable, hwithin⟩ | ⟨hviable, hscript, t, hlast, hspan⟩
    · exact .inl ⟨fun hbreaks => hviable hbreaks.viable, List.forall_mem_singleton.2 hwithin⟩
    · have hstop := (within_of_mem_tokens (List.mem_of_getLast? hlast)).2
      rcases Nat.lt_or_ge t.span.stop (byteLength source.toList) with hlt | hge
      · exact .inr ⟨⟨hviable, hscript, t, hlast, hlt⟩, t, _, hlast, rfl, hspan⟩
      · refine .inl ⟨fun hbreaks => ?_, List.forall_mem_singleton.2 ?_⟩
        · obtain ⟨t', hlast', hlt⟩ := hbreaks.trailing
          obtain rfl := Option.some.inj (hlast.symm.trans hlast')
          omega
        · show e.span.Within source
          rw [hspan]
          exact ⟨hge, hstop⟩
  | ok ss =>
    rw [hparse] at h
    dsimp only at h
    have hscript : IsScript ((tokens source).map (·.item)) :=
      isScript_iff.2 ⟨fun t => writable_of_mem_tokens, pending_of_statements hparse⟩
    rcases executeAll_returns settings ss .empty Network.ordered_empty with ⟨s', hrun⟩ | ⟨e, s', hrun, -⟩
    · rw [hrun] at h
      cases h
    · rw [hrun] at h
      cases h
      refine ⟨.script e, rfl, .inl ⟨fun hbreaks => hbreaks.incomplete hscript, ?_⟩⟩
      exact labels_executeAll (fun st => marks_of_parse hparse)
        (fun _ hd => absurd hd List.not_mem_nil) hrun

/-- Whatever makes a script fail, all labels on its source end within it. They lie within it, and the
error can be shown, unless the source is over in the middle of a statement and has blanks or a comment at
its end; then the only label ends before it starts, and there is no report. -/
theorem report_shown_iff (settings : ScriptSettings) (source file : String) {patience : Nat}
    {f : Failure RunError} (h : (run settings source patience).result = .error f) :
    ∃ e, f = .refused e ∧
      (∀ l ∈ e.diagnostic.labels, l.span.stop ≤ byteLength source.toList) ∧
      ((∀ l ∈ e.diagnostic.labels, l.span.Within source) ↔ ¬ BreaksOff source) ∧
      ((∃ text, e.diagnostic.report? source file = some text) ↔ ¬ BreaksOff source) ∧
      (BreaksOff source → ∃ t l, (tokens source).getLast? = some t ∧ e.diagnostic.labels = [l] ∧
        l.span = ⟨byteLength source.toList, t.span.stop⟩) := by
  obtain ⟨e, rfl, ⟨hkept, hwithin⟩ | ⟨hbreaks, t, l, hlast, hlabels, hspan⟩⟩ := labels_run h
  · exact ⟨e, rfl, fun l hl => (hwithin l hl).2, iff_of_true hwithin hkept,
      iff_of_true (exists_report?_iff.2 fun l hl => (hwithin l hl).1) hkept, fun hb => absurd hb hkept⟩
  · obtain ⟨t', hlast', hlt⟩ := hbreaks.trailing
    obtain rfl := Option.some.inj (hlast.symm.trans hlast')
    have hbackward : l.span.stop < l.span.start := by
      rw [hspan]
      exact hlt
    have hl : l ∈ e.diagnostic.labels := by simp [hlabels]
    refine ⟨e, rfl, ?_, iff_of_false (fun hall => ?_) (not_not_intro hbreaks),
      iff_of_false (fun hshown => ?_) (not_not_intro hbreaks), fun _ => ⟨t, l, hlast, hlabels, hspan⟩⟩
    · rw [hlabels, List.forall_mem_singleton, hspan]
      exact Nat.le_of_lt hlt
    · exact absurd (hall l hl).1 (Nat.not_le_of_lt hbackward)
    · exact absurd (exists_report?_iff.1 hshown l hl) (Nat.not_le_of_lt hbackward)

/-- The places that the labels of a failed run point at. -/
def labelSpans (source : String) : Option (List Span) :=
  match (run {} source).result with
  | .error (.refused e) => some (e.diagnostic.labels.map (·.span))
  | _ => none

theorem exists_of_labelSpans {source : String} {spans : List Span}
    (h : labelSpans source = some spans) :
    ∃ e, (run {} source).result = .error (.refused e) ∧ e.diagnostic.labels.map (·.span) = spans := by
  unfold labelSpans at h
  split at h
  next e he => exact ⟨e, he, Option.some.inj h⟩
  next => cases h

/-- A name that is declared twice is shown at both places, although a blank ends the source. -/
theorem report_shown_iff_redeclared :
    ∃ e, (run {} "var x = 1 var x = 2 ").result = .error (.refused e) ∧
      e.diagnostic.labels.map (·.span) = [⟨14, 15⟩, ⟨4, 5⟩] ∧ ¬ BreaksOff "var x = 1 var x = 2 " ∧
      ∃ text, e.diagnostic.report? "var x = 1 var x = 2 " "twice" = some text := by
  have hspans : labelSpans "var x = 1 var x = 2 " = some [⟨14, 15⟩, ⟨4, 5⟩] := by decide +kernel
  obtain ⟨e, hrun, hlabels⟩ := exists_of_labelSpans hspans
  obtain ⟨e', heq, -, hwithin, hshown, -⟩ := report_shown_iff {} _ "twice" hrun
  cases heq
  have hkept : ¬ BreaksOff "var x = 1 var x = 2 " := by
    refine hwithin.1 fun l hl => ?_
    have hmem : l.span ∈ [(⟨14, 15⟩ : Span), ⟨4, 5⟩] := hlabels ▸ List.mem_map_of_mem hl
    have hall : ∀ span ∈ [(⟨14, 15⟩ : Span), ⟨4, 5⟩], span.start ≤ span.stop ∧
        span.stop ≤ byteLength "var x = 1 var x = 2 ".toList := by decide +kernel
    exact hall l.span hmem
  exact ⟨e, hrun, hlabels, hkept, hshown.2 hkept⟩

/-- A statement that lacks its name is not shown if a blank ends the source. -/
theorem report_missing_after_blank :
    ∃ e, (run {} "print ").result = .error (.refused e) ∧
      e.diagnostic.labels.map (·.span) = [⟨6, 5⟩] ∧
      ∀ file, e.diagnostic.report? "print " file = none := by
  have hspans : labelSpans "print " = some [⟨6, 5⟩] := by decide +kernel
  obtain ⟨e, hrun, hlabels⟩ := exists_of_labelSpans hspans
  refine ⟨e, hrun, hlabels, fun file => Option.eq_none_iff_forall_ne_some.2 fun text htext => ?_⟩
  obtain ⟨l, hl, hspan⟩ := List.mem_map.1 (hlabels ▸ List.mem_singleton_self (⟨6, 5⟩ : Span))
  have hle := exists_report?_iff.1 ⟨text, htext⟩ l hl
  rw [hspan] at hle
  exact absurd hle (by decide)

end Script

end ConstraintHierarchy
