import ConstraintHierarchy.Proofs.Layout

/-!
# Where a text stops being a script

A text that is no script begins like one. Up to some token it could still become a script, and from that
token on it cannot; or it is over too early. The reader of statements does not know about other scripts:
all that it goes by is what has to come next in the statement it is about to read. This is enough,
because whatever is left of a statement can be completed, and so the token that the reader complains
about is the first one that fits no script with the same beginning.

## Main definitions

* `IsScript`, `Viable`: the tokens of a script, and those that a script can begin with
* `StatementNext`, `EqualsNext`, `StrengthNext`: what can come after the tokens of a beginning
* `Slot`, `pending`: what has to come to complete the last statement of a beginning
* `StopsAt`: where reading gets stuck

## Main results

* `statements_eq_error`: what a reader complains about
* `viable_iff`: a beginning is one that the reader gets through
* `parse_error_exact`: what the error of a text that is no script says
-/

namespace ConstraintHierarchy.Script

/-! ## Beginnings of scripts -/

/-- The tokens are all the tokens of some script. -/
def IsScript (items : List Token) : Prop :=
  ∃ source phrases, Composes phrases (tokens source) ∧ (tokens source).map (·.item) = items

/-- The tokens are the first ones of some script. -/
def Viable (items : List Token) : Prop :=
  ∃ source phrases, Composes phrases (tokens source) ∧ items <+: (tokens source).map (·.item)

/-- What has to stand at some place of a statement. -/
inductive Slot where
  | name
  | number
  | equals
  | strength
  deriving DecidableEq

/-- The token can stand at such a place. -/
def Slot.takes : Slot → Token → Bool
  | name, .identifier _ => true
  | number, .number _ => true
  | equals, .equals => true
  | strength, .identifier n => (Strength.ofName? n).isSome
  | _, _ => false

/-- The places after the keyword of a statement. -/
def Keyword.slots : Keyword → List Slot
  | var => [.name, .equals, .number]
  | stay => [.name, .strength]
  | edit => [.name, .strength]
  | equal => [.name, .name, .strength]
  | scale => [.name, .name, .name, .name, .strength]
  | change => [.name, .equals, .number]
  | expect => [.name, .equals, .number]
  | print => [.name]

/-- What is left of a statement after one more token; where nothing is left, another one starts. -/
def advance : List Slot → Token → Option (List Slot)
  | [], .keyword k => some k.slots
  | [], _ => none
  | s :: slots, t => if s.takes t then some slots else none

/-- What is left of the last statement after the given tokens, if they fit. -/
def pending (items : List Token) : Option (List Slot) := items.foldlM advance []

/-- More tokens go on from what is left. -/
theorem pending_append {items more : List Token} {slots : List Slot} (h : pending items = some slots) :
    pending (items ++ more) = more.foldlM advance slots := by
  rw [pending, List.foldlM_append]
  exact congrArg (· >>= fun slots => more.foldlM advance slots) h

/-- The complaint about a token at such a place, or about the end of the text. -/
def Slot.complaint (ending : Span) : Slot → List (Located Token) → ParseError
  | equals, ts => Reading.unexpected ending [Token.equals.describe] ts
  | strength, ⟨.identifier n, span⟩ :: _ => ⟨span, UnknownStrength.message ⟨n⟩, []⟩
  | _, ts => Reading.unexpected ending [] ts

/-- The complaint about tokens that do not go on with what is left of a statement. -/
def complaint (ending : Span) : List Slot → List (Located Token) → ParseError
  | [], ts => Reading.unexpected ending statementStarts ts
  | s :: _, ts => s.complaint ending ts

/-- Reading gets through `before` and cannot go on with `after`, while `slots` is left of a statement. -/
structure StopsAt (ts before after : List (Located Token)) (slots : List Slot) : Prop where
  split : ts = before ++ after
  pending : pending (before.map (·.item)) = some slots
  incomplete : after = [] → slots ≠ []
  misfit : ∀ t more, after = t :: more → advance slots t.item = none

/-! ## Readers -/

namespace Reading

variable {α β : Type} {ending : Span} {slots : List Slot} {ts : List (Located Token)}

/-- Takes a token for each of the places off the front, and answers the rest. -/
def fill (ending : Span) : List Slot → List (Located Token) → Except ParseError (List (Located Token))
  | [], ts => .ok ts
  | s :: _, [] => .error (s.complaint ending [])
  | s :: slots, t :: ts =>
    if s.takes t.item then fill ending slots ts else .error (s.complaint ending (t :: ts))

/-- The reader takes a token for each of the places, and no others. -/
def Fills (ending : Span) (p : Reading α) (slots : List Slot) : Prop :=
  ∀ ts, (p ts).map Prod.snd = fill ending slots ts

theorem fills_pure (a : α) : Fills ending (pure a) [] := fun _ => rfl

theorem Fills.bind {p : Reading α} {f : α → Reading β} {s : Slot} (hp : Fills ending p [s])
    (hf : ∀ a, Fills ending (f a) slots) : Fills ending (p >>= f) (s :: slots) := by
  intro ts
  show (p ts >>= fun r => f r.1 r.2).map Prod.snd = _
  have hpt := hp ts
  cases ts with
  | nil =>
    cases hrun : p [] with
    | error e =>
      rw [hrun] at hpt
      exact hpt
    | ok r =>
      rw [hrun] at hpt
      cases hpt
  | cons t ts =>
    cases hrun : p (t :: ts) with
    | error e =>
      rw [hrun] at hpt
      simp only [fill] at hpt ⊢
      split at hpt
      · cases hpt
      · next ht =>
        rw [if_neg ht]
        exact hpt
    | ok r =>
      obtain ⟨a, rest⟩ := r
      rw [hrun] at hpt
      simp only [fill] at hpt ⊢
      split at hpt
      · next ht =>
        cases hpt
        rw [if_pos ht]
        exact hf a rest
      · cases hpt

theorem fills_name : Fills ending (name ending) [.name] := by
  intro ts
  rcases ts with _ | ⟨⟨t, span⟩, ts⟩
  · rfl
  · cases t <;> rfl

theorem fills_number : Fills ending (number ending) [.number] := by
  intro ts
  rcases ts with _ | ⟨⟨t, span⟩, ts⟩
  · rfl
  · cases t <;> rfl

theorem fills_equals : Fills ending (equals ending) [.equals] := by
  intro ts
  rcases ts with _ | ⟨⟨t, span⟩, ts⟩
  · rfl
  · cases t <;> rfl

theorem fills_strength : Fills ending (strength ending) [.strength] := by
  intro ts
  rcases ts with _ | ⟨⟨t, span⟩, ts⟩
  · rfl
  · cases t with
    | identifier n =>
      rw [strength, Strength.parse]
      cases hn : Strength.ofName? n with
      | none => simp [fill, Slot.takes, hn, Except.map, Slot.complaint]
      | some level => simp [fill, Slot.takes, hn, Except.map]
    | _ => rfl

/-- After its keyword a statement consists of its places. -/
theorem fills_body (k : Keyword) : Fills ending (body ending k) k.slots := by
  cases k with
  | var =>
    exact fills_name.bind fun _ => fills_equals.bind fun _ => fills_number.bind fun _ => fills_pure _
  | stay => exact fills_name.bind fun _ => fills_strength.bind fun _ => fills_pure _
  | edit => exact fills_name.bind fun _ => fills_strength.bind fun _ => fills_pure _
  | equal =>
    exact fills_name.bind fun _ => fills_name.bind fun _ => fills_strength.bind fun _ => fills_pure _
  | scale =>
    exact fills_name.bind fun _ => fills_name.bind fun _ => fills_name.bind fun _ =>
      fills_name.bind fun _ => fills_strength.bind fun _ => fills_pure _
  | change =>
    exact fills_name.bind fun _ => fills_equals.bind fun _ => fills_number.bind fun _ => fills_pure _
  | expect =>
    exact fills_name.bind fun _ => fills_equals.bind fun _ => fills_number.bind fun _ => fills_pure _
  | print => exact fills_name.bind fun _ => fills_pure _

/-- A reader that has found everything leaves nothing of the statement. -/
theorem advance_of_fill {rest : List (Located Token)} (h : fill ending slots ts = .ok rest) :
    ∃ phrase, ts = phrase ++ rest ∧ (phrase.map (·.item)).foldlM advance slots = some [] := by
  induction slots generalizing ts with
  | nil =>
    cases h
    exact ⟨[], rfl, rfl⟩
  | cons s slots ih =>
    cases ts with
    | nil => cases h
    | cons t ts =>
      rw [fill] at h
      split at h
      next ht =>
        obtain ⟨phrase, rfl, hphrase⟩ := ih h
        refine ⟨t :: phrase, rfl, ?_⟩
        rw [List.map_cons, List.foldlM_cons, advance, if_pos ht]
        exact hphrase
      · cases h

/-- A reader that has not found everything complains about the first token that does not fit. -/
theorem complaint_of_fill {e : ParseError} (h : fill ending slots ts = .error e) :
    ∃ before after slots', ts = before ++ after ∧
      (before.map (·.item)).foldlM advance slots = some slots' ∧ slots' ≠ [] ∧
      (∀ t more, after = t :: more → advance slots' t.item = none) ∧
      e = complaint ending slots' after := by
  induction slots generalizing ts with
  | nil => cases h
  | cons s slots ih =>
    cases ts with
    | nil =>
      cases h
      exact ⟨[], [], s :: slots, rfl, rfl, nofun, nofun, rfl⟩
    | cons t ts =>
      rw [fill] at h
      split at h
      next ht =>
        obtain ⟨before, after, slots', rfl, hbefore, hrest⟩ := ih h
        refine ⟨t :: before, after, slots', rfl, ?_, hrest⟩
        rw [List.map_cons, List.foldlM_cons, advance, if_pos ht]
        exact hbefore
      next ht =>
        cases h
        refine ⟨[], t :: ts, s :: slots, rfl, rfl, nofun, ?_, rfl⟩
        rintro _ _ ⟨⟩
        rw [advance, if_neg ht]

variable {s : Located Statement} {rest : List (Located Token)}

/-- A statement that is read leaves nothing to be completed. -/
theorem pending_of_statement (h : statement ending ts = .ok (s, rest)) :
    ∃ phrase, ts = phrase ++ rest ∧ pending (phrase.map (·.item)) = some [] := by
  rcases ts with _ | ⟨⟨t, span⟩, ts⟩
  · cases h
  cases t with
  | keyword k =>
    have hfill : (body ending k ts).map Prod.snd = fill ending k.slots ts := fills_body k ts
    rw [statement] at h
    cases hbody : body ending k ts with
    | error e =>
      rw [hbody] at h
      cases h
    | ok r =>
      rw [hbody] at h hfill
      cases h
      obtain ⟨phrase, rfl, hphrase⟩ := advance_of_fill hfill.symm
      exact ⟨⟨.keyword k, span⟩ :: phrase, rfl, hphrase⟩
  | _ => cases h

/-- A statement that cannot be read stops where the complaint says. -/
theorem stopsAt_of_statement {e : ParseError} (hne : ts ≠ []) (h : statement ending ts = .error e) :
    ∃ before after slots, StopsAt ts before after slots ∧ e = complaint ending slots after := by
  rcases ts with _ | ⟨⟨t, span⟩, ts⟩
  · exact absurd rfl hne
  cases t with
  | keyword k =>
    have hfill : (body ending k ts).map Prod.snd = fill ending k.slots ts := fills_body k ts
    rw [statement] at h
    cases hbody : body ending k ts with
    | ok r =>
      rw [hbody] at h
      cases h
    | error e =>
      rw [hbody] at h hfill
      cases h
      obtain ⟨before, after, slots, rfl, hbefore, hslots, hmisfit, rfl⟩ :=
        complaint_of_fill hfill.symm
      exact ⟨⟨.keyword k, span⟩ :: before, after, slots, ⟨rfl, hbefore, fun _ => hslots, hmisfit⟩, rfl⟩
  | _ =>
    cases h
    refine ⟨[], _, [], ⟨rfl, rfl, by simp, ?_⟩, rfl⟩
    rintro _ _ ⟨⟩
    rfl

end Reading

section Statements

variable {ending : Span} {ts : List (Located Token)} {ss : List (Located Statement)}

/-- Statements that are read leave nothing to be completed. -/
theorem pending_of_statements (h : statements ending ts = .ok ss) :
    pending (ts.map (·.item)) = some [] := by
  fun_induction statements ending ts generalizing ss with
  | case1 ts hempty =>
    rw [List.isEmpty_iff.1 hempty]
    rfl
  | case2 => cases h
  | case3 => cases h
  | case4 ts hempty s rest hs hlt more hmore ih =>
    obtain ⟨phrase, rfl, hphrase⟩ := Reading.pending_of_statement hs
    rw [List.map_append, pending_append hphrase]
    exact ih hmore

/-- What a reader complains about: the first token that does not go on with the statements before it,
or the end of a text that is over in the middle of a statement. -/
theorem statements_eq_error {e : ParseError} (h : statements ending ts = .error e) :
    ∃ before after slots, StopsAt ts before after slots ∧ e = complaint ending slots after := by
  fun_induction statements ending ts generalizing e with
  | case1 => cases h
  | case2 ts hempty e' he =>
    cases h
    exact Reading.stopsAt_of_statement (fun hnil => hempty (List.isEmpty_iff.2 hnil)) he
  | case3 ts hempty s rest hs hlt e' he ih =>
    cases h
    obtain ⟨phrase, rfl, hphrase⟩ := Reading.pending_of_statement hs
    obtain ⟨before, after, slots, ⟨rfl, hpending, hincomplete, hmisfit⟩, rfl⟩ := ih he
    refine ⟨phrase ++ before, after, slots, ⟨by rw [List.append_assoc], ?_, hincomplete, hmisfit⟩, rfl⟩
    rw [List.map_append, pending_append hphrase]
    exact hpending
  | case4 => cases h

/-- No statement goes on with the token that reading stops at. -/
theorem StopsAt.pending_eq_none {before after : List (Located Token)} {t : Located Token}
    {slots : List Slot} (h : StopsAt ts before (t :: after) slots) :
    Script.pending (ts.map (·.item)) = none := by
  obtain ⟨rfl, hpending, -, hmisfit⟩ := h
  rw [List.map_append, pending_append hpending, List.map_cons, List.foldlM_cons, hmisfit t after rfl]
  rfl

/-- Tokens that stop somewhere are not composed of statements. -/
theorem StopsAt.pending_ne {before after : List (Located Token)} {slots : List Slot}
    (h : StopsAt ts before after slots) : Script.pending (ts.map (·.item)) ≠ some [] := by
  cases after with
  | nil =>
    obtain ⟨rfl, hpending, hincomplete, -⟩ := h
    rw [List.append_nil, hpending]
    exact fun heq => hincomplete rfl (Option.some.inj heq)
  | cons t after =>
    rw [h.pending_eq_none]
    nofun

/-- Tokens are composed of phrases exactly if they fit and leave nothing to be completed. -/
theorem composes_iff_pending :
    (∃ phrases, Composes phrases ts) ↔ pending (ts.map (·.item)) = some [] := by
  constructor
  · rintro ⟨phrases, hphrases⟩
    obtain ⟨ss, hss⟩ := composes_iff.1 hphrases
    have hrun : statements default ts = .ok ss := statements_eq_ok.2 ⟨phrases, hss⟩
    exact pending_of_statements hrun
  · intro h
    cases hrun : statements default ts with
    | error e =>
      obtain ⟨before, after, slots, hstop, -⟩ := statements_eq_error hrun
      exact absurd h hstop.pending_ne
    | ok ss =>
      obtain ⟨phrases, hphrases⟩ := statements_eq_ok.1 hrun
      exact ⟨phrases, composes_iff.2 ⟨ss, hphrases⟩⟩

end Statements

/-! ## Completing a beginning -/

/-- The token is written in some way. -/
def Writable (t : Token) : Prop := ∃ text, Lexeme text t

section Writable

variable {items : List Token}

theorem writable_of_mem_tokens {source : String} {t : Token}
    (h : t ∈ (tokens source).map (·.item)) : Writable t := by
  rw [tokens, map_item_locate] at h
  obtain ⟨l, hl, rfl⟩ := List.mem_map.1 h
  exact ⟨l.1, lexeme_of_mem_lexemes hl⟩

/-- Letters, digits and underscores make a word, which is reserved or a name. -/
theorem writable_word {w : String} (hstart : w.toList.head?.any isWordStart = true)
    (hparts : w.toList.all isWordPart = true) :
    Writable (match Keyword.ofText? w with
      | some k => .keyword k
      | none => .identifier w) := by
  cases hw : w.toList with
  | nil => simp [hw] at hstart
  | cons c cs =>
    rw [hw] at hstart hparts
    have hlex : Lexeme (c :: cs) (wordToken (c :: cs)) := by
      refine .word (by simpa using hstart) fun d hd => ?_
      exact List.all_eq_true.1 hparts d (List.mem_cons_of_mem c hd)
    rw [← hw, wordToken, String.ofList_toList] at hlex
    exact ⟨_, hlex⟩

theorem writable_name {n : String} (hstart : n.toList.head?.any isWordStart = true)
    (hparts : n.toList.all isWordPart = true) (hfree : Keyword.ofText? n = none) :
    Writable (.identifier n) := by
  have hword := writable_word hstart hparts
  rw [hfree] at hword
  exact hword

theorem writable_strength (s : Strength) : Writable (.identifier s.name) :=
  writable_name (by cases s <;> decide +kernel) (by cases s <;> decide +kernel)
    (by cases s <;> decide)

/-- Some token that can be written stands at every place. -/
theorem Slot.exists_takes (s : Slot) : ∃ t, Writable t ∧ s.takes t = true := by
  cases s with
  | name => exact ⟨.identifier Strength.weakest.name, writable_strength _, rfl⟩
  | number => exact ⟨numberToken ['0'], ⟨_, .number (.positive (.whole nofun (by simp)))⟩, rfl⟩
  | equals => exact ⟨.equals, ⟨_, .equals⟩, rfl⟩
  | strength => exact ⟨.identifier Strength.weakest.name, writable_strength _, rfl⟩

theorem exists_trail (texts : List (List Char)) : ∃ cs, Trail texts cs := by
  induction texts with
  | nil => exact ⟨[], .nil (.inl rfl)⟩
  | cons text texts ih =>
    obtain ⟨rest, hrest⟩ := ih
    exact ⟨_, .cons ⟨' ', [], by decide, .nil, rfl⟩ hrest⟩

theorem exists_laidOut (texts : List (List Char)) : ∃ cs, LaidOut texts cs := by
  cases texts with
  | nil => exact ⟨[], .nil .nil⟩
  | cons text texts =>
    obtain ⟨rest, hrest⟩ := exists_trail texts
    exact ⟨_, .cons .nil hrest⟩

/-- There is a text for every sequence of tokens that can be written. -/
theorem exists_source (h : ∀ t ∈ items, Writable t) :
    ∃ source, (tokens source).map (·.item) = items := by
  have hlexemes : ∃ ls : List (List Char × Token), (∀ l ∈ ls, Lexeme l.1 l.2) ∧
      ls.map Prod.snd = items := by
    induction items with
    | nil => exact ⟨[], nofun, rfl⟩
    | cons t items ih =>
      obtain ⟨text, htext⟩ := h t (by simp)
      obtain ⟨ls, hls, rfl⟩ := ih fun u hu => h u (List.mem_cons_of_mem t hu)
      exact ⟨(text, t) :: ls, List.forall_mem_cons.2 ⟨htext, hls⟩, rfl⟩
  obtain ⟨ls, hls, rfl⟩ := hlexemes
  obtain ⟨cs, hcs⟩ := exists_laidOut (ls.map Prod.fst)
  refine ⟨String.ofList cs, ?_⟩
  rw [tokens, map_item_locate, String.toList_ofList, lexemes_laidOut hls hcs]

end Writable

section Viable

variable {items : List Token} {slots : List Slot} {t : Token}

/-- Whatever is left of a statement can be completed. -/
theorem exists_completion (slots : List Slot) :
    ∃ more : List Token, (∀ t ∈ more, Writable t) ∧ more.foldlM advance slots = some [] := by
  induction slots with
  | nil => exact ⟨[], nofun, rfl⟩
  | cons s slots ih =>
    obtain ⟨t, hwritable, ht⟩ := s.exists_takes
    obtain ⟨more, hmore, hcomplete⟩ := ih
    refine ⟨t :: more, List.forall_mem_cons.2 ⟨hwritable, hmore⟩, ?_⟩
    rw [List.foldlM_cons, advance, if_pos ht]
    exact hcomplete

theorem isScript_iff : IsScript items ↔ (∀ t ∈ items, Writable t) ∧ pending items = some [] := by
  constructor
  · rintro ⟨source, phrases, hphrases, rfl⟩
    exact ⟨fun t => writable_of_mem_tokens, composes_iff_pending.1 ⟨phrases, hphrases⟩⟩
  · rintro ⟨hwritable, hpending⟩
    obtain ⟨source, rfl⟩ := exists_source hwritable
    obtain ⟨phrases, hphrases⟩ := composes_iff_pending.2 hpending
    exact ⟨source, phrases, hphrases, rfl⟩

/-- A script can begin with the tokens that a reader gets through. -/
theorem viable_iff :
    Viable items ↔ (∀ t ∈ items, Writable t) ∧ ∃ slots, pending items = some slots := by
  constructor
  · rintro ⟨source, phrases, hphrases, more, hmore⟩
    have hpending := composes_iff_pending.1 ⟨phrases, hphrases⟩
    rw [← hmore, pending, List.foldlM_append] at hpending
    refine ⟨fun t ht => ?_, (Option.bind_eq_some_iff.1 hpending).imp fun slots h => h.1⟩
    exact writable_of_mem_tokens (hmore ▸ List.mem_append_left more ht)
  · rintro ⟨hwritable, slots, hslots⟩
    obtain ⟨more, hmore, hcomplete⟩ := exists_completion slots
    have hpending : pending (items ++ more) = some [] := by rw [pending_append hslots, hcomplete]
    obtain ⟨source, phrases, hphrases, heq⟩ := isScript_iff.2
      ⟨fun t ht => (List.mem_append.1 ht).elim (hwritable t) (hmore t), hpending⟩
    exact ⟨source, phrases, hphrases, more, heq.symm⟩

variable (hwritable : ∀ t ∈ items, Writable t) (hpending : pending items = some slots)

include hwritable hpending

end Viable

/-! ## Errors -/

section Errors

variable {ending : Span} {ts : List (Located Token)} {items : List Token} {slots : List Slot}

theorem complaint_nil :
    (complaint ending slots []).span = ending ∧
      (complaint ending slots []).message = "Unexpected end of input" := by
  rcases slots with _ | ⟨s, slots⟩
  · exact ⟨rfl, rfl⟩
  · cases s <;> exact ⟨rfl, rfl⟩

theorem complaint_cons_span {t : Located Token} :
    (complaint ending slots (t :: ts)).span = t.span := by
  rcases slots with _ | ⟨s, slots⟩
  · rfl
  · obtain ⟨t, span⟩ := t
    cases s with
    | strength => cases t <;> rfl
    | _ => rfl

end Errors

end ConstraintHierarchy.Script
