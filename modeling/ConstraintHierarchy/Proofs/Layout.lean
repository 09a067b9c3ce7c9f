import ConstraintHierarchy.Proofs.Pieces
import ConstraintHierarchy.Proofs.Places

/-!
# The layout of a script

Between the tokens of a script there may be blanks and comments, and it does not matter which. A text
made of the tokens of a script, set apart by any blanks and comments, is the same script: it has the
same tokens, the same statements, and it runs in the same way.

## Main definitions

* `Filler`, `Gap`: what may stand before a script, and between its tokens
* `LaidOut`: a text made of the given token texts
* `Relaid`: a text made of the tokens of another

## Main results

* `lexemes_laidOut`: a laid out text has the tokens it is made of
* `same_script_of_relaid`: a text made of the tokens of a script is the same script
-/

namespace ConstraintHierarchy.Script

/-! ## Texts made of tokens -/

/-- Blanks and comments, each comment with the end of its line. -/
inductive Filler : List Char → Prop
  | nil : Filler []
  | blank {c : Char} {cs : List Char} (hc : isBlank c = true) (h : Filler cs) : Filler (c :: cs)
  | hash {comment cs : List Char} (hline : '\n' ∉ comment) (h : Filler cs) :
    Filler ('#' :: (comment ++ '\n' :: cs))
  | slashes {comment cs : List Char} (hline : '\n' ∉ comment) (h : Filler cs) :
    Filler ('/' :: '/' :: (comment ++ '\n' :: cs))

/-- What may stand between two tokens: blanks and comments, but first of all a blank. -/
def Gap (cs : List Char) : Prop := ∃ c more, isBlank c = true ∧ Filler more ∧ cs = c :: more

/-- Token texts, a gap before each of them, and perhaps a gap after the last one. -/
inductive Trail : List (List Char) → List Char → Prop
  | nil {after : List Char} (h : after = [] ∨ Gap after) : Trail [] after
  | cons {gap text rest : List Char} {texts : List (List Char)} (hgap : Gap gap)
    (h : Trail texts rest) : Trail (text :: texts) (gap ++ text ++ rest)

/-- Token texts with gaps between them, perhaps blanks and comments before the first, and perhaps a gap
after the last. -/
inductive LaidOut : List (List Char) → List Char → Prop
  | nil {cs : List Char} (h : Filler cs) : LaidOut [] cs
  | cons {before text rest : List Char} {texts : List (List Char)} (hbefore : Filler before)
    (h : Trail texts rest) : LaidOut (text :: texts) (before ++ text ++ rest)

/-- The second text is made of the tokens of the first. -/
def Relaid (source source' : String) : Prop :=
  ∃ texts, List.Forall₂ (fun t text => Covers source t.span text) (tokens source) texts ∧
    LaidOut texts source'.toList

/-! ## Their tokens -/

section Tokens

variable {c : Char} {cs rest : List Char} {ls : List (List Char × Token)}

theorem lexemes_none {ps : List Piece} {text : List Char} :
    lexemes (⟨text, none⟩ :: ps) = lexemes ps :=
  rfl

theorem lexemes_pieces_blank (hc : isBlank c = true) :
    lexemes (pieces (c :: cs)) = lexemes (pieces (cs.dropWhile isBlank)) := by
  have hsplit : c :: cs = (c :: cs.takeWhile isBlank) ++ cs.dropWhile isBlank := by simp
  rw [pieces_of_firstPiece (firstPiece_blank hc) hsplit, lexemes_none]

/-- A blank at the front adds no token: with the blanks after it, it is one piece. -/
theorem lexemes_blank (hc : isBlank c = true) : lexemes (pieces (c :: cs)) = lexemes (pieces cs) := by
  rw [lexemes_pieces_blank hc]
  cases cs with
  | nil => rfl
  | cons d ds =>
    cases hd : isBlank d with
    | false => rw [List.dropWhile_cons_of_neg (by simp [hd])]
    | true => rw [List.dropWhile_cons_of_pos hd, lexemes_pieces_blank hd]

/-- A comment at the front adds no token. -/
theorem lexemes_comment {comment : List Char} (hc : isBlank c = false)
    (hstart : Comments c (comment ++ '\n' :: rest)) (hline : '\n' ∉ comment) :
    lexemes (pieces (c :: (comment ++ '\n' :: rest))) = lexemes (pieces rest) := by
  have hne : ∀ d ∈ comment, decide (d ≠ '\n') = true := by
    intro d hd
    exact decide_eq_true fun heq => hline (heq ▸ hd)
  have htake : (comment ++ '\n' :: rest).takeWhile (· ≠ '\n') = comment := by
    rw [List.takeWhile_append_of_pos hne, List.takeWhile_cons_of_neg (by simp), List.append_nil]
  have hfirst := firstPiece_comment hc hstart
  rw [htake] at hfirst
  rw [pieces_of_firstPiece hfirst rfl, lexemes_none, lexemes_blank (by decide)]

theorem Filler.lexemes_append (h : Filler cs) :
    lexemes (pieces (cs ++ rest)) = lexemes (pieces rest) := by
  induction h with
  | nil => rfl
  | blank hc _ ih => rw [List.cons_append, lexemes_blank hc, ih]
  | hash hline _ ih =>
    rw [List.cons_append, List.append_assoc, List.cons_append,
      lexemes_comment (by decide) (.inl rfl) hline, ih]
  | @slashes comment _ hline _ ih =>
    have hline' : '\n' ∉ '/' :: comment := by simp [hline]
    rw [List.cons_append, List.cons_append, List.append_assoc, List.cons_append]
    exact (lexemes_comment (by decide) (.inr ⟨rfl, rfl⟩) hline').trans ih

theorem Filler.lexemes_eq_nil (h : Filler cs) : lexemes (pieces cs) = [] := by
  have happend : lexemes (pieces (cs ++ [])) = lexemes (pieces []) := h.lexemes_append
  rw [List.append_nil] at happend
  rw [happend, pieces]
  rfl

theorem Gap.filler (h : Gap cs) : Filler cs := by
  obtain ⟨c, more, hc, hmore, rfl⟩ := h
  exact .blank hc hmore

theorem Gap.bounded_append (h : Gap cs) (rest : List Char) : Bounded (cs ++ rest) := by
  obtain ⟨c, more, hc, -, rfl⟩ := h
  intro d hd
  cases hd
  exact hc

theorem Trail.bounded {texts : List (List Char)} (h : Trail texts cs) : Bounded cs := by
  cases h with
  | nil h =>
    rcases h with rfl | h
    · exact bounded_nil
    · simpa using h.bounded_append []
  | cons hgap _ =>
    rw [List.append_assoc]
    exact hgap.bounded_append _

theorem lexemes_token {text : List Char} {t : Token} (h : Lexeme text t) (hrest : Bounded rest) :
    lexemes (pieces (text ++ rest)) = (text, t) :: lexemes (pieces rest) := by
  rw [h.pieces_append hrest]
  rfl

/-- After its first token, a laid out text has the tokens it is made of. -/
theorem lexemes_trail (hls : ∀ l ∈ ls, Lexeme l.1 l.2) (h : Trail (ls.map Prod.fst) cs) :
    lexemes (pieces cs) = ls := by
  induction ls generalizing cs with
  | nil =>
    cases h with
    | nil h =>
      rcases h with rfl | h
      · exact Filler.nil.lexemes_eq_nil
      · exact h.filler.lexemes_eq_nil
  | cons l ls ih =>
    rw [List.map_cons] at h
    cases h with
    | cons hgap h =>
      rw [List.append_assoc, hgap.filler.lexemes_append,
        lexemes_token (hls l (by simp)) h.bounded, ih (fun l hl => hls l (by simp [hl])) h]

/-- A laid out text has the tokens it is made of. -/
theorem lexemes_laidOut (hls : ∀ l ∈ ls, Lexeme l.1 l.2) (h : LaidOut (ls.map Prod.fst) cs) :
    lexemes (pieces cs) = ls := by
  cases ls with
  | nil =>
    cases h with
    | nil h => exact h.lexemes_eq_nil
  | cons l ls =>
    rw [List.map_cons] at h
    cases h with
    | cons hbefore h =>
      rw [List.append_assoc, hbefore.lexemes_append, lexemes_token (hls l (by simp)) h.bounded,
        lexemes_trail (fun l hl => hls l (by simp [hl])) h]

end Tokens

/-! ## Scripts in another layout -/

section Scripts

variable {source source' : String}

theorem Relaid.lexemes_eq (h : Relaid source source') :
    lexemes (pieces source'.toList) = lexemes (pieces source.toList) := by
  obtain ⟨texts, htexts, hlaid⟩ := h
  have hunique : Relator.RightUnique fun (t : Located Token) text => Covers source t.span text :=
    fun _ _ _ hcovers hcovers' => hcovers.unique hcovers'
  obtain rfl := hunique.forall₂ htexts (covers_tokens source)
  exact lexemes_laidOut (fun l hl => lexeme_of_mem_lexemes hl) hlaid

theorem Relaid.items_eq (h : Relaid source source') :
    (tokens source').map (·.item) = (tokens source).map (·.item) := by
  rw [tokens, tokens, map_item_locate, map_item_locate, h.lexemes_eq]

/-- A text made of the tokens of another, set apart by blanks and comments, has the same tokens and the
same statements, apart from their places. Run with the same settings, both print the same lines or fail
for the same reason. -/
theorem same_script_of_relaid (h : Relaid source source') :
    (tokens source').map (·.item) = (tokens source).map (·.item) ∧
    ((∃ ss ss', parse source = .ok ss ∧ parse source' = .ok ss' ∧
        ss'.map (·.item.unplaced) = ss.map (·.item.unplaced)) ∨
      ∃ e e', parse source = .error e ∧ parse source' = .error e') ∧
    ∀ settings patience,
      SameOutcome (run settings source patience).result (run settings source' patience).result :=
  ⟨h.items_eq, parse_of_items h.items_eq, fun settings patience =>
    sameOutcome_of_items settings patience h.items_eq⟩

theorem same_script_of_relaid_declaration :
    Relaid "var x=-1.5" "#a\nvar x = //=\n-1.5\n" ∧
    ∀ settings patience, SameOutcome (run settings "var x=-1.5" patience).result
      (run settings "#a\nvar x = //=\n-1.5\n" patience).result := by
  have htexts : (lexemes (pieces "var x=-1.5".toList)).map Prod.fst =
      [['v', 'a', 'r'], ['x'], ['='], ['-', '1', '.', '5']] := by
    decide +kernel
  have hlaid : "#a\nvar x = //=\n-1.5\n".toList =
      ['#', 'a', '\n'] ++ ['v', 'a', 'r'] ++ ([' '] ++ ['x'] ++ ([' '] ++ ['='] ++
        ([' ', '/', '/', '=', '\n'] ++ ['-', '1', '.', '5'] ++ ['\n']))) := by
    decide +kernel
  have hbefore : Filler ['#', 'a', '\n'] := @Filler.hash ['a'] [] (by decide) .nil
  have hblank : Gap [' '] := ⟨' ', [], by decide, .nil, rfl⟩
  have hcomment : Gap [' ', '/', '/', '=', '\n'] :=
    ⟨' ', _, by decide, @Filler.slashes ['='] [] (by decide) .nil, rfl⟩
  have hend : Gap ['\n'] := ⟨'\n', [], by decide, .nil, rfl⟩
  have h : Relaid "var x=-1.5" "#a\nvar x = //=\n-1.5\n" := by
    refine ⟨_, covers_tokens _, ?_⟩
    rw [htexts, hlaid]
    exact .cons hbefore (.cons hblank (.cons hblank (.cons hcomment (.nil (.inr hend)))))
  exact ⟨h, (same_script_of_relaid h).2.2⟩

end Scripts

end ConstraintHierarchy.Script
