import Mathlib
import ConstraintHierarchy.Script.Piece

/-!
# The pieces of a text

Cutting a text loses nothing: the pieces, put together again, are the text, and the span of a token
covers the characters that the token was made of. What these characters can be does not depend on where
they stand, and is stated without a scanner; and a scanner finds them again, provided that what follows
them cannot be taken for more of them.

## Main definitions

* `Unsigned`, `Numeral`, `Lexeme`: the texts that make a token
* `Covers`: the characters that a span of the source covers
* `Bounded`: what follows a token if its end cannot be missed

## Main results

* `flatMap_text_pieces`, `covers_tokens`: nothing is lost, and spans say where a token is from
* `Lexeme.pieces_append`: a token is found again
-/

namespace ConstraintHierarchy.Script

/-! ## Texts of tokens -/

/-- Digits, or digits with a point in between. -/
inductive Unsigned : List Char → Prop
  | whole {ds : List Char} (hne : ds ≠ []) (hds : ∀ d ∈ ds, d.isDigit = true) : Unsigned ds
  | fraction {ds fs : List Char} (hne : ds ≠ []) (hds : ∀ d ∈ ds, d.isDigit = true) (hfs : fs ≠ [])
    (hfs' : ∀ d ∈ fs, d.isDigit = true) : Unsigned (ds ++ '.' :: fs)

/-- A number as it is written, perhaps with a minus sign. -/
inductive Numeral : List Char → Prop
  | positive {ds : List Char} (h : Unsigned ds) : Numeral ds
  | negative {ds : List Char} (h : Unsigned ds) : Numeral ('-' :: ds)

/-- A character that is a token of no sort when it stands alone. -/
structure Stray (c : Char) : Prop where
  blank : isBlank c = false
  comment : c ≠ '#'
  word : isWordStart c = false
  equals : c ≠ '='
  digit : c.isDigit = false

/-- The text of a token, wherever it stands. -/
inductive Lexeme : List Char → Token → Prop
  | word {c : Char} {cs : List Char} (hc : isWordStart c = true) (hcs : ∀ d ∈ cs, isWordPart d = true) :
    Lexeme (c :: cs) (wordToken (c :: cs))
  | equals : Lexeme ['='] .equals
  | number {ds : List Char} (h : Numeral ds) : Lexeme ds (numberToken ds)
  | stray {c : Char} (h : Stray c) : Lexeme [c] .unrecognized

/-- The text is at its end or goes on with a blank. -/
def Bounded (cs : List Char) : Prop := ∀ c, cs.head? = some c → isBlank c = true

theorem bounded_nil : Bounded [] := nofun

/-! ## Characters -/

section Characters

variable {c : Char}

theorem isBlank_iff : isBlank c = true ↔ c = ' ' ∨ c = '\t' ∨ c = '\n' ∨ c = '\r' := by
  simp [isBlank, or_assoc]

theorem isWordPart_of_isBlank (h : isBlank c = true) : isWordPart c = false := by
  rcases isBlank_iff.1 h with rfl | rfl | rfl | rfl <;> rfl

theorem isDigit_of_isBlank (h : isBlank c = true) : c.isDigit = false := by
  rcases isBlank_iff.1 h with rfl | rfl | rfl | rfl <;> rfl

theorem isBlank_of_isWordStart (h : isWordStart c = true) : isBlank c = false := by
  rw [Bool.eq_false_iff]
  intro hb
  rcases isBlank_iff.1 hb with rfl | rfl | rfl | rfl <;> cases h

theorem isBlank_of_isDigit (h : c.isDigit = true) : isBlank c = false := by
  rw [Bool.eq_false_iff]
  intro hb
  rw [isDigit_of_isBlank hb] at h
  cases h

theorem isWordStart_of_isDigit (h : c.isDigit = true) : isWordStart c = false := by
  have hd : 48 ≤ c.toNat ∧ c.toNat ≤ 57 := by
    simpa [Char.isDigit, UInt32.le_iff_toNat_le] using h
  have hu : c ≠ '_' := by
    rintro rfl
    exact absurd h (by decide)
  simp [isWordStart, Char.isAlpha, Char.isUpper, Char.isLower, UInt32.le_iff_toNat_le, hu]
  omega

/-- No character of a class that leaves out blanks is taken off a text that is bounded. -/
theorem Bounded.takeWhile {p : Char → Bool} {cs : List Char} (h : Bounded cs)
    (hp : ∀ c, isBlank c = true → p c = false) : cs.takeWhile p = [] := by
  cases cs with
  | nil => rfl
  | cons c cs => rw [List.takeWhile_cons_of_neg (by simp [hp c (h c rfl)])]

theorem Bounded.dropWhile {p : Char → Bool} {cs : List Char} (h : Bounded cs)
    (hp : ∀ c, isBlank c = true → p c = false) : cs.dropWhile p = cs := by
  cases cs with
  | nil => rfl
  | cons c cs => rw [List.dropWhile_cons_of_neg (by simp [hp c (h c rfl)])]

end Characters

/-! ## Numbers -/

section Numbers

variable {cs ds rest : List Char}

/-- Digits are taken, and a point with more digits if there are digits before it. -/
theorem unsignedNumber_cases (cs : List Char) :
    unsignedNumber cs = cs.takeWhile Char.isDigit ∨
    cs.takeWhile Char.isDigit = [] ∧ unsignedNumber cs = [] ∨
    cs.takeWhile Char.isDigit ≠ [] ∧ ∃ more, cs.dropWhile Char.isDigit = '.' :: more ∧
      more.takeWhile Char.isDigit ≠ [] ∧
      unsignedNumber cs = cs.takeWhile Char.isDigit ++ '.' :: more.takeWhile Char.isDigit := by
  unfold unsignedNumber
  dsimp only
  split
  next more hmore =>
    split
    · exact .inl rfl
    next hfraction =>
      split
      next hempty => exact .inr (.inl ⟨List.isEmpty_iff.1 hempty, rfl⟩)
      next hne => exact .inr (.inr ⟨by simpa using hne, more, hmore, hfraction, rfl⟩)
  · exact .inl rfl

theorem unsigned_of_ne_nil (h : unsignedNumber cs ≠ []) : Unsigned (unsignedNumber cs) := by
  have hdigits : ∀ cs : List Char, ∀ d ∈ cs.takeWhile Char.isDigit, d.isDigit = true :=
    fun _ _ => List.mem_takeWhile_imp
  rcases unsignedNumber_cases cs with heq | ⟨-, hnone⟩ | ⟨hne, more, -, hmore, heq⟩
  · rw [heq] at h ⊢
    exact .whole h (hdigits cs)
  · exact absurd hnone h
  · rw [heq]
    exact .fraction hne (hdigits cs) hmore (hdigits more)

theorem unsignedNumber_initial : unsignedNumber cs <+: cs := by
  rcases unsignedNumber_cases cs with heq | ⟨-, heq⟩ | ⟨-, more, hdrop, -, heq⟩
  · rw [heq]
    exact List.takeWhile_prefix _
  · rw [heq]
    exact List.nil_prefix
  · have hsplit : cs.takeWhile Char.isDigit ++ '.' :: more = cs := by
      rw [← hdrop, List.takeWhile_append_dropWhile]
    refine ⟨more.dropWhile Char.isDigit, ?_⟩
    rw [heq, List.append_assoc, List.cons_append, List.takeWhile_append_dropWhile, hsplit]

theorem unsignedNumber_of_not_digit {c : Char} (h : c.isDigit = false) :
    unsignedNumber (c :: cs) = [] := by
  have htake : (c :: cs).takeWhile Char.isDigit = [] :=
    List.takeWhile_cons_of_neg (by simp [h])
  rcases unsignedNumber_cases (c :: cs) with heq | ⟨-, heq⟩ | ⟨hne, -⟩
  · rw [heq, htake]
  · exact heq
  · exact absurd htake hne

/-- Digits, a point and more digits are taken, and the digits that follow them. -/
theorem unsignedNumber_fraction {fs : List Char} (hne : ds ≠ []) (hds : ∀ d ∈ ds, d.isDigit = true)
    (hfs : fs ≠ []) (hfs' : ∀ d ∈ fs, d.isDigit = true) (rest : List Char) :
    unsignedNumber (ds ++ '.' :: fs ++ rest) = ds ++ '.' :: (fs ++ rest.takeWhile Char.isDigit) := by
  have hpoint : ('.' :: fs ++ rest).takeWhile Char.isDigit = [] := rfl
  have hwhole : (ds ++ '.' :: fs ++ rest).takeWhile Char.isDigit = ds := by
    rw [List.append_assoc, List.takeWhile_append_of_pos hds, hpoint, List.append_nil]
  have hafter : (ds ++ '.' :: fs ++ rest).dropWhile Char.isDigit = '.' :: (fs ++ rest) := by
    rw [List.append_assoc, List.dropWhile_append_of_pos hds]
    rfl
  unfold unsignedNumber
  simp only [hwhole, hafter, List.takeWhile_append_of_pos hfs']
  cases fs with
  | nil => exact absurd rfl hfs
  | cons f fs => simp [hne]

/-- A number is found again if what follows is neither a digit nor a point. -/
theorem Unsigned.unsignedNumber_append (h : Unsigned ds) (hrest : Bounded rest) :
    unsignedNumber (ds ++ rest) = ds := by
  have htake : rest.takeWhile Char.isDigit = [] := hrest.takeWhile fun _ => isDigit_of_isBlank
  have hdrop : rest.dropWhile Char.isDigit = rest := hrest.dropWhile fun _ => isDigit_of_isBlank
  cases h with
  | whole hne hds =>
    have hwhole : (ds ++ rest).takeWhile Char.isDigit = ds := by
      rw [List.takeWhile_append_of_pos hds, htake, List.append_nil]
    rcases unsignedNumber_cases (ds ++ rest) with heq | ⟨hnil, -⟩ | ⟨-, more, hmore, -⟩
    · rw [heq, hwhole]
    · exact absurd (hwhole.symm.trans hnil) hne
    · -- a point is no blank
      rw [List.dropWhile_append_of_pos hds, hdrop] at hmore
      have hpoint := hrest '.' (by rw [hmore]; rfl)
      exact absurd hpoint (by decide)
  | fraction hne hds hfs hfs' =>
    rw [unsignedNumber_fraction hne hds hfs hfs', htake, List.append_nil]

theorem Unsigned.head_isDigit (h : Unsigned ds) : ∃ d ds', ds = d :: ds' ∧ d.isDigit = true := by
  cases h with
  | @whole ds hne hds =>
    cases ds with
    | nil => exact absurd rfl hne
    | cons d ds => exact ⟨d, ds, rfl, hds d (by simp)⟩
  | @fraction ds fs hne hds =>
    cases ds with
    | nil => exact absurd rfl hne
    | cons d ds => exact ⟨d, _, rfl, hds d (by simp)⟩

theorem leadingNumber_minus :
    leadingNumber ('-' :: cs) = if unsignedNumber cs = [] then [] else '-' :: unsignedNumber cs := by
  rw [leadingNumber]
  split
  next hnil => rw [if_pos hnil]
  next hne => rw [if_neg hne]

theorem leadingNumber_of_ne {c : Char} (h : c ≠ '-') :
    leadingNumber (c :: cs) = unsignedNumber (c :: cs) := by
  unfold leadingNumber
  split
  next heq => exact absurd (List.cons.inj heq).1 h
  next => rfl

theorem leadingNumber_spec {c : Char} :
    leadingNumber (c :: cs) <+: c :: cs ∧
      (leadingNumber (c :: cs) ≠ [] → Numeral (leadingNumber (c :: cs))) ∧
      (c.isDigit = true → leadingNumber (c :: cs) ≠ []) := by
  by_cases hc : c = '-'
  · subst hc
    rw [leadingNumber_minus]
    split
    next => exact ⟨List.nil_prefix, fun h => absurd rfl h, by decide⟩
    next hne =>
      exact ⟨List.cons_prefix_cons.2 ⟨rfl, unsignedNumber_initial⟩,
        fun _ => .negative (unsigned_of_ne_nil hne), fun _ => nofun⟩
  · rw [leadingNumber_of_ne hc]
    refine ⟨unsignedNumber_initial, fun h => .positive (unsigned_of_ne_nil h), fun hd => ?_⟩
    have htake : (c :: cs).takeWhile Char.isDigit = c :: cs.takeWhile Char.isDigit :=
      List.takeWhile_cons_of_pos hd
    rcases unsignedNumber_cases (c :: cs) with heq | ⟨hnil, -⟩ | ⟨-, more, -, -, heq⟩
    · rw [heq, htake]
      simp
    · rw [htake] at hnil
      cases hnil
    · rw [heq, htake]
      simp

/-- The first character of a number starts nothing else. -/
theorem Numeral.head (h : Numeral ds) : ∃ c cs, ds = c :: cs ∧ isBlank c = false ∧
    (c ≠ '#' ∧ c ≠ '/') ∧ isWordStart c = false ∧ c ≠ '=' := by
  cases h with
  | positive h =>
    obtain ⟨d, ds', rfl, hd⟩ := h.head_isDigit
    refine ⟨d, ds', rfl, isBlank_of_isDigit hd, ⟨?_, ?_⟩, isWordStart_of_isDigit hd, ?_⟩
    all_goals
      rintro rfl
      exact absurd hd (by decide)
  | negative h => exact ⟨'-', _, rfl, by decide⟩

theorem Numeral.leadingNumber_append (h : Numeral ds) (hrest : Bounded rest) :
    leadingNumber (ds ++ rest) = ds := by
  cases h with
  | positive h =>
    obtain ⟨d, ds', rfl, hd⟩ := h.head_isDigit
    have hne : d ≠ '-' := by
      rintro rfl
      exact absurd hd (by decide)
    rw [List.cons_append, leadingNumber_of_ne hne, ← List.cons_append,
      h.unsignedNumber_append hrest]
  | negative h =>
    obtain ⟨d, ds', rfl, -⟩ := h.head_isDigit
    rw [List.cons_append, leadingNumber_minus, h.unsignedNumber_append hrest, if_neg nofun]

/-- A stray character is no number, not even a minus sign. -/
theorem Stray.leadingNumber {c : Char} (h : Stray c) (hrest : Bounded rest) :
    leadingNumber (c :: rest) = [] := by
  by_cases hc : c = '-'
  · subst hc
    rw [leadingNumber_minus, if_pos]
    cases rest with
    | nil => rfl
    | cons d rest => exact unsignedNumber_of_not_digit (isDigit_of_isBlank (hrest d rfl))
  · rw [leadingNumber_of_ne hc, unsignedNumber_of_not_digit h.digit]

end Numbers

/-! ## The first piece -/

section FirstPiece

variable {c : Char} {cs rest text : List Char} {t : Token}

/-- A comment begins with the character `c`. -/
def Comments (c : Char) (cs : List Char) : Prop := c = '#' ∨ c = '/' ∧ cs.head? = some '/'

theorem firstPiece_blank (h : isBlank c = true) :
    firstPiece c cs = ⟨c :: cs.takeWhile isBlank, none⟩ := by
  rw [firstPiece, if_pos h]

theorem firstPiece_comment (hb : isBlank c = false) (h : Comments c cs) :
    firstPiece c cs = ⟨c :: cs.takeWhile (· ≠ '\n'), none⟩ := by
  rw [firstPiece, if_neg (by simp [hb]), if_pos]
  simpa [Comments] using h

theorem firstPiece_word (h : isWordStart c = true) :
    firstPiece c cs =
      ⟨c :: cs.takeWhile isWordPart, some (wordToken (c :: cs.takeWhile isWordPart))⟩ := by
  have hc : ¬ Comments c cs := by
    rintro (rfl | ⟨rfl, -⟩) <;> cases h
  rw [firstPiece, if_neg (by simp [isBlank_of_isWordStart h]), if_neg (by simpa [Comments] using hc),
    if_pos h]

theorem firstPiece_equals : firstPiece '=' cs = ⟨['='], some .equals⟩ := rfl

/-- What starts neither a blank nor a comment nor a word is a number, or stands alone. -/
theorem firstPiece_other (hb : isBlank c = false) (hc : ¬ Comments c cs)
    (hw : isWordStart c = false) (he : c ≠ '=') :
    firstPiece c cs =
      if leadingNumber (c :: cs) = [] then ⟨[c], some .unrecognized⟩
      else ⟨leadingNumber (c :: cs), some (numberToken (leadingNumber (c :: cs)))⟩ := by
  rw [firstPiece, if_neg (by simp [hb]), if_neg (by simpa [Comments] using hc),
    if_neg (by simp [hw]), if_neg (by simpa using he)]
  cases leadingNumber (c :: cs) with
  | nil => rfl
  | cons d ds => rfl

/-- The ways in which a text can begin. -/
theorem firstPiece_cases (c : Char) (cs : List Char) :
    isBlank c = true ∨ isBlank c = false ∧ Comments c cs ∨ isWordStart c = true ∨ c = '=' ∨
      (isBlank c = false ∧ ¬ Comments c cs ∧ isWordStart c = false ∧ c ≠ '=') := by
  cases hb : isBlank c <;> cases hw : isWordStart c <;> by_cases hc : Comments c cs <;>
    by_cases he : c = '=' <;> simp [hc, he]

/-- The first piece stands at the beginning. -/
theorem firstPiece_initial : (firstPiece c cs).text <+: c :: cs := by
  rcases firstPiece_cases c cs with h | ⟨hb, h⟩ | h | rfl | ⟨hb, hc, hw, he⟩
  · rw [firstPiece_blank h]
    exact List.cons_prefix_cons.2 ⟨rfl, List.takeWhile_prefix _⟩
  · rw [firstPiece_comment hb h]
    exact List.cons_prefix_cons.2 ⟨rfl, List.takeWhile_prefix _⟩
  · rw [firstPiece_word h]
    exact List.cons_prefix_cons.2 ⟨rfl, List.takeWhile_prefix _⟩
  · rw [firstPiece_equals]
    exact List.cons_prefix_cons.2 ⟨rfl, List.nil_prefix⟩
  · rw [firstPiece_other hb hc hw he]
    split
    · exact List.cons_prefix_cons.2 ⟨rfl, List.nil_prefix⟩
    · exact leadingNumber_spec.1

/-- The text of a token is one of those that make it. -/
theorem lexeme_of_firstPiece (h : firstPiece c cs = ⟨text, some t⟩) : Lexeme text t := by
  rcases firstPiece_cases c cs with h' | ⟨hb, h'⟩ | h' | rfl | ⟨hb, hc, hw, he⟩
  · rw [firstPiece_blank h'] at h
    cases h
  · rw [firstPiece_comment hb h'] at h
    cases h
  · rw [firstPiece_word h'] at h
    cases h
    exact .word h' fun _ => List.mem_takeWhile_imp
  · rw [firstPiece_equals] at h
    cases h
    exact .equals
  · rw [firstPiece_other hb hc hw he] at h
    split at h
    next hnone =>
      cases h
      have hd : c.isDigit = false := by
        rw [Bool.eq_false_iff]
        exact fun hd => leadingNumber_spec.2.2 hd hnone
      exact .stray ⟨hb, fun heq => hc (.inl heq), hw, he, hd⟩
    next hsome =>
      obtain ⟨rfl, ht⟩ := Piece.mk.inj h
      rw [← Option.some.inj ht]
      exact .number (leadingNumber_spec.2.1 hsome)

end FirstPiece

/-! ## All pieces -/

section Pieces

variable {cs rest text : List Char} {t : Token}

theorem pieces_cons {c : Char} : pieces (c :: cs) =
    firstPiece c cs :: pieces ((c :: cs).drop (firstPiece c cs).text.length) := by
  rw [pieces]

/-- The text, cut after its first piece. -/
theorem pieces_of_firstPiece {c : Char} {p : Piece} (h : firstPiece c cs = p)
    (hsplit : c :: cs = p.text ++ rest) : pieces (c :: cs) = p :: pieces rest := by
  rw [pieces_cons, h, hsplit, List.drop_left]

/-- Nothing is lost between pieces. -/
theorem flatMap_text_pieces (cs : List Char) : (pieces cs).flatMap (·.text) = cs := by
  fun_induction pieces cs with
  | case1 => rfl
  | case2 c cs ih =>
    rw [List.flatMap_cons, ih]
    exact List.prefix_iff_eq_append.1 firstPiece_initial

theorem lexeme_of_mem_pieces {p : Piece} (hp : p ∈ pieces cs) (ht : p.token = some t) :
    Lexeme p.text t := by
  fun_induction pieces cs with
  | case1 => cases hp
  | case2 c cs ih =>
    rcases List.mem_cons.1 hp with rfl | hp
    · have hfirst : firstPiece c cs = ⟨(firstPiece c cs).text, some t⟩ := by rw [← ht]
      exact lexeme_of_firstPiece hfirst
    · exact ih hp

/-- The text of a token is cut off as that token, if what follows is bounded. -/
theorem Lexeme.pieces_append (h : Lexeme text t) (hrest : Bounded rest) :
    pieces (text ++ rest) = ⟨text, some t⟩ :: pieces rest := by
  cases h with
  | @word c cs hc hcs =>
    have htake : (cs ++ rest).takeWhile isWordPart = cs := by
      rw [List.takeWhile_append_of_pos hcs, hrest.takeWhile fun _ => isWordPart_of_isBlank,
        List.append_nil]
    rw [List.cons_append]
    refine pieces_of_firstPiece ?_ rfl
    rw [firstPiece_word hc, htake]
  | equals => exact pieces_of_firstPiece firstPiece_equals rfl
  | number h =>
    have hnumber := h.leadingNumber_append hrest
    obtain ⟨c, cs, rfl, hb, hc, hw, he⟩ := h.head
    rw [List.cons_append] at hnumber ⊢
    refine pieces_of_firstPiece ?_ rfl
    rw [firstPiece_other hb (by rintro (h | ⟨h, -⟩); exacts [hc.1 h, hc.2 h]) hw he, hnumber,
      if_neg nofun]
  | @stray c h =>
    have hcomment : ¬ Comments c rest := by
      rintro (heq | ⟨-, hslash⟩)
      · exact h.comment heq
      · exact absurd (hrest _ hslash) (by decide)
    refine pieces_of_firstPiece ?_ rfl
    rw [List.append_eq, List.nil_append, firstPiece_other h.blank hcomment h.word h.equals,
      if_pos (h.leadingNumber hrest)]

end Pieces

/-! ## Spans -/

/-- The span covers the characters `text` of the source. -/
def Covers (source : String) (span : Span) (text : List Char) : Prop :=
  ∃ before after, source.toList = before ++ text ++ after ∧
    span = ⟨byteLength before, byteLength before + byteLength text⟩

/-- The texts of the tokens among the pieces, with the tokens. -/
def lexemes (ps : List Piece) : List (List Char × Token) :=
  ps.filterMap fun p => p.token.map (p.text, ·)

section Spans

variable {source : String} {span : Span} {text text' : List Char}

theorem byteLength_append (cs ds : List Char) :
    byteLength (cs ++ ds) = byteLength cs + byteLength ds := by
  induction cs with
  | nil => exact (Nat.zero_add _).symm
  | cons c cs ih =>
    show c.utf8Size + byteLength (cs ++ ds) = c.utf8Size + byteLength cs + byteLength ds
    rw [ih, Nat.add_assoc]

/-- Two beginnings of a text that take as many bytes are the same, since every character takes one at
least. -/
theorem eq_of_byteLength_eq {cs ds : List Char} {after after' : List Char}
    (h : cs ++ after = ds ++ after') (hlen : byteLength cs = byteLength ds) : cs = ds := by
  induction cs generalizing ds with
  | nil =>
    cases ds with
    | nil => rfl
    | cons d ds =>
      have hpos : 0 < d.utf8Size := d.utf8Size_pos
      have hzero : 0 = d.utf8Size + byteLength ds := hlen
      omega
  | cons c cs ih =>
    cases ds with
    | nil =>
      have hpos : 0 < c.utf8Size := c.utf8Size_pos
      have hzero : c.utf8Size + byteLength cs = 0 := hlen
      omega
    | cons d ds =>
      obtain ⟨rfl, htail⟩ := List.cons.inj h
      have hlen' : c.utf8Size + byteLength cs = c.utf8Size + byteLength ds := hlen
      rw [ih htail (by omega)]

/-- A span covers one text. -/
theorem Covers.unique (h : Covers source span text) (h' : Covers source span text') :
    text = text' := by
  obtain ⟨before, after, hsource, rfl⟩ := h
  obtain ⟨before', after', hsource', hspan⟩ := h'
  obtain ⟨hstart, hstop⟩ := Span.mk.inj hspan
  rw [hsource, List.append_assoc, List.append_assoc] at hsource'
  obtain rfl := eq_of_byteLength_eq hsource' hstart
  exact eq_of_byteLength_eq (List.append_cancel_left hsource') (by omega)

theorem map_item_locate (ps : List Piece) (offset : Nat) :
    (locate offset ps).map (·.item) = (lexemes ps).map Prod.snd := by
  induction ps generalizing offset with
  | nil => rfl
  | cons p ps ih =>
    obtain ⟨text, _ | t⟩ := p
    · exact ih _
    · exact congrArg (t :: ·) (ih _)

/-- Every token among the pieces has the span of its text. -/
theorem covers_locate (ps : List Piece) (before : List Char)
    (h : source.toList = before ++ ps.flatMap (·.text)) :
    List.Forall₂ (fun t text => Covers source t.span text) (locate (byteLength before) ps)
      ((lexemes ps).map Prod.fst) := by
  induction ps generalizing before with
  | nil => exact .nil
  | cons p ps ih =>
    have hsplit : source.toList = before ++ p.text ++ ps.flatMap (·.text) := by
      rw [h, List.flatMap_cons, List.append_assoc]
    have hrest := ih (before ++ p.text) hsplit
    rw [byteLength_append] at hrest
    obtain ⟨text, _ | t⟩ := p
    · exact hrest
    · exact .cons ⟨before, _, hsplit, rfl⟩ hrest

/-- The spans of the tokens cover the texts that the tokens are made of. -/
theorem covers_tokens (source : String) :
    List.Forall₂ (fun t text => Covers source t.span text) (tokens source)
      ((lexemes (pieces source.toList)).map Prod.fst) :=
  covers_locate _ [] (flatMap_text_pieces _).symm

theorem lexeme_of_mem_lexemes {cs : List Char} {l : List Char × Token}
    (h : l ∈ lexemes (pieces cs)) : Lexeme l.1 l.2 := by
  obtain ⟨p, hp, hl⟩ := List.mem_filterMap.1 h
  obtain ⟨t, ht, rfl⟩ := Option.map_eq_some_iff.1 hl
  exact lexeme_of_mem_pieces hp ht

end Spans

end ConstraintHierarchy.Script
