import Mathlib.Computability.Language
import ConstraintHierarchy.Proofs.Pieces

/-!
# Tokens and gaps

What can be written in a script is given by patterns: blanks, two sorts of comments, the reserved words,
the equals sign, names and numbers. Patterns overlap, and their texts begin alike: a reserved word could
be a name, a minus sign need not begin a number, and a single slash is no comment. A text is cut at
every place after the longest text that any pattern matches there, or after one character if no pattern
matches. So the spans of the tokens and the blanks and comments between them tile the source.

## Main definitions

* `Pattern`, `Pattern.language`: the texts that a pattern matches
* `Denotes`, `Cuts`: the token that is cut off at a place
* `Ignored`: blanks and comments, each comment up to the end of its line
* `Placed`, `gaps`: a span and what it covers, and the spans between tokens
* `Tiled`: tokens and gaps, one after the other

## Main results

* `Numeral.length_le`: of the numbers at the front of a text the scanner takes the longest
* `cuts_firstPiece`, `tiled_pieces`: what one cut does, and all of them
* `tokens_tile`: tokens are longest matches, and nothing but blanks and comments lies between them
-/

namespace ConstraintHierarchy.Script

open Computability

/-! ## Patterns -/

/-- What can be written in a script. -/
inductive Pattern where
  | blanks
  | slashComment
  | hashComment
  | keyword (k : Keyword)
  | equals
  | identifier
  | number

namespace Pattern

def IsLetter (c : Char) : Prop := 'a' ≤ c ∧ c ≤ 'z' ∨ 'A' ≤ c ∧ c ≤ 'Z'

def IsNumeric (c : Char) : Prop := '0' ≤ c ∧ c ≤ '9'

/-- The texts of one character with a property. -/
def one (p : Char → Prop) : Language Char := {w | ∃ c, p c ∧ w = [c]}

/-- One or more texts of a language. -/
def plus (l : Language Char) : Language Char := l * l∗

/-- The texts that a pattern matches. -/
def language : Pattern → Language Char
  | blanks => plus (one fun c => c = ' ' ∨ c = '\t' ∨ c = '\n' ∨ c = '\r')
  | slashComment => {['/', '/']} * (one (· ≠ '\n'))∗
  | hashComment => {['#']} * (one (· ≠ '\n'))∗
  | keyword k => {k.text.toList}
  | equals => {['=']}
  | identifier =>
    one (fun c => IsLetter c ∨ c = '_') * (one fun c => IsLetter c ∨ IsNumeric c ∨ c = '_')∗
  | number => (1 + {['-']}) * plus (one IsNumeric) * (1 + {['.']} * plus (one IsNumeric))

end Pattern

/-- No pattern matches more than `text` at the front of `text ++ after`. -/
def Longest (text after : List Char) : Prop :=
  ∀ (q : Pattern) (w : List Char), w ∈ q.language → w <+: text ++ after → w.length ≤ text.length

/-- No pattern matches anything at the front of the text. -/
def Unmatched (cs : List Char) : Prop := ∀ (q : Pattern) (w : List Char), w ∈ q.language → ¬ w <+: cs

/-- The token of a text that a pattern matches. A reserved word is no name. -/
inductive Denotes : List Char → Token → Prop
  | keyword (k : Keyword) : Denotes k.text.toList (.keyword k)
  | equals : Denotes ['='] .equals
  | identifier {w : List Char} (h : w ∈ Pattern.identifier.language)
    (hfree : ∀ k : Keyword, w ≠ k.text.toList) : Denotes w (.identifier (String.ofList w))
  | number {w : List Char} {x : Float} (h : w ∈ Pattern.number.language)
    (hx : Decimal.read? (String.ofList w) = some x) : Denotes w (.number x)

/-- The token that is cut off as `text` where `text ++ after` is left. -/
inductive Cuts (text after : List Char) : Token → Prop
  | matched {t : Token} (h : Denotes text t) (hlongest : Longest text after) : Cuts text after t
  | stray {c : Char} (htext : text = [c]) (h : Unmatched (text ++ after)) :
    Cuts text after .unrecognized

/-- The text is at its end or goes on with a line feed. -/
def LineOver (cs : List Char) : Prop := ∀ c, cs.head? = some c → c = '\n'

/-- Blanks and comments, which `after` follows. -/
inductive Ignored : List Char → List Char → Prop
  | nil {after : List Char} : Ignored [] after
  | blanks {text gap after : List Char} (h : text ∈ Pattern.blanks.language)
    (hgap : Ignored gap after) : Ignored (text ++ gap) after
  | comment {text gap after : List Char}
    (h : text ∈ Pattern.slashComment.language ∨ text ∈ Pattern.hashComment.language)
    (hline : LineOver (gap ++ after)) (hgap : Ignored gap after) : Ignored (text ++ gap) after

/-- The span covers `text`, with `before` in front of it and `after` behind it. -/
structure Placed (source : String) (span : Span) (before text after : List Char) : Prop where
  split : source.toList = before ++ text ++ after
  span_eq : span = ⟨byteLength before, byteLength before + byteLength text⟩

/-- The spans before, between and after tokens, from `start` to `stop`. -/
def gaps (start stop : Nat) : List (Located Token) → List Span
  | [] => [⟨start, stop⟩]
  | t :: ts => ⟨start, t.span.start⟩ :: gaps t.span.stop stop ts

/-! ## The texts of patterns -/

namespace Pattern

section Characters

variable {c : Char}

theorem isDigit_iff : c.isDigit = true ↔ IsNumeric c := by
  simp [Char.isDigit, IsNumeric, Char.le_def]

theorem isAlpha_iff : c.isAlpha = true ↔ IsLetter c := by
  simp [Char.isAlpha, Char.isUpper, Char.isLower, IsLetter, Char.le_def, or_comm]

theorem isWordStart_iff : isWordStart c = true ↔ IsLetter c ∨ c = '_' := by
  rw [isWordStart, Bool.or_eq_true, isAlpha_iff, beq_iff_eq]

theorem isWordPart_iff : isWordPart c = true ↔ IsLetter c ∨ IsNumeric c ∨ c = '_' := by
  rw [isWordPart, Bool.or_eq_true, beq_iff_eq, Char.isAlphanum, Bool.or_eq_true, isAlpha_iff,
    isDigit_iff, or_assoc]

end Characters

section Languages

variable {p : Char → Prop} {w : List Char}

theorem mem_kstar_one : w ∈ (one p)∗ ↔ ∀ c ∈ w, p c := by
  rw [Language.mem_kstar]
  constructor
  · rintro ⟨L, rfl, hL⟩ c hc
    obtain ⟨y, hy, hcy⟩ := List.mem_flatten.1 hc
    obtain ⟨d, hd, rfl⟩ := hL y hy
    rwa [List.mem_singleton.1 hcy]
  · intro h
    refine ⟨w.map ([·]), (List.flatMap_singleton' w).symm, fun y hy => ?_⟩
    obtain ⟨c, hc, rfl⟩ := List.mem_map.1 hy
    exact ⟨c, h c hc, rfl⟩

theorem mem_one_mul {l : Language Char} :
    w ∈ one p * l ↔ ∃ c cs, w = c :: cs ∧ p c ∧ cs ∈ l := by
  rw [Language.mem_mul]
  constructor
  · rintro ⟨_, ⟨c, hc, rfl⟩, cs, hcs, rfl⟩
    exact ⟨c, cs, rfl, hc, hcs⟩
  · rintro ⟨c, cs, rfl, hc, hcs⟩
    exact ⟨[c], ⟨c, hc, rfl⟩, cs, hcs, rfl⟩

theorem mem_plus_one : w ∈ plus (one p) ↔ w ≠ [] ∧ ∀ c ∈ w, p c := by
  rw [plus, mem_one_mul]
  constructor
  · rintro ⟨c, cs, rfl, hc, hcs⟩
    exact ⟨nofun, List.forall_mem_cons.2 ⟨hc, mem_kstar_one.1 hcs⟩⟩
  · rintro ⟨hne, h⟩
    obtain ⟨c, cs, rfl⟩ := List.exists_cons_of_ne_nil hne
    obtain ⟨hc, hcs⟩ := List.forall_mem_cons.1 h
    exact ⟨c, cs, rfl, hc, mem_kstar_one.2 hcs⟩

theorem mem_singleton_mul {l : Language Char} {u : List Char} :
    w ∈ {u} * l ↔ ∃ cs ∈ l, w = u ++ cs := by
  rw [Language.mem_mul]
  constructor
  · rintro ⟨_, rfl, cs, hcs, rfl⟩
    exact ⟨cs, hcs, rfl⟩
  · rintro ⟨cs, hcs, rfl⟩
    exact ⟨u, rfl, cs, hcs, rfl⟩

theorem mem_blanks : w ∈ blanks.language ↔ w ≠ [] ∧ ∀ c ∈ w, isBlank c = true := by
  simp only [isBlank_iff]
  exact mem_plus_one

theorem mem_slashComment :
    w ∈ slashComment.language ↔ ∃ cs, w = '/' :: '/' :: cs ∧ ∀ c ∈ cs, c ≠ '\n' := by
  rw [language, mem_singleton_mul]
  simp only [mem_kstar_one]
  exact exists_congr fun cs => and_comm

theorem mem_hashComment : w ∈ hashComment.language ↔ ∃ cs, w = '#' :: cs ∧ ∀ c ∈ cs, c ≠ '\n' := by
  rw [language, mem_singleton_mul]
  simp only [mem_kstar_one]
  exact exists_congr fun cs => and_comm

theorem mem_identifier : w ∈ identifier.language ↔
    ∃ c cs, w = c :: cs ∧ isWordStart c = true ∧ ∀ d ∈ cs, isWordPart d = true := by
  rw [language, mem_one_mul]
  simp only [mem_kstar_one, isWordStart_iff, isWordPart_iff]

theorem mem_digits : w ∈ plus (one IsNumeric) ↔ w ≠ [] ∧ ∀ d ∈ w, d.isDigit = true := by
  simp only [isDigit_iff]
  exact mem_plus_one

theorem mem_unsigned :
    w ∈ plus (one IsNumeric) * (1 + {['.']} * plus (one IsNumeric)) ↔ Unsigned w := by
  rw [Language.mem_mul]
  constructor
  · rintro ⟨ds, hds, fs, hfs, rfl⟩
    obtain ⟨hne, hds⟩ := mem_digits.1 hds
    rcases hfs with rfl | hfs
    · rw [List.append_nil]
      exact .whole hne hds
    · obtain ⟨more, hmore, rfl⟩ := mem_singleton_mul.1 hfs
      obtain ⟨hne', hfs'⟩ := mem_digits.1 hmore
      exact .fraction hne hds hne' hfs'
  · rintro (⟨hne, hds⟩ | ⟨hne, hds, hne', hfs⟩)
    · exact ⟨w, mem_digits.2 ⟨hne, hds⟩, [], .inl rfl, List.append_nil w⟩
    · exact ⟨_, mem_digits.2 ⟨hne, hds⟩, _,
        .inr (mem_singleton_mul.2 ⟨_, mem_digits.2 ⟨hne', hfs⟩, rfl⟩), rfl⟩

theorem mem_number : w ∈ number.language ↔ Numeral w := by
  rw [language, mul_assoc, Language.mem_mul]
  constructor
  · rintro ⟨_, rfl | rfl, ds, hds, rfl⟩
    · exact .positive (mem_unsigned.1 hds)
    · exact .negative (mem_unsigned.1 hds)
  · rintro (⟨h⟩ | ⟨h⟩)
    · exact ⟨[], .inl rfl, w, mem_unsigned.2 h, rfl⟩
    · exact ⟨['-'], .inr rfl, _, mem_unsigned.2 h, rfl⟩

/-- A reserved word could be a name. -/
theorem mem_identifier_of_mem_keyword {k : Keyword} (h : w ∈ (keyword k).language) :
    w ∈ identifier.language := by
  obtain rfl : w = k.text.toList := h
  rw [mem_identifier]
  cases k <;> exact ⟨_, _, rfl, by decide +kernel, List.all_eq_true.1 (by decide +kernel)⟩

/-- The characters that the texts of a pattern begin with. -/
def Begins : Pattern → Char → Prop
  | blanks, c => isBlank c = true
  | slashComment, c => c = '/'
  | hashComment, c => c = '#'
  | keyword _, c => isWordStart c = true
  | equals, c => c = '='
  | identifier, c => isWordStart c = true
  | number, c => c.isDigit = true ∨ c = '-'

theorem exists_begins {q : Pattern} (h : w ∈ q.language) : ∃ c cs, w = c :: cs ∧ q.Begins c := by
  cases q with
  | blanks =>
    obtain ⟨hne, hw⟩ := mem_blanks.1 h
    obtain ⟨c, cs, rfl⟩ := List.exists_cons_of_ne_nil hne
    exact ⟨c, cs, rfl, hw c (by simp)⟩
  | slashComment =>
    obtain ⟨cs, rfl, -⟩ := mem_slashComment.1 h
    exact ⟨_, _, rfl, rfl⟩
  | hashComment =>
    obtain ⟨cs, rfl, -⟩ := mem_hashComment.1 h
    exact ⟨_, _, rfl, rfl⟩
  | keyword k =>
    obtain ⟨c, cs, rfl, hc, -⟩ := mem_identifier.1 (mem_identifier_of_mem_keyword h)
    exact ⟨c, cs, rfl, hc⟩
  | equals => exact ⟨_, _, h, rfl⟩
  | identifier =>
    obtain ⟨c, cs, rfl, hc, -⟩ := mem_identifier.1 h
    exact ⟨c, cs, rfl, hc⟩
  | number =>
    obtain h | h := mem_number.1 h
    · obtain ⟨d, ds, rfl, hd⟩ := h.head_isDigit
      exact ⟨d, ds, rfl, .inl hd⟩
    · exact ⟨_, _, rfl, .inr rfl⟩

theorem begins_of_mem {q : Pattern} {c : Char} {cs : List Char} (h : c :: cs ∈ q.language) :
    q.Begins c := by
  obtain ⟨d, ds, heq, hbegins⟩ := exists_begins h
  rwa [(List.cons.inj heq).1]

/-- A letter begins nothing but words. -/
theorem mem_identifier_of_isWordStart {q : Pattern} {c : Char} {cs : List Char}
    (h : c :: cs ∈ q.language) (hc : isWordStart c = true) : c :: cs ∈ identifier.language := by
  have hbegins := begins_of_mem h
  cases q with
  | blanks => exact absurd hbegins (by simp [Begins, isBlank_of_isWordStart hc])
  | slashComment =>
    obtain rfl : c = '/' := hbegins
    cases hc
  | hashComment =>
    obtain rfl : c = '#' := hbegins
    cases hc
  | keyword k => exact mem_identifier_of_mem_keyword h
  | equals =>
    obtain rfl : c = '=' := hbegins
    cases hc
  | identifier => exact h
  | number =>
    rcases hbegins with hd | rfl
    · rw [isWordStart_of_isDigit hd] at hc
      cases hc
    · cases hc

/-- An equals sign begins nothing else. -/
theorem eq_nil_of_mem_equals {q : Pattern} {cs : List Char} (h : '=' :: cs ∈ q.language) :
    cs = [] := by
  have hbegins := begins_of_mem h
  cases q with
  | equals => exact (List.cons.inj h).2
  | _ => exact absurd hbegins (by simp [Begins, isBlank, isWordStart])

/-- Where neither a blank nor a comment nor a word nor an equals sign begins, it is a number if
anything. -/
theorem numeral_of_mem {q : Pattern} {c : Char} {cs : List Char} (h : w ∈ q.language)
    (hw : w <+: c :: cs) (hb : isBlank c = false) (hc : ¬ Comments c cs) (hword : isWordStart c = false)
    (he : c ≠ '=') : Numeral w := by
  obtain ⟨d, ds, rfl, hbegins⟩ := exists_begins h
  obtain ⟨rfl, hds⟩ := List.cons_prefix_cons.1 hw
  cases q with
  | blanks => exact absurd hbegins (by simp [Begins, hb])
  | slashComment =>
    obtain ⟨more, heq, -⟩ := mem_slashComment.1 h
    obtain ⟨rfl, rfl⟩ := List.cons.inj heq
    obtain ⟨after, rfl⟩ := hds
    exact absurd (.inr ⟨rfl, rfl⟩) hc
  | hashComment => exact absurd (.inl hbegins) hc
  | keyword k => exact absurd hbegins (by simp [Begins, hword])
  | equals => exact absurd hbegins he
  | identifier => exact absurd hbegins (by simp [Begins, hword])
  | number => exact mem_number.1 h

end Languages

end Pattern

/-! ## The longest number -/

section Numbers

variable {w cs : List Char}

theorem Unsigned.length_le (h : Unsigned w) (hw : w <+: cs) : w.length ≤ (unsignedNumber cs).length := by
  obtain ⟨rest, rfl⟩ := hw
  cases h with
  | whole hne hds =>
    have htake : (w ++ rest).takeWhile Char.isDigit = w ++ rest.takeWhile Char.isDigit :=
      List.takeWhile_append_of_pos hds
    rcases unsignedNumber_cases (w ++ rest) with heq | ⟨hnil, -⟩ | ⟨-, more, -, -, heq⟩
    · rw [heq, htake, List.length_append]
      omega
    · rw [htake] at hnil
      exact absurd (List.append_eq_nil_iff.1 hnil).1 hne
    · rw [heq, htake, List.length_append, List.length_append]
      omega
  | fraction hne hds hfs hfs' =>
    rw [unsignedNumber_fraction hne hds hfs hfs']
    simp only [List.length_append, List.length_cons]
    omega

/-- Of the numbers at the front of a text the longest is taken. -/
theorem Numeral.length_le (h : Numeral w) (hw : w <+: cs) : w.length ≤ (leadingNumber cs).length := by
  cases h with
  | positive h =>
    obtain ⟨d, ds, rfl, hd⟩ := h.head_isDigit
    obtain ⟨rest, rfl⟩ := hw
    have hne : d ≠ '-' := by
      rintro rfl
      exact absurd hd (by decide)
    rw [List.cons_append, leadingNumber_of_ne hne]
    exact h.length_le ⟨rest, rfl⟩
  | @negative ds h =>
    obtain ⟨rest, rfl⟩ := hw
    have hle : ds.length ≤ (unsignedNumber (ds ++ rest)).length := h.length_le ⟨rest, rfl⟩
    obtain ⟨d, ds, rfl, -⟩ := h.head_isDigit
    have hne : unsignedNumber (d :: ds ++ rest) ≠ [] := by
      intro hnil
      rw [hnil] at hle
      cases hle
    rw [List.cons_append, leadingNumber_minus, if_neg hne]
    exact Nat.succ_le_succ hle

/-- A number can be read. -/
theorem Unsigned.exists_readUnsigned? (h : Unsigned w) (negative : Bool) :
    ∃ x, Decimal.readUnsigned? negative w = some x := by
  cases h with
  | whole hne hds =>
    have htake : w.takeWhile Char.isDigit = w := List.takeWhile_eq_self_iff.2 hds
    have hdrop : w.dropWhile Char.isDigit = [] := List.dropWhile_eq_nil_iff.2 hds
    simp [Decimal.readUnsigned?, htake, hdrop, hne, Decimal.readExponent?]
  | @fraction ds fs hne hds hfs hfs' =>
    have htake : (ds ++ '.' :: fs).takeWhile Char.isDigit = ds := by
      rw [List.takeWhile_append_of_pos hds, List.takeWhile_cons_of_neg (by decide), List.append_nil]
    have hdrop : (ds ++ '.' :: fs).dropWhile Char.isDigit = '.' :: fs := by
      rw [List.dropWhile_append_of_pos hds, List.dropWhile_cons_of_neg (by decide)]
    have hrest : fs.dropWhile Char.isDigit = [] := List.dropWhile_eq_nil_iff.2 hfs'
    simp [Decimal.readUnsigned?, htake, hdrop, hne, hrest, Decimal.readExponent?]

theorem Numeral.exists_splitSign (h : Numeral w) :
    ∃ negative ds, Decimal.splitSign w = (negative, ds) ∧ Unsigned ds := by
  cases h with
  | positive h =>
    obtain ⟨d, ds, rfl, hd⟩ := h.head_isDigit
    refine ⟨false, d :: ds, ?_, h⟩
    unfold Decimal.splitSign
    split
    next heq =>
      obtain ⟨rfl, rfl⟩ := List.cons.inj heq
      exact absurd hd (by decide)
    next heq =>
      obtain ⟨rfl, rfl⟩ := List.cons.inj heq
      exact absurd hd (by decide)
    next => rfl
  | negative h => exact ⟨true, _, rfl, h⟩

theorem Numeral.exists_read? (h : Numeral w) : ∃ x, Decimal.read? (String.ofList w) = some x := by
  obtain ⟨negative, ds, hsign, hds⟩ := h.exists_splitSign
  rw [Decimal.read?, String.toList_ofList, hsign]
  dsimp only
  split
  next => exact ⟨_, rfl⟩
  next =>
    split
    next => exact ⟨_, rfl⟩
    next => exact hds.exists_readUnsigned? negative

theorem Numeral.denotes (h : Numeral w) : Denotes w (numberToken w) := by
  obtain ⟨x, hx⟩ := h.exists_read?
  rw [numberToken, hx]
  exact .number (Pattern.mem_number.2 h) hx

end Numbers

/-! ## One cut -/

section Cuts

variable {c : Char} {cs text after : List Char} {t : Token}

theorem Denotes.exists_mem (h : Denotes text t) : ∃ q : Pattern, text ∈ q.language := by
  cases h with
  | keyword k => exact ⟨.keyword k, rfl⟩
  | equals => exact ⟨.equals, rfl⟩
  | identifier h _ => exact ⟨.identifier, h⟩
  | number h _ => exact ⟨.number, h⟩

theorem Cuts.ne_nil (h : Cuts text after t) : text ≠ [] := by
  cases h with
  | matched h _ =>
    obtain ⟨q, hmem⟩ := h.exists_mem
    obtain ⟨c, cs, rfl, -⟩ := Pattern.exists_begins hmem
    nofun
  | stray htext _ =>
    rw [htext]
    nofun

/-- A word is reserved or a name. -/
theorem denotes_wordToken {w : List Char} (h : w ∈ Pattern.identifier.language) :
    Denotes w (wordToken w) := by
  unfold wordToken
  split
  next k hk =>
    have htext : k.text = String.ofList w := by simpa using List.find?_some hk
    have hw : w = k.text.toList := by rw [htext, String.toList_ofList]
    rw [hw]
    exact .keyword k
  next hnone =>
    refine .identifier h fun k hk => ?_
    refine List.find?_eq_none.1 hnone k (Keyword.mem_all k) ?_
    rw [hk, String.ofList_toList]
    exact beq_self_eq_true _

theorem longest_word (hc : isWordStart c = true) :
    Longest (c :: cs.takeWhile isWordPart) (cs.dropWhile isWordPart) := by
  intro q w hmem hw
  rw [List.cons_append, List.takeWhile_append_dropWhile] at hw
  obtain ⟨d, ds, rfl, -⟩ := Pattern.exists_begins hmem
  obtain ⟨rfl, rest, rfl⟩ := List.cons_prefix_cons.1 hw
  obtain ⟨_, _, heq, -, hds⟩ :=
    Pattern.mem_identifier.1 (Pattern.mem_identifier_of_isWordStart hmem hc)
  obtain ⟨rfl, rfl⟩ := List.cons.inj heq
  rw [List.takeWhile_append_of_pos hds, List.length_cons, List.length_cons, List.length_append]
  omega

/-- A piece with a token is the longest match, or a single character where there is none. -/
theorem cuts_firstPiece (h : firstPiece c cs = ⟨text, some t⟩) (hsplit : c :: cs = text ++ after) :
    Cuts text after t := by
  rcases firstPiece_cases c cs with h' | ⟨hb, h'⟩ | h' | rfl | ⟨hb, hc, hword, he⟩
  · rw [firstPiece_blank h'] at h
    cases h
  · rw [firstPiece_comment hb h'] at h
    cases h
  · rw [firstPiece_word h'] at h
    cases h
    have hafter : after = cs.dropWhile isWordPart := by
      have hcs : cs = cs.takeWhile isWordPart ++ after := (List.cons.inj hsplit).2
      exact List.append_cancel_left (hcs.symm.trans List.takeWhile_append_dropWhile.symm)
    rw [hafter]
    exact .matched (denotes_wordToken (Pattern.mem_identifier.2
      ⟨c, _, rfl, h', fun _ => List.mem_takeWhile_imp⟩)) (longest_word h')
  · rw [firstPiece_equals] at h
    cases h
    refine .matched .equals fun q w hmem hw => ?_
    obtain ⟨d, ds, rfl, -⟩ := Pattern.exists_begins hmem
    obtain ⟨rfl, -⟩ := List.cons_prefix_cons.1 hw
    rw [Pattern.eq_nil_of_mem_equals hmem]
  · -- whatever a pattern matches here is a number, and no longer than the leading one
    have hle : ∀ (q : Pattern) (w : List Char), w ∈ q.language → w <+: text ++ after →
        w.length ≤ (leadingNumber (c :: cs)).length := by
      intro q w hmem hw
      rw [← hsplit] at hw
      exact (Pattern.numeral_of_mem hmem hw hb hc hword he).length_le hw
    rw [firstPiece_other hb hc hword he] at h
    split at h
    next hnone =>
      cases h
      refine .stray rfl fun q w hmem hw => ?_
      have hlen := hle q w hmem hw
      obtain ⟨d, ds, rfl, -⟩ := Pattern.exists_begins hmem
      rw [hnone] at hlen
      cases hlen
    next hsome =>
      obtain ⟨rfl, ht⟩ := Piece.mk.inj h
      rw [← Option.some.inj ht]
      exact .matched (leadingNumber_spec.2.1 hsome).denotes hle

theorem lineOver_dropWhile (cs : List Char) : LineOver (cs.dropWhile (· ≠ '\n')) := by
  intro d hd
  have hnot := List.head?_dropWhile_not (· ≠ '\n') cs
  rw [hd] at hnot
  simpa using hnot

/-- A piece without a token is ignored, and whatever is ignored after it. -/
theorem ignored_firstPiece {gap : List Char} (h : firstPiece c cs = ⟨text, none⟩)
    (hsplit : c :: cs = text ++ (gap ++ after)) (hgap : Ignored gap after) :
    Ignored (text ++ gap) after := by
  rcases firstPiece_cases c cs with h' | ⟨hb, h'⟩ | h' | rfl | ⟨hb, hc, hword, he⟩
  · rw [firstPiece_blank h'] at h
    cases h
    refine .blanks (Pattern.mem_blanks.2 ⟨nofun, ?_⟩) hgap
    exact List.forall_mem_cons.2 ⟨h', fun _ => List.mem_takeWhile_imp⟩
  · rw [firstPiece_comment hb h'] at h
    cases h
    have hline : ∀ d ∈ cs.takeWhile (· ≠ '\n'), d ≠ '\n' := fun d hd => by
      simpa using List.mem_takeWhile_imp hd
    have hover : LineOver (gap ++ after) := by
      have hcs : cs = cs.takeWhile (· ≠ '\n') ++ (gap ++ after) := (List.cons.inj hsplit).2
      rw [List.append_cancel_left (hcs.symm.trans List.takeWhile_append_dropWhile.symm)]
      exact lineOver_dropWhile cs
    refine .comment ?_ hover hgap
    rcases h' with rfl | ⟨rfl, hslash⟩
    · exact .inr (Pattern.mem_hashComment.2 ⟨_, rfl, hline⟩)
    · cases cs with
      | nil => cases hslash
      | cons d cs =>
        cases hslash
        refine .inl (Pattern.mem_slashComment.2 ⟨cs.takeWhile (· ≠ '\n'), ?_, fun d hd => ?_⟩)
        · rw [List.takeWhile_cons_of_pos (by decide)]
        · simpa using List.mem_takeWhile_imp hd
  · rw [firstPiece_word h'] at h
    cases h
  · rw [firstPiece_equals] at h
    cases h
  · rw [firstPiece_other hb hc hword he] at h
    split at h <;> cases h

end Cuts

/-! ## All cuts -/

/-- Tokens and gaps follow one another, where `before` is in front of the text. -/
inductive Tiled : List Char → List Char → List (Located Token) → Prop
  | done {before gap : List Char} (hgap : Ignored gap []) : Tiled before gap []
  | token {before gap text after : List Char} {t : Token} {ts : List (Located Token)}
    (hgap : Ignored gap (text ++ after)) (ht : Cuts text after t)
    (hrest : Tiled (before ++ gap ++ text) after ts) :
    Tiled before (gap ++ (text ++ after))
      (⟨t, ⟨byteLength (before ++ gap), byteLength (before ++ gap) + byteLength text⟩⟩ :: ts)

section Tiled

variable {source : String} {before rest : List Char} {ts : List (Located Token)}

/-- A piece without a token makes the first gap longer. -/
theorem Tiled.skip {c : Char} {cs text : List Char} (h : firstPiece c cs = ⟨text, none⟩)
    (hsplit : c :: cs = text ++ rest) (hrest : Tiled (before ++ text) rest ts) :
    Tiled before (c :: cs) ts := by
  cases hrest with
  | done hgap =>
    rw [hsplit]
    exact .done (ignored_firstPiece h (by rwa [List.append_nil]) hgap)
  | token hgap ht hrest =>
    have hgap' := ignored_firstPiece h hsplit hgap
    rw [hsplit, ← List.append_assoc, List.append_assoc before]
    rw [List.append_assoc before] at hrest
    exact .token hgap' ht hrest

theorem tiled_pieces (before cs : List Char) :
    Tiled before cs (locate (byteLength before) (pieces cs)) := by
  fun_induction pieces cs generalizing before with
  | case1 => exact .done .nil
  | case2 c cs ih =>
    have hsplit : c :: cs = (firstPiece c cs).text ++
        (c :: cs).drop (firstPiece c cs).text.length :=
      (List.prefix_iff_eq_append.1 firstPiece_initial).symm
    generalize (c :: cs).drop (firstPiece c cs).text.length = rest at hsplit ih
    have hrest := ih (before ++ (firstPiece c cs).text)
    rw [byteLength_append] at hrest
    rcases hfirst : firstPiece c cs with ⟨text, _ | t⟩
    · rw [hfirst] at hsplit hrest
      exact .skip hfirst hsplit hrest
    · rw [hfirst] at hsplit hrest
      have htoken := @Tiled.token before [] text rest t _ .nil (cuts_firstPiece hfirst hsplit)
        (by rwa [List.append_nil])
      rw [List.append_nil] at htoken
      rw [hsplit]
      exact htoken

/-- Every token is a longest match, or a character where nothing matches. -/
theorem Tiled.cuts (h : Tiled before rest ts) (hsource : source.toList = before ++ rest)
    {t : Located Token} (ht : t ∈ ts) :
    ∃ before' text after, Placed source t.span before' text after ∧ Cuts text after t.item := by
  induction h with
  | done => cases ht
  | @token before gap text after _ _ hgap hcuts _ ih =>
    rw [← List.append_assoc, ← List.append_assoc] at hsource
    rcases List.mem_cons.1 ht with rfl | ht
    · exact ⟨before ++ gap, text, after, ⟨hsource, rfl⟩, hcuts⟩
    · exact ih hsource ht

theorem Tiled.le_start (h : Tiled before rest ts) {t : Located Token} (ht : t ∈ ts) :
    byteLength before ≤ t.span.start := by
  induction h with
  | done => cases ht
  | token hgap hcuts _ ih =>
    rcases List.mem_cons.1 ht with rfl | ht
    · rw [byteLength_append]
      exact Nat.le_add_right _ _
    · have hle := ih ht
      rw [byteLength_append, byteLength_append] at hle
      omega

theorem Tiled.pairwise (h : Tiled before rest ts) :
    ts.Pairwise fun t u => t.span.stop ≤ u.span.start := by
  induction h with
  | done => exact .nil
  | token hgap hcuts hrest ih =>
    refine List.pairwise_cons.2 ⟨fun u hu => ?_, ih⟩
    rw [← byteLength_append]
    exact hrest.le_start hu

/-- What no token covers is ignored. -/
theorem Tiled.ignored (h : Tiled before rest ts) (hsource : source.toList = before ++ rest)
    {g : Span} (hg : g ∈ gaps (byteLength before) (byteLength source.toList) ts) :
    ∃ before' text after, Placed source g before' text after ∧ Ignored text after := by
  induction h with
  | @done before gap hgap =>
    obtain rfl := List.mem_singleton.1 hg
    rw [hsource, byteLength_append]
    exact ⟨before, gap, [], ⟨by rw [hsource, List.append_nil], rfl⟩, hgap⟩
  | @token before gap text after _ _ hgap hcuts _ ih =>
    rcases List.mem_cons.1 hg with rfl | hg
    · refine ⟨before, gap, text ++ after, ⟨by rw [hsource, List.append_assoc], ?_⟩, hgap⟩
      rw [byteLength_append]
    · rw [← byteLength_append] at hg
      refine ih ?_ hg
      rw [hsource, List.append_assoc, List.append_assoc]

theorem tiled_tokens (source : String) : Tiled [] source.toList (tokens source) :=
  tiled_pieces [] source.toList

end Tiled

theorem byteLength_pos {cs : List Char} (h : cs ≠ []) : 0 < byteLength cs := by
  cases cs with
  | nil => exact absurd rfl h
  | cons c cs => exact Nat.lt_add_right _ c.utf8Size_pos

/-- The spans of tokens cover characters of the source, at least one each, and they follow one another
without overlap. A token is the longest text that any pattern matches where it stands, a reserved word
rather than a name, and with the covered text as its name or number; or it is a character where no
pattern matches. What no token covers are blanks and comments, each comment up to the end of its line. -/
theorem tokens_tile (source : String) :
    (∀ t ∈ tokens source, t.span.start < t.span.stop ∧
      ∃ before text after, Placed source t.span before text after ∧ Cuts text after t.item) ∧
    ((tokens source).Pairwise fun t u => t.span.stop ≤ u.span.start) ∧
    ∀ g ∈ gaps 0 (byteLength source.toList) (tokens source),
      ∃ before text after, Placed source g before text after ∧ Ignored text after := by
  have htiled := tiled_tokens source
  refine ⟨fun t ht => ?_, htiled.pairwise, fun g hg => htiled.ignored rfl hg⟩
  obtain ⟨before, text, after, hplaced, hcuts⟩ := htiled.cuts rfl ht
  refine ⟨?_, before, text, after, hplaced, hcuts⟩
  rw [hplaced.span_eq]
  exact Nat.lt_add_of_pos_right (byteLength_pos hcuts.ne_nil)

end ConstraintHierarchy.Script
