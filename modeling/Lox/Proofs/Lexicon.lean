import Lox.Token.Piece
/-!
# The lexicon

The kinds of pieces that a source can be cut into and the pattern that describes each: what blanks,
comments, symbols, numbers, strings and words look like, said without a scanner. The lemmas under each
heading say which texts a pattern matches.
-/

namespace Lox

/-! ### Patterns -/

/-- A description of texts. A character class is given by the ranges it consists of, or by the characters
it leaves out. -/
inductive Pattern where
  | exactly (text : List Char)
  | oneOf (ranges : List (Char × Char))
  | noneOf (excluded : List Char)
  | sequence (first second : Pattern)
  | optional (pattern : Pattern)
  | many (pattern : Pattern)

namespace Pattern

inductive Matches : Pattern → List Char → Prop where
  | exactly {text : List Char} : Matches (.exactly text) text
  | oneOf {ranges : List (Char × Char)} {low high c : Char} : (low, high) ∈ ranges → low ≤ c → c ≤ high →
      Matches (.oneOf ranges) [c]
  | noneOf {excluded : List Char} {c : Char} : c ∉ excluded → Matches (.noneOf excluded) [c]
  | sequence {first second : Pattern} {s t : List Char} : Matches first s → Matches second t →
      Matches (.sequence first second) (s ++ t)
  | absent {pattern : Pattern} : Matches (.optional pattern) []
  | present {pattern : Pattern} {s : List Char} : Matches pattern s → Matches (.optional pattern) s
  | stop {pattern : Pattern} : Matches (.many pattern) []
  | step {pattern : Pattern} {s t : List Char} : Matches pattern s → Matches (.many pattern) t →
      Matches (.many pattern) (s ++ t)

def oneOrMore (pattern : Pattern) : Pattern :=
  .sequence pattern (.many pattern)

variable {p q : Pattern} {text : List Char}

theorem matches_exactly {t : List Char} : (exactly t).Matches text ↔ text = t := by
  constructor
  · intro h
    cases h
    rfl
  · intro h
    subst h
    exact .exactly

theorem matches_oneOf {ranges : List (Char × Char)} :
    (oneOf ranges).Matches text ↔ ∃ c, text = [c] ∧ ∃ r ∈ ranges, r.1 ≤ c ∧ c ≤ r.2 := by
  constructor
  · intro h
    cases h with
    | @oneOf _ low high c hmem hlow hhigh => exact ⟨c, rfl, (low, high), hmem, hlow, hhigh⟩
  · intro h
    obtain ⟨c, rfl, r, hmem, hlow, hhigh⟩ := h
    exact .oneOf hmem hlow hhigh

theorem matches_noneOf {excluded : List Char} :
    (noneOf excluded).Matches text ↔ ∃ c, text = [c] ∧ c ∉ excluded := by
  constructor
  · intro h
    cases h with
    | noneOf hc => exact ⟨_, rfl, hc⟩
  · intro h
    obtain ⟨c, rfl, hc⟩ := h
    exact .noneOf hc

theorem matches_sequence :
    (sequence p q).Matches text ↔ ∃ s t, text = s ++ t ∧ p.Matches s ∧ q.Matches t := by
  constructor
  · intro h
    cases h with
    | sequence hs ht => exact ⟨_, _, rfl, hs, ht⟩
  · intro h
    obtain ⟨s, t, rfl, hs, ht⟩ := h
    exact .sequence hs ht

theorem matches_exactly_sequence {s : List Char} :
    (sequence (exactly s) q).Matches text ↔ ∃ t, text = s ++ t ∧ q.Matches t := by
  simp only [matches_sequence, matches_exactly]
  constructor
  · intro h
    obtain ⟨_, t, rfl, rfl, ht⟩ := h
    exact ⟨t, rfl, ht⟩
  · intro h
    obtain ⟨t, rfl, ht⟩ := h
    exact ⟨s, t, rfl, rfl, ht⟩

theorem matches_optional : (optional p).Matches text ↔ text = [] ∨ p.Matches text := by
  constructor
  · intro h
    cases h with
    | absent => exact .inl rfl
    | present h => exact .inr h
  · intro h
    obtain rfl | h := h
    · exact .absent
    · exact .present h

/-- Repeating a pattern for single characters matches the texts of such characters. -/
theorem matches_many {accepts : Char → Bool} (hp : ∀ text, p.Matches text ↔ ∃ c, text = [c] ∧ accepts c) :
    (many p).Matches text ↔ ∀ c ∈ text, accepts c := by
  constructor
  · intro h
    generalize hmany : many p = pattern at h
    induction h with
    | stop => simp
    | @step _ s t hs _ _ ih =>
      obtain rfl := Pattern.many.inj hmany
      obtain ⟨c, rfl, hc⟩ := (hp s).1 hs
      exact List.forall_mem_cons.2 ⟨hc, ih rfl⟩
    | _ => simp at hmany
  · intro h
    induction text with
    | nil => exact .stop
    | cons c text ih =>
      obtain ⟨hc, htext⟩ := List.forall_mem_cons.1 h
      exact .step ((hp [c]).2 ⟨c, rfl, hc⟩) (ih htext)

theorem matches_oneOrMore {accepts : Char → Bool} (hp : ∀ text, p.Matches text ↔ ∃ c, text = [c] ∧ accepts c) :
    (oneOrMore p).Matches text ↔ text ≠ [] ∧ ∀ c ∈ text, accepts c := by
  rw [oneOrMore, matches_sequence]
  constructor
  · intro h
    obtain ⟨s, t, rfl, hs, ht⟩ := h
    obtain ⟨c, rfl, hc⟩ := (hp s).1 hs
    exact ⟨by simp, List.forall_mem_cons.2 ⟨hc, (matches_many hp).1 ht⟩⟩
  · intro h
    obtain ⟨hne, hall⟩ := h
    cases text with
    | nil => simp at hne
    | cons c text =>
      obtain ⟨hc, htext⟩ := List.forall_mem_cons.1 hall
      exact ⟨[c], text, rfl, (hp [c]).2 ⟨c, rfl, hc⟩, (matches_many hp).2 htext⟩

end Pattern

/-! ### Characters -/

private theorem range_self {low c : Char} : low ≤ c ∧ c ≤ low ↔ c = low := by
  constructor
  · intro h
    exact Char.le_antisymm h.2 h.1
  · intro h
    subst h
    exact ⟨Char.le_refl c, Char.le_refl c⟩

theorem isDigit_iff {c : Char} : c.isDigit ↔ '0' ≤ c ∧ c ≤ '9' := by
  simp [Char.isDigit, Char.le_def]

theorem isAlpha_iff {c : Char} : c.isAlpha ↔ 'a' ≤ c ∧ c ≤ 'z' ∨ 'A' ≤ c ∧ c ≤ 'Z' := by
  delta Char.isAlpha Char.isUpper Char.isLower
  simp [Char.le_def, or_comm]

/-! ### Lexemes -/

inductive Lexeme where
  | blank
  | newline
  | comment
  | symbol (kind : TokenKind)
  | number
  | string
  | openString
  | word
deriving DecidableEq

namespace Lexeme

open Pattern

/-- The kinds of pieces that sources are cut into, every symbol being one of its own. -/
def all : List Lexeme :=
  [blank, newline, comment, number, string, openString, word] ++ TokenKind.symbols.map symbol

def digits : Pattern :=
  oneOrMore (oneOf [('0', '9')])

def quote : Pattern :=
  exactly ['"']

/-- Strings have no escapes, and one that is not closed takes in what its pattern can. -/
def pattern : Lexeme → Pattern
  | blank => oneOrMore (oneOf [(' ', ' '), ('\t', '\t'), ('\r', '\r')])
  | newline => exactly ['\n']
  | comment => sequence (exactly ['/', '/']) (many (noneOf ['\n']))
  | symbol kind => exactly kind.spelling.toList
  | number => sequence digits (optional (sequence (exactly ['.']) digits))
  | string => sequence quote (sequence (many (noneOf ['"'])) quote)
  | openString => sequence quote (many (noneOf ['"']))
  | word => sequence (oneOf [('a', 'z'), ('A', 'Z'), ('_', '_')])
      (many (oneOf [('a', 'z'), ('A', 'Z'), ('0', '9'), ('_', '_')]))

theorem symbol_mem_all {kind : TokenKind} : symbol kind ∈ all ↔ kind ∈ TokenKind.symbols := by
  simp [all]

/-! ### What the patterns match -/

variable {text : List Char}

theorem matches_blank : blank.pattern.Matches text ↔ text ≠ [] ∧ ∀ c ∈ text, Piece.isBlank c := by
  refine matches_oneOrMore ?_
  intro text
  simp [matches_oneOf, range_self, Piece.isBlank, or_assoc]

theorem matches_digits : digits.Matches text ↔ text ≠ [] ∧ ∀ c ∈ text, c.isDigit := by
  refine matches_oneOrMore ?_
  intro text
  simp [matches_oneOf, isDigit_iff]

theorem matches_comment :
    comment.pattern.Matches text ↔ ∃ body, text = '/' :: '/' :: body ∧ ∀ c ∈ body, Piece.inLine c := by
  have hmany : ∀ body, (many (noneOf ['\n'])).Matches body ↔ ∀ c ∈ body, Piece.inLine c := by
    intro body
    refine matches_many ?_
    intro text
    simp [matches_noneOf, Piece.inLine]
  simp [pattern, matches_exactly_sequence, hmany]

theorem matches_number : number.pattern.Matches text
    ↔ ∃ whole fraction, text = (Piece.number whole fraction).text ∧ whole ≠ []
      ∧ (∀ c ∈ whole, c.isDigit) ∧ ∀ c ∈ fraction, c.isDigit := by
  rw [pattern, matches_sequence]
  simp only [matches_optional, matches_exactly_sequence, matches_digits]
  constructor
  · intro h
    obtain ⟨whole, _, rfl, ⟨hne, hwhole⟩, rfl | ⟨fraction, rfl, hfne, hfraction⟩⟩ := h
    · exact ⟨whole, [], by simp [Piece.text], hne, hwhole, by simp⟩
    · refine ⟨whole, fraction, ?_, hne, hwhole, hfraction⟩
      cases fraction with
      | nil => simp at hfne
      | cons c fraction => rfl
  · intro h
    obtain ⟨whole, fraction, rfl, hne, hwhole, hfraction⟩ := h
    cases fraction with
    | nil => exact ⟨whole, [], by simp [Piece.text], ⟨hne, hwhole⟩, .inl rfl⟩
    | cons c fraction =>
      exact ⟨whole, '.' :: c :: fraction, rfl, ⟨hne, hwhole⟩, .inr ⟨c :: fraction, rfl, by simp, hfraction⟩⟩

theorem matches_quoted {body : List Char} :
    (many (noneOf ['"'])).Matches body ↔ ∀ c ∈ body, Piece.inQuotes c := by
  refine matches_many ?_
  intro text
  simp [matches_noneOf, Piece.inQuotes]

theorem matches_string :
    string.pattern.Matches text ↔ ∃ body, text = '"' :: body ++ ['"'] ∧ ∀ c ∈ body, Piece.inQuotes c := by
  rw [pattern, quote, matches_exactly_sequence]
  simp only [matches_sequence, matches_quoted, matches_exactly]
  constructor
  · intro h
    obtain ⟨_, rfl, body, _, rfl, hbody, rfl⟩ := h
    exact ⟨body, rfl, hbody⟩
  · intro h
    obtain ⟨body, rfl, hbody⟩ := h
    exact ⟨_, rfl, body, _, rfl, hbody, rfl⟩

theorem matches_openString :
    openString.pattern.Matches text ↔ ∃ body, text = '"' :: body ∧ ∀ c ∈ body, Piece.inQuotes c := by
  simp [pattern, quote, matches_exactly_sequence, matches_quoted]

theorem matches_word : word.pattern.Matches text
    ↔ ∃ c rest, text = c :: rest ∧ Piece.isWordStart c ∧ ∀ d ∈ rest, Piece.isWordPart d := by
  have hstart : ∀ s, (oneOf [('a', 'z'), ('A', 'Z'), ('_', '_')]).Matches s
      ↔ ∃ c, s = [c] ∧ Piece.isWordStart c := by
    intro s
    simp [matches_oneOf, range_self, Piece.isWordStart, isAlpha_iff, or_assoc]
  have hpart : ∀ rest, (many (oneOf [('a', 'z'), ('A', 'Z'), ('0', '9'), ('_', '_')])).Matches rest
      ↔ ∀ d ∈ rest, Piece.isWordPart d := by
    intro rest
    refine matches_many ?_
    intro s
    simp [matches_oneOf, range_self, Piece.isWordPart, Char.isAlphanum, isAlpha_iff, isDigit_iff, or_assoc]
  simp only [pattern, matches_sequence, hstart, hpart]
  constructor
  · intro h
    obtain ⟨_, rest, rfl, ⟨c, rfl, hc⟩, hrest⟩ := h
    exact ⟨c, rest, rfl, hc, hrest⟩
  · intro h
    obtain ⟨c, rest, rfl, hc, hrest⟩ := h
    exact ⟨[c], rest, rfl, ⟨c, rfl, hc⟩, hrest⟩

end Lexeme

/-! ### Pieces as matches -/

namespace Piece

/-- The lexeme that a piece is of. A stray character is of none. -/
def lexeme? : Piece → Option Lexeme
  | blank _ => some .blank
  | newline => some .newline
  | comment _ => some .comment
  | symbol kind => some (.symbol kind)
  | number _ _ => some .number
  | string _ => some .string
  | openString _ => some .openString
  | word _ => some .word
  | stray _ => none

/-- A piece is made of the characters that its kind allows. -/
def Proper : Piece → Prop
  | blank text => text ≠ [] ∧ ∀ c ∈ text, isBlank c
  | newline => True
  | comment body => ∀ c ∈ body, inLine c
  | symbol kind => kind ∈ TokenKind.symbols
  | number whole fraction => whole ≠ [] ∧ (∀ c ∈ whole, c.isDigit) ∧ ∀ c ∈ fraction, c.isDigit
  | string body | openString body => ∀ c ∈ body, inQuotes c
  | word text => ∃ c rest, text = c :: rest ∧ isWordStart c ∧ ∀ d ∈ rest, isWordPart d
  | stray _ => True

theorem matches_of_proper {p : Piece} {lexeme : Lexeme} (hp : p.Proper) (hlexeme : p.lexeme? = some lexeme) :
    lexeme ∈ Lexeme.all ∧ lexeme.pattern.Matches p.text := by
  cases p
  case stray => simp [lexeme?] at hlexeme
  all_goals obtain rfl := Option.some.inj hlexeme
  case blank text => exact ⟨by decide, Lexeme.matches_blank.2 hp⟩
  case newline => exact ⟨by decide, .exactly⟩
  case comment body => exact ⟨by decide, Lexeme.matches_comment.2 ⟨body, rfl, hp⟩⟩
  case symbol kind => exact ⟨Lexeme.symbol_mem_all.2 hp, .exactly⟩
  case number whole fraction => exact ⟨by decide, Lexeme.matches_number.2 ⟨whole, fraction, rfl, hp⟩⟩
  case string body => exact ⟨by decide, Lexeme.matches_string.2 ⟨body, rfl, hp⟩⟩
  case openString body => exact ⟨by decide, Lexeme.matches_openString.2 ⟨body, rfl, hp⟩⟩
  case word text => exact ⟨by decide, Lexeme.matches_word.2 hp⟩

theorem exists_proper_of_matches {lexeme : Lexeme} {text : List Char} (hmem : lexeme ∈ Lexeme.all)
    (h : lexeme.pattern.Matches text) : ∃ p : Piece, p.Proper ∧ p.lexeme? = some lexeme ∧ p.text = text := by
  cases lexeme with
  | blank => exact ⟨blank text, Lexeme.matches_blank.1 h, rfl, rfl⟩
  | newline => exact ⟨newline, trivial, rfl, (Pattern.matches_exactly.1 h).symm⟩
  | comment =>
    obtain ⟨body, rfl, hbody⟩ := Lexeme.matches_comment.1 h
    exact ⟨comment body, hbody, rfl, rfl⟩
  | symbol kind =>
    exact ⟨symbol kind, Lexeme.symbol_mem_all.1 hmem, rfl, (Pattern.matches_exactly.1 h).symm⟩
  | number =>
    obtain ⟨whole, fraction, rfl, hdigits⟩ := Lexeme.matches_number.1 h
    exact ⟨number whole fraction, hdigits, rfl, rfl⟩
  | string =>
    obtain ⟨body, rfl, hbody⟩ := Lexeme.matches_string.1 h
    exact ⟨string body, hbody, rfl, rfl⟩
  | openString =>
    obtain ⟨body, rfl, hbody⟩ := Lexeme.matches_openString.1 h
    exact ⟨openString body, hbody, rfl, rfl⟩
  | word => exact ⟨word text, Lexeme.matches_word.1 h, rfl, rfl⟩

end Piece

end Lox
