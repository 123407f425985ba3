import Lox.Proofs.Lines
/-!
# Maximal munch

Scanning cuts the longest lexeme off the source as long as there is one, and a single character where
there is none. This determines the cuts, and they determine the tokens, the errors and their lines.
-/

namespace Lox

/-- A stretch of source with the lexeme it was cut off as, or none for a character that fits nowhere. -/
structure Cut where
  lexeme? : Option Lexeme
  text : List Char

/-- The text is a longest beginning of the source among those that are lexemes. -/
structure Longest (source text : List Char) (lexeme : Lexeme) : Prop where
  known : lexeme ∈ Lexeme.all
  matched : lexeme.pattern.Matches text
  begins : text <+: source
  longest : ∀ other ∈ Lexeme.all, ∀ longer, other.pattern.Matches longer → longer <+: source →
    longer.length ≤ text.length

/-- Where no lexeme is a beginning of the source, a single character is cut off. -/
inductive Munch : List Char → List Cut → Prop where
  | done : Munch [] []
  | lexeme {text rest : List Char} {lexeme : Lexeme} {cuts : List Cut} : text ≠ [] →
      Longest (text ++ rest) text lexeme → Munch rest cuts →
      Munch (text ++ rest) (⟨some lexeme, text⟩ :: cuts)
  | stray {c : Char} {rest : List Char} {cuts : List Cut} :
      (∀ lexeme ∈ Lexeme.all, ∀ text, lexeme.pattern.Matches text → ¬ text <+: c :: rest) →
      Munch rest cuts → Munch (c :: rest) (⟨none, [c]⟩ :: cuts)

namespace Piece

/-! ### The first piece, by the character it starts with -/

variable {c : Char} {rest : List Char}

theorem next_blank (hc : isBlank c) :
    next c rest = (blank (c :: rest.takeWhile isBlank), rest.dropWhile isBlank) := by
  rw [next, if_pos hc]

theorem next_newline : next '\n' rest = (newline, rest) := rfl

theorem next_quote : next '"' rest = nextString rest := rfl

/-- Digits and the characters of words are not those that other pieces start with. -/
theorem next_eq_of_start {accepts : Char → Bool} (hc : accepts c)
    (hothers : [' ', '\t', '\r', '\n', '"'].any accepts = false) :
    next c rest = if c.isDigit then nextNumber c rest
      else if isWordStart c then (word (c :: rest.takeWhile isWordPart), rest.dropWhile isWordPart)
      else nextSymbol c rest := by
  have hne : ∀ d ∈ [' ', '\t', '\r', '\n', '"'], c ≠ d := by
    intro d hd heq
    subst heq
    exact List.any_eq_false.1 hothers c hd hc
  simp only [List.forall_mem_cons] at hne
  obtain ⟨hspace, htab, hreturn, hnewline, hquote, -⟩ := hne
  have hblank : ¬ isBlank c := by
    simp [isBlank, hspace, htab, hreturn]
  rw [next, if_neg hblank, if_neg hnewline, if_neg hquote]

theorem next_digit (hc : c.isDigit) : next c rest = nextNumber c rest := by
  rw [next_eq_of_start hc rfl, if_pos hc]

theorem not_isDigit_of_isWordStart (hc : isWordStart c) : ¬ c.isDigit := by
  intro hdigit
  simp only [isWordStart, Bool.or_eq_true, beq_iff_eq] at hc
  obtain halpha | rfl := hc
  · rw [isAlpha_iff] at halpha
    rw [isDigit_iff] at hdigit
    simp only [Char.le_def, UInt32.le_iff_toNat_le] at halpha hdigit
    have hnine : '9'.val.toNat = 57 := rfl
    have ha : 'a'.val.toNat = 97 := rfl
    have hA : 'A'.val.toNat = 65 := rfl
    omega
  · simp at hdigit

theorem next_word (hc : isWordStart c) :
    next c rest = (word (c :: rest.takeWhile isWordPart), rest.dropWhile isWordPart) := by
  rw [next_eq_of_start hc rfl, if_neg (not_isDigit_of_isWordStart hc), if_pos hc]

/-- The characters that symbols and stray characters start with. -/
def startsSymbol (c : Char) : Bool :=
  !isBlank c && c != '\n' && c != '"' && !c.isDigit && !isWordStart c

theorem next_symbol (hc : startsSymbol c) : next c rest = nextSymbol c rest := by
  have hneither : ¬ c.isDigit ∧ ¬ isWordStart c := by
    simp only [startsSymbol, Bool.and_eq_true, Bool.not_eq_true'] at hc
    simp [hc]
  rw [next_eq_of_start hc rfl, if_neg hneither.1, if_neg hneither.2]

/-! ### The first piece is a longest one -/

/-- Wherever the piece could be cut off, what is cut off is at least as long, is of some lexeme, and is
the piece itself if it is no longer. -/
def Prevails (p : Piece) : Prop :=
  ∀ c rest tail, p.text ++ tail = c :: rest → (next c rest).1.lexeme? ≠ none
    ∧ p.text.length ≤ (next c rest).1.text.length ∧ ((next c rest).1.text = p.text → (next c rest).1 = p)

theorem prevails_blank {text : List Char} (hp : (blank text).Proper) : (blank text).Prevails := by
  intro c rest tail hsource
  obtain ⟨hne, hblank⟩ := hp
  cases text with
  | nil => simp at hne
  | cons d text =>
    simp only [Piece.text, List.cons_append, List.cons.injEq] at hsource
    obtain ⟨rfl, rfl⟩ := hsource
    obtain ⟨hd, htext⟩ := List.forall_mem_cons.1 hblank
    rw [next_blank hd, List.takeWhile_append_of_pos htext]
    refine ⟨by simp [lexeme?], by simp [Piece.text], ?_⟩
    intro heq
    rw [show d :: (text ++ tail.takeWhile isBlank) = d :: text from heq]

theorem prevails_newline : newline.Prevails := by
  intro c rest tail hsource
  obtain ⟨rfl, rfl⟩ := List.cons.inj hsource
  rw [next_newline]
  simp [lexeme?]

theorem prevails_comment {body : List Char} (hp : (comment body).Proper) : (comment body).Prevails := by
  intro c rest tail hsource
  simp only [text, List.cons_append, List.cons.injEq] at hsource
  obtain ⟨rfl, rfl⟩ := hsource
  rw [next_symbol (by decide), nextSymbol, if_pos ⟨rfl, rfl⟩, List.takeWhile_append_of_pos hp]
  refine ⟨by simp [lexeme?], by simp [text], ?_⟩
  intro heq
  rw [(List.cons.inj (List.cons.inj heq).2).2]

theorem prevails_word {text : List Char} (hp : (word text).Proper) : (word text).Prevails := by
  intro c rest tail hsource
  obtain ⟨d, part, rfl, hd, hpart⟩ := hp
  simp only [Piece.text, List.cons_append, List.cons.injEq] at hsource
  obtain ⟨rfl, rfl⟩ := hsource
  rw [next_word hd, List.takeWhile_append_of_pos hpart]
  refine ⟨by simp [lexeme?], by simp [Piece.text], ?_⟩
  intro heq
  rw [show d :: (part ++ tail.takeWhile isWordPart) = d :: part from heq]

theorem prevails_string {body : List Char} (hp : (string body).Proper) : (string body).Prevails := by
  intro c rest tail hsource
  simp only [text, List.cons_append, List.append_assoc, List.cons.injEq] at hsource
  obtain ⟨rfl, rfl⟩ := hsource
  have hnext : (nextString (body ++ ('"' :: tail))).1 = string body := by
    rw [nextString, List.dropWhile_append_of_pos hp, List.takeWhile_append_of_pos hp]
    simp [inQuotes]
  rw [next_quote, List.nil_append, hnext]
  simp [lexeme?]

theorem prevails_openString {body : List Char} (hp : (openString body).Proper) : (openString body).Prevails := by
  intro c rest tail hsource
  simp only [text, List.cons_append, List.cons.injEq] at hsource
  obtain ⟨rfl, rfl⟩ := hsource
  rw [next_quote, nextString, List.dropWhile_append_of_pos hp]
  split
  next =>
    refine ⟨by simp [lexeme?], by simp [text], ?_⟩
    intro heq
    rw [(List.cons.inj heq).2]
  next =>
    rw [List.takeWhile_append_of_pos hp]
    refine ⟨by simp [lexeme?], by simp [text], ?_⟩
    intro heq
    have hlength := congrArg List.length heq
    simp only [text, List.length_cons, List.length_append, List.length_nil] at hlength
    omega

theorem symbol?_spelling : ∀ kind ∈ TokenKind.symbols, TokenKind.symbol? kind.spelling = some kind := by
  decide

/-- A symbol is one character or two, and no other piece starts with its first one. -/
theorem spelling_cases : ∀ kind ∈ TokenKind.symbols,
    (∃ c, kind.spelling.toList = [c] ∧ startsSymbol c)
      ∨ ∃ c d, kind.spelling.toList = [c, d] ∧ startsSymbol c := by
  have hall : ∀ kind ∈ TokenKind.symbols, (kind.spelling.toList.take 1).all startsSymbol
      ∧ (kind.spelling.toList.length = 1 ∨ kind.spelling.toList.length = 2) := by decide
  intro kind hkind
  obtain ⟨hstart, hone | htwo⟩ := hall kind hkind
  · obtain ⟨c, hspelling⟩ := List.length_eq_one_iff.1 hone
    rw [hspelling] at hstart
    exact .inl ⟨c, hspelling, by simpa using hstart⟩
  · obtain ⟨c, d, hspelling⟩ := List.length_eq_two.1 htwo
    rw [hspelling] at hstart
    exact .inr ⟨c, d, hspelling, by simpa using hstart⟩

theorem oneCharacter_of_spelling {kind : TokenKind} (hkind : kind ∈ TokenKind.symbols)
    (hspelling : kind.spelling.toList = [c]) : oneCharacter c = symbol kind := by
  have hstring : String.singleton c = kind.spelling := by
    rw [← String.toList_inj, hspelling]
    simp
  rw [oneCharacter, hstring, symbol?_spelling kind hkind]

theorem prevails_symbol {kind : TokenKind} (hp : (symbol kind).Proper) : (symbol kind).Prevails := by
  intro c rest tail hsource
  obtain ⟨d, hspelling, hd⟩ | ⟨d, e, hspelling, hd⟩ := spelling_cases kind hp
  · simp only [text, hspelling, List.cons_append, List.nil_append, List.cons.injEq] at hsource
    obtain ⟨rfl, rfl⟩ := hsource
    rw [next_symbol hd]
    fun_cases nextSymbol d tail with
    | case1 => simp [oneCharacter_of_spelling hp hspelling, lexeme?]
    | case2 e after h => simp [lexeme?, text, hspelling]
    | case3 e after _ other hother => simp [lexeme?, text, hspelling, spelling_of_symbol? hother]
    | case4 => simp [oneCharacter_of_spelling hp hspelling, lexeme?]
  · simp only [text, hspelling, List.cons_append, List.nil_append, List.cons.injEq] at hsource
    obtain ⟨rfl, rfl⟩ := hsource
    have hstring : String.ofList [d, e] = kind.spelling := by
      rw [← hspelling, String.ofList_toList]
    have hslashes : ¬ (d = '/' ∧ e = '/') := by
      intro h
      obtain ⟨rfl, rfl⟩ := h
      have hsymbol := symbol?_spelling kind hp
      rw [← hstring, show TokenKind.symbol? (String.ofList ['/', '/']) = none by decide] at hsymbol
      simp at hsymbol
    rw [next_symbol hd, nextSymbol, if_neg hslashes, hstring, symbol?_spelling kind hp]
    simp [lexeme?]

/-- The digits before and after the point of a number can be read off its text. -/
theorem digits_of_text {whole fraction : List Char} (hp : (number whole fraction).Proper) :
    (number whole fraction).text.takeWhile Char.isDigit = whole
      ∧ ((number whole fraction).text.dropWhile Char.isDigit).drop 1 = fraction := by
  obtain ⟨-, hwhole, -⟩ := hp
  cases fraction with
  | nil =>
    rw [text, List.takeWhile_eq_self_iff.2 hwhole, List.dropWhile_eq_nil_iff.2 hwhole]
    exact ⟨rfl, rfl⟩
  | cons d fraction =>
    rw [text, List.takeWhile_append_of_pos hwhole, List.dropWhile_append_of_pos hwhole]
    · simp
    · simp

theorem exists_nextNumber :
    ∃ fraction, (nextNumber c rest).1 = number (c :: rest.takeWhile Char.isDigit) fraction := by
  rw [nextNumber]
  split
  · split
    · exact ⟨_, rfl⟩
    · exact ⟨_, rfl⟩
  · exact ⟨_, rfl⟩

theorem length_whole_le {whole fraction : List Char} : whole.length ≤ (number whole fraction).text.length := by
  cases fraction with
  | nil => simp [text]
  | cons d fraction => simp [text]

theorem length_le_nextNumber {whole fraction tail : List Char} (hp : (number whole fraction).Proper)
    (hsource : (number whole fraction).text ++ tail = c :: rest) :
    c.isDigit ∧ (number whole fraction).text.length ≤ (nextNumber c rest).1.text.length := by
  obtain ⟨hne, hwhole, hfraction⟩ := hp
  cases whole with
  | nil => simp at hne
  | cons e whole =>
    obtain ⟨he, hwhole⟩ := List.forall_mem_cons.1 hwhole
    cases fraction with
    | nil =>
      simp only [text, List.cons_append, List.cons.injEq] at hsource
      obtain ⟨rfl, rfl⟩ := hsource
      refine ⟨he, ?_⟩
      obtain ⟨fraction, hnumber⟩ := @exists_nextNumber e (whole ++ tail)
      have hle := @length_whole_le (e :: (whole ++ tail).takeWhile Char.isDigit) fraction
      rw [hnumber]
      rw [List.takeWhile_append_of_pos hwhole] at hle ⊢
      refine Nat.le_trans ?_ hle
      simp [text]
    | cons d fraction =>
      simp only [text, List.cons_append, List.append_assoc, List.cons.injEq] at hsource
      obtain ⟨rfl, rfl⟩ := hsource
      obtain ⟨hd, hfraction⟩ := List.forall_mem_cons.1 hfraction
      refine ⟨he, ?_⟩
      rw [nextNumber, List.takeWhile_append_of_pos hwhole, List.dropWhile_append_of_pos hwhole]
      simp [hd, text, List.takeWhile_append_of_pos hfraction]

theorem prevails_number {whole fraction : List Char} (hp : (number whole fraction).Proper) :
    (number whole fraction).Prevails := by
  intro c rest tail hsource
  obtain ⟨hc, hlength⟩ := length_le_nextNumber hp hsource
  have hproper := @proper_nextNumber c rest hc
  obtain ⟨fraction', hnumber⟩ := @exists_nextNumber c rest
  rw [next_digit hc]
  refine ⟨by simp [hnumber, lexeme?], hlength, ?_⟩
  intro heq
  rw [hnumber] at hproper heq
  obtain ⟨hwhole, hfraction⟩ := digits_of_text hp
  obtain ⟨hwhole', hfraction'⟩ := digits_of_text hproper
  rw [heq] at hwhole' hfraction'
  rw [hnumber, hwhole'.symm.trans hwhole, hfraction'.symm.trans hfraction]

theorem Proper.prevails {p : Piece} (hp : p.Proper) (hlexeme : p.lexeme? ≠ none) : p.Prevails := by
  cases p with
  | blank => exact prevails_blank hp
  | newline => exact prevails_newline
  | comment => exact prevails_comment hp
  | symbol => exact prevails_symbol hp
  | number => exact prevails_number hp
  | string => exact prevails_string hp
  | openString => exact prevails_openString hp
  | word => exact prevails_word hp
  | stray => simp [lexeme?] at hlexeme

/-! ### The text of a single piece -/

theorem Proper.text_ne_nil {p : Piece} (hp : p.Proper) : p.text ≠ [] := by
  cases p with
  | blank text => exact hp.1
  | symbol kind =>
    obtain ⟨c, hspelling, -⟩ | ⟨c, d, hspelling, -⟩ := spelling_cases kind hp
    · simp [text, hspelling]
    · simp [text, hspelling]
  | number whole fraction =>
    cases fraction with
    | nil => exact hp.1
    | cons d fraction => simp [text]
  | word text =>
    obtain ⟨c, rest, rfl, -⟩ := hp
    simp [Piece.text]
  | _ => simp [text]

/-- The text of a piece of some lexeme is cut off as this piece. -/
theorem split_text {p : Piece} (hp : p.Proper) (hlexeme : p.lexeme? ≠ none) : split p.text = [p] := by
  obtain ⟨c, rest, htext⟩ := List.exists_cons_of_ne_nil hp.text_ne_nil
  obtain ⟨-, hle, heq⟩ := hp.prevails hlexeme c rest [] (by rw [List.append_nil, htext])
  have happend := text_next_append c rest
  have hlength := congrArg List.length happend
  rw [List.length_append, ← htext] at hlength
  have hnil : (next c rest).2 = [] := List.length_eq_zero_iff.1 (by omega)
  rw [hnil, List.append_nil, ← htext] at happend
  rw [htext, split, hnil, split, heq happend]

theorem eq_of_text_eq {p q : Piece} (hp : p.Proper) (hplexeme : p.lexeme? ≠ none) (hq : q.Proper)
    (hqlexeme : q.lexeme? ≠ none) (h : p.text = q.text) : p = q := by
  have hsplit : [p] = [q] := by rw [← split_text hp hplexeme, ← split_text hq hqlexeme, h]
  exact List.singleton_inj.1 hsplit

/-! ### The pieces of a source are its cuts -/

def cut (p : Piece) : Cut :=
  ⟨p.lexeme?, p.text⟩

theorem begins_next (c : Char) (rest : List Char) : (next c rest).1.text <+: c :: rest :=
  ⟨_, text_next_append c rest⟩

theorem prevails_of_matches {lexeme : Lexeme} {text : List Char} (hmem : lexeme ∈ Lexeme.all)
    (hmatches : lexeme.pattern.Matches text) :
    ∃ p : Piece, p.Prevails ∧ p.lexeme? = some lexeme ∧ p.text = text := by
  obtain ⟨p, hproper, hlexeme, htext⟩ := exists_proper_of_matches hmem hmatches
  exact ⟨p, hproper.prevails (by simp [hlexeme]), hlexeme, htext⟩

theorem longest_next {lexeme : Lexeme} (h : (next c rest).1.lexeme? = some lexeme) :
    Longest (c :: rest) (next c rest).1.text lexeme where
  known := (matches_of_proper (proper_next c rest) h).1
  matched := (matches_of_proper (proper_next c rest) h).2
  begins := begins_next c rest
  longest := by
    intro other hother longer hmatches hbegins
    obtain ⟨p, hprevails, -, rfl⟩ := prevails_of_matches hother hmatches
    obtain ⟨tail, hsource⟩ := hbegins
    exact (hprevails c rest tail hsource).2.1

theorem eq_stray_of_lexeme? {p : Piece} (h : p.lexeme? = none) : ∃ c, p = stray c := by
  cases p with
  | stray c => exact ⟨c, rfl⟩
  | _ => simp [lexeme?] at h

theorem next_eq_stray (h : (next c rest).1.lexeme? = none) : next c rest = (stray c, rest) := by
  have happend := text_next_append c rest
  obtain ⟨d, hd⟩ := eq_stray_of_lexeme? h
  rw [hd, text, List.cons_append, List.nil_append, List.cons.injEq] at happend
  exact Prod.ext (hd.trans (congrArg stray happend.1)) happend.2

theorem munch_split (source : List Char) : Munch source ((split source).map cut) := by
  induction source using split.induct with
  | case1 =>
    rw [split]
    exact .done
  | case2 c rest ih =>
    rw [split, List.map_cons]
    cases h : (next c rest).1.lexeme? with
    | none =>
      have hstray := next_eq_stray h
      rw [hstray] at ih ⊢
      refine .stray ?_ ih
      intro lexeme hmem text hmatches hbegins
      obtain ⟨p, hprevails, -, rfl⟩ := prevails_of_matches hmem hmatches
      obtain ⟨tail, hsource⟩ := hbegins
      exact (hprevails c rest tail hsource).1 h
    | some lexeme =>
      have hmunch : Munch ((next c rest).1.text ++ (next c rest).2)
          (⟨some lexeme, (next c rest).1.text⟩ :: (split (next c rest).2).map cut) := by
        refine .lexeme (text_next_ne_nil c rest) ?_ ih
        rw [text_next_append]
        exact longest_next h
      rw [text_next_append] at hmunch
      rw [cut, h]
      exact hmunch

/-- A longest lexeme is the first piece. -/
theorem next_of_longest {text : List Char} {lexeme : Lexeme} {tail : List Char}
    (h : Longest (c :: rest) text lexeme) (hsource : text ++ tail = c :: rest) :
    (next c rest).1.cut = ⟨some lexeme, text⟩ ∧ (next c rest).2 = tail := by
  obtain ⟨p, hprevails, hlexeme, rfl⟩ := prevails_of_matches h.known h.matched
  obtain ⟨hknown, hle, heq⟩ := hprevails c rest tail hsource
  obtain ⟨other, hother⟩ := Option.ne_none_iff_exists'.1 hknown
  have hnext := longest_next hother
  have hge := h.longest other hnext.known _ hnext.matched hnext.begins
  have happend := (text_next_append c rest).trans hsource.symm
  obtain ⟨htext, htail⟩ := List.append_inj happend (Nat.le_antisymm hge hle)
  rw [heq htext, cut, hlexeme]
  exact ⟨rfl, htail⟩

theorem eq_split_of_munch {source : List Char} {cuts : List Cut} (h : Munch source cuts) :
    cuts = (split source).map cut := by
  induction h with
  | done => rw [split, List.map_nil]
  | @lexeme text rest lexeme cuts hne hlongest _ ih =>
    cases text with
    | nil => simp at hne
    | cons c text =>
      rw [List.cons_append] at hlongest ⊢
      obtain ⟨hcut, hrest⟩ := next_of_longest hlongest List.cons_append
      rw [split, List.map_cons, hcut, hrest, ih]
  | @stray c rest cuts hnone _ ih =>
    have hstray : (next c rest).1.lexeme? = none := by
      rw [Option.eq_none_iff_forall_ne_some]
      intro lexeme hlexeme
      have hnext := longest_next hlexeme
      exact hnone lexeme hnext.known _ hnext.matched hnext.begins
    rw [split, List.map_cons, next_eq_stray hstray, ih]
    rfl

theorem munch_iff {source : List Char} {cuts : List Cut} :
    Munch source cuts ↔ cuts = (split source).map cut := by
  constructor
  · exact eq_split_of_munch
  · intro h
    subst h
    exact munch_split source

end Piece

/-! ### Tokens, errors and lines -/

namespace Cut

/-- The kind of the token that a cut becomes. A word that some keyword is spelled like has the keyword's kind, and any
other is an identifier. -/
def kind? (cut : Cut) : Option TokenKind :=
  match cut.lexeme? with
  | some (.symbol kind) => some kind
  | some .number => some .number
  | some .string => some .string
  | some .word => some ((TokenKind.keywords.find? (·.spelling.toList == cut.text)).getD .identifier)
  | _ => none

/-- The literal of a number is its value, and that of a string is what stands between the quotes. -/
def literal? (cut : Cut) : Option Literal :=
  match cut.lexeme? with
  | some .number =>
    let whole := cut.text.takeWhile Char.isDigit
    let fraction := (cut.text.dropWhile Char.isDigit).drop 1
    some (.number (Number.ofDigits whole fraction))
  | some .string => some (.string (String.ofList (cut.text.drop 1).dropLast))
  | _ => none

def token? (line : Nat) (cut : Cut) : Option Token :=
  cut.kind?.map fun kind => ⟨kind, String.ofList cut.text, cut.literal?, line⟩

/-- An error is a character that fits nowhere or a string that is not closed. -/
def error? (line : Nat) (cut : Cut) : Option ScanError :=
  match cut with
  | ⟨none, [c]⟩ => some ⟨.unexpectedCharacter c, line⟩
  | ⟨some .openString, _⟩ => some ⟨.unterminatedString, line⟩
  | _ => none

def lineAfter (cuts : List Cut) (n : Nat) : Nat :=
  1 + ((cuts.take n).flatMap text).count '\n'

/-- What the cuts give in order, each on the line on which it ends. -/
def readOff {α : Type} (read : Nat → Cut → Option α) (cuts : List Cut) : List α :=
  cuts.zipIdx.filterMap fun (cut, i) => read (lineAfter cuts (i + 1)) cut

end Cut

namespace Piece

theorem find?_keywords (text : List Char) :
    TokenKind.keywords.find? (·.spelling.toList == text) = TokenKind.keyword? (String.ofList text) := by
  have hspelled (kind : TokenKind) : (kind.spelling.toList == text) = (kind.spelling == String.ofList text) := by
    rw [Bool.eq_iff_iff, beq_iff_eq, beq_iff_eq, ← String.toList_inj, String.toList_ofList]
  simp only [TokenKind.keyword?, hspelled]

theorem token?_cut {p : Piece} (hp : p.Proper) (line : Nat) : p.cut.token? line = p.token? line := by
  cases p with
  | number whole fraction =>
    obtain ⟨hwhole, hfraction⟩ := digits_of_text hp
    simp [cut, lexeme?, Cut.token?, Cut.kind?, Cut.literal?, token?, hwhole, hfraction]
  | string body => simp [cut, lexeme?, Cut.token?, Cut.kind?, Cut.literal?, token?, text]
  | symbol kind => simp [cut, lexeme?, Cut.token?, Cut.kind?, Cut.literal?, token?, text]
  | word text =>
    simp only [cut, lexeme?, Cut.token?, Cut.kind?, Cut.literal?, token?, Piece.text, find?_keywords, Option.map_some]
  | _ => rfl

theorem error?_cut (p : Piece) (line : Nat) : p.cut.error? line = p.error? line := by
  cases p <;> rfl

theorem gather_cut {α : Type} (read : Nat → Cut → Option α) (ps : List Piece) :
    gather (fun line p => read line p.cut) 1 ps = Cut.readOff read (ps.map cut) := by
  rw [gather, located_eq, Cut.readOff, List.zipIdx_map, List.filterMap_map, List.filterMap_map]
  refine List.filterMap_congr ?_
  rintro ⟨p, i⟩ -
  have htexts : ((ps.map cut).take (i + 1)).flatMap Cut.text = (ps.take (i + 1)).flatMap text := by
    rw [← List.map_take, List.flatMap_map]
    rfl
  simp only [Function.comp_apply, Prod.map_apply, id, Cut.lineAfter, htexts]

theorem readOff_token? (source : List Char) :
    Cut.readOff Cut.token? ((split source).map cut)
      = gather token? 1 (split source) := by
  rw [← gather_cut]
  refine List.filterMap_congr ?_
  rintro ⟨line, p⟩ hmem
  exact token?_cut (forall_proper_split source p (mem_of_mem_located hmem)) line

theorem kind_ne_eof {p : Piece} (hp : p.Proper) {line : Nat} {t : Token} (ht : p.token? line = some t) :
    t.kind ≠ .eof := by
  have hsymbols : ∀ kind ∈ TokenKind.symbols, kind ≠ .eof := by decide
  have hkeywords : ∀ kind ∈ TokenKind.keywords, kind ≠ .eof := by decide
  cases p with
  | symbol kind =>
    obtain rfl := Option.some.inj ht
    exact hsymbols kind hp
  | number whole fraction =>
    obtain rfl := Option.some.inj ht
    simp
  | string body =>
    obtain rfl := Option.some.inj ht
    simp
  | word text =>
    obtain rfl := Option.some.inj ht
    cases hkeyword : TokenKind.keyword? (String.ofList text) with
    | none => simp
    | some kind =>
      rw [Option.getD_some]
      exact hkeywords kind (TokenKind.keyword?_eq_some_iff.1 hkeyword).1
  | _ => simp [token?] at ht

end Piece

/-- Scanning is maximal munch with exact lines: the source has exactly one list of cuts, and these give the
tokens and the errors in order, each on the line on which its cut ends. -/
theorem scan_munch (source : String) :
    ∃ cuts, (∀ other, Munch source.toList other ↔ other = cuts)
      ∧ cuts.flatMap Cut.text = source.toList ∧ (∀ cut ∈ cuts, cut.text ≠ [])
      ∧ (scan source).tokens = Cut.readOff Cut.token? cuts ++ [Token.eof (1 + source.toList.count '\n')]
      ∧ (∀ t ∈ Cut.readOff Cut.token? cuts, t.kind ≠ .eof)
      ∧ (scan source).errors = Cut.readOff Cut.error? cuts := by
  refine ⟨(Piece.split source.toList).map Piece.cut, fun _ => Piece.munch_iff, ?_, ?_, ?_, ?_, ?_⟩
  · rw [List.flatMap_map]
    exact Piece.flatMap_split source.toList
  · intro cut hcut
    obtain ⟨p, hp, rfl⟩ := List.mem_map.1 hcut
    exact Piece.forall_mem_split (·.text ≠ []) Piece.text_next_ne_nil source.toList p hp
  · rw [tokens_scan, Piece.readOff_token?]
    rfl
  · intro t ht
    rw [Piece.readOff_token?, Piece.gather, List.mem_filterMap] at ht
    obtain ⟨⟨line, p⟩, hmem, ht⟩ := ht
    exact Piece.kind_ne_eof (Piece.forall_proper_split source.toList p (Piece.mem_of_mem_located hmem)) ht
  · rw [errors_scan, ← Piece.gather_cut]
    simp only [Piece.error?_cut]

end Lox
