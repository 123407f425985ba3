import Lox.Proofs.LineBreak
/-!
# Stray characters

A character that no lexeme begins with costs nothing but itself: the source is scanned into the tokens that it has
with a space in the place of the character, and there is one error more, for the character, between the errors of
what stands before it and the errors of what stands behind it. Inside a comment the character is not even noticed.
-/

namespace Lox

/-- No lexeme begins with the character. -/
def FitsNowhere (c : Char) : Prop :=
  ∀ lexeme ∈ Lexeme.all, ∀ text, ¬ lexeme.pattern.Matches (c :: text)

def InComment (source : List Char) (place : Nat) : Prop :=
  ∃ before text after, Munch source (before ++ ⟨some .comment, text⟩ :: after)
    ∧ (before.flatMap Cut.text).length ≤ place ∧ place < (before.flatMap Cut.text).length + text.length

namespace Piece

variable {c : Char}

/-! ### Characters that fit nowhere -/

theorem next_of_fitsNowhere (hc : FitsNowhere c) (rest : List Char) : next c rest = (stray c, rest) := by
  refine next_eq_stray (Option.eq_none_iff_forall_ne_some.2 ?_)
  intro lexeme hlexeme
  obtain ⟨d, text, htext⟩ := List.exists_cons_of_ne_nil (text_next_ne_nil c rest)
  have happend := text_next_append c rest
  rw [htext, List.cons_append, List.cons.injEq] at happend
  have hmatches := matches_of_proper (proper_next c rest) hlexeme
  rw [htext, happend.1] at hmatches
  exact hc lexeme hmatches.1 text hmatches.2

theorem startsSymbol_of_fitsNowhere (hc : FitsNowhere c) : startsSymbol c := by
  have hnext := next_of_fitsNowhere hc []
  simp only [startsSymbol, Bool.and_eq_true, Bool.not_eq_true', bne_iff_ne, ← Bool.not_eq_true]
  refine ⟨⟨⟨⟨?_, ?_⟩, ?_⟩, ?_⟩, ?_⟩
  · intro hblank
    rw [next_blank hblank] at hnext
    simp at hnext
  · rintro rfl
    simp [next_newline] at hnext
  · rintro rfl
    simp [next_quote, nextString] at hnext
  · intro hdigit
    obtain ⟨fraction, hnumber⟩ := @exists_nextNumber c []
    rw [next_digit hdigit] at hnext
    rw [hnext] at hnumber
    simp at hnumber
  · intro hword
    rw [next_word hword] at hnext
    simp at hnext

theorem symbol?_of_fitsNowhere (hc : FitsNowhere c) : TokenKind.symbol? (String.singleton c) = none := by
  have hnext := next_of_fitsNowhere hc []
  rw [next_symbol (startsSymbol_of_fitsNowhere hc), nextSymbol, oneCharacter] at hnext
  split at hnext
  next => simp at hnext
  next hnone => exact hnone

theorem fitsNowhere_of_startsSymbol (hstarts : startsSymbol c)
    (hnone : TokenKind.symbol? (String.singleton c) = none) : FitsNowhere c := by
  intro lexeme hmem text hmatches
  have hsymbols : ∀ kind ∈ TokenKind.symbols,
      kind.spelling.toList.head?.all fun d => (TokenKind.symbol? (String.singleton d)).isSome := by decide
  simp only [startsSymbol, Bool.and_eq_true, Bool.not_eq_true', bne_iff_ne, ← Bool.not_eq_true] at hstarts
  obtain ⟨⟨⟨⟨hblank, hnewline⟩, hquote⟩, hdigit⟩, hword⟩ := hstarts
  obtain ⟨p, hp, hlexeme, htext⟩ := exists_proper_of_matches hmem hmatches
  cases p with
  | blank =>
    obtain rfl := htext
    exact hblank (hp.2 c (by simp))
  | newline => exact hnewline (List.cons.inj htext).1.symm
  | comment body =>
    obtain ⟨rfl, -⟩ := List.cons.inj htext
    exact absurd hnone (by decide)
  | symbol kind =>
    have hfirst := hsymbols kind hp
    rw [show kind.spelling.toList = c :: text from htext] at hfirst
    simp [hnone] at hfirst
  | number whole fraction =>
    obtain ⟨hne, hwhole, -⟩ := hp
    obtain ⟨d, digits, rfl⟩ := List.exists_cons_of_ne_nil hne
    refine hdigit ?_
    cases fraction <;> exact (List.cons.inj htext).1 ▸ hwhole d (by simp)
  | string body => exact hquote (List.cons.inj htext).1.symm
  | openString body => exact hquote (List.cons.inj htext).1.symm
  | word =>
    obtain ⟨d, rest, rfl, hd, -⟩ := hp
    exact hword ((List.cons.inj htext).1 ▸ hd)
  | stray d => simp [lexeme?] at hlexeme

/-- A character fits nowhere exactly if it is no symbol and could start nothing but a symbol. -/
theorem fitsNowhere_iff :
    FitsNowhere c ↔ startsSymbol c ∧ TokenKind.symbol? (String.singleton c) = none :=
  ⟨fun hc => ⟨startsSymbol_of_fitsNowhere hc, symbol?_of_fitsNowhere hc⟩,
    fun ⟨hstarts, hnone⟩ => fitsNowhere_of_startsSymbol hstarts hnone⟩

theorem separates_of_fitsNowhere (hc : FitsNowhere c) : separates c := by
  have hnone := symbol?_of_fitsNowhere hc
  have hstarts := startsSymbol_of_fitsNowhere hc
  simp only [startsSymbol, isWordStart, Bool.and_eq_true, Bool.not_eq_true', Bool.or_eq_false_iff] at hstarts
  have hsymbols : ['.', '/', '='].all fun d => (TokenKind.symbol? (String.singleton d)).isSome := by decide
  have hsymbol : ∀ d ∈ ['.', '/', '='], c ≠ d := by
    rintro d hd rfl
    have hsome := List.all_eq_true.1 hsymbols c hd
    simp [hnone] at hsome
  simp [separates, isWordPart, Char.isAlphanum, hstarts, hsymbol]

theorem ne_newline_of_fitsNowhere (hc : FitsNowhere c) : c ≠ '\n' := by
  have hstarts := startsSymbol_of_fitsNowhere hc
  simp only [startsSymbol, Bool.and_eq_true, bne_iff_ne] at hstarts
  exact hstarts.1.1.1.2

theorem takesIn_of_fitsNowhere (hc : FitsNowhere c) {p : Piece} (hcomment : ∀ body, p ≠ comment body)
    (hopen : ∀ body, p ≠ openString body) : p.takesIn c = false := by
  have hstarts := startsSymbol_of_fitsNowhere hc
  simp only [startsSymbol, Bool.and_eq_true, Bool.not_eq_true'] at hstarts
  cases p with
  | blank text => exact hstarts.1.1.1.1
  | comment body => exact absurd rfl (hcomment body)
  | openString body => exact absurd rfl (hopen body)
  | _ => rfl

/-! ### Gaps -/

/-- Blanks and comments, which are not read. -/
def isGap : Piece → Bool
  | blank _ | comment _ => true
  | _ => false

/-- The pieces without the gaps. -/
def solid (ps : List Piece) : List Piece :=
  ps.filter fun p => !p.isGap

theorem solid_append (ps qs : List Piece) : solid (ps ++ qs) = solid ps ++ solid qs :=
  List.filter_append ..

theorem solid_cons_of_isGap {p : Piece} (h : p.isGap) (ps : List Piece) : solid (p :: ps) = solid ps :=
  List.filter_cons_of_neg (by simp [h])

theorem newlines_of_isGap {p : Piece} (hp : p.Proper) (h : p.isGap) : p.newlines = 0 := by
  cases p with
  | blank text => exact newlines_eq_zero hp (by simp) rfl
  | comment body => exact newlines_eq_zero hp (by simp) rfl
  | _ => simp [isGap] at h

/-- Gaps count for nothing in what is read off the pieces. -/
theorem gather_solid {α : Type} {read : Nat → Piece → Option α} {ps : List Piece}
    (hread : ∀ line, ∀ p : Piece, p.isGap → read line p = none) (hproper : ∀ p ∈ ps, p.Proper) (line : Nat) :
    gather read line (solid ps) = gather read line ps := by
  induction ps generalizing line with
  | nil => rfl
  | cons p ps ih =>
    obtain ⟨hp, hps⟩ := List.forall_mem_cons.1 hproper
    rw [gather_cons]
    by_cases hgap : p.isGap
    · rw [solid_cons_of_isGap hgap, newlines_of_isGap hp hgap, hread _ p hgap, Nat.add_zero, ih hps]
      rfl
    · rw [solid, List.filter_cons_of_pos (by simpa using hgap), gather_cons]
      exact congrArg _ (ih hps _)

/-! ### Gaps that go on -/

section

variable {source tail : List Char} {ps : List Piece}

/-- A comment at the end of a source goes on to the end of the line. -/
theorem split_append_comment {body : List Char} (h : split source = ps ++ [comment body]) (hstop : separates c)
    (hline : inLine c) : split (source ++ c :: tail)
      = ps ++ comment (body ++ c :: tail.takeWhile inLine) :: split (tail.dropWhile inLine) := by
  have hbody : ∀ d ∈ body, inLine d := forall_proper_split source (comment body) (by simp [h])
  obtain ⟨_, _, -, -, hsplit⟩ := exists_next_of_split h
  rw [hsplit c tail hstop, text, List.cons_append, split, next_symbol (by decide), List.cons_append, nextSymbol,
    if_pos ⟨rfl, rfl⟩, List.takeWhile_append_of_pos hbody, List.dropWhile_append_of_pos hbody,
    List.takeWhile_cons_of_pos hline, List.dropWhile_cons_of_pos hline]

/-- Blanks at the end of a source go on with a space and the blanks behind it. -/
theorem split_append_blank {blanks : List Char} (h : split source = ps ++ [blank blanks]) :
    split (source ++ ' ' :: tail)
      = ps ++ blank (blanks ++ ' ' :: tail.takeWhile isBlank) :: split (tail.dropWhile isBlank) := by
  have hblanks : (blank blanks).Proper := forall_proper_split source (blank blanks) (by simp [h])
  obtain ⟨c, rest, htext, -, hsplit⟩ := exists_next_of_split h
  obtain rfl : blanks = c :: rest := htext
  obtain ⟨hc, hrest⟩ := List.forall_mem_cons.1 hblanks.2
  rw [hsplit ' ' tail rfl, text, List.cons_append, split, next_blank hc, List.takeWhile_append_of_pos hrest,
    List.dropWhile_append_of_pos hrest, List.takeWhile_cons_of_pos rfl, List.dropWhile_cons_of_pos rfl]
  rfl

theorem solid_split_dropWhile (source : List Char) :
    solid (split (source.dropWhile isBlank)) = solid (split source) := by
  cases source with
  | nil => rfl
  | cons c source =>
    by_cases hc : isBlank c
    · rw [List.dropWhile_cons_of_pos hc, split, next_blank hc, solid_cons_of_isGap rfl]
    · rw [List.dropWhile_cons_of_neg hc]

/-- A space between two sources adds at most gaps, if the first one ends neither in a comment nor in an open string. -/
theorem solid_split_space (hcomment : ∀ p ∈ (split source).getLast?, ∀ body, p ≠ comment body)
    (hopen : ∀ p ∈ split source, ∀ body, p ≠ openString body) :
    solid (split (source ++ ' ' :: tail)) = solid (split source ++ split tail) := by
  by_cases hblank : ∃ ps blanks, split source = ps ++ [blank blanks]
  · obtain ⟨ps, blanks, hsplit⟩ := hblank
    rw [split_append_blank hsplit, hsplit, solid_append, solid_append, solid_append, solid_cons_of_isGap rfl,
      solid_cons_of_isGap rfl, solid_split_dropWhile]
    simp [solid]
  · have hends : ∀ p ∈ (split source).getLast?, p.takesIn ' ' = false := by
      intro p hp
      cases p with
      | blank blanks =>
        obtain ⟨ps, hsplit⟩ := List.getLast?_eq_some_iff.1 hp
        exact absurd ⟨ps, blanks, hsplit⟩ hblank
      | comment body => exact absurd rfl (hcomment _ hp body)
      | openString body => exact absurd rfl (hopen _ (List.mem_of_getLast? hp) body)
      | _ => rfl
    rw [split_append rfl hends, solid_append, solid_append, split, next_blank rfl, solid_cons_of_isGap rfl,
      solid_split_dropWhile]

end

/-! ### A stray character and a space in one place -/

section

variable {source tail : List Char} {α : Type} {read : Nat → Piece → Option α}

theorem ends_in_comment_or_not (source : List Char) : (∃ ps body, split source = ps ++ [comment body])
    ∨ ∀ p ∈ (split source).getLast?, ∀ body, p ≠ comment body := by
  by_cases h : ∃ ps body, split source = ps ++ [comment body]
  · exact .inl h
  · refine .inr ?_
    rintro _ hp body rfl
    obtain ⟨ps, hsplit⟩ := List.getLast?_eq_some_iff.1 hp
    exact h ⟨ps, body, hsplit⟩

/-- In a comment, it does not matter which character stands there. -/
theorem gather_in_comment {ps : List Piece} {body : List Char} (h : split source = ps ++ [comment body])
    (hread : ∀ line, ∀ p : Piece, p.isGap → read line p = none) (hc : FitsNowhere c) (line : Nat) :
    gather read line (split (source ++ c :: tail)) = gather read line (split (source ++ ' ' :: tail)) := by
  have hline : inLine c := bne_iff_ne.2 (ne_newline_of_fitsNowhere hc)
  rw [← gather_solid hread (forall_proper_split _), ← gather_solid hread (forall_proper_split (source ++ ' ' :: tail)),
    split_append_comment h (separates_of_fitsNowhere hc) hline, split_append_comment h rfl rfl, solid_append,
    solid_append, solid_cons_of_isGap rfl, solid_cons_of_isGap rfl]

variable (hcomment : ∀ p ∈ (split source).getLast?, ∀ body, p ≠ comment body)
  (hopen : ∀ p ∈ split source, ∀ body, p ≠ openString body)

include hcomment hopen

theorem gather_append_space (hread : ∀ line, ∀ p : Piece, p.isGap → read line p = none) (line : Nat) :
    gather read line (split (source ++ ' ' :: tail))
      = gather read line (split source) ++ gather read (line + source.count '\n') (split tail) := by
  have hproper : ∀ p ∈ split source ++ split tail, p.Proper := by
    intro p hp
    exact (List.mem_append.1 hp).elim (forall_proper_split source p) (forall_proper_split tail p)
  rw [← gather_solid hread (forall_proper_split _), solid_split_space hcomment hopen, gather_solid hread hproper,
    gather_append, flatMap_split]

theorem split_append_stray (hc : FitsNowhere c) :
    split (source ++ c :: tail) = split source ++ stray c :: split tail := by
  have hends : ∀ p ∈ (split source).getLast?, p.takesIn c = false := fun p hp =>
    takesIn_of_fitsNowhere hc (hcomment p hp) (hopen p (List.mem_of_getLast? hp))
  rw [split_append (separates_of_fitsNowhere hc) hends, split.eq_2 c, next_of_fitsNowhere hc]

theorem gather_append_stray (hc : FitsNowhere c) (line : Nat) : gather read line (split (source ++ c :: tail))
    = gather read line (split source) ++ ((read (line + source.count '\n') (stray c)).toList
      ++ gather read (line + source.count '\n') (split tail)) := by
  have hnewlines : (stray c).newlines = 0 := by
    rw [newlines, text, List.count_eq_zero, List.mem_singleton]
    exact (ne_newline_of_fitsNowhere hc).symm
  rw [split_append_stray hcomment hopen hc, gather_append, flatMap_split, gather_cons, hnewlines]
  rfl

omit hcomment in
/-- Where stray characters are not read, a space does as well. -/
theorem gather_stray_eq_gather_space (hread : ∀ line, ∀ p : Piece, p.isGap → read line p = none)
    (hstray : ∀ line, read line (stray c) = none) (hc : FitsNowhere c) (line : Nat) :
    gather read line (split (source ++ c :: tail)) = gather read line (split (source ++ ' ' :: tail)) := by
  rcases ends_in_comment_or_not source with ⟨ps, body, hsplit⟩ | hcomment
  · exact gather_in_comment hsplit hread hc line
  · rw [gather_append_stray hcomment hopen hc, gather_append_space hcomment hopen hread, hstray]
    rfl

end

/-! ### Places in comments -/

section

variable {source tail : List Char}

theorem flatMap_map_cut (ps : List Piece) : (ps.map cut).flatMap Cut.text = ps.flatMap text :=
  List.flatMap_map _ _ _

theorem inComment_of_split {ps : List Piece} {body : List Char} (h : split source = ps ++ [comment body])
    (hc : FitsNowhere c) : InComment (source ++ c :: tail) source.length := by
  have hline : inLine c := bne_iff_ne.2 (ne_newline_of_fitsNowhere hc)
  have hlength := congrArg List.length (flatMap_split source)
  rw [h, List.flatMap_append, List.length_append, List.flatMap_singleton] at hlength
  refine ⟨ps.map cut, (comment (body ++ c :: tail.takeWhile inLine)).text, (split (tail.dropWhile inLine)).map cut,
    ?_, ?_⟩
  · rw [munch_iff, split_append_comment h (separates_of_fitsNowhere hc) hline, List.map_append]
    rfl
  · rw [flatMap_map_cut]
    simp only [text, List.length_cons, List.length_append] at hlength ⊢
    omega

/-- A stray piece is where its character is, so no comment is there. -/
theorem not_inComment_of_split (h : split (source ++ c :: tail) = split source ++ stray c :: split tail) :
    ¬ InComment (source ++ c :: tail) source.length := by
  rintro ⟨before, body, after, hmunch, hle, hlt⟩
  rw [munch_iff, h, List.map_append, List.map_cons] at hmunch
  have hlength : (((split source).map cut).flatMap Cut.text).length = source.length := by
    rw [flatMap_map_cut, flatMap_split]
  rcases List.append_eq_append_iff.1 hmunch with ⟨more, hsource, hmore⟩ | ⟨more, hbefore, hmore⟩
  · -- The comment would end before the character.
    cases more with
    | nil => simp [cut, lexeme?] at hmore
    | cons first more =>
      obtain ⟨rfl, -⟩ := List.cons.inj hmore
      simp only [hsource, List.flatMap_append, List.flatMap_cons, List.length_append] at hlength
      omega
  · -- The comment would start behind it.
    cases more with
    | nil => simp [cut, lexeme?] at hmore
    | cons first more =>
      obtain ⟨rfl, -⟩ := List.cons.inj hmore
      simp only [hbefore, List.flatMap_append, List.flatMap_cons, List.length_append, cut, text, List.length_singleton]
        at hle
      omega

end

end Piece

/-- A stray character only costs itself: if no string is open before it, the tokens are those of the source with a space
in its place. In a comment the errors are the same too, and elsewhere there is one more, for the character on its line,
behind the errors of what stands before it and before those of what stands behind it. -/
theorem scan_stray (source other : String) (c : Char)
    (hclosed : ∀ e ∈ (scan source).errors, e.fault ≠ .unterminatedString) (hc : FitsNowhere c) :
    let spoiled := source ++ String.singleton c ++ other
    let spaced := source ++ " " ++ other
    let later := (scan other).errors.map (ScanError.relocate (· + source.toList.count '\n'))
    (scan spoiled).tokens = (scan spaced).tokens
      ∧ (InComment spoiled.toList source.length → (scan spoiled).errors = (scan spaced).errors)
      ∧ (¬ InComment spoiled.toList source.length → (scan spaced).errors = (scan source).errors ++ later
        ∧ (scan spoiled).errors
          = (scan source).errors ++ ⟨.unexpectedCharacter c, 1 + source.toList.count '\n'⟩ :: later) := by
  intro spoiled spaced later
  have hopen := no_openString hclosed
  have hspoiled : spoiled.toList = source.toList ++ c :: other.toList := by simp [spoiled]
  have hspaced : spaced.toList = source.toList ++ ' ' :: other.toList := by simp [spaced]
  have hend : lineCount spoiled = lineCount spaced := by
    rw [lineCount, lineCount, hspoiled, hspaced, List.count_append, List.count_append,
      List.count_cons_of_ne (Piece.ne_newline_of_fitsNowhere hc), List.count_cons_of_ne (by decide)]
  have hlater : later = Piece.gather Piece.error? (1 + source.toList.count '\n') (Piece.split other.toList) := by
    rw [Piece.gather_add fun p line => p.error?_relocate (· + source.toList.count '\n') line, ← errors_scan]
  have htokens : ∀ line, ∀ p : Piece, p.isGap → p.token? line = none := by
    intro line p hp
    cases p <;> simp [Piece.isGap, Piece.token?] at hp ⊢
  have herrors : ∀ line, ∀ p : Piece, p.isGap → p.error? line = none := by
    intro line p hp
    cases p <;> simp [Piece.isGap, Piece.error?] at hp ⊢
  rw [tokens_scan, tokens_scan, errors_scan, errors_scan, errors_scan, hend, hspoiled, hspaced, hlater,
    ← String.length_toList]
  refine ⟨congrArg (· ++ _) (Piece.gather_stray_eq_gather_space hopen htokens (fun _ => rfl) hc 1), ?_⟩
  rcases Piece.ends_in_comment_or_not source.toList with ⟨ps, body, hsplit⟩ | hcomment
  · refine ⟨fun _ => Piece.gather_in_comment hsplit herrors hc 1, ?_⟩
    intro hnot
    exact absurd (Piece.inComment_of_split hsplit hc) hnot
  · refine ⟨?_, fun _ => ⟨Piece.gather_append_space hcomment hopen herrors 1, ?_⟩⟩
    · intro hin
      exact absurd hin (Piece.not_inComment_of_split (Piece.split_append_stray hcomment hopen hc))
    · exact Piece.gather_append_stray hcomment hopen hc 1

/-- Between a point and a digit, with an error on either side. -/
theorem scan_stray_between_errors :
    let errors (source : String) := (scan source).errors
    FitsNowhere 'é' ∧ (∀ e ∈ errors "#\n1.", e.fault ≠ .unterminatedString)
      ∧ (scan "#\n1.é5\n\"").tokens = (scan "#\n1. 5\n\"").tokens
      ∧ ¬ InComment "#\n1.é5\n\"".toList 4
      ∧ errors "#\n1. 5\n\"" = [⟨.unexpectedCharacter '#', 1⟩, ⟨.unterminatedString, 3⟩]
      ∧ errors "#\n1.é5\n\""
        = [⟨.unexpectedCharacter '#', 1⟩, ⟨.unexpectedCharacter 'é', 2⟩, ⟨.unterminatedString, 3⟩] := by
  intro errors
  have hc : FitsNowhere 'é' := Piece.fitsNowhere_iff.2 (by decide +kernel)
  have hclosed : ∀ e ∈ errors "#\n1.", e.fault ≠ .unterminatedString := by decide +kernel
  have hnot : ¬ InComment ("#\n1.".toList ++ 'é' :: "5\n\"".toList) "#\n1.".toList.length :=
    Piece.not_inComment_of_split (by decide +kernel)
  obtain ⟨htokens, -, herrors⟩ := scan_stray "#\n1." "5\n\"" 'é' hclosed hc
  obtain ⟨hspaced, hspoiled⟩ := herrors hnot
  exact ⟨hc, hclosed, htokens, hnot, hspaced.trans (by decide +kernel), hspoiled.trans (by decide +kernel)⟩

end Lox
