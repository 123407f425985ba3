import Lox.Proofs.Munch
/-!
# Characters that separate

A character that is no part of a word, and with which neither a number, a symbol nor the start of a comment can
go on, ends all pieces of source but blanks, comments and open strings. So, if such a character is put behind a
source, no piece changes but the last one, and that one changes only if it takes the character in. All that is said
elsewhere about cutting a source in two goes through `split_append` and `exists_next_of_split`.
-/

namespace Lox

namespace Piece

variable {c stop : Char} {rest tail : List Char}

/-- A character that cannot continue a word, a number, a symbol or the start of a comment. -/
def separates (c : Char) : Bool :=
  !isWordPart c && c != '.' && c != '/' && c != '='

/-- Whether a piece goes on with a separating character that stands behind it. -/
def takesIn (stop : Char) : Piece → Bool
  | blank _ => isBlank stop
  | comment _ => inLine stop
  | openString _ => true
  | _ => false

/-! ### The first piece -/

private theorem takeWhile_append_separator {accepts : Char → Bool} {text : List Char}
    (h : accepts stop = false ∨ text.dropWhile accepts ≠ []) :
    (text ++ stop :: tail).takeWhile accepts = text.takeWhile accepts
      ∧ (text ++ stop :: tail).dropWhile accepts = text.dropWhile accepts ++ stop :: tail := by
  induction text with
  | nil =>
    have hstop : accepts stop = false := by simpa using h
    simp [hstop]
  | cons d text ih =>
    by_cases hd : accepts d
    · rw [List.dropWhile_cons_of_pos hd] at h ⊢
      rw [List.cons_append, List.takeWhile_cons_of_pos hd, List.takeWhile_cons_of_pos hd,
        List.dropWhile_cons_of_pos hd, (ih h).1, (ih h).2]
      exact ⟨rfl, rfl⟩
    · rw [List.cons_append, List.takeWhile_cons_of_neg hd, List.takeWhile_cons_of_neg hd,
        List.dropWhile_cons_of_neg hd, List.dropWhile_cons_of_neg hd]
      exact ⟨rfl, rfl⟩

theorem nextString_append_separator (h : (nextString rest).1.takesIn stop = false ∨ (nextString rest).2 ≠ []) :
    nextString (rest ++ stop :: tail) = ((nextString rest).1, (nextString rest).2 ++ stop :: tail) := by
  cases hdrop : rest.dropWhile inQuotes with
  | nil =>
    rw [nextString, hdrop] at h
    simp [takesIn] at h
  | cons quote after =>
    have hshort : (rest.takeWhile inQuotes).length ≠ rest.length := by
      intro hlength
      have hall := congrArg List.length (List.takeWhile_append_dropWhile (p := inQuotes) (l := rest))
      rw [hdrop, List.length_append, List.length_cons] at hall
      omega
    rw [nextString, nextString, List.dropWhile_append, List.takeWhile_append, if_neg hshort, hdrop]
    rfl

theorem nextNumber_append_separator (hdigit : stop.isDigit = false) (hpoint : stop ≠ '.') :
    nextNumber c (rest ++ stop :: tail) = ((nextNumber c rest).1, (nextNumber c rest).2 ++ stop :: tail) := by
  have hstop : ∀ text : List Char, (text ++ stop :: tail).takeWhile Char.isDigit = text.takeWhile Char.isDigit
      ∧ (text ++ stop :: tail).dropWhile Char.isDigit = text.dropWhile Char.isDigit ++ stop :: tail :=
    fun _ => takeWhile_append_separator (.inl hdigit)
  rw [nextNumber, nextNumber, (hstop rest).1, (hstop rest).2]
  -- A point at the very end belongs to the number no more when the separator follows it.
  rcases rest.dropWhile Char.isDigit with _ | ⟨point, _ | ⟨d, after⟩⟩
  · simp [hpoint]
  · by_cases hpoint' : point = '.'
    · subst hpoint'
      simp [hdigit]
    · simp [hpoint']
  · by_cases hpoint' : point = '.'
    · subst hpoint'
      simp only [List.cons_append, (hstop after).1, (hstop after).2]
      split <;> rfl
    · simp [hpoint']

/-- No symbol ends in a second character other than the equals sign. -/
theorem symbol?_separator (c : Char) (hstop : stop ≠ '=') : TokenKind.symbol? (String.ofList [c, stop]) = none := by
  have hspelling : ∀ kind ∈ TokenKind.symbols, kind.spelling.toList.tail.all (· == '=') := by decide
  rw [Option.eq_none_iff_forall_ne_some]
  intro kind hkind
  have hsecond := hspelling kind (mem_symbols_of_symbol? hkind)
  rw [spelling_of_symbol? hkind] at hsecond
  exact hstop (by simpa using hsecond)

theorem nextSymbol_append_separator (hslash : stop ≠ '/') (hequal : stop ≠ '=')
    (h : (nextSymbol c rest).1.takesIn stop = false ∨ (nextSymbol c rest).2 ≠ []) :
    nextSymbol c (rest ++ stop :: tail) = ((nextSymbol c rest).1, (nextSymbol c rest).2 ++ stop :: tail) := by
  cases rest with
  | nil =>
    have hslashes : ¬ (c = '/' ∧ stop = '/') := fun h => hslash h.2
    simp only [List.nil_append, nextSymbol, if_neg hslashes, symbol?_separator c hequal]
  | cons d after =>
    rw [nextSymbol] at h
    rw [List.cons_append, nextSymbol, nextSymbol]
    split
    next hslashes =>
      rw [if_pos hslashes] at h
      obtain ⟨htake, hdrop⟩ := @takeWhile_append_separator stop tail inLine after h
      rw [htake, hdrop]
    · split <;> rfl

/-- A separating character behind the source does not change the first piece, if another piece follows or the first
one does not take it in. -/
theorem next_append_separator (hstop : separates stop)
    (h : (next c rest).1.takesIn stop = false ∨ (next c rest).2 ≠ []) :
    next c (rest ++ stop :: tail) = ((next c rest).1, (next c rest).2 ++ stop :: tail) := by
  simp only [separates, Bool.and_eq_true, Bool.not_eq_true', bne_iff_ne] at hstop
  obtain ⟨⟨⟨hpart, hpoint⟩, hslash⟩, hequal⟩ := hstop
  have hdigit : stop.isDigit = false := by
    simp only [isWordPart, Char.isAlphanum, Bool.or_eq_false_iff] at hpart
    exact hpart.1.2
  rw [next] at h
  rw [next, next]
  split
  next hc =>
    rw [if_pos hc] at h
    obtain ⟨htake, hdrop⟩ := @takeWhile_append_separator stop tail isBlank rest h
    rw [htake, hdrop]
  next hc =>
  rw [if_neg hc] at h
  split
  · rfl
  next hc =>
  rw [if_neg hc] at h
  split
  next hc =>
    rw [if_pos hc] at h
    exact nextString_append_separator h
  next hc =>
  rw [if_neg hc] at h
  split
  · exact nextNumber_append_separator hdigit hpoint
  next hc =>
  rw [if_neg hc] at h
  split
  · obtain ⟨htake, hdrop⟩ := @takeWhile_append_separator stop tail isWordPart rest (.inl hpart)
    rw [htake, hdrop]
  next hc =>
  rw [if_neg hc] at h
  exact nextSymbol_append_separator hslash hequal h

/-! ### All pieces -/

theorem split_eq_nil {source : List Char} : split source = [] ↔ source = [] := by
  cases source with
  | nil => simp [split]
  | cons c rest => simp [split]

/-- The last piece of a source is cut off where nothing else is left, and a separating character behind it with whatever
follows changes no piece before it. -/
theorem exists_next_of_split {source : List Char} {ps : List Piece} {p : Piece} (h : split source = ps ++ [p]) :
    ∃ c rest, p.text = c :: rest ∧ next c rest = (p, []) ∧ ∀ stop tail, separates stop →
      split (source ++ stop :: tail) = ps ++ split (p.text ++ stop :: tail) := by
  induction source using split.induct generalizing ps with
  | case1 => simp [split] at h
  | case2 c rest ih =>
    rw [split] at h
    cases ps with
    | nil =>
      obtain ⟨hp, hrest⟩ := List.cons.inj h
      have hnext : next c rest = (p, []) := Prod.ext hp (split_eq_nil.1 hrest)
      have htext : p.text = c :: rest := by
        simpa [hnext] using text_next_append c rest
      refine ⟨c, rest, htext, hnext, ?_⟩
      intro stop tail _
      rw [htext]
      rfl
    | cons q ps =>
      obtain ⟨hq, hrest⟩ := List.cons.inj h
      have hne : (next c rest).2 ≠ [] := by
        intro hnil
        rw [hnil, split] at hrest
        simp at hrest
      obtain ⟨d, last, htext, hlast, hsplit⟩ := ih hrest
      refine ⟨d, last, htext, hlast, ?_⟩
      intro stop tail hstop
      rw [List.cons_append, split, next_append_separator hstop (.inr hne), hq, hsplit stop tail hstop]
      rfl

/-- A separating character that the last piece does not take in cuts the source in two. -/
theorem split_append {source : List Char} (hstop : separates stop)
    (h : ∀ p ∈ (split source).getLast?, p.takesIn stop = false) :
    split (source ++ stop :: tail) = split source ++ split (stop :: tail) := by
  rcases List.eq_nil_or_concat' (split source) with hnil | ⟨ps, p, hsplit⟩
  · rw [hnil, split_eq_nil.1 hnil]
    rfl
  · obtain ⟨c, rest, htext, hnext, hsource⟩ := exists_next_of_split hsplit
    have htakes : (next c rest).1.takesIn stop = false := by
      rw [hnext]
      exact h p (by simp [hsplit])
    rw [hsource stop tail hstop, htext, List.cons_append, split, next_append_separator hstop (.inl htakes), hnext,
      hsplit, List.append_assoc]
    rfl

end Piece

end Lox
