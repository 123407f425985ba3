import Lox.Token.Basic
/-!
# Pieces of source text

A source is cut into consecutive pieces: blanks, newlines, comments, the pieces that become tokens,
and the two kinds of text that are errors. Each piece is the longest one that can start where it
stands. `text_next_append` says that cutting loses nothing: the text of the first piece and what is
left make up the source; `text_next_ne_nil` that it always gets further.
-/

namespace Lox

/-- A stretch of source text that is read as a unit. -/
inductive Piece where
  | blank (text : List Char)
  | newline
  | comment (body : List Char)
  | symbol (kind : TokenKind)
  | number (whole fraction : List Char)
  | string (body : List Char)
  | openString (body : List Char)
  | word (text : List Char)
  | stray (c : Char)
deriving DecidableEq

namespace Piece

def isBlank (c : Char) : Bool :=
  c == ' ' || c == '\t' || c == '\r'

/-- A word starts with an ASCII letter or an underscore. -/
def isWordStart (c : Char) : Bool :=
  c.isAlpha || c == '_'

/-- A word goes on with ASCII letters, digits and underscores. -/
def isWordPart (c : Char) : Bool :=
  c.isAlphanum || c == '_'

/-- Whether the character is not a newline; a comment goes on with these. -/
def inLine (c : Char) : Bool :=
  c != '\n'

/-- Whether the character is not a double quote; a string goes on with these. -/
def inQuotes (c : Char) : Bool :=
  c != '"'

def text : Piece → List Char
  | blank text => text
  | newline => ['\n']
  | comment body => '/' :: '/' :: body
  | symbol kind => kind.spelling.toList
  | number whole [] => whole
  | number whole fraction => whole ++ '.' :: fraction
  | string body => '"' :: body ++ ['"']
  | openString body => '"' :: body
  | word text => text
  | stray c => [c]

def newlines (p : Piece) : Nat :=
  p.text.count '\n'

/-- The number that starts with the digit `c`, and what is left. A point belongs to it only when a
digit follows. -/
def nextNumber (c : Char) (rest : List Char) : Piece × List Char :=
  let whole := c :: rest.takeWhile Char.isDigit
  match rest.dropWhile Char.isDigit with
  | '.' :: d :: after =>
    if d.isDigit then
      (number whole (d :: after.takeWhile Char.isDigit), after.dropWhile Char.isDigit)
    else
      (number whole [], '.' :: d :: after)
  | after => (number whole [], after)

/-- The string that starts after a double quote, and what is left. Without a closing quote it takes
everything. -/
def nextString (rest : List Char) : Piece × List Char :=
  match rest.dropWhile inQuotes with
  | [] => (openString rest, [])
  | _ :: after => (string (rest.takeWhile inQuotes), after)

/-- A symbol of one character, or a stray character. -/
def oneCharacter (c : Char) : Piece :=
  match TokenKind.symbol? (String.singleton c) with
  | some kind => symbol kind
  | none => stray c

/-- The comment, symbol or stray character that starts with `c`, and what is left. -/
def nextSymbol (c : Char) : List Char → Piece × List Char
  | [] => (oneCharacter c, [])
  | d :: after =>
    if c = '/' ∧ d = '/' then
      (comment (after.takeWhile inLine), after.dropWhile inLine)
    else
      match TokenKind.symbol? (String.ofList [c, d]) with
      | some kind => (symbol kind, after)
      | none => (oneCharacter c, d :: after)

/-- The first piece of the source `c :: rest`, and what is left. -/
def next (c : Char) (rest : List Char) : Piece × List Char :=
  if isBlank c then (blank (c :: rest.takeWhile isBlank), rest.dropWhile isBlank)
  else if c = '\n' then (newline, rest)
  else if c = '"' then nextString rest
  else if c.isDigit then nextNumber c rest
  else if isWordStart c then (word (c :: rest.takeWhile isWordPart), rest.dropWhile isWordPart)
  else nextSymbol c rest

theorem text_nextNumber_append (c : Char) (rest : List Char) :
    (nextNumber c rest).1.text ++ (nextNumber c rest).2 = c :: rest := by
  have happend := List.takeWhile_append_dropWhile (p := Char.isDigit) (l := rest)
  rw [nextNumber]
  split
  next d after hafter =>
    split
    · simp [text, List.takeWhile_append_dropWhile, ← hafter, happend]
    · simp [text, ← hafter, happend]
  next => simp [text, happend]

theorem text_nextString_append (rest : List Char) :
    (nextString rest).1.text ++ (nextString rest).2 = '"' :: rest := by
  have happend := List.takeWhile_append_dropWhile (p := inQuotes) (l := rest)
  rw [nextString]
  split
  next => simp [text]
  next q after hafter =>
    have hquote : q = '"' := by
      have := List.head?_dropWhile_not inQuotes rest
      simpa [hafter, inQuotes] using this
    subst hquote
    simp [text, ← hafter, happend]

theorem spelling_of_symbol? {s : String} {kind : TokenKind} (h : TokenKind.symbol? s = some kind) :
    kind.spelling = s := by
  simpa using List.find?_some h

theorem text_oneCharacter (c : Char) : (oneCharacter c).text = [c] := by
  rw [oneCharacter]
  split
  next kind hkind => simp [text, spelling_of_symbol? hkind]
  next => rfl

theorem text_nextSymbol_append (c : Char) (rest : List Char) :
    (nextSymbol c rest).1.text ++ (nextSymbol c rest).2 = c :: rest := by
  fun_cases nextSymbol c rest with
  | case1 => simp [text_oneCharacter]
  | case2 d after h => simp [h, text, List.takeWhile_append_dropWhile]
  | case3 d after _ kind hkind => simp [text, spelling_of_symbol? hkind]
  | case4 d after _ hkind => simp [text_oneCharacter]

/-- The text of the first piece and what is left make up the source. -/
theorem text_next_append (c : Char) (rest : List Char) :
    (next c rest).1.text ++ (next c rest).2 = c :: rest := by
  rw [next]
  split
  · simp [text, List.takeWhile_append_dropWhile]
  split
  next h => simp [text, h]
  split
  next h => simp [text_nextString_append, h]
  split
  · exact text_nextNumber_append c rest
  split
  · simp [text, List.takeWhile_append_dropWhile]
  · exact text_nextSymbol_append c rest

theorem text_nextNumber_ne_nil (c : Char) (rest : List Char) : (nextNumber c rest).1.text ≠ [] := by
  rw [nextNumber]
  split
  · split <;> simp [text]
  · simp [text]

theorem text_nextString_ne_nil (rest : List Char) : (nextString rest).1.text ≠ [] := by
  rw [nextString]
  split <;> simp [text]

theorem text_nextSymbol_ne_nil (c : Char) (rest : List Char) : (nextSymbol c rest).1.text ≠ [] := by
  fun_cases nextSymbol c rest with
  | case1 => simp [text_oneCharacter]
  | case2 => simp [text]
  | case3 d after _ kind hkind => simp [text, spelling_of_symbol? hkind]
  | case4 => simp [text_oneCharacter]

/-- No piece is empty. -/
theorem text_next_ne_nil (c : Char) (rest : List Char) : (next c rest).1.text ≠ [] := by
  rw [next]
  split
  · simp [text]
  split
  · simp [text]
  split
  · exact text_nextString_ne_nil rest
  split
  · exact text_nextNumber_ne_nil c rest
  split
  · simp [text]
  · exact text_nextSymbol_ne_nil c rest

theorem length_next_lt (c : Char) (rest : List Char) :
    (next c rest).2.length < (c :: rest).length := by
  have hlength := congrArg List.length (text_next_append c rest)
  have hpos := List.length_pos_iff.2 (text_next_ne_nil c rest)
  rw [List.length_append] at hlength
  omega

/-- The pieces of a source, in order. -/
def split : List Char → List Piece
  | [] => []
  | c :: rest => (next c rest).1 :: split (next c rest).2
termination_by source => source.length
decreasing_by exact length_next_lt c rest

end Piece

end Lox
