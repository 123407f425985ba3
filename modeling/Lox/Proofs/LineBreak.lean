import Lox.Proofs.Relocation
import Lox.Proofs.Separator
/-!
# Scanning across a line break

A newline ends every piece of source but an open string. So, if no string is left open before it, what
stands before a newline and what stands behind it are scanned as if each stood alone, except that the lines
of the second part count on.
-/

namespace Lox

namespace Piece

variable {tail : List Char}

theorem split_append_newline {source : List Char} (h : ∀ p ∈ split source, ∀ body, p ≠ openString body) :
    split (source ++ '\n' :: tail) = split source ++ newline :: split tail := by
  rw [split_append (by decide), split.eq_2 '\n', next_newline]
  intro p hp
  cases p with
  | openString body => exact absurd rfl (h _ (List.mem_of_getLast? hp) body)
  | _ => rfl

/-! ### What is read off the pieces -/

variable {α : Type} {read : Nat → Piece → Option α}

theorem gather_append_newline {source other : List Char} (hopen : ∀ p ∈ split source, ∀ body, p ≠ openString body)
    (hnewline : ∀ line, read line newline = none) (line : Nat) : gather read line (split (source ++ '\n' :: other))
      = gather read line (split source) ++ gather read (line + (1 + source.count '\n')) (split other) := by
  have hline : line + source.count '\n' + newline.newlines = line + (1 + source.count '\n') := by
    rw [newlines, text, List.count_singleton_self]
    omega
  rw [split_append_newline hopen, gather_append, flatMap_split, gather_cons, hnewline, hline]
  rfl

/-- What is read off pieces that start on a later line is what is read off them, relocated. -/
theorem gather_add {relocate : α → α} {offset : Nat}
    (hread : ∀ p line, read (line + offset) p = (read line p).map relocate) (line : Nat) (ps : List Piece) :
    gather read (line + offset) ps = (gather read line ps).map relocate := by
  rw [gather, gather, located_add, List.filterMap_map, List.map_filterMap]
  refine List.filterMap_congr ?_
  rintro ⟨line, p⟩ -
  exact hread p line

theorem token?_relocate (move : Nat → Nat) (p : Piece) (line : Nat) :
    p.token? (move line) = (p.token? line).map (Token.relocate move) := by
  cases p <;> rfl

end Piece

def ScanError.relocate (move : Nat → Nat) (e : ScanError) : ScanError :=
  { e with line := move e.line }

theorem Piece.error?_relocate (move : Nat → Nat) (p : Piece) (line : Nat) :
    p.error? (move line) = (p.error? line).map (ScanError.relocate move) := by
  cases p <;> rfl

/-! ### Tokens and errors -/

theorem no_openString {source : String} (h : ∀ e ∈ (scan source).errors, e.fault ≠ .unterminatedString) :
    ∀ p ∈ Piece.split source.toList, ∀ body, p ≠ .openString body := by
  rintro p hp body rfl
  obtain ⟨line, hmem⟩ := @Piece.exists_mem_located 1 _ _ hp
  have herror : ⟨.unterminatedString, line⟩ ∈ (scan source).errors := by
    rw [errors_scan, Piece.gather, List.mem_filterMap]
    exact ⟨_, hmem, rfl⟩
  exact h _ herror rfl

section

variable {source other : String} (h : ∀ e ∈ (scan source).errors, e.fault ≠ .unterminatedString)

include h

/-- What is read off two sources with a newline between them is what is read off the first and then what is read off
the second, on later lines. -/
theorem gather_lines {α : Type} {read : Nat → Piece → Option α} {relocate : α → α}
    (hnewline : ∀ line, read line .newline = none)
    (hread : ∀ p line, read (line + lineCount source) p = (read line p).map relocate) :
    Piece.gather read 1 (Piece.split (source ++ "\n" ++ other).toList)
      = Piece.gather read 1 (Piece.split source.toList)
        ++ (Piece.gather read 1 (Piece.split other.toList)).map relocate := by
  have htext : (source ++ "\n" ++ other).toList = source.toList ++ '\n' :: other.toList := by
    simp
  rw [htext, Piece.gather_append_newline (no_openString h) hnewline, ← Piece.gather_add hread]
  rfl

theorem tokens_append_newline : (scan (source ++ "\n" ++ other)).tokens = (scan source).tokens.dropLast
    ++ (scan other).tokens.map (Token.relocate (· + lineCount source)) := by
  have hend : lineCount (source ++ "\n" ++ other) = lineCount other + lineCount source := by
    have hnewline : "\n".toList.count '\n' = 1 := by decide
    simp only [lineCount, String.toList_append, List.count_append]
    omega
  rw [tokens_scan, tokens_scan, tokens_scan, List.dropLast_concat, hend,
    gather_lines h (fun _ => rfl) (fun p line => p.token?_relocate (· + lineCount source) line), List.map_append,
    List.append_assoc]
  rfl

theorem errors_append_newline : (scan (source ++ "\n" ++ other)).errors = (scan source).errors
    ++ (scan other).errors.map (ScanError.relocate (· + lineCount source)) := by
  rw [errors_scan, errors_scan, errors_scan]
  exact gather_lines h (fun _ => rfl) fun p line => p.error?_relocate (· + lineCount source) line

end

/-- Scanning is local across a newline, if no string is left open before it: the tokens of the first part but its end of
input are followed by those of the second part, and errors by errors, with the lines of the second part counted on. -/
theorem scan_append_newline (source other : String)
    (h : ∀ e ∈ (scan source).errors, e.fault ≠ .unterminatedString) :
    ∃ before, (scan source).tokens = before ++ [Token.eof (lineCount source)]
      ∧ scan (source ++ "\n" ++ other)
        = ⟨before ++ (scan other).tokens.map (Token.relocate (· + lineCount source)),
          (scan source).errors ++ (scan other).errors.map (ScanError.relocate (· + lineCount source))⟩ := by
  refine ⟨_, tokens_scan source, ?_⟩
  have htokens := @tokens_append_newline source other h
  rw [tokens_scan source, List.dropLast_concat] at htokens
  rw [← htokens, ← errors_append_newline h]

/-- The first part has a string over two lines and ends in a stray character and a comment, and the second one starts
with a point and leaves a string open. -/
theorem scan_append_newline_comment :
    (∀ e ∈ (scan "\"a\nb\" 1 # // x").errors, e.fault ≠ .unterminatedString)
      ∧ scan "\"a\nb\" 1 # // x\n.5\n\"" = ⟨[⟨.string, "\"a\nb\"", some (.string "a\nb"), 2⟩,
        ⟨.number, "1", some (.number 1), 2⟩, ⟨.dot, ".", none, 3⟩, ⟨.number, "5", some (.number 5), 3⟩, .eof 4],
        [⟨.unexpectedCharacter '#', 2⟩, ⟨.unterminatedString, 4⟩]⟩ := by
  have hclosed : ∀ e ∈ (scan "\"a\nb\" 1 # // x").errors, e.fault ≠ .unterminatedString := by decide +kernel
  obtain ⟨before, hbefore, hscan⟩ := scan_append_newline "\"a\nb\" 1 # // x" ".5\n\"" hclosed
  refine ⟨hclosed, hscan.trans ?_⟩
  have hdrop := congrArg List.dropLast hbefore
  rw [List.dropLast_concat] at hdrop
  rw [← hdrop]
  decide +kernel

end Lox
