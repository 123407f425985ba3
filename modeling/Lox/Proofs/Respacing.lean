import Lox.Proofs.Layout
import Lox.Proofs.LineBreak
/-!
# Tokens by their lexemes

A token is determined by the text it was read from. The text of a piece that becomes a token is cut off as that
piece again, and a space ends every such piece. So the lexemes of a source with single spaces between them are
scanned into the same tokens, whatever stood between them before.
-/

namespace Lox

namespace Piece

variable {p : Piece}

/-! ### Pieces that become tokens -/

def isToken : Piece → Bool
  | symbol _ | number _ _ | string _ | word _ => true
  | _ => false

theorem token?_of_not_isToken (h : ¬ p.isToken) (line : Nat) : p.token? line = none := by
  cases p <;> simp [isToken, token?] at h ⊢

theorem exists_token?_of_isToken (h : p.isToken) (line : Nat) :
    ∃ t, p.token? line = some t ∧ t.lexeme = String.ofList p.text := by
  cases p with
  | symbol kind => exact ⟨_, rfl, String.ofList_toList.symm⟩
  | number whole fraction => exact ⟨_, rfl, rfl⟩
  | string body => exact ⟨_, rfl, rfl⟩
  | word text => exact ⟨_, rfl, rfl⟩
  | _ => simp [isToken] at h

theorem error?_of_isToken (h : p.isToken) (line : Nat) : p.error? line = none := by
  cases p <;> simp [isToken, error?] at h ⊢

theorem lexeme?_of_isToken (h : p.isToken) : p.lexeme? ≠ none := by
  cases p <;> simp [isToken, lexeme?] at h ⊢

/-- The text of a token starts with a character that is not blank. -/
theorem exists_text_cons (hp : p.Proper) (htoken : p.isToken) :
    ∃ c rest, p.text = c :: rest ∧ isBlank c = false := by
  obtain ⟨c, rest, htext⟩ := List.exists_cons_of_ne_nil hp.text_ne_nil
  refine ⟨c, rest, htext, ?_⟩
  by_contra hblank
  have hsplit := split_text hp (lexeme?_of_isToken htoken)
  rw [htext, split, next_blank (by simpa using hblank)] at hsplit
  obtain ⟨rfl, -⟩ := List.cons.inj hsplit
  simp [isToken] at htoken

/-! ### Texts with spaces between them -/

/-- A space before a character that is not blank is a piece of its own. -/
theorem split_space {c : Char} {rest : List Char} (hc : isBlank c = false) :
    split (' ' :: c :: rest) = blank [' '] :: split (c :: rest) := by
  have hblank : ¬ isBlank c := by simp [hc]
  rw [split, next_blank rfl, List.takeWhile_cons_of_neg hblank, List.dropWhile_cons_of_neg hblank]

private theorem exists_intercalate_cons {c : Char} {rest : List Char} (texts : List (List Char)) :
    ∃ tail, [' '].intercalate ((c :: rest) :: texts) = c :: tail := by
  cases texts with
  | nil => exact ⟨rest, List.intercalate_singleton⟩
  | cons text texts =>
    rw [List.intercalate_cons_cons]
    exact ⟨_, rfl⟩

theorem split_intercalate {ps : List Piece} (h : ∀ p ∈ ps, p.Proper ∧ p.isToken) :
    split ([' '].intercalate (ps.map text)) = ps.intersperse (blank [' ']) := by
  induction ps with
  | nil => simp [split]
  | cons p ps ih =>
    obtain ⟨⟨hp, htoken⟩, hps⟩ := List.forall_mem_cons.1 h
    have hsplit := split_text hp (lexeme?_of_isToken htoken)
    cases ps with
    | nil => simpa using hsplit
    | cons q qs =>
      obtain ⟨⟨hq, hqtoken⟩, -⟩ := List.forall_mem_cons.1 hps
      obtain ⟨c, rest, htext, hc⟩ := exists_text_cons hq hqtoken
      obtain ⟨tail, htail⟩ := @exists_intercalate_cons c rest (qs.map text)
      have hends : ∀ last ∈ (split p.text).getLast?, last.takesIn ' ' = false := by
        intro last hlast
        obtain rfl : p = last := by simpa [hsplit] using hlast
        cases p <;> simp [isToken, takesIn] at htoken ⊢
      have hrest := ih hps
      rw [List.map_cons, htext, htail] at hrest
      rw [List.map_cons, List.map_cons, List.intercalate_cons_cons, htext, htail, List.append_assoc,
        List.singleton_append, split_append rfl hends, hsplit, split_space hc, hrest, List.intersperse_cons_cons]
      rfl

private theorem filterMap_intersperse {α β : Type} {f : α → Option β} {separator : α} (h : f separator = none) (as : List α) :
    (as.intersperse separator).filterMap f = as.filterMap f := by
  induction as with
  | nil => rfl
  | cons a as ih =>
    cases as with
    | nil => rfl
    | cons b as =>
      rw [List.intersperse_cons_cons]
      cases ha : f a with
      | none => rw [List.filterMap_cons_none ha, List.filterMap_cons_none h, List.filterMap_cons_none ha, ih]
      | some value => rw [List.filterMap_cons_some ha, List.filterMap_cons_none h, List.filterMap_cons_some ha, ih]

/-! ### What is read off without the lines -/

/-- What is read off pieces, put on line 1, is what is read off each of them on that line. -/
theorem map_gather {α : Type} {read : Nat → Piece → Option α} {relocate : α → α}
    (hread : ∀ p line, read 1 p = (read line p).map relocate) (line : Nat) (ps : List Piece) :
    (gather read line ps).map relocate = ps.filterMap (read 1) := by
  conv_rhs => rw [← map_snd_located line ps]
  rw [gather, List.map_filterMap, List.filterMap_map]
  refine List.filterMap_congr ?_
  intro piece _
  exact (hread piece.2 piece.1).symm

theorem flatten_tokens (line : Nat) (ps : List Piece) :
    (gather token? line ps).map (Token.relocate flatten) = ps.filterMap (token? 1) :=
  map_gather (fun p line => p.token?_relocate flatten line) line ps

theorem flatten_errors (line : Nat) (ps : List Piece) :
    (gather error? line ps).map (ScanError.relocate flatten) = ps.filterMap (error? 1) :=
  map_gather (fun p line => p.error?_relocate flatten line) line ps

theorem filterMap_token?_filter (line : Nat) (ps : List Piece) :
    (ps.filter isToken).filterMap (token? line) = ps.filterMap (token? line) := by
  rw [List.filterMap_filter]
  refine List.filterMap_congr ?_
  intro p _
  split
  next => rfl
  next h => exact (token?_of_not_isToken h line).symm

theorem lexemes_eq (line : Nat) (ps : List Piece) : (ps.filterMap (token? line)).map Token.lexeme
    = (ps.filter isToken).map fun p => String.ofList p.text := by
  rw [← filterMap_token?_filter, List.map_filterMap, ← List.filterMap_eq_map]
  refine List.filterMap_congr ?_
  intro p hp
  obtain ⟨t, ht, hlexeme⟩ := exists_token?_of_isToken (List.mem_filter.1 hp).2 line
  rw [ht, Option.map_some, hlexeme]
  rfl

end Piece

/-- The lexemes of the tokens of a source, with single spaces between them. -/
def respaced (source : String) : String :=
  " ".intercalate ((scan source).tokens.dropLast.map Token.lexeme)

theorem split_respaced (source : String) : Piece.split (respaced source).toList
    = ((Piece.split source.toList).filter Piece.isToken).intersperse (.blank [' ']) := by
  have hlexemes : (scan source).tokens.dropLast.map Token.lexeme
      = ((Piece.split source.toList).filter Piece.isToken).map fun p => String.ofList p.text := by
    rw [tokens_scan, List.dropLast_concat, ← Piece.lexemes_eq 1, ← Piece.flatten_tokens 1, List.map_map]
    rfl
  have htexts : (respaced source).toList
      = [' '].intercalate (((Piece.split source.toList).filter Piece.isToken).map Piece.text) := by
    rw [respaced, hlexemes, String.toList_intercalate, List.map_map]
    simp [Function.comp_def]
  rw [htexts, Piece.split_intercalate]
  intro p hp
  obtain ⟨hmem, htoken⟩ := List.mem_filter.1 hp
  exact ⟨Piece.forall_proper_split source.toList p hmem, htoken⟩

/-- Tokens are determined by their lexemes: the lexemes of any source, with single spaces between them, are scanned
without an error into tokens of the same kinds, with the same lexemes and literals. -/
theorem scan_respaced (source : String) : (scan (respaced source)).errors = []
    ∧ List.Forall₂ Token.Agrees (scan (respaced source)).tokens (scan source).tokens := by
  constructor
  · rw [← List.map_eq_nil_iff, errors_scan, Piece.flatten_errors, split_respaced, Piece.filterMap_intersperse rfl,
      List.filterMap_eq_nil_iff]
    intro p hp
    exact Piece.error?_of_isToken (List.mem_filter.1 hp).2 1
  · have hflat : (scan (respaced source)).tokens.map (Token.relocate flatten)
        = (scan source).tokens.map (Token.relocate flatten) := by
      rw [tokens_scan, tokens_scan, List.map_append, List.map_append, Piece.flatten_tokens, Piece.flatten_tokens,
        split_respaced, Piece.filterMap_intersperse rfl, Piece.filterMap_token?_filter]
      rfl
    exact (map_eq_map_iff_forall₂.1 hflat).imp fun _ _ => Token.agrees_iff.2

end Lox
