import Lox.Proofs.Lexicon
import Lox.Token.Scan
import Mathlib.Data.List.Basic
import Mathlib.Data.List.TakeWhile
/-!
# The lines of a scan

Scanning counts lines at newlines and at strings only. Since no other piece of a source has a newline in it, the
line reached behind a piece is the one on which the piece ends: `scan_eq` gives the tokens and the errors of a source
with the number of newlines before the end of each, and says the same of the end of input.
-/

namespace Lox

namespace Piece

/-! ### The first piece is made of what its kind allows -/

variable {c : Char} {rest : List Char}

theorem proper_nextNumber (hc : c.isDigit) : (nextNumber c rest).1.Proper := by
  have hwhole : ∀ d ∈ c :: rest.takeWhile Char.isDigit, d.isDigit :=
    List.forall_mem_cons.2 ⟨hc, fun _ => List.mem_takeWhile_imp⟩
  rw [nextNumber]
  split
  · split
    next hd => exact ⟨by simp, hwhole, List.forall_mem_cons.2 ⟨hd, fun _ => List.mem_takeWhile_imp⟩⟩
    next => exact ⟨by simp, hwhole, by simp⟩
  · exact ⟨by simp, hwhole, by simp⟩

theorem proper_nextString : (nextString rest).1.Proper := by
  rw [nextString]
  split
  next hnil =>
    have htake := List.takeWhile_append_dropWhile (p := inQuotes) (l := rest)
    rw [hnil, List.append_nil] at htake
    rw [← htake]
    exact fun _ => List.mem_takeWhile_imp
  next => exact fun _ => List.mem_takeWhile_imp

theorem mem_symbols_of_symbol? {s : String} {kind : TokenKind} (h : TokenKind.symbol? s = some kind) :
    kind ∈ TokenKind.symbols :=
  List.mem_of_find?_eq_some h

theorem proper_oneCharacter : (oneCharacter c).Proper := by
  rw [oneCharacter]
  split
  next h => exact mem_symbols_of_symbol? h
  next => trivial

theorem proper_nextSymbol : (nextSymbol c rest).1.Proper := by
  fun_cases nextSymbol c rest with
  | case1 => exact proper_oneCharacter
  | case2 => exact fun _ => List.mem_takeWhile_imp
  | case3 d after _ kind hkind => exact mem_symbols_of_symbol? hkind
  | case4 => exact proper_oneCharacter

theorem proper_next (c : Char) (rest : List Char) : (next c rest).1.Proper := by
  rw [next]
  split
  next hc => exact ⟨by simp, List.forall_mem_cons.2 ⟨hc, fun _ => List.mem_takeWhile_imp⟩⟩
  split
  · trivial
  split
  · exact proper_nextString
  split
  next hc => exact proper_nextNumber hc
  split
  next hc => exact ⟨c, _, rfl, hc, fun _ => List.mem_takeWhile_imp⟩
  · exact proper_nextSymbol

/-! ### The pieces of a source -/

theorem forall_mem_split (holds : Piece → Prop) (h : ∀ c rest, holds (next c rest).1) (source : List Char) :
    ∀ p ∈ split source, holds p := by
  induction source using split.induct with
  | case1 => simp [split]
  | case2 c rest ih =>
    rw [split]
    exact List.forall_mem_cons.2 ⟨h c rest, ih⟩

theorem forall_proper_split (source : List Char) : ∀ p ∈ split source, p.Proper :=
  forall_mem_split Proper proper_next source

theorem flatMap_split (source : List Char) : (split source).flatMap text = source := by
  induction source using split.induct with
  | case1 => rw [split, List.flatMap_nil]
  | case2 c rest ih => rw [split, List.flatMap_cons, ih, text_next_append]

/-- A newline is never a character that fits nowhere. -/
theorem ne_stray_newline {source : List Char} : ∀ p ∈ split source, p ≠ stray '\n' := by
  apply forall_mem_split
  intro c rest hstray
  have happend := text_next_append c rest
  rw [hstray, text, List.cons_append, List.cons.injEq] at happend
  obtain ⟨rfl, -⟩ := happend
  have hnewline : (next '\n' rest).1 = newline := rfl
  simp [hnewline] at hstray

/-! ### Newlines in a piece -/

variable {whole fraction : List Char}

theorem text_number_cases (whole fraction : List Char) :
    fraction = [] ∧ (number whole fraction).text = whole
      ∨ fraction ≠ [] ∧ (number whole fraction).text = whole ++ '.' :: fraction := by
  cases fraction with
  | nil => exact .inl ⟨rfl, rfl⟩
  | cons d fraction => exact .inr ⟨by simp, rfl⟩

theorem mem_text_number (hp : (number whole fraction).Proper) {c : Char}
    (hc : c ∈ (number whole fraction).text) : c.isDigit ∨ c = '.' := by
  obtain ⟨-, hwhole, hfraction⟩ := hp
  obtain ⟨-, htext⟩ | ⟨-, htext⟩ := text_number_cases whole fraction
  · rw [htext] at hc
    exact .inl (hwhole c hc)
  · rw [htext, List.mem_append, List.mem_cons] at hc
    obtain hc | hc | hc := hc
    · exact .inl (hwhole c hc)
    · exact .inr hc
    · exact .inl (hfraction c hc)

/-- The pieces at which the count of lines does not move. -/
def staysOnLine : Piece → Bool
  | newline | string _ | openString _ => false
  | _ => true

theorem newlines_eq_zero {p : Piece} (hp : p.Proper) (hstray : p ≠ stray '\n') (h : p.staysOnLine) :
    p.newlines = 0 := by
  rw [newlines, List.count_eq_zero]
  intro hmem
  cases p with
  | blank text => exact absurd (hp.2 '\n' hmem) (by decide)
  | comment body =>
    have hbody : '\n' ∈ body := by simpa [text] using hmem
    exact absurd (hp '\n' hbody) (by decide)
  | symbol kind =>
    have hspellings : ∀ kind ∈ TokenKind.symbols, '\n' ∉ kind.spelling.toList := by decide
    exact hspellings kind hp hmem
  | number whole fraction => simpa using mem_text_number hp hmem
  | word text =>
    obtain ⟨c, rest, rfl, hc, hrest⟩ := hp
    rcases List.mem_cons.1 hmem with rfl | hmem
    · exact absurd hc (by decide)
    · exact absurd (hrest '\n' hmem) (by decide)
  | stray c => exact hstray (congrArg stray (List.mem_singleton.1 hmem).symm)
  | newline => simp [staysOnLine] at h
  | string body => simp [staysOnLine] at h
  | openString body => simp [staysOnLine] at h

theorem lineBehind_eq {p : Piece} (hp : p.Proper) (hstray : p ≠ stray '\n') (line : Nat) :
    p.lineBehind line = line + p.newlines := by
  have hstays : p.staysOnLine → line = line + p.newlines := by
    intro h
    rw [newlines_eq_zero hp hstray h, Nat.add_zero]
  cases p with
  | newline => rfl
  | string body => rfl
  | openString body => rfl
  | _ => exact hstays rfl

/-! ### Pieces with their lines -/

/-- Every piece with the line on which it ends, for a source that starts on the given line. -/
def located (line : Nat) : List Piece → List (Nat × Piece)
  | [] => []
  | p :: ps => (line + p.newlines, p) :: located (line + p.newlines) ps

theorem located_eq (line : Nat) (ps : List Piece) : located line ps
    = ps.zipIdx.map fun (p, i) => (line + ((ps.take (i + 1)).flatMap text).count '\n', p) := by
  induction ps generalizing line with
  | nil => rfl
  | cons p ps ih =>
    rw [located, ih, List.zipIdx_cons, List.zipIdx_succ]
    simp [newlines, Nat.add_assoc]

theorem located_append (line : Nat) (ps qs : List Piece) : located line (ps ++ qs)
    = located line ps ++ located (line + (ps.flatMap text).count '\n') qs := by
  induction ps generalizing line with
  | nil => simp [located]
  | cons p ps ih =>
    rw [List.cons_append, located, located, ih, List.cons_append, List.flatMap_cons, List.count_append,
      newlines, Nat.add_assoc]

theorem located_add (line offset : Nat) (ps : List Piece) : located (line + offset) ps
    = (located line ps).map fun (line, p) => (line + offset, p) := by
  induction ps generalizing line with
  | nil => rfl
  | cons p ps ih =>
    have hline : line + offset + p.newlines = line + p.newlines + offset := by omega
    rw [located, located, hline, ih]
    rfl

theorem map_snd_located (line : Nat) (ps : List Piece) : (located line ps).map Prod.snd = ps := by
  induction ps generalizing line with
  | nil => rfl
  | cons p ps ih => rw [located, List.map_cons, ih]

theorem mem_of_mem_located {line line' : Nat} {p : Piece} {ps : List Piece} (h : (line', p) ∈ located line ps) :
    p ∈ ps := by
  rw [← map_snd_located line ps]
  exact List.mem_map_of_mem h

theorem exists_mem_located {line : Nat} {p : Piece} {ps : List Piece} (h : p ∈ ps) :
    ∃ line', (line', p) ∈ located line ps := by
  rw [← map_snd_located line ps] at h
  obtain ⟨⟨line', _⟩, hmem, rfl⟩ := List.mem_map.1 h
  exact ⟨line', hmem⟩

/-- A located piece is on the line on which it ends. -/
theorem exists_append_of_mem_located {line line' : Nat} {p : Piece} {ps : List Piece}
    (h : (line', p) ∈ located line ps) :
    ∃ before after, ps = before ++ p :: after ∧ line' = line + (before.flatMap text).count '\n' + p.newlines := by
  induction ps generalizing line with
  | nil => simp [located] at h
  | cons q ps ih =>
    rw [located] at h
    rcases List.mem_cons.1 h with heq | h
    · obtain ⟨rfl, rfl⟩ := Prod.mk.inj heq
      exact ⟨[], ps, rfl, rfl⟩
    · obtain ⟨before, after, rfl, hline⟩ := ih h
      refine ⟨q :: before, after, rfl, ?_⟩
      rw [List.flatMap_cons, List.count_append, ← newlines]
      omega

theorem line_of_mem_located {source : List Char} {line : Nat} {p : Piece} (h : (line, p) ∈ located 1 (split source)) :
    1 ≤ line ∧ line ≤ 1 + source.count '\n' := by
  obtain ⟨before, after, hsplit, rfl⟩ := exists_append_of_mem_located h
  have htexts : source.count '\n' = (before.flatMap text).count '\n' + (p.newlines + (after.flatMap text).count '\n') := by
    rw [← flatMap_split source, hsplit, List.flatMap_append, List.flatMap_cons, List.count_append, List.count_append,
      newlines]
  omega

/-! ### What is read off the pieces -/

/-- What is read off pieces that start on the given line, in order. -/
def gather {α : Type} (read : Nat → Piece → Option α) (line : Nat) (ps : List Piece) : List α :=
  (located line ps).filterMap fun (line, p) => read line p

variable {α : Type} {read : Nat → Piece → Option α}

theorem gather_cons (line : Nat) (p : Piece) (ps : List Piece) : gather read line (p :: ps)
    = (read (line + p.newlines) p).toList ++ gather read (line + p.newlines) ps := by
  rw [gather, located, List.filterMap_cons]
  dsimp only
  cases read (line + p.newlines) p with
  | none => rfl
  | some a => rfl

theorem gather_append (line : Nat) (ps qs : List Piece) : gather read line (ps ++ qs)
    = gather read line ps ++ gather read (line + (ps.flatMap text).count '\n') qs := by
  rw [gather, located_append, List.filterMap_append]
  rfl

end Piece

/-! ### The count of lines is exact -/

theorem Scan.ofPieces_eq {ps : List Piece} (hproper : ∀ p ∈ ps, p.Proper) (hstray : ∀ p ∈ ps, p ≠ .stray '\n')
    (line : Nat) :
    ofPieces line ps
      = ⟨Piece.gather Piece.token? line ps ++ [Token.eof (line + (ps.flatMap Piece.text).count '\n')],
        Piece.gather Piece.error? line ps⟩ := by
  induction ps generalizing line with
  | nil => rfl
  | cons p ps ih =>
    obtain ⟨hp, hps⟩ := List.forall_mem_cons.1 hproper
    obtain ⟨hnewline, hrest⟩ := List.forall_mem_cons.1 hstray
    rw [ofPieces, Piece.lineBehind_eq hp hnewline, ih hps hrest, Piece.gather_cons, Piece.gather_cons,
      List.flatMap_cons, List.count_append, ← Piece.newlines, List.append_assoc, Nat.add_assoc]

/-- The lines that a source takes up when another one starts behind it on a line of its own. -/
def lineCount (source : String) : Nat :=
  1 + source.toList.count '\n'

/-- A scan has the tokens and the errors of the pieces, each on the line on which its piece ends, and ends on the last
line. -/
theorem scan_eq (source : String) :
    scan source
      = ⟨Piece.gather Piece.token? 1 (Piece.split source.toList) ++ [Token.eof (lineCount source)],
        Piece.gather Piece.error? 1 (Piece.split source.toList)⟩ := by
  rw [scan, Scan.ofPieces_eq (Piece.forall_proper_split _) Piece.ne_stray_newline, Piece.flatMap_split, lineCount]

theorem tokens_scan (source : String) : (scan source).tokens
    = Piece.gather Piece.token? 1 (Piece.split source.toList) ++ [Token.eof (lineCount source)] := by
  rw [scan_eq]

theorem errors_scan (source : String) :
    (scan source).errors = Piece.gather Piece.error? 1 (Piece.split source.toList) := by
  rw [scan_eq]

end Lox
