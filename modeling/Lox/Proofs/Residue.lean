import Lox.Proofs.Continuation
import Lox.Proofs.CursorReading
/-!
# Nothing is left behind

The parser on a cursor counts the levels of nesting that are open, and a failure unwinds through many of them. A
declaration gives all of them back, whether it succeeds or fails and wherever the failure was. So of all that came
before a declaration only the place of the cursor matters: what follows at the top level is parsed as if it stood
alone, and what follows in a block is parsed as by a new parser that starts there with the nesting of the block.
-/

namespace Lox

namespace Cursor

/-- Declarations are read one after the other, as the top level and blocks do it, from one state of the parser to
another, and leave the given slots. Before each of them the next token is neither the end nor one where they stop. -/
inductive Declares (tokens : Array Token) (stops : TokenKind → Bool) : Cursor → List Slot → Cursor → Prop where
  | none {s : Cursor} : Declares tokens stops s [] s
  | next {s mid s' : Cursor} {token : Token} {slot : Slot} {slots : List Slot} :
      tokens[s.current]? = some token → token.kind ≠ .eof → stops token.kind = false →
      declaration tokens s = some (.ok slot, mid) → Declares tokens stops mid slots s' →
      Declares tokens stops s (slot :: slots) s'

end Cursor

/-! ### Along the declarations of a block -/

namespace Rule

/-- The declarations up to a token of a kind where they stop, when `room` more levels may be opened. -/
def declarationsWithin (stops : TokenKind → Bool) (room : Nat) : Rule (List Slot) :=
  declarations (stops ·.kind) (expression room) (statement room)

theorem total_declarationsWithin (stops : TokenKind → Bool) (room : Nat) : Total (declarationsWithin stops room) :=
  total_many (total_unlessAt (total_declaration _ _))

end Rule

namespace Input

open Cursor

variable {input : Input} {stops : TokenKind → Bool} {s s' : Cursor} {slots : List Slot}

theorem follows_declarationsWithin (depth : Nat) :
    input.Follows depth (declarations input.tokens stops) (Rule.declarationsWithin stops (Rule.maxNesting - depth)) :=
  follows_declarations (follows_expression depth) (follows_statement depth) (Rule.takes_expression _)
    (Rule.takes_statement _) stops

theorem drop_place {depth : Nat} {left : List Token} {errors : List ParseError} (h : left <:+ input.before) :
    input.before.drop (input.place depth left errors).current = left :=
  (List.suffix_iff_eq_drop.1 h).symm

/-- One declaration: the nesting is what it was, and the rule for declarations is as far as the cursor. -/
theorem declaration_step {token : Token} {slot : Slot} (hs : s.current ≤ input.before.length)
    (htoken : input.tokens[s.current]? = some token) (hkind : token.kind ≠ .eof) (hgoes : stops token.kind = false)
    (h : declaration input.tokens s = some (.ok slot, s')) :
    s'.depth = s.depth ∧ s'.current ≤ input.before.length ∧ ∃ findings,
      s'.errors = s.errors ++ findings.map (Finding.error input.last)
      ∧ Rule.declarationsWithin stops (Rule.maxNesting - s.depth) (input.before.drop s.current)
        = (Rule.declarationsWithin stops (Rule.maxNesting - s.depth) (input.before.drop s'.current)).behind
          [slot] findings := by
  have hfollows := follows_declaration (@follows_expression input s.depth) (follows_statement s.depth)
  obtain ⟨slot', findings, left, hreply⟩ := Rule.total_declaration (Rule.expression (Rule.maxNesting - s.depth))
    (Rule.statement (Rule.maxNesting - s.depth)) (input.before.drop s.current)
  obtain ⟨hruns, hsuffix⟩ := hfollows.moves hs hreply
  obtain ⟨hslot, rfl⟩ := Prod.mk.inj (Option.some.inj (hruns.symm.trans h))
  obtain rfl := Except.ok.inj hslot
  refine ⟨rfl, Nat.sub_le _ _, findings, rfl, ?_⟩
  -- The cursor is not at the end, so there is a token to start with, and it is the one that the parser looks at.
  have hget := input.get?_eq (List.drop_suffix s.current input.before)
  rw [List.length_drop, Nat.sub_sub_self hs, htoken] at hget
  rw [drop_place (hsuffix.trans (List.drop_suffix _ _))]
  cases hrest : input.before.drop s.current with
  | nil =>
    rw [hrest] at hget
    exact absurd (Option.some.inj hget ▸ input.ended) hkind
  | cons first rest =>
    obtain rfl : token = first := by simpa [hrest] using hget
    obtain ⟨-, hlt⟩ := Rule.length_declaration_lt (Rule.takes_expression (Rule.maxNesting - s.depth))
      (Rule.takes_statement (Rule.maxNesting - s.depth)) (List.cons_ne_nil token rest)
    rw [hrest] at hreply
    rw [hreply] at hlt
    exact Rule.declarations_cons hgoes hreply hlt

/-- Any number of declarations. -/
theorem declares_run (h : Declares input.tokens stops s slots s') (hs : s.current ≤ input.before.length) :
    s'.depth = s.depth ∧ s'.current ≤ input.before.length ∧ ∃ findings,
      s'.errors = s.errors ++ findings.map (Finding.error input.last)
      ∧ Rule.declarationsWithin stops (Rule.maxNesting - s.depth) (input.before.drop s.current)
        = (Rule.declarationsWithin stops (Rule.maxNesting - s.depth) (input.before.drop s'.current)).behind
          slots findings := by
  induction h with
  | none => exact ⟨rfl, hs, [], by simp, by simp⟩
  | next htoken hkind hgoes hdeclaration _ ih =>
    obtain ⟨hdepth, hmid, findings, herrors, hrule⟩ := declaration_step hs htoken hkind hgoes hdeclaration
    obtain ⟨hdepth', hs', more, herrors', hrule'⟩ := ih hmid
    rw [hdepth] at hdepth' hrule'
    refine ⟨hdepth', hs', findings ++ more, ?_, ?_⟩
    · rw [herrors', herrors, List.map_append, List.append_assoc]
    · rw [hrule, hrule', Reply.behind_behind]
      rfl

/-- A declaration that the rule reads is one that the parser reads. -/
theorem declares_declaration {left : List Token} {slot : Slot} {findings : List Finding}
    (hs : s.current < input.before.length) (hgoes : ∀ t ∈ (input.before.drop s.current).head?, stops t.kind = false)
    (hreply : Rule.declaration (Rule.expression (Rule.maxNesting - s.depth))
      (Rule.statement (Rule.maxNesting - s.depth)) (input.before.drop s.current) = ⟨.ok slot, findings, left⟩) :
    Declares input.tokens stops s [slot]
      (input.place s.depth left (s.errors ++ findings.map (Finding.error input.last))) := by
  have hfollows := follows_declaration (@follows_expression input s.depth) (follows_statement s.depth)
  obtain ⟨hruns, -⟩ := hfollows.moves hs.le hreply
  have hget := input.get?_eq (List.drop_suffix s.current input.before)
  rw [List.length_drop, Nat.sub_sub_self hs.le] at hget
  rw [List.drop_eq_getElem_cons hs] at hget hgoes
  exact .next hget (input.unended _ (List.getElem_mem hs)) (hgoes _ rfl) hruns .none

end Input

/-! ### A new parser -/

section Tokens

variable {tokens : List Token} {j : Nat}

theorem kind_ne_eof_of_mem_take (hj : j ≤ (beforeEnd tokens).length) : ∀ t ∈ tokens.take j, t.kind ≠ .eof := by
  rw [beforeEnd] at hj
  intro t ht
  rw [← List.takeWhile_append_dropWhile (p := (·.kind != .eof)) (l := tokens), List.take_append_of_le_length hj] at ht
  exact kind_ne_eof_of_mem_beforeEnd (List.mem_of_mem_take ht)

theorem beforeEnd_eq_take_append (hj : j ≤ (beforeEnd tokens).length) :
    beforeEnd tokens = tokens.take j ++ beforeEnd (tokens.drop j) := by
  rw [← beforeEnd_append (kind_ne_eof_of_mem_take hj), List.take_append_drop]

theorem beforeEnd_drop (hj : j ≤ (beforeEnd tokens).length) :
    beforeEnd (tokens.drop j) = (beforeEnd tokens).drop j := by
  have hle : (beforeEnd tokens).length ≤ tokens.length := (List.takeWhile_sublist _).length_le
  rw [beforeEnd_eq_take_append hj, List.drop_left' (List.length_take_of_le (hj.trans hle))]

variable {stops : TokenKind → Bool} {s s' : Cursor} {slots : List Slot}

theorem parse_afresh (h : Cursor.Declares (Cursor.closed tokens).toArray (fun _ => false) ⟨0, 0, []⟩ slots s) :
    s.depth = 0 ∧ parse tokens = ⟨slots ++ (parse (tokens.drop s.current)).slots,
      s.errors ++ (parse (tokens.drop s.current)).errors⟩ := by
  obtain ⟨hdepth, hs, findings, herrors, hrule⟩ := @Input.declares_run (inputOf tokens) _ _ _ _ h (Nat.zero_le _)
  refine ⟨hdepth, ?_⟩
  have hparse := @parse_append_of_program _ (tokens.drop s.current) slots findings (kind_ne_eof_of_mem_take hs)
  rw [← beforeEnd_eq_take_append hs, List.take_append_drop, beforeEnd_drop hs] at hparse
  rw [hparse hrule, herrors]
  rfl

/-- A new parser on the tokens from the cursor on does what the parser goes on to do. -/
theorem declarations_afresh {more : List Slot} {findings : List Finding} {rest : List Token}
    (hs : s.current ≤ (beforeEnd tokens).length)
    (hreply : Rule.declarationsWithin stops (Rule.maxNesting - s.depth) (beforeEnd (tokens.drop s.current))
      = ⟨.ok more, findings, rest⟩) :
    Cursor.declarations (Cursor.closed (tokens.drop s.current)).toArray stops ⟨0, s.depth, []⟩
      = some (.ok more, ⟨(beforeEnd (tokens.drop s.current)).length - rest.length, s.depth,
        findings.map (Finding.error (endToken tokens))⟩) := by
  have herrors : findings.map (Finding.error (endToken tokens))
      = findings.map (Finding.error (endToken (tokens.drop s.current))) := by
    have hmap := @map_error_append _ (tokens.drop s.current) findings (kind_ne_eof_of_mem_take hs)
    rw [List.take_append_drop] at hmap
    apply hmap
    intro hnil
    rw [hnil] at hreply
    exact (Reply.mk.inj (Rule.declarations_nil.symm.trans hreply)).2.1.symm
  have hfollows := @Input.follows_declarationsWithin (inputOf (tokens.drop s.current)) stops s.depth
  obtain ⟨hruns, -⟩ := Input.Follows.moves (s := ⟨0, s.depth, []⟩) hfollows (Nat.zero_le _) hreply
  rw [herrors]
  exact hruns

end Tokens

/-- After every declaration at the top level the nesting is zero again, and the rest of the slots and errors are those
of the tokens from the cursor on, parsed alone. After every declaration of a block, at whatever nesting, the nesting
is that of the block again, and the slots and errors of the declarations that follow in the block are those of a new
parser with this nesting on the tokens from the cursor on. -/
theorem restarts_afresh (tokens : List Token) :
    (∀ slots s, Cursor.Declares (Cursor.closed tokens).toArray (fun _ => false) ⟨0, 0, []⟩ slots s →
      s.depth = 0
      ∧ parse tokens = ⟨slots ++ (parse (tokens.drop s.current)).slots,
        s.errors ++ (parse (tokens.drop s.current)).errors⟩)
    ∧ ∀ s slots s', s.current ≤ (beforeEnd tokens).length →
      Cursor.Declares (Cursor.closed tokens).toArray (· == .rightBrace) s slots s' →
      s'.depth = s.depth
      ∧ ∃ more findings rest, Rule.declarationsWithin (· == .rightBrace) (Rule.maxNesting - s.depth)
          (beforeEnd (tokens.drop s'.current)) = ⟨.ok more, findings, rest⟩
      ∧ ∃ j errors, errors = findings.map (Finding.error (endToken tokens))
      ∧ Cursor.declarations (Cursor.closed (tokens.drop s'.current)).toArray (· == .rightBrace) ⟨0, s.depth, []⟩
        = some (.ok more, ⟨j, s.depth, errors⟩)
      ∧ Cursor.declarations (Cursor.closed tokens).toArray (· == .rightBrace) s'
        = some (.ok more, ⟨s'.current + j, s.depth, s'.errors ++ errors⟩)
      ∧ Cursor.declarations (Cursor.closed tokens).toArray (· == .rightBrace) s
        = some (.ok (slots ++ more), ⟨s'.current + j, s.depth, s'.errors ++ errors⟩) := by
  refine ⟨fun slots s => parse_afresh, ?_⟩
  intro s slots s' hs h
  obtain ⟨hdepth, hs', findings, herrors, hrule⟩ := @Input.declares_run (inputOf tokens) _ _ _ _ h hs
  obtain ⟨more, findings', rest, hreply⟩ := Rule.total_declarationsWithin (· == .rightBrace)
    (Rule.maxNesting - s.depth) ((beforeEnd tokens).drop s'.current)
  have hbehind := hrule.trans (congrArg (Reply.behind slots findings) hreply)
  have hfollows := @Input.follows_declarationsWithin (inputOf tokens) (· == .rightBrace)
  obtain ⟨hwhole, -⟩ := (hfollows s.depth).moves hs hbehind
  rw [← hdepth] at hreply
  obtain ⟨hruns, hsuffix⟩ := (hfollows s'.depth).moves hs' hreply
  rw [← beforeEnd_drop hs'] at hreply
  have hfresh := declarations_afresh hs' hreply
  -- Both parsers stop before the same token, counted from different ends.
  have hend : (beforeEnd tokens).length - rest.length
      = s'.current + ((beforeEnd (tokens.drop s'.current)).length - rest.length) := by
    have hlength : (beforeEnd (tokens.drop s'.current)).length = (beforeEnd tokens).length - s'.current := by
      rw [beforeEnd_drop hs', List.length_drop]
    have hle : rest.length ≤ (beforeEnd tokens).length - s'.current := List.length_drop ▸ hsuffix.length_le
    have hs' : s'.current ≤ (beforeEnd tokens).length := hs'
    omega
  have hplace (errors : List ParseError) : (inputOf tokens).place s.depth rest errors
      = ⟨s'.current + ((beforeEnd (tokens.drop s'.current)).length - rest.length), s.depth, errors⟩ :=
    congrArg (Cursor.mk · s.depth errors) hend
  rw [hdepth] at hreply hfresh hruns
  rw [hplace] at hruns hwhole
  rw [List.map_append, ← List.append_assoc, ← herrors] at hwhole
  exact ⟨hdepth, more, findings', rest, hreply, _, _, rfl, hfresh, hruns, hwhole⟩

/-- In `print ((1; { print ((1; print 2; }` the first declaration fails when four levels are open, and the first
one in the block when there is one more. -/
theorem restarts_afresh_unwound :
    let tokens := (scan "print ((1; \x7b print ((1; print 2; \x7d").tokens
    (∃ s, Cursor.Declares (Cursor.closed tokens).toArray (fun _ => false) ⟨0, 0, []⟩ [none] s
      ∧ s.current = 5 ∧ s.depth = 0 ∧ parse tokens = ⟨[none] ++ (parse (tokens.drop s.current)).slots,
        s.errors ++ (parse (tokens.drop s.current)).errors⟩)
    ∧ ∃ s', Cursor.Declares (Cursor.closed tokens).toArray (· == .rightBrace) ⟨6, 1, []⟩ [none] s'
      ∧ s'.current = 11 ∧ s'.depth = 1
      ∧ ∃ more s'', Cursor.declarations (Cursor.closed tokens).toArray (· == .rightBrace) s' = some (.ok more, s'')
        ∧ s''.depth = 1 := by
  intro tokens
  obtain ⟨htop, hblock⟩ := restarts_afresh tokens
  have hfirst : Rule.topDeclaration.Fails (beforeEnd tokens) (.missing .rightParen .expression) []
      ((beforeEnd tokens).drop 4) := by
    decide +kernel
  have hinner : Rule.Fails (Rule.choose (fun token => if token.kind = .kwVar then
        some (Rule.variableDeclaration (Rule.expression 127)) else none) (Rule.statement 127))
      ((beforeEnd tokens).drop 6) (.missing .rightParen .expression) [] ((beforeEnd tokens).drop 10) := by
    decide +kernel
  have hdeclares := @Input.declares_declaration (inputOf tokens) (fun _ => false) ⟨0, 0, []⟩ _ _ _ (by decide +kernel)
    (by simp) (Rule.recovering_of_fails hfirst)
  have hdeclares' := @Input.declares_declaration (inputOf tokens) (· == .rightBrace) ⟨6, 1, []⟩ _ _ _
    (by decide +kernel) (by decide +kernel) (Rule.recovering_of_fails hinner)
  obtain ⟨hdepth, more, _, _, _, _, _, _, _, hruns, _⟩ := hblock _ _ _ (by decide +kernel) hdeclares'
  refine ⟨⟨_, hdeclares, by decide +kernel, htop _ _ hdeclares⟩, _, hdeclares', by decide +kernel, hdepth, ?_⟩
  exact ⟨more, _, hruns, rfl⟩

end Lox
