import Lox.Proofs.Reading
/-!
# Clean readings of the grammar

For each rule of the grammar, what it reads cleanly in terms of what the rules for its parts read.
These are the facts that the two directions of the comparison with the written forms share, and the
only place where the rules are unfolded.
-/

namespace Lox

theorem UnaryOp.ofKind?_eq_some {kind : TokenKind} {op : UnaryOp} :
    ofKind? kind = some op ↔ op.kind = kind := by
  constructor
  · intro h
    simpa using List.find?_some h
  · intro h
    subst h
    cases op <;> rfl

theorem InfixOp.ofKind?_eq_some {level : Level} {kind : TokenKind} {op : InfixOp} :
    ofKind? level kind = some op ↔ op.level = level ∧ op.kind = kind := by
  constructor
  · intro h
    simpa using List.find?_some h
  · intro h
    obtain ⟨rfl, rfl⟩ := h
    cases op with
    | binary op => cases op <;> rfl
    | logical op => cases op <;> rfl

/-- The value that a token stands for as an expression of its own. -/
def Token.constant? (t : Token) : Option Value :=
  match t.kind with
  | .kwFalse => some (.bool false)
  | .kwTrue => some (.bool true)
  | .kwNil => some .nil
  | .number | .string => t.literal.map Literal.value
  | _ => none

namespace Rule

variable {tokens rest : List Token}

/-! ### Expressions -/

theorem reads_operation {level : Level} {operand : Rule Expr} {answer : Option (InfixOp × Nat × Expr)} :
    Reads (operation level operand) tokens answer rest
      ↔ (answer = none ∧ rest = tokens
          ∧ ∀ kind, nextKind tokens = some kind → InfixOp.ofKind? level kind = none)
        ∨ ∃ sign op mid right, tokens = sign :: mid ∧ InfixOp.ofKind? level sign.kind = some op
          ∧ operand.Reads mid right rest ∧ answer = some (op, sign.line, right) := by
  rw [operation, reads_choose, or_comm]
  simp only [Option.map_eq_none_iff, Option.map_eq_some_iff, reads_pure, forall_nextKind]
  refine or_congr ?_ ?_
  · rw [and_comm, and_assoc]
  · constructor
    · intro h
      obtain ⟨sign, mid, _, rfl, ⟨op, hop, rfl⟩, h⟩ := h
      rw [reads_bind] at h
      obtain ⟨right, _, hright, h⟩ := h
      obtain ⟨rfl, rfl⟩ := reads_pure.1 h
      exact ⟨sign, op, mid, right, rfl, hop, hright, rfl⟩
    · intro h
      obtain ⟨sign, op, mid, right, rfl, hop, hright, rfl⟩ := h
      exact ⟨sign, mid, _, rfl, ⟨op, hop, rfl⟩, reads_bind.2 ⟨right, rest, hright, reads_pure.2 ⟨rfl, rfl⟩⟩⟩

theorem reads_chain {level : Level} {operand : Rule Expr} {e : Expr} :
    Reads (chain level operand) tokens e rest
      ↔ ∃ first mid answers, operand.Reads tokens first mid
        ∧ (many (operation level operand)).Reads mid answers rest
        ∧ e = answers.foldl (fun left (op, line, right) => op.join line left right) first := by
  rw [chain, reads_bind]
  simp only [reads_bind, reads_pure]
  constructor
  · intro h
    obtain ⟨first, mid, hfirst, answers, after, hanswers, rfl, rfl⟩ := h
    exact ⟨first, mid, answers, hfirst, hanswers, rfl⟩
  · intro h
    obtain ⟨first, mid, answers, hfirst, hanswers, rfl⟩ := h
    exact ⟨first, mid, hfirst, answers, rest, hanswers, rfl, rfl⟩

/-- Only a variable is assigned to without a fault. -/
theorem reads_assignment {operand value : Rule Expr} {e : Expr} :
    Reads (assignment operand value) tokens e rest
      ↔ ((cascade operand).Reads tokens e rest ∧ nextKind rest ≠ some .equal)
        ∨ ∃ name equals mid assigned, (cascade operand).Reads tokens (.var name) (equals :: mid)
          ∧ equals.kind = .equal ∧ value.Reads mid assigned rest ∧ e = .assign name assigned := by
  rw [assignment, reads_bind]
  constructor
  · intro h
    obtain ⟨target, mid, htarget, h⟩ := h
    rw [reads_bind] at h
    obtain ⟨sign, after, hsign, h⟩ := h
    obtain ⟨rfl, rfl, hnext⟩ | ⟨equals, rfl, hequals, rfl⟩ := reads_accept?.1 hsign
    · obtain ⟨rfl, rfl⟩ := reads_pure.1 h
      exact .inl ⟨htarget, hnext⟩
    rw [reads_bind] at h
    obtain ⟨assigned, left, hassigned, h⟩ := h
    split at h
    next name =>
      obtain ⟨rfl, rfl⟩ := reads_pure.1 h
      exact .inr ⟨name, equals, after, assigned, htarget, hequals, hassigned, rfl⟩
    next =>
      rw [reads_bind] at h
      obtain ⟨_, _, hnote, -⟩ := h
      exact absurd hnote not_reads_note
  · intro h
    obtain ⟨htarget, hnext⟩ | ⟨name, equals, mid, assigned, htarget, hequals, hassigned, rfl⟩ := h
    · refine ⟨e, rest, htarget, reads_bind.2 ⟨none, rest, ?_, reads_pure.2 ⟨rfl, rfl⟩⟩⟩
      exact reads_accept?.2 (.inl ⟨rfl, rfl, hnext⟩)
    · refine ⟨.var name, equals :: mid, htarget, reads_bind.2 ⟨some equals, mid, ?_, ?_⟩⟩
      · exact reads_accept?.2 (.inr ⟨equals, rfl, hequals, rfl⟩)
      · exact reads_bind.2 ⟨assigned, rest, hassigned, reads_pure.2 ⟨rfl, rfl⟩⟩

theorem reads_primary {inner : Rule Expr} {e : Expr} :
    Reads (primary inner) tokens e rest
      ↔ (∃ token v, tokens = token :: rest ∧ token.constant? = some v ∧ e = .literal v token.line)
        ∨ (∃ token, tokens = token :: rest ∧ token.kind = .identifier ∧ e = .var token)
        ∨ ∃ left mid inside right, tokens = left :: mid ∧ left.kind = .leftParen
          ∧ inner.Reads mid inside (right :: rest) ∧ right.kind = .rightParen
          ∧ e = .group inside left.line := by
  rw [primary, reads_choose]
  simp only [not_reads_fail, and_false, or_false]
  constructor
  · intro h
    obtain ⟨token, mid, rule, rfl, hrule, h⟩ := h
    split at hrule
    case h_1 hkind | h_2 hkind | h_3 hkind =>
      obtain rfl := Option.some.inj hrule
      obtain ⟨rfl, rfl⟩ := reads_pure.1 h
      exact .inl ⟨token, _, rfl, by rw [Token.constant?, hkind], rfl⟩
    case h_4 hkind | h_5 hkind =>
      obtain ⟨literal, hliteral, rfl⟩ := Option.map_eq_some_iff.1 hrule
      obtain ⟨rfl, rfl⟩ := reads_pure.1 h
      exact .inl ⟨token, _, rfl, by rw [Token.constant?, hkind, hliteral]; rfl, rfl⟩
    case h_6 hkind =>
      obtain rfl := Option.some.inj hrule
      obtain ⟨rfl, rfl⟩ := reads_pure.1 h
      exact .inr (.inl ⟨token, rfl, hkind, rfl⟩)
    case h_7 hkind =>
      obtain rfl := Option.some.inj hrule
      simp only [reads_bind, reads_close, reads_pure] at h
      obtain ⟨inside, _, hinside, _, _, ⟨right, hright, rfl⟩, rfl, rfl⟩ := h
      exact .inr (.inr ⟨token, mid, inside, right, rfl, hkind, hinside, hright, rfl⟩)
    case h_8 => simp at hrule
  · intro h
    obtain ⟨token, v, rfl, hv, rfl⟩ | ⟨token, rfl, hkind, rfl⟩
      | ⟨left, mid, inside, right, rfl, hkind, hinside, hright, rfl⟩ := h
    · refine ⟨token, rest, pure (.literal v token.line), rfl, ?_, reads_pure.2 ⟨rfl, rfl⟩⟩
      rw [Token.constant?] at hv
      split at hv
      case h_1 hkind | h_2 hkind | h_3 hkind =>
        obtain rfl := Option.some.inj hv
        rw [hkind]
      case h_4 hkind | h_5 hkind =>
        obtain ⟨literal, hliteral, rfl⟩ := Option.map_eq_some_iff.1 hv
        rw [hkind, hliteral]
        rfl
      case h_6 => simp at hv
    · exact ⟨token, rest, pure (.var token), rfl, by rw [hkind], reads_pure.2 ⟨rfl, rfl⟩⟩
    · refine ⟨left, mid, _, rfl, by rw [hkind], ?_⟩
      simp only [reads_bind, reads_close, reads_pure]
      exact ⟨inside, _, hinside, (), rest, ⟨right, hright, rfl⟩, rfl, rfl⟩

theorem reads_operandOver {deeper inner : Rule Expr} {e : Expr} :
    Reads (operandOver deeper inner) tokens e rest
      ↔ (∃ sign op mid right, tokens = sign :: mid ∧ UnaryOp.ofKind? sign.kind = some op
          ∧ deeper.Reads mid right rest ∧ e = .unary op right sign.line)
        ∨ ((∀ kind, nextKind tokens = some kind → UnaryOp.ofKind? kind = none)
          ∧ (primary inner).Reads tokens e rest) := by
  rw [operandOver, reads_choose]
  simp only [Option.map_eq_none_iff, Option.map_eq_some_iff, forall_nextKind]
  refine or_congr ?_ Iff.rfl
  constructor
  · intro h
    obtain ⟨sign, mid, _, rfl, ⟨op, hop, rfl⟩, h⟩ := h
    rw [reads_bind] at h
    obtain ⟨right, _, hright, h⟩ := h
    obtain ⟨rfl, rfl⟩ := reads_pure.1 h
    exact ⟨sign, op, mid, right, rfl, hop, hright, rfl⟩
  · intro h
    obtain ⟨sign, op, mid, right, rfl, hop, hright, rfl⟩ := h
    exact ⟨sign, mid, _, rfl, ⟨op, hop, rfl⟩, reads_bind.2 ⟨right, rest, hright, reads_pure.2 ⟨rfl, rfl⟩⟩⟩

/-! ### Statements -/

theorem reads_variableDeclaration {expression : Rule Expr} {s : Stmt} :
    Reads (variableDeclaration expression) tokens s rest
      ↔ ∃ name, name.kind = .identifier
        ∧ ((∃ semicolon, semicolon.kind = .semicolon ∧ tokens = name :: semicolon :: rest
            ∧ s = .declare name none)
          ∨ ∃ equals mid e semicolon, equals.kind = .equal ∧ tokens = name :: equals :: mid
            ∧ expression.Reads mid e (semicolon :: rest) ∧ semicolon.kind = .semicolon
            ∧ s = .declare name (some e)) := by
  simp only [variableDeclaration, reads_bind, reads_expect, reads_optionalAfter, reads_close, reads_pure]
  constructor
  · intro h
    obtain ⟨name, _, ⟨hname, rfl⟩, init, _, hinit, _, _, ⟨semicolon, hsemicolon, rfl⟩, rfl, rfl⟩ := h
    refine ⟨name, hname, ?_⟩
    obtain ⟨rfl, rfl, -⟩ | ⟨equals, mid, e, hequals, rfl, he, rfl⟩ := hinit
    · exact .inl ⟨semicolon, hsemicolon, rfl, rfl⟩
    · exact .inr ⟨equals, mid, e, semicolon, hequals, rfl, he, hsemicolon, rfl⟩
  · intro h
    obtain ⟨name, hname, ⟨semicolon, hsemicolon, rfl, rfl⟩ | ⟨equals, mid, e, semicolon, hequals, rfl, he,
      hsemicolon, rfl⟩⟩ := h
    · refine ⟨name, _, ⟨hname, rfl⟩, none, _, .inl ⟨rfl, rfl, ?_⟩, (), rest, ⟨semicolon, hsemicolon, rfl⟩,
        rfl, rfl⟩
      simp [hsemicolon]
    · exact ⟨name, _, ⟨hname, rfl⟩, some e, _, .inr ⟨equals, mid, e, hequals, rfl, he, rfl⟩, (), rest,
        ⟨semicolon, hsemicolon, rfl⟩, rfl, rfl⟩

/-- What is made of an item alone is read up to the symbol that closes it. -/
theorem reads_closed {α β : Type} {item : Rule α} {symbol : TokenKind} {after : Clause} {make : α → β} {answer : β} :
    Reads (item >>= fun a => close symbol after >>= fun _ => pure (make a)) tokens answer rest
      ↔ ∃ a last, item.Reads tokens a (last :: rest) ∧ last.kind = symbol ∧ answer = make a := by
  simp only [reads_bind, reads_close, reads_pure]
  constructor
  · intro h
    obtain ⟨a, _, ha, _, _, ⟨last, hlast, rfl⟩, rfl, rfl⟩ := h
    exact ⟨a, last, ha, hlast, rfl⟩
  · intro h
    obtain ⟨a, last, ha, hlast, rfl⟩ := h
    exact ⟨a, _, ha, (), rest, ⟨last, hlast, rfl⟩, rfl, rfl⟩

theorem reads_expressionStatement {expression : Rule Expr} {s : Stmt} :
    Reads (expressionStatement expression) tokens s rest
      ↔ ∃ e semicolon, expression.Reads tokens e (semicolon :: rest) ∧ semicolon.kind = .semicolon
        ∧ s = .expression e :=
  reads_closed

theorem reads_printStatement {expression : Rule Expr} {s : Stmt} :
    Reads (printStatement expression) tokens s rest
      ↔ ∃ e semicolon, expression.Reads tokens e (semicolon :: rest) ∧ semicolon.kind = .semicolon
        ∧ s = .print e :=
  reads_closed

/-- An `else` that comes next is always read. -/
theorem reads_ifStatement {expression : Rule Expr} {statement : Rule Stmt} {s : Stmt} :
    Reads (ifStatement expression statement) tokens s rest
      ↔ ∃ left inside condition right body yes after, tokens = left :: inside
        ∧ left.kind = .leftParen ∧ expression.Reads inside condition (right :: body)
        ∧ right.kind = .rightParen ∧ statement.Reads body yes after
        ∧ ((nextKind after ≠ some .kwElse ∧ rest = after ∧ s = .branch condition yes none)
          ∨ ∃ other mid no, after = other :: mid ∧ other.kind = .kwElse ∧ statement.Reads mid no rest
            ∧ s = .branch condition yes (some no)) := by
  simp only [ifStatement, reads_bind, reads_close, reads_optionalAfter, reads_pure]
  constructor
  · intro h
    obtain ⟨_, inside, ⟨left, hleft, rfl⟩, condition, _, hcondition, _, body, ⟨right, hright, rfl⟩, yes,
      after, hyes, no, _, hno, rfl, rfl⟩ := h
    refine ⟨left, inside, condition, right, body, yes, after, rfl, hleft, hcondition, hright, hyes, ?_⟩
    obtain ⟨rfl, rfl, hnext⟩ | ⟨other, mid, no, hother, rfl, hno, rfl⟩ := hno
    · exact .inl ⟨hnext, rfl, rfl⟩
    · exact .inr ⟨other, mid, no, rfl, hother, hno, rfl⟩
  · intro h
    obtain ⟨left, inside, condition, right, body, yes, after, rfl, hleft, hcondition, hright, hyes, h⟩ := h
    refine ⟨(), inside, ⟨left, hleft, rfl⟩, condition, _, hcondition, (), body, ⟨right, hright, rfl⟩, yes,
      after, hyes, ?_⟩
    obtain ⟨hnext, rfl, rfl⟩ | ⟨other, mid, no, rfl, hother, hno, rfl⟩ := h
    · exact ⟨none, _, .inl ⟨rfl, rfl, hnext⟩, rfl, rfl⟩
    · exact ⟨some no, _, .inr ⟨other, mid, no, hother, rfl, hno, rfl⟩, rfl, rfl⟩

theorem reads_whileStatement {expression : Rule Expr} {statement : Rule Stmt} {s : Stmt} :
    Reads (whileStatement expression statement) tokens s rest
      ↔ ∃ left inside condition right mid body, tokens = left :: inside
        ∧ left.kind = .leftParen ∧ expression.Reads inside condition (right :: mid)
        ∧ right.kind = .rightParen ∧ statement.Reads mid body rest ∧ s = .loop condition body := by
  simp only [whileStatement, reads_bind, reads_close, reads_pure]
  constructor
  · intro h
    obtain ⟨_, inside, ⟨left, hleft, rfl⟩, condition, _, hcondition, _, mid, ⟨right, hright, rfl⟩, body, _,
      hbody, rfl, rfl⟩ := h
    exact ⟨left, inside, condition, right, mid, body, rfl, hleft, hcondition, hright, hbody, rfl⟩
  · intro h
    obtain ⟨left, inside, condition, right, mid, body, rfl, hleft, hcondition, hright, hbody, rfl⟩ := h
    exact ⟨(), inside, ⟨left, hleft, rfl⟩, condition, _, hcondition, (), mid, ⟨right, hright, rfl⟩, body, _,
      hbody, rfl, rfl⟩

theorem reads_forInitializer {expression : Rule Expr} {init : Option Stmt} :
    Reads (forInitializer expression) tokens init rest
      ↔ (∃ semicolon, semicolon.kind = .semicolon ∧ tokens = semicolon :: rest ∧ init = none)
        ∨ (∃ keyword mid s, keyword.kind = .kwVar ∧ tokens = keyword :: mid
          ∧ (variableDeclaration expression).Reads mid s rest ∧ init = some s)
        ∨ (nextKind tokens ≠ some .semicolon ∧ nextKind tokens ≠ some .kwVar
          ∧ ∃ s, (expressionStatement expression).Reads tokens s rest ∧ init = some s) := by
  rw [forInitializer, reads_choose, reads_map, ← and_assoc, ← or_assoc]
  refine or_congr ?_ (and_congr ?_ Iff.rfl)
  · constructor
    · intro h
      obtain ⟨token, mid, rule, rfl, hrule, h⟩ := h
      split at hrule
      case h_1 hkind =>
        obtain rfl := Option.some.inj hrule
        obtain ⟨rfl, rfl⟩ := reads_pure.1 h
        exact .inl ⟨token, hkind, rfl, rfl⟩
      case h_2 hkind =>
        obtain rfl := Option.some.inj hrule
        obtain ⟨s, hs, rfl⟩ := reads_map.1 h
        exact .inr ⟨token, mid, s, hkind, rfl, hs, rfl⟩
      case h_3 => simp at hrule
    · intro h
      obtain ⟨semicolon, hkind, rfl, rfl⟩ | ⟨keyword, mid, s, hkind, rfl, hs, rfl⟩ := h
      · exact ⟨semicolon, rest, _, rfl, by rw [hkind], reads_pure.2 ⟨rfl, rfl⟩⟩
      · exact ⟨keyword, mid, _, rfl, by rw [hkind], reads_map.2 ⟨s, hs, rfl⟩⟩
  · cases tokens with
    | nil => simp
    | cons token tokens => cases hkind : token.kind <;> simp [hkind]

theorem reads_forStatement {line : Nat} {expression : Rule Expr} {statement : Rule Stmt} {s : Stmt} :
    Reads (forStatement line expression statement) tokens s rest
      ↔ ∃ left clauses init mid condition semicolon tail increment right after body,
        tokens = left :: clauses ∧ left.kind = .leftParen
        ∧ (forInitializer expression).Reads clauses init mid
        ∧ (optionalUntil .semicolon expression).Reads mid condition (semicolon :: tail)
        ∧ semicolon.kind = .semicolon
        ∧ (optionalUntil .rightParen expression).Reads tail increment (right :: after)
        ∧ right.kind = .rightParen ∧ statement.Reads after body rest
        ∧ s = forLoop line init condition increment body := by
  simp only [forStatement, reads_bind, reads_close, reads_pure]
  constructor
  · intro h
    obtain ⟨_, clauses, ⟨left, hleft, rfl⟩, init, mid, hinit, condition, _, hcondition, _, tail,
      ⟨semicolon, hsemicolon, rfl⟩, increment, _, hincrement, _, after, ⟨right, hright, rfl⟩, body, _,
      hbody, rfl, rfl⟩ := h
    exact ⟨left, clauses, init, mid, condition, semicolon, tail, increment, right, after, body, rfl,
      hleft, hinit, hcondition, hsemicolon, hincrement, hright, hbody, rfl⟩
  · intro h
    obtain ⟨left, clauses, init, mid, condition, semicolon, tail, increment, right, after, body, rfl,
      hleft, hinit, hcondition, hsemicolon, hincrement, hright, hbody, rfl⟩ := h
    exact ⟨(), clauses, ⟨left, hleft, rfl⟩, init, mid, hinit, condition, _, hcondition, (), tail,
      ⟨semicolon, hsemicolon, rfl⟩, increment, _, hincrement, (), after, ⟨right, hright, rfl⟩, body, _,
      hbody, rfl, rfl⟩

theorem reads_blockStatement {expression : Rule Expr} {statement : Rule Stmt} {s : Stmt} :
    Reads (blockStatement expression statement) tokens s rest
      ↔ ∃ slots right, (declarations (·.kind == .rightBrace) expression statement).Reads tokens slots
          (right :: rest)
        ∧ right.kind = .rightBrace ∧ s = .block slots :=
  reads_closed

/-- The rule that the first token of a statement chooses for what comes after it. -/
def afterKeyword (expression : Rule Expr) (statement : Rule Stmt) (token : Token) :
    Option (Rule Stmt) :=
  match token.kind with
  | .kwFor => some (forStatement token.line expression statement)
  | .kwIf => some (ifStatement expression statement)
  | .kwPrint => some (printStatement expression)
  | .kwWhile => some (whileStatement expression statement)
  | .leftBrace => some (blockStatement expression statement)
  | _ => none

theorem reads_statementOver {expression : Rule Expr} {statement : Rule Stmt} {s : Stmt} :
    Reads (statementOver expression statement) tokens s rest
      ↔ (∃ keyword mid rule, tokens = keyword :: mid
          ∧ afterKeyword expression statement keyword = some rule ∧ rule.Reads mid s rest)
        ∨ ((∀ keyword mid, tokens = keyword :: mid → afterKeyword expression statement keyword = none)
          ∧ (expressionStatement expression).Reads tokens s rest) :=
  reads_choose

theorem reads_declaration {expression : Rule Expr} {statement : Rule Stmt} {slot : Slot} :
    Reads (declaration expression statement) tokens slot rest
      ↔ ∃ s, slot = some s
        ∧ ((∃ keyword mid, keyword.kind = .kwVar ∧ tokens = keyword :: mid
            ∧ (variableDeclaration expression).Reads mid s rest)
          ∨ (nextKind tokens ≠ some .kwVar ∧ statement.Reads tokens s rest)) := by
  rw [declaration, reads_recovering]
  simp only [reads_choose_kind]
  constructor
  · intro h
    obtain ⟨s, h, rfl⟩ := h
    exact ⟨s, rfl, h⟩
  · intro h
    obtain ⟨s, rfl, h⟩ := h
    exact ⟨s, h, rfl⟩

end Rule

end Lox
