import Lox.Proofs.Form
/-!
# Readings have the right form

Whatever a rule of the grammar reads cleanly is written in the form of the tree that it answers with.
One lemma per rule says so under the assumption that the rules for its parts are right, and an
induction on the nesting that is left closes the circle.
-/

namespace Lox

namespace Rule

variable {α : Type}

/-- The tokens that the rule reads cleanly have the given form. -/
def Sound (rule : Rule α) (form : List Token → α → Prop) : Prop :=
  ∀ ⦃tokens a rest⦄, rule.Reads tokens a rest → ∃ used, tokens = used ++ rest ∧ form used a

theorem sound_fail {fault : ParseFault} {form : List Token → α → Prop} : Sound (fail fault) form := by
  intro tokens a rest h
  exact absurd h not_reads_fail

theorem Sound.length_le {rule : Rule α} {form : List Token → α → Prop} (hrule : Sound rule form)
    {tokens rest : List Token} {a : α} (h : rule.Reads tokens a rest) : rest.length ≤ tokens.length := by
  obtain ⟨used, rfl, -⟩ := hrule h
  simp

/-! ### Infix levels -/

theorem advances_operation {level : Level} {operand : Rule Expr} {form : List Token → Expr → Prop}
    (hoperand : Sound operand form) : Advances (operation level operand) := by
  intro tokens answer rest h
  obtain ⟨hnone, -⟩ | ⟨sign, op, mid, right, rfl, -, hright, -⟩ := reads_operation.1 h
  · simp at hnone
  · have hle := hoperand.length_le hright
    rw [List.length_cons]
    omega

theorem operations_of_repeats {level : Level} {operand : Rule Expr} {form : List Token → Expr → Prop}
    (hoperand : Sound operand form) {tokens rest : List Token} {answers : List (InfixOp × Nat × Expr)}
    (h : Repeats (operation level operand) tokens answers rest) :
    ∃ operations : List Operation, tokens = operations.flatMap Operation.text ++ rest
      ∧ answers = operations.map answer
      ∧ (∀ o ∈ operations, InfixOp.ofKind? level o.sign.kind = some o.op)
      ∧ ∀ o ∈ operations, form o.tokens o.right := by
  induction h with
  | stop h =>
    obtain ⟨-, rfl, -⟩ | ⟨_, _, _, _, _, _, _, hnone⟩ := reads_operation.1 h
    · exact ⟨[], by simp⟩
    · simp at hnone
  | step h _ ih =>
    obtain ⟨hnone, -⟩ | ⟨sign, op, mid, right, rfl, hop, hright, hanswer⟩ := reads_operation.1 h
    · simp at hnone
    obtain ⟨used, rfl, hform⟩ := hoperand hright
    obtain ⟨operations, rfl, rfl, hsigns, hforms⟩ := ih
    obtain rfl := Option.some.inj hanswer
    refine ⟨⟨sign, op, used, right⟩ :: operations, ?_, rfl, ?_, ?_⟩
    · simp [Operation.text]
    · simpa [hop] using hsigns
    · simpa [hform] using hforms

theorem sound_chain {n : Nat} {level : Level} {levels : List Level} {operand : Rule Expr}
    (hoperand : Sound operand (ExprForm n (.within levels))) :
    Sound (chain level operand) (ExprForm n (.within (level :: levels))) := by
  intro tokens e rest h
  obtain ⟨first, mid, answers, hfirst, hanswers, rfl⟩ := reads_chain.1 h
  obtain ⟨used, rfl, hform⟩ := hoperand hfirst
  have hrepeats := (reads_many (advances_operation hoperand)).1 hanswers
  obtain ⟨operations, rfl, rfl, hsigns, hforms⟩ := operations_of_repeats hoperand hrepeats
  refine ⟨used ++ operations.flatMap Operation.text, by simp, ?_⟩
  rw [foldl_answers]
  exact .chain hform hsigns hforms

theorem sound_levels {n : Nat} {operand : Rule Expr} (hoperand : Sound operand (ExprForm n (.within [])))
    (levels : List Level) : Sound (levels.foldr chain operand) (ExprForm n (.within levels)) := by
  induction levels with
  | nil => exact hoperand
  | cons level levels ih => exact sound_chain ih

/-! ### Expressions -/

theorem sound_assignment {n : Nat} {operand value : Rule Expr}
    (hoperand : Sound operand (ExprForm n (.within []))) (hvalue : Sound value (ExprForm n .whole)) :
    Sound (assignment operand value) (ExprForm (n + 1) .whole) := by
  intro tokens e rest h
  have hcascade := sound_levels hoperand Level.all
  obtain ⟨htarget, -⟩ | ⟨name, equals, mid, assigned, htarget, hequals, hassigned, rfl⟩ := reads_assignment.1 h
  · obtain ⟨used, rfl, hform⟩ := hcascade htarget
    exact ⟨used, rfl, .plain hform⟩
  · obtain ⟨used, rfl, hform⟩ := hcascade htarget
    obtain ⟨rest', rfl, hform'⟩ := hvalue hassigned
    -- The target is a variable, so it was written as its name alone.
    obtain ⟨rfl, hname⟩ := hform.var_inv
    exact ⟨name :: equals :: rest', rfl, .assign hname hequals hform'⟩

theorem sound_primary {n : Nat} {inner : Rule Expr} (hinner : Sound inner (ExprForm n .whole)) :
    Sound (primary inner) (ExprForm n (.within [])) := by
  intro tokens e rest h
  obtain ⟨token, v, rfl, hv, rfl⟩ | ⟨token, rfl, hkind, rfl⟩
    | ⟨left, mid, inside, right, rfl, hleft, hinside, hright, rfl⟩ := reads_primary.1 h
  · exact ⟨[token], rfl, .literal hv⟩
  · exact ⟨[token], rfl, .var hkind⟩
  · obtain ⟨used, rfl, hform⟩ := hinner hinside
    exact ⟨left :: used ++ [right], by simp, .group hleft hright hform⟩

/-- An operand of a unary operator: one level of nesting is taken up. -/
def OneDeeper (n : Nat) (ts : List Token) (e : Expr) : Prop :=
  ∃ m, n = m + 1 ∧ ExprForm m (.within []) ts e

theorem sound_operandOver {n : Nat} {deeper inner : Rule Expr} (hdeeper : Sound deeper (OneDeeper n))
    (hinner : Sound inner (ExprForm n .whole)) :
    Sound (operandOver deeper inner) (ExprForm n (.within [])) := by
  intro tokens e rest h
  obtain ⟨sign, op, mid, right, rfl, hop, hright, rfl⟩ | ⟨-, hprimary⟩ := reads_operandOver.1 h
  · obtain ⟨used, rfl, m, rfl, hform⟩ := hdeeper hright
    exact ⟨sign :: used, rfl, .unary hop hform⟩
  · exact sound_primary hinner hprimary

theorem sound_expression_operand (n : Nat) :
    Sound (expression n) (ExprForm n .whole) ∧ Sound (operand n) (ExprForm n (.within [])) := by
  induction n with
  | zero =>
    rw [expression, operand]
    exact ⟨sound_fail, sound_operandOver sound_fail sound_fail⟩
  | succ n ih =>
    obtain ⟨hexpression, hoperand⟩ := ih
    have hassignment := sound_assignment hoperand hexpression
    rw [expression, operand]
    refine ⟨hassignment, sound_operandOver ?_ hassignment⟩
    intro tokens e rest h
    obtain ⟨used, htokens, hform⟩ := hoperand h
    exact ⟨used, htokens, n, rfl, hform⟩

theorem sound_expression (n : Nat) : Sound (expression n) (ExprForm n .whole) :=
  (sound_expression_operand n).1

/-! ### Statements -/

section Statements

variable {n : Nat} {expression : Rule Expr} {statement : Rule Stmt}

/-- What the rule reads is a statement, closed if an `else` comes next. -/
def SoundStatement (n : Nat) (rule : Rule Stmt) : Prop :=
  ∀ ⦃tokens s rest⦄, rule.Reads tokens s rest →
    ∃ used, tokens = used ++ rest ∧ StmtForm n (.statement (nextKind rest == some .kwElse)) used s

theorem SoundStatement.toSound (h : SoundStatement n statement) :
    Sound statement (StmtForm n (.statement false)) := by
  intro tokens s rest hread
  obtain ⟨used, htokens, hform⟩ := h hread
  refine ⟨used, htokens, ?_⟩
  cases hclosed : nextKind rest == some TokenKind.kwElse with
  | false => rwa [hclosed] at hform
  | true =>
    rw [hclosed] at hform
    exact hform.of_closed

theorem sound_variableDeclaration (hexpression : Sound expression (ExprForm n .whole)) :
    Sound (variableDeclaration expression) (VarForm n) := by
  intro tokens s rest h
  obtain ⟨name, hname, ⟨semicolon, hsemicolon, rfl, rfl⟩
    | ⟨equals, mid, e, semicolon, hequals, rfl, he, hsemicolon, rfl⟩⟩ := reads_variableDeclaration.1 h
  · exact ⟨[name, semicolon], rfl, .bare hname hsemicolon⟩
  · obtain ⟨used, rfl, hform⟩ := hexpression he
    exact ⟨name :: equals :: used ++ [semicolon], by simp, .init hname hequals hform hsemicolon⟩

theorem sound_declaration (hexpression : Sound expression (ExprForm n .whole))
    (hstatement : SoundStatement n statement) :
    Sound (declaration expression statement)
      (fun used slot => ∃ s, slot = some s ∧ StmtForm n .declaration used s) := by
  intro tokens slot rest h
  obtain ⟨s, rfl, ⟨keyword, mid, hkeyword, rfl, hvar⟩ | ⟨-, hread⟩⟩ := reads_declaration.1 h
  · obtain ⟨used, rfl, hform⟩ := sound_variableDeclaration hexpression hvar
    exact ⟨keyword :: used, rfl, s, rfl, .var hkeyword hform⟩
  · obtain ⟨used, rfl, hform⟩ := hstatement.toSound hread
    exact ⟨used, rfl, s, rfl, .statement hform⟩

theorem advances_declaration {stops : Token → Bool} (hexpression : Sound expression (ExprForm n .whole))
    (hstatement : SoundStatement n statement) :
    Advances (unlessAt stops (declaration expression statement)) := by
  intro tokens slot rest h
  cases tokens with
  | nil => simp at h
  | cons token tokens =>
    obtain ⟨-, hnone, -⟩ | ⟨-, answer, hanswer, -⟩ := reads_unlessAt_cons.1 h
    · simp at hnone
    · obtain ⟨used, htokens, s, rfl, hform⟩ := sound_declaration hexpression hstatement hanswer
      have hpos := List.length_pos_iff.2 hform.ne_nil
      rw [htokens, List.length_append]
      omega

/-- Declarations are read up to the end or to a token where they stop. -/
theorem slotsForm_of_declarations {stops : Token → Bool} (hexpression : Sound expression (ExprForm n .whole))
    (hstatement : SoundStatement n statement) {tokens rest : List Token} {slots : List Slot}
    (h : (declarations stops expression statement).Reads tokens slots rest) :
    (∃ used, tokens = used ++ rest ∧ SlotsForm n used slots) ∧ ∀ token ∈ rest.head?, stops token = true := by
  rw [declarations, reads_many (advances_declaration hexpression hstatement)] at h
  induction h with
  | @stop tokens rest h =>
    cases tokens with
    | nil =>
      obtain ⟨-, rfl⟩ := reads_unlessAt_nil.1 h
      exact ⟨⟨[], rfl, .nil⟩, by simp⟩
    | cons token tokens =>
      obtain ⟨hstops, -, rfl⟩ | ⟨_, _, _, hnone⟩ := reads_unlessAt_cons.1 h
      · exact ⟨⟨[], rfl, .nil⟩, by simpa using hstops⟩
      · simp at hnone
  | @step tokens mid rest slot slots h _ ih =>
    cases tokens with
    | nil => simp at h
    | cons token tokens =>
      obtain ⟨-, hnone, -⟩ | ⟨-, answer, hanswer, hslot⟩ := reads_unlessAt_cons.1 h
      · simp at hnone
      obtain ⟨⟨later, rfl, hslots⟩, hstops⟩ := ih
      obtain ⟨used, htokens, s, rfl, hform⟩ := sound_declaration hexpression hstatement hanswer
      obtain rfl := Option.some.inj hslot
      exact ⟨⟨used ++ later, by simp [htokens], hslots.cons hform⟩, hstops⟩

theorem sound_forInitializer (hexpression : Sound expression (ExprForm n .whole)) :
    Sound (forInitializer expression) (InitForm n) := by
  intro tokens init rest h
  obtain ⟨semicolon, hsemicolon, rfl, rfl⟩ | ⟨keyword, mid, s, hkeyword, rfl, hvar, rfl⟩
    | ⟨-, -, s, hs, rfl⟩ := reads_forInitializer.1 h
  · exact ⟨[semicolon], rfl, .absent hsemicolon⟩
  · obtain ⟨used, rfl, hform⟩ := sound_variableDeclaration hexpression hvar
    exact ⟨keyword :: used, rfl, .declared hkeyword hform⟩
  · obtain ⟨e, semicolon, he, hsemicolon, rfl⟩ := reads_expressionStatement.1 hs
    obtain ⟨used, rfl, hform⟩ := hexpression he
    exact ⟨used ++ [semicolon], by simp, .plain hform hsemicolon⟩

theorem sound_optionalUntil {kind : TokenKind} (hexpression : Sound expression (ExprForm n .whole)) :
    Sound (optionalUntil kind expression) (OptionForm n) := by
  intro tokens answer rest h
  obtain ⟨rfl, rfl, -⟩ | ⟨e, -, he, rfl⟩ := reads_optionalUntil.1 h
  · exact ⟨[], rfl, .absent⟩
  · obtain ⟨used, rfl, hform⟩ := hexpression he
    exact ⟨used, rfl, .present hform⟩

/-- What the rule reads behind a keyword makes, with the keyword, a statement. -/
def SoundBehind (n : Nat) (keyword : Token) (rule : Rule Stmt) : Prop :=
  ∀ ⦃tokens s rest⦄, rule.Reads tokens s rest → ∃ used, tokens = used ++ rest
    ∧ StmtForm n (.statement (nextKind rest == some .kwElse)) (keyword :: used) s

theorem sound_printStatement (hexpression : Sound expression (ExprForm n .whole)) {keyword : Token}
    (hkeyword : keyword.kind = .kwPrint) :
    SoundBehind (n + 1) keyword (printStatement expression) := by
  intro tokens s rest h
  obtain ⟨e, semicolon, he, hsemicolon, rfl⟩ := reads_printStatement.1 h
  obtain ⟨ts, rfl, hform⟩ := hexpression he
  exact ⟨ts ++ [semicolon], by simp, .print hkeyword hform hsemicolon⟩

theorem sound_blockStatement (hexpression : Sound expression (ExprForm n .whole))
    (hstatement : SoundStatement n statement) {keyword : Token} (hkeyword : keyword.kind = .leftBrace) :
    SoundBehind (n + 1) keyword (blockStatement expression statement) := by
  intro tokens s rest h
  obtain ⟨slots, right, hslots, hright, rfl⟩ := reads_blockStatement.1 h
  obtain ⟨⟨used, rfl, hform⟩, -⟩ := slotsForm_of_declarations hexpression hstatement hslots
  exact ⟨used ++ [right], by simp, hform.block hkeyword hright⟩

theorem sound_ifStatement (hexpression : Sound expression (ExprForm n .whole))
    (hstatement : SoundStatement n statement) {keyword : Token} (hkeyword : keyword.kind = .kwIf) :
    SoundBehind (n + 1) keyword (ifStatement expression statement) := by
  intro tokens s rest h
  obtain ⟨left, inside, condition, right, body, yes, after, rfl, hleft, hcondition, hright, hyes,
    helse⟩ := reads_ifStatement.1 h
  obtain ⟨cs, rfl, hcs⟩ := hexpression hcondition
  obtain ⟨hnext, rfl, rfl⟩ | ⟨other, mid, no, rfl, hother, hno, rfl⟩ := helse
  · -- No `else` follows, so the statement need not be closed, and it is not.
    obtain ⟨ts, rfl, hts⟩ := hstatement.toSound hyes
    have hopen : (nextKind rest == some TokenKind.kwElse) = false := by simpa using hnext
    refine ⟨left :: cs ++ right :: ts, by simp, ?_⟩
    rw [hopen]
    exact .ifThen hkeyword hleft hcs hright hts
  · -- The first branch stands before the `else` that was read, so it is closed.
    obtain ⟨ts, rfl, hts⟩ := hstatement hyes
    obtain ⟨us, rfl, hus⟩ := hstatement hno
    rw [nextKind_cons, hother, beq_self_eq_true] at hts
    refine ⟨left :: cs ++ right :: ts ++ other :: us, by simp, ?_⟩
    exact .ifElse hkeyword hleft hcs hright hts hother hus

theorem sound_whileStatement (hexpression : Sound expression (ExprForm n .whole))
    (hstatement : SoundStatement n statement) {keyword : Token} (hkeyword : keyword.kind = .kwWhile) :
    SoundBehind (n + 1) keyword (whileStatement expression statement) := by
  intro tokens s rest h
  obtain ⟨left, inside, condition, right, mid, body, rfl, hleft, hcondition, hright, hbody,
    rfl⟩ := reads_whileStatement.1 h
  obtain ⟨cs, rfl, hcs⟩ := hexpression hcondition
  obtain ⟨ts, rfl, hts⟩ := hstatement hbody
  exact ⟨left :: cs ++ right :: ts, by simp, .while hkeyword hleft hcs hright hts⟩

theorem sound_forStatement (hexpression : Sound expression (ExprForm n .whole))
    (hstatement : SoundStatement n statement) {keyword : Token} (hkeyword : keyword.kind = .kwFor) :
    SoundBehind (n + 1) keyword (forStatement keyword.line expression statement) := by
  intro tokens s rest h
  obtain ⟨left, clauses, init, mid, condition, semicolon, tail, increment, right, after, body, rfl,
    hleft, hinit, hcondition, hsemicolon, hincrement, hright, hbody, rfl⟩ := reads_forStatement.1 h
  obtain ⟨is, rfl, his⟩ := sound_forInitializer hexpression hinit
  obtain ⟨cs, rfl, hcs⟩ := sound_optionalUntil hexpression hcondition
  obtain ⟨us, rfl, hus⟩ := sound_optionalUntil hexpression hincrement
  obtain ⟨ts, rfl, hts⟩ := hstatement hbody
  refine ⟨left :: is ++ cs ++ semicolon :: us ++ right :: ts, by simp, ?_⟩
  exact .for hkeyword hleft his hcs hsemicolon hus hright hts

theorem sound_afterKeyword (hexpression : Sound expression (ExprForm n .whole))
    (hstatement : SoundStatement n statement) {keyword : Token} {rule : Rule Stmt}
    (hrule : afterKeyword expression statement keyword = some rule) : SoundBehind (n + 1) keyword rule := by
  rw [afterKeyword] at hrule
  split at hrule
  next hkeyword => exact Option.some.inj hrule ▸ sound_forStatement hexpression hstatement hkeyword
  next hkeyword => exact Option.some.inj hrule ▸ sound_ifStatement hexpression hstatement hkeyword
  next hkeyword => exact Option.some.inj hrule ▸ sound_printStatement hexpression hkeyword
  next hkeyword => exact Option.some.inj hrule ▸ sound_whileStatement hexpression hstatement hkeyword
  next hkeyword => exact Option.some.inj hrule ▸ sound_blockStatement hexpression hstatement hkeyword
  next => simp at hrule

theorem sound_statementOver (hexpression : Sound expression (ExprForm n .whole))
    (hstatement : SoundStatement n statement) :
    SoundStatement (n + 1) (statementOver expression statement) := by
  intro tokens s rest h
  obtain ⟨keyword, mid, rule, rfl, hrule, hread⟩ | ⟨-, hread⟩ := reads_statementOver.1 h
  · obtain ⟨used, rfl, hform⟩ := sound_afterKeyword hexpression hstatement hrule hread
    exact ⟨keyword :: used, rfl, hform⟩
  · obtain ⟨e, semicolon, he, hsemicolon, rfl⟩ := reads_expressionStatement.1 hread
    obtain ⟨ts, rfl, hform⟩ := hexpression he
    exact ⟨ts ++ [semicolon], by simp, .expression hform hsemicolon⟩

end Statements

theorem sound_statement (n : Nat) : SoundStatement n (statement n) := by
  induction n with
  | zero =>
    intro tokens s rest h
    exact absurd h not_reads_fail
  | succ n ih =>
    rw [statement]
    exact sound_statementOver (sound_expression n) ih

/-- A program that is read cleanly is read to its end, and consists of declarations. -/
theorem slotsForm_of_program {tokens rest : List Token} {slots : List Slot}
    (h : program.Reads tokens slots rest) :
    rest = [] ∧ SlotsForm maxNesting tokens slots := by
  obtain ⟨⟨used, rfl, hform⟩, hstops⟩ :=
    slotsForm_of_declarations (sound_expression maxNesting) (sound_statement maxNesting) h
  have hrest : rest = [] := by
    cases rest with
    | nil => rfl
    | cons token rest => simpa using hstops token rfl
  subst hrest
  exact ⟨rfl, by rwa [List.append_nil]⟩

end Rule

end Lox
