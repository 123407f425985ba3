import Lox.Proofs.Program
import Lox.Proofs.Relocation
/-!
# Reading relocated tokens

Every rule of the grammar reads relocated tokens as it reads the tokens themselves: it answers with the
relocated tree, notes the relocated faults and leaves the relocated rest. So parsing looks at lines no more
than execution does, also where it fails and recovers.
-/

namespace Lox

variable {move : Nat → Nat} {α β γ δ : Type}

def Finding.relocate (move : Nat → Nat) (f : Finding) : Finding :=
  { f with token := f.token.map (Token.relocate move) }

/-- The reply with its findings and its rest relocated, and its answer by the given function. -/
def Reply.relocate (move : Nat → Nat) (value : α → β) (reply : Reply α) : Reply β :=
  ⟨reply.result.map value, reply.findings.map (Finding.relocate move), reply.rest.map (Token.relocate move)⟩

namespace Rule

/-- What the first rule makes of some tokens, the second makes of the relocated tokens, relocated. -/
def Relocates (move : Nat → Nat) (value : α → β) (rule : Rule α) (rule' : Rule β) : Prop :=
  ∀ tokens, rule' (tokens.map (Token.relocate move)) = (rule tokens).relocate move value

/-! ### Ways of building rules -/

theorem relocates_pure {value : α → β} (a : α) : Relocates move value (pure a) (pure (value a)) :=
  fun _ => rfl

theorem relocates_fail {value : α → β} (fault : ParseFault) : Relocates move value (fail fault) (fail fault) :=
  fun _ => rfl

theorem relocates_note (fault : ParseFault) (token : Token) :
    Relocates move id (note fault token) (note fault (token.relocate move)) :=
  fun _ => rfl

theorem relocates_bind {value : α → β} {value' : γ → δ} {rule : Rule α} {rule' : Rule β}
    {next : α → Rule γ} {next' : β → Rule δ} (hrule : Relocates move value rule rule')
    (hnext : ∀ a, Relocates move value' (next a) (next' (value a))) :
    Relocates move value' (rule >>= next) (rule' >>= next') := by
  intro tokens
  have hrule := hrule tokens
  rcases h : rule tokens with ⟨fault | a, findings, rest⟩
  · rw [h] at hrule
    rw [bind_of_error h]
    exact bind_of_error hrule
  · rw [h] at hrule
    have hrest := hnext a rest
    rw [bind_of_ok h]
    refine (bind_of_ok hrule).trans ?_
    rw [hrest]
    simp [Reply.relocate]

theorem relocates_map {value : α → β} {value' : γ → δ} {f : α → γ} {f' : β → δ} {rule : Rule α}
    {rule' : Rule β} (hrule : Relocates move value rule rule') (hf : ∀ a, f' (value a) = value' (f a)) :
    Relocates move value' (f <$> rule) (f' <$> rule') := by
  rw [map_eq_pure_bind, map_eq_pure_bind]
  refine relocates_bind hrule fun a => ?_
  rw [hf]
  exact relocates_pure _

theorem relocates_some {value : α → β} {rule : Rule α} {rule' : Rule β}
    (hrule : Relocates move value rule rule') :
    Relocates move (Option.map value) (some <$> rule) (some <$> rule') :=
  relocates_map hrule fun _ => rfl

theorem relocates_choose {value : α → β} {chosen : Token → Option (Rule α)}
    {chosen' : Token → Option (Rule β)} {otherwise : Rule α} {otherwise' : Rule β}
    (hchosen : ∀ token, Option.Rel (Relocates move value) (chosen token) (chosen' (token.relocate move)))
    (hotherwise : Relocates move value otherwise otherwise') :
    Relocates move value (choose chosen otherwise) (choose chosen' otherwise') := by
  intro tokens
  cases tokens with
  | nil => exact hotherwise []
  | cons token rest =>
    have htoken := hchosen token
    rw [List.map_cons, choose, choose]
    cases h : chosen token with
    | none =>
      rw [h] at htoken
      cases h' : chosen' (token.relocate move) with
      | none => exact hotherwise (token :: rest)
      | some rule' => rw [h'] at htoken; cases htoken
    | some rule =>
      rw [h] at htoken
      cases h' : chosen' (token.relocate move) with
      | none => rw [h'] at htoken; cases htoken
      | some rule' =>
        rw [h'] at htoken
        cases htoken with
        | some hrule => exact hrule rest

/-- A choice by the kind of the token, which stays the same. -/
theorem relocates_choose_kind {value : α → β} {kind : TokenKind} {rule : Token → Rule α}
    {rule' : Token → Rule β} {otherwise : Rule α} {otherwise' : Rule β}
    (hrule : ∀ token, Relocates move value (rule token) (rule' (token.relocate move)))
    (hotherwise : Relocates move value otherwise otherwise') :
    Relocates move value
      (choose (fun token => if token.kind = kind then some (rule token) else none) otherwise)
      (choose (fun token => if token.kind = kind then some (rule' token) else none) otherwise') := by
  refine relocates_choose (fun token => ?_) hotherwise
  rw [Token.kind_relocate]
  split
  · exact .some (hrule token)
  · exact .none

theorem relocates_accept? (kind : TokenKind) :
    Relocates move (Option.map (Token.relocate move)) (accept? kind) (accept? kind) :=
  relocates_choose_kind (fun token => relocates_pure (some token)) (relocates_pure none)

theorem relocates_expect (kind : TokenKind) (fault : ParseFault) :
    Relocates move (Token.relocate move) (expect kind fault) (expect kind fault) :=
  relocates_choose_kind (fun token => relocates_pure token) (relocates_fail fault)

theorem relocates_close (symbol : TokenKind) (after : Clause) :
    Relocates move id (close symbol after) (close symbol after) :=
  relocates_map (relocates_expect symbol _) fun _ => rfl

theorem relocates_optionalAfter {value : α → β} {item : Rule α} {item' : Rule β} (kind : TokenKind)
    (hitem : Relocates move value item item') :
    Relocates move (Option.map value) (optionalAfter kind item) (optionalAfter kind item') :=
  relocates_choose_kind (fun _ => relocates_some hitem) (relocates_pure none)

theorem relocates_unlessAt {value : α → β} {item : Rule α} {item' : Rule β} {stops : Token → Bool}
    (hstops : ∀ token, stops (token.relocate move) = stops token) (hitem : Relocates move value item item') :
    Relocates move (Option.map value) (unlessAt stops item) (unlessAt stops item') := by
  intro tokens
  cases tokens with
  | nil => rfl
  | cons token rest =>
    rw [List.map_cons, unlessAt, unlessAt, hstops]
    split
    · rfl
    · exact relocates_some hitem (token :: rest)

theorem relocates_optionalUntil {value : α → β} {item : Rule α} {item' : Rule β} (kind : TokenKind)
    (hitem : Relocates move value item item') :
    Relocates move (Option.map value) (optionalUntil kind item) (optionalUntil kind item') := by
  intro tokens
  cases tokens with
  | nil => exact relocates_some hitem []
  | cons token rest =>
    rw [List.map_cons, optionalUntil, optionalUntil, Token.kind_relocate]
    split
    · rfl
    · exact relocates_some hitem (token :: rest)

theorem relocates_many {value : α → β} {item : Rule (Option α)} {item' : Rule (Option β)}
    (hitem : Relocates move (Option.map value) item item') :
    Relocates move (List.map value) (many item) (many item') := by
  intro tokens
  induction hlength : tokens.length using Nat.strongRecOn generalizing tokens with
  | ind length ih =>
    have hfirst := hitem tokens
    rw [many, many]
    rcases h : item tokens with ⟨fault | _ | a, findings, rest⟩
    · rw [h] at hfirst
      rw [hfirst]
      rfl
    · rw [h] at hfirst
      rw [hfirst]
      rfl
    · rw [h] at hfirst
      rw [hfirst]
      simp only [Reply.relocate, Except.map, Option.map_some, List.length_map]
      split
      next hlt =>
        rw [ih rest.length (hlength ▸ hlt) rest rfl]
        rcases many item rest with ⟨_ | _, _, _⟩ <;> simp [Reply.relocate, Except.map]
      next => simp

theorem map_resumeAfter (previous : Token) (tokens : List Token) :
    resumeAfter (previous.relocate move) (tokens.map (Token.relocate move))
      = (resumeAfter previous tokens).map (Token.relocate move) := by
  induction tokens generalizing previous with
  | nil => rfl
  | cons token tokens ih =>
    rw [List.map_cons, resumeAfter, resumeAfter, Token.kind_relocate, Token.kind_relocate, ih]
    split <;> rfl

theorem map_resume (tokens : List Token) :
    resume (tokens.map (Token.relocate move)) = (resume tokens).map (Token.relocate move) := by
  cases tokens with
  | nil => rfl
  | cons token tokens => exact map_resumeAfter token tokens

theorem relocates_recovering {value : α → β} {rule : Rule α} {rule' : Rule β}
    (hrule : Relocates move value rule rule') :
    Relocates move (Option.map value) (recovering rule) (recovering rule') := by
  intro tokens
  have hrule := hrule tokens
  rw [recovering, recovering, hrule]
  rcases rule tokens with ⟨fault | a, findings, rest⟩
  · simp [Reply.relocate, Except.map, map_resume, Finding.relocate]
  · rfl

/-! ### Expressions -/

def relocateOperation (move : Nat → Nat) : InfixOp × Nat × Expr → InfixOp × Nat × Expr
  | (op, line, right) => (op, move line, right.relocate move)

theorem relocates_operation {operand operand' : Rule Expr} (level : Level)
    (hoperand : Relocates move (Expr.relocate move) operand operand') :
    Relocates move (Option.map (relocateOperation move)) (operation level operand)
      (operation level operand') := by
  refine relocates_choose (fun token => ?_) (relocates_pure none)
  rw [Token.kind_relocate]
  cases InfixOp.ofKind? level token.kind with
  | none => exact .none
  | some op => exact .some (relocates_bind hoperand fun right => relocates_pure (some (op, token.line, right)))

theorem relocate_join (op : InfixOp) (line : Nat) (left right : Expr) :
    (op.join line left right).relocate move = op.join (move line) (left.relocate move) (right.relocate move) := by
  cases op <;> rfl

theorem foldl_relocateOperation (operations : List (InfixOp × Nat × Expr)) (first : Expr) :
    (operations.map (relocateOperation move)).foldl (fun left (op, line, right) => op.join line left right)
        (first.relocate move)
      = (operations.foldl (fun left (op, line, right) => op.join line left right) first).relocate move := by
  induction operations generalizing first with
  | nil => rfl
  | cons operation operations ih =>
    rw [List.map_cons, List.foldl_cons, List.foldl_cons, ← ih, relocate_join]
    rfl

theorem relocates_chain {operand operand' : Rule Expr} (level : Level)
    (hoperand : Relocates move (Expr.relocate move) operand operand') :
    Relocates move (Expr.relocate move) (chain level operand) (chain level operand') := by
  refine relocates_bind hoperand fun first => ?_
  refine relocates_bind (relocates_many (relocates_operation level hoperand)) fun operations => ?_
  rw [foldl_relocateOperation]
  exact relocates_pure _

theorem relocates_cascade {operand operand' : Rule Expr}
    (hoperand : Relocates move (Expr.relocate move) operand operand') :
    Relocates move (Expr.relocate move) (cascade operand) (cascade operand') := by
  rw [cascade, cascade]
  induction Level.all with
  | nil => exact hoperand
  | cons level levels ih => exact relocates_chain level ih

theorem relocates_assignment {operand operand' value value' : Rule Expr}
    (hoperand : Relocates move (Expr.relocate move) operand operand')
    (hvalue : Relocates move (Expr.relocate move) value value') :
    Relocates move (Expr.relocate move) (assignment operand value) (assignment operand' value') := by
  refine relocates_bind (relocates_cascade hoperand) fun target => ?_
  refine relocates_bind (relocates_accept? .equal) fun equals => ?_
  cases equals with
  | none => exact relocates_pure target
  | some equals =>
    refine relocates_bind hvalue fun assigned => ?_
    cases target with
    | var name => exact relocates_pure (Expr.assign name assigned)
    | _ => exact relocates_bind (relocates_note _ equals) fun _ => relocates_pure _

theorem relocates_primary {inner inner' : Rule Expr}
    (hinner : Relocates move (Expr.relocate move) inner inner') :
    Relocates move (Expr.relocate move) (primary inner) (primary inner') := by
  refine relocates_choose (fun token => ?_) (relocates_fail _)
  simp only [Token.kind_relocate, Token.literal_relocate]
  cases token.kind
  case kwFalse | kwTrue | kwNil | identifier => exact .some (relocates_pure _)
  case number | string =>
    cases token.literal with
    | none => exact .none
    | some literal => exact .some (relocates_pure _)
  case leftParen =>
    refine .some (relocates_bind hinner fun inside => ?_)
    exact relocates_bind (relocates_close _ _) fun _ => relocates_pure (Expr.group inside token.line)
  all_goals exact .none

theorem relocates_operandOver {deeper deeper' inner inner' : Rule Expr}
    (hdeeper : Relocates move (Expr.relocate move) deeper deeper')
    (hinner : Relocates move (Expr.relocate move) inner inner') :
    Relocates move (Expr.relocate move) (operandOver deeper inner) (operandOver deeper' inner') := by
  refine relocates_choose (fun token => ?_) (relocates_primary hinner)
  rw [Token.kind_relocate]
  cases UnaryOp.ofKind? token.kind with
  | none => exact .none
  | some op => exact .some (relocates_bind hdeeper fun right => relocates_pure (Expr.unary op right token.line))

theorem relocates_expression_operand (depth : Nat) :
    Relocates move (Expr.relocate move) (expression depth) (expression depth)
      ∧ Relocates move (Expr.relocate move) (operand depth) (operand depth) := by
  induction depth with
  | zero =>
    rw [expression, operand]
    exact ⟨relocates_fail _, relocates_operandOver (relocates_fail _) (relocates_fail _)⟩
  | succ depth ih =>
    obtain ⟨hexpression, hoperand⟩ := ih
    rw [expression, operand]
    have hassignment := relocates_assignment hoperand hexpression
    exact ⟨hassignment, relocates_operandOver hoperand hassignment⟩

theorem relocates_expression (depth : Nat) :
    Relocates move (Expr.relocate move) (expression depth) (expression depth) :=
  (relocates_expression_operand depth).1

/-! ### Statements -/

section Statements

variable {expression expression' : Rule Expr} {statement statement' : Rule Stmt}

theorem relocates_variableDeclaration (hexpression : Relocates move (Expr.relocate move) expression expression') :
    Relocates move (Stmt.relocate move) (variableDeclaration expression) (variableDeclaration expression') := by
  refine relocates_bind (relocates_expect _ _) fun name => ?_
  refine relocates_bind (relocates_optionalAfter .equal hexpression) fun init => ?_
  exact relocates_bind (relocates_close _ _) fun _ => relocates_pure (Stmt.declare name init)

theorem relocates_expressionStatement
    (hexpression : Relocates move (Expr.relocate move) expression expression') :
    Relocates move (Stmt.relocate move) (expressionStatement expression) (expressionStatement expression') := by
  refine relocates_bind hexpression fun e => ?_
  exact relocates_bind (relocates_close _ _) fun _ => relocates_pure (Stmt.expression e)

theorem relocates_printStatement (hexpression : Relocates move (Expr.relocate move) expression expression') :
    Relocates move (Stmt.relocate move) (printStatement expression) (printStatement expression') := by
  refine relocates_bind hexpression fun e => ?_
  exact relocates_bind (relocates_close _ _) fun _ => relocates_pure (Stmt.print e)

theorem relocates_declarations {stops : Token → Bool}
    (hstops : ∀ token : Token, stops (token.relocate move) = stops token)
    (hexpression : Relocates move (Expr.relocate move) expression expression')
    (hstatement : Relocates move (Stmt.relocate move) statement statement') :
    Relocates move (List.map (Option.map (Stmt.relocate move))) (declarations stops expression statement)
      (declarations stops expression' statement') := by
  refine relocates_many (relocates_unlessAt hstops (relocates_recovering ?_))
  exact relocates_choose_kind (fun _ => relocates_variableDeclaration hexpression) hstatement

theorem relocates_blockStatement (hexpression : Relocates move (Expr.relocate move) expression expression')
    (hstatement : Relocates move (Stmt.relocate move) statement statement') :
    Relocates move (Stmt.relocate move) (blockStatement expression statement)
      (blockStatement expression' statement') := by
  refine relocates_bind (relocates_declarations (fun _ => rfl) hexpression hstatement) fun slots => ?_
  refine relocates_bind (relocates_close _ _) fun _ => ?_
  rw [← Stmt.relocateSlots_eq]
  exact relocates_pure (Stmt.block slots)

theorem relocates_ifStatement (hexpression : Relocates move (Expr.relocate move) expression expression')
    (hstatement : Relocates move (Stmt.relocate move) statement statement') :
    Relocates move (Stmt.relocate move) (ifStatement expression statement)
      (ifStatement expression' statement') := by
  refine relocates_bind (relocates_close _ _) fun _ => ?_
  refine relocates_bind hexpression fun condition => ?_
  refine relocates_bind (relocates_close _ _) fun _ => ?_
  refine relocates_bind hstatement fun yes => ?_
  refine relocates_bind (relocates_optionalAfter .kwElse hstatement) fun no => ?_
  rw [← Stmt.relocate_branch]
  exact relocates_pure (Stmt.branch condition yes no)

theorem relocates_whileStatement (hexpression : Relocates move (Expr.relocate move) expression expression')
    (hstatement : Relocates move (Stmt.relocate move) statement statement') :
    Relocates move (Stmt.relocate move) (whileStatement expression statement)
      (whileStatement expression' statement') := by
  refine relocates_bind (relocates_close _ _) fun _ => ?_
  refine relocates_bind hexpression fun condition => ?_
  refine relocates_bind (relocates_close _ _) fun _ => ?_
  exact relocates_bind hstatement fun body => relocates_pure (Stmt.loop condition body)

theorem relocates_forInitializer (hexpression : Relocates move (Expr.relocate move) expression expression') :
    Relocates move (Option.map (Stmt.relocate move)) (forInitializer expression)
      (forInitializer expression') := by
  refine relocates_choose (fun token => ?_) (relocates_some (relocates_expressionStatement hexpression))
  simp only [Token.kind_relocate]
  cases token.kind
  case semicolon => exact .some (relocates_pure none)
  case kwVar => exact .some (relocates_some (relocates_variableDeclaration hexpression))
  all_goals exact .none

/-- The condition that stands for a missing one is on the line of the keyword. -/
theorem relocate_forLoop (line : Nat) (init : Option Stmt) (condition increment : Option Expr) (body : Stmt) :
    (forLoop line init condition increment body).relocate move
      = forLoop (move line) (init.map (Stmt.relocate move)) (condition.map (Expr.relocate move))
        (increment.map (Expr.relocate move)) (body.relocate move) := by
  cases init <;> cases condition <;> cases increment <;> rfl

theorem relocates_forStatement (line : Nat)
    (hexpression : Relocates move (Expr.relocate move) expression expression')
    (hstatement : Relocates move (Stmt.relocate move) statement statement') :
    Relocates move (Stmt.relocate move) (forStatement line expression statement)
      (forStatement (move line) expression' statement') := by
  refine relocates_bind (relocates_close _ _) fun _ => ?_
  refine relocates_bind (relocates_forInitializer hexpression) fun init => ?_
  refine relocates_bind (relocates_optionalUntil .semicolon hexpression) fun condition => ?_
  refine relocates_bind (relocates_close _ _) fun _ => ?_
  refine relocates_bind (relocates_optionalUntil .rightParen hexpression) fun increment => ?_
  refine relocates_bind (relocates_close _ _) fun _ => ?_
  refine relocates_bind hstatement fun body => ?_
  rw [← relocate_forLoop]
  exact relocates_pure (forLoop line init condition increment body)

theorem relocates_statementOver (hexpression : Relocates move (Expr.relocate move) expression expression')
    (hstatement : Relocates move (Stmt.relocate move) statement statement') :
    Relocates move (Stmt.relocate move) (statementOver expression statement)
      (statementOver expression' statement') := by
  refine relocates_choose (fun token => ?_) (relocates_expressionStatement hexpression)
  simp only [Token.kind_relocate]
  cases token.kind
  case kwFor => exact .some (relocates_forStatement token.line hexpression hstatement)
  case kwIf => exact .some (relocates_ifStatement hexpression hstatement)
  case kwPrint => exact .some (relocates_printStatement hexpression)
  case kwWhile => exact .some (relocates_whileStatement hexpression hstatement)
  case leftBrace => exact .some (relocates_blockStatement hexpression hstatement)
  all_goals exact .none

end Statements

theorem relocates_statement (depth : Nat) :
    Relocates move (Stmt.relocate move) (statement depth) (statement depth) := by
  induction depth with
  | zero =>
    rw [statement]
    exact relocates_fail _
  | succ depth ih =>
    rw [statement]
    exact relocates_statementOver (relocates_expression depth) ih

theorem relocates_program : Relocates move (List.map (Option.map (Stmt.relocate move))) program program :=
  relocates_declarations (fun _ => rfl) (relocates_expression _) (relocates_statement _)

end Rule

/-! ### Programs -/

theorem beforeEnd_relocate (tokens : List Token) :
    beforeEnd (tokens.map (Token.relocate move)) = (beforeEnd tokens).map (Token.relocate move) := by
  rw [beforeEnd, beforeEnd, List.takeWhile_map]
  rfl

/-- The line of the end that is supplied for an empty token list has to stay where it is. -/
theorem endToken_relocate (hmove : move 1 = 1) (tokens : List Token) :
    endToken (tokens.map (Token.relocate move)) = (endToken tokens).relocate move := by
  have hfind : (tokens.map (Token.relocate move)).find? (·.kind == .eof)
      = (tokens.find? (·.kind == .eof)).map (Token.relocate move) := by
    rw [List.find?_map]
    rfl
  rw [endToken, endToken, hfind, List.getLast?_map]
  cases tokens.find? (·.kind == .eof) with
  | some token => rfl
  | none =>
    cases tokens.getLast? with
    | some token => rfl
    | none => simp [Token.relocate, Token.eof, hmove]

def Parse.relocate (move : Nat → Nat) (parse : Parse) : Parse :=
  ⟨Stmt.relocateSlots move parse.slots, parse.errors.map (ParseError.relocate move)⟩

/-- Parsing relocated tokens gives the relocated trees and errors. -/
theorem parse_relocate (hmove : move 1 = 1) (tokens : List Token) :
    parse (tokens.map (Token.relocate move)) = (parse tokens).relocate move := by
  have hprogram := @Rule.relocates_program move (beforeEnd tokens)
  rw [← beforeEnd_relocate] at hprogram
  obtain ⟨slots, findings, rest, h⟩ := Rule.total_program (beforeEnd tokens)
  rw [h] at hprogram
  rw [beforeEnd] at hprogram h
  rw [parse, parse, hprogram, h, endToken_relocate hmove]
  simp only [Reply.relocate, Parse.relocate, Except.map, Except.toOption, Option.getD_some,
    Stmt.relocateSlots_eq, List.map_map, Parse.mk.injEq, true_and]
  refine List.map_congr_left ?_
  intro finding _
  rcases finding with ⟨fault, _ | token⟩ <;> rfl

/-- The form of a program, relocated. -/
theorem ProgramForm.relocate {tokens : List Token} {slots : List Slot} (h : ProgramForm tokens slots) :
    ProgramForm (tokens.map (Token.relocate move)) (Stmt.relocateSlots move slots) := by
  have hprogram := @Rule.relocates_program move tokens
  rw [Rule.reads_program.2 ⟨rfl, h⟩] at hprogram
  rw [Stmt.relocateSlots_eq]
  exact (Rule.reads_program.1 hprogram).2

end Lox
