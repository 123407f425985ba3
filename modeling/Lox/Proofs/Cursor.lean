import Lox.Grammar.Statement
/-!
# A parser on a cursor

The grammar once more, for a parser that keeps the tokens in an array, moves a cursor over them, counts the
levels of nesting that are open and collects the errors as it goes. Nothing protects it: a read outside of the
array gives nothing, and neither does a move past the first end-of-input token, a loop goes on for as long as its
condition holds, and rules call each other freely. So it is a partial function, and whether it gives a result is a
question to be answered.

A recursive call is written `by apply rule`. Written plainly it would leave its position in this file inside of the
fixed point.
-/

namespace Lox

/-- What the parser changes as it goes: the index of the next token, the number of levels of nesting that are
open, and the errors so far. -/
structure Cursor where
  current : Nat
  depth : Nat
  errors : List ParseError

namespace Cursor

/-- A step of the parser. It gives nothing if it reads outside of the array, moves the cursor past the first
end-of-input token, or never comes to an end. -/
abbrev Step := StateT Cursor Option

abbrev Parser := ExceptT ParseError Step

variable (tokens : Array Token)

/-! ### The cursor -/

def peek : Step Token :=
  fun s => tokens[s.current]?.map (·, s)

/-- The token before the next one. -/
def previous : Step Token :=
  fun s => tokens[s.current - 1]?.map (·, s)

def isAtEnd : Step Bool := do
  return (← peek tokens).kind == .eof

def move : Step Unit :=
  fun s =>
    if s.current < tokens.findIdx (·.kind == .eof) then some ((), { s with current := s.current + 1 }) else none

/-- Moves the cursor unless it is at the end, and gives the token before it. -/
def advance : Step Token := do
  if ← isAtEnd tokens then
    previous tokens
  else
    move tokens
    previous tokens

def check (kind : TokenKind) : Step Bool := do
  if ← isAtEnd tokens then
    return false
  else
    return (← peek tokens).kind == kind

def matchOperator {β : Type} (read : TokenKind → Option β) : Step (Option β) := do
  if ← isAtEnd tokens then
    return none
  else
    match read (← peek tokens).kind with
    | none => return none
    | some op =>
      let _ ← advance tokens
      return some op

def matchKind (kind : TokenKind) : Step Bool := do
  if ← check tokens kind then
    let _ ← advance tokens
    return true
  else
    return false

def failAt {α : Type} (fault : ParseFault) : Parser α := do
  let token ← peek tokens
  throw ⟨fault, token⟩

def consume (kind : TokenKind) (fault : ParseFault) : Parser Token := do
  if ← check tokens kind then
    advance tokens
  else
    failAt tokens fault

def consumeAfter (symbol : TokenKind) (after : Clause) : Parser Unit := do
  let _ ← consume tokens symbol (.missing symbol after)

def report (error : ParseError) : Step Unit :=
  modify fun s => { s with errors := s.errors ++ [error] }

/-- Moves on until a semicolon was passed or a token that opens a statement comes next. -/
def skip : Step Unit := do
  if ← isAtEnd tokens then
    return
  else if (← previous tokens).kind = .semicolon then
    return
  else if (← peek tokens).kind.startsStatement then
    return
  else
    let _ ← advance tokens
    by apply skip
partial_fixpoint

/-- Moves to where parsing goes on after an error. -/
def synchronize : Step Unit := do
  let _ ← advance tokens
  skip tokens

def setDepth (change : Nat → Nat) : Step Unit :=
  modify fun s => { s with depth := change s.depth }

/-- A rule as one level of nesting, which is closed again however the rule ends. -/
abbrev nested {α : Type} (rule : Parser α) : Parser α := (do
  let s ← get
  if Rule.maxNesting ≤ s.depth then
    (failAt tokens .tooDeep).run
  else
    setDepth (· + 1)
    let result ← rule.run
    setDepth (· - 1)
    return result : Step (Except ParseError α))

/-- A rule whose failure is reported and leaves a hole. -/
abbrev recovering {α : Type} (rule : Parser α) : Parser (Option α) := (do
  match ← rule.run with
  | .ok a => return .ok (some a)
  | .error error =>
    report error
    synchronize tokens
    return .ok none : Step (Except ParseError (Option α)))

/-! ### Expressions -/

mutual

def expression : Parser Expr :=
  nested tokens (by apply assignment)
partial_fixpoint

def assignment : Parser Expr := do
  let target ← by apply infixes; exact Level.all
  if ← matchKind tokens .equal then
    let equals ← previous tokens
    let value ← by apply expression
    match target with
    | .var name => return .assign name value
    | _ =>
      report ⟨.invalidTarget, equals⟩
      return target
  else
    return target
partial_fixpoint

/-- Operands joined by operators of the given levels, the loosest one first. -/
def infixes (levels : List Level) : Parser Expr := do
  match levels with
  | [] => by apply unary
  | level :: tighter =>
    let first ← by apply infixes; exact tighter
    by apply operations; exact level; exact tighter; exact first
partial_fixpoint

/-- The operators of a level that follow a left operand, with their right operands. -/
def operations (level : Level) (tighter : List Level) (left : Expr) : Parser Expr := do
  match ← matchOperator tokens (InfixOp.ofKind? level) with
  | none => return left
  | some op =>
    let sign ← previous tokens
    let right ← by apply infixes; exact tighter
    by apply operations; exact level; exact tighter; exact op.join sign.line left right
partial_fixpoint

def unary : Parser Expr := do
  match ← matchOperator tokens UnaryOp.ofKind? with
  | none => by apply primary
  | some op =>
    let sign ← previous tokens
    let right ← nested tokens (by apply unary)
    return .unary op right sign.line
partial_fixpoint

def primary : Parser Expr := do
  let token ← peek tokens
  match token.kind with
  | .kwFalse =>
    let _ ← advance tokens
    return .literal (.bool false) token.line
  | .kwTrue =>
    let _ ← advance tokens
    return .literal (.bool true) token.line
  | .kwNil =>
    let _ ← advance tokens
    return .literal .nil token.line
  | .number | .string =>
    match token.literal with
    | some literal =>
      let _ ← advance tokens
      return .literal literal.value token.line
    | none => failAt tokens .missingExpression
  | .identifier =>
    let _ ← advance tokens
    return .var token
  | .leftParen =>
    let _ ← advance tokens
    let inner ← by apply expression
    consumeAfter tokens .rightParen .expression
    return .group inner token.line
  | _ => failAt tokens .missingExpression
partial_fixpoint

end

/-! ### Statements -/

def initializer : Parser (Option Expr) := do
  if ← matchKind tokens .equal then
    some <$> expression tokens
  else
    return none

def variableDeclaration : Parser Stmt := do
  let name ← consume tokens .identifier .missingName
  let init ← initializer tokens
  consumeAfter tokens .semicolon .variableDeclaration
  return .declare name init

def expressionStatement : Parser Stmt := do
  let e ← expression tokens
  consumeAfter tokens .semicolon .expression
  return .expression e

def printStatement : Parser Stmt := do
  let e ← expression tokens
  consumeAfter tokens .semicolon .printedValue
  return .print e

def forInitializer : Parser (Option Stmt) := do
  if ← matchKind tokens .semicolon then
    return none
  else if ← matchKind tokens .kwVar then
    some <$> variableDeclaration tokens
  else
    some <$> expressionStatement tokens

def expressionUntil (kind : TokenKind) : Parser (Option Expr) := do
  if ← check tokens kind then
    return none
  else
    some <$> expression tokens

mutual

def declaration : Parser Slot :=
  recovering tokens (by apply declarationKind)
partial_fixpoint

def declarationKind : Parser Stmt := do
  if ← matchKind tokens .kwVar then
    variableDeclaration tokens
  else
    by apply statement
partial_fixpoint

def declarations (stops : TokenKind → Bool) : Parser (List Slot) := do
  if ← isAtEnd tokens then
    return []
  else if stops (← peek tokens).kind then
    return []
  else
    let slot ← by apply declaration
    let slots ← by apply declarations; exact stops
    return slot :: slots
partial_fixpoint

def statement : Parser Stmt :=
  nested tokens (by apply statementKind)
partial_fixpoint

def statementKind : Parser Stmt := do
  let token ← peek tokens
  match token.kind with
  | .kwFor =>
    let _ ← advance tokens
    by apply forStatement
  | .kwIf =>
    let _ ← advance tokens
    by apply ifStatement
  | .kwPrint =>
    let _ ← advance tokens
    printStatement tokens
  | .kwWhile =>
    let _ ← advance tokens
    by apply whileStatement
  | .leftBrace =>
    let _ ← advance tokens
    by apply block
  | _ => expressionStatement tokens
partial_fixpoint

def block : Parser Stmt := do
  let slots ← by apply declarations; exact (· == .rightBrace)
  consumeAfter tokens .rightBrace .block
  return .block slots
partial_fixpoint

def ifStatement : Parser Stmt := do
  consumeAfter tokens .leftParen .ifKeyword
  let condition ← expression tokens
  consumeAfter tokens .rightParen .ifCondition
  let yes ← by apply statement
  let no ← by apply elseBranch
  return .branch condition yes no
partial_fixpoint

def elseBranch : Parser (Option Stmt) := do
  if ← matchKind tokens .kwElse then
    some <$> by apply statement
  else
    return none
partial_fixpoint

def whileStatement : Parser Stmt := do
  consumeAfter tokens .leftParen .whileKeyword
  let condition ← expression tokens
  consumeAfter tokens .rightParen .condition
  let body ← by apply statement
  return .loop condition body
partial_fixpoint

def forStatement : Parser Stmt := do
  let keyword ← previous tokens
  consumeAfter tokens .leftParen .forKeyword
  let init ← forInitializer tokens
  let condition ← expressionUntil tokens .semicolon
  consumeAfter tokens .semicolon .loopCondition
  let increment ← expressionUntil tokens .rightParen
  consumeAfter tokens .rightParen .forClauses
  let body ← by apply statement
  return Rule.forLoop keyword.line init condition increment body
partial_fixpoint

end

/-! ### Programs -/

/-- The tokens with an end-of-input token at the end, which is supplied on the line of the last token if it is
missing. -/
def closed (tokens : List Token) : List Token :=
  match tokens.getLast? with
  | some last => if last.kind = .eof then tokens else tokens ++ [Token.eof last.line]
  | none => [Token.eof 1]

def parse (tokens : List Token) : Option Parse :=
  match declarations (closed tokens).toArray (fun _ => false) ⟨0, 0, []⟩ with
  | some (.ok slots, s) => some ⟨slots, s.errors⟩
  | _ => none

end Cursor

end Lox
