import Lox.Grammar.Expression
/-!
# The grammar of statements

A declaration that fails leaves a hole, and reading resumes at the next place where a statement may
start. Each open statement counts as a level of nesting, like an open expression.
-/

namespace Lox

namespace Rule

/-- The tokens at which reading resumes after `previous`: those behind a semicolon, or from a token
that opens a statement. -/
def resumeAfter (previous : Token) : List Token → List Token
  | [] => []
  | token :: rest =>
    if previous.kind = .semicolon ∨ token.kind.startsStatement then token :: rest
    else resumeAfter token rest

/-- The tokens at which reading resumes after a failure. The token that did not fit is dropped. -/
def resume : List Token → List Token
  | [] => []
  | token :: rest => resumeAfter token rest

/-- Turns a failure into a hole: notes the fault at the next token and resumes behind it. -/
def recovering {α : Type} (rule : Rule α) : Rule (Option α) :=
  fun tokens =>
    match rule tokens with
    | ⟨.ok a, findings, rest⟩ => ⟨.ok (some a), findings, rest⟩
    | ⟨.error fault, findings, rest⟩ =>
      ⟨.ok none, findings ++ [⟨fault, rest.head?⟩], resume rest⟩

/-- A variable declaration after its keyword. -/
def variableDeclaration (expression : Rule Expr) : Rule Stmt := do
  let name ← expect .identifier .missingName
  let init ← optionalAfter .equal expression
  close .semicolon .variableDeclaration
  pure (.declare name init)

/-- A declaration: a variable declaration, or a statement. -/
def declaration (expression : Rule Expr) (statement : Rule Stmt) : Rule Slot :=
  recovering (choose
    (fun token => if token.kind = .kwVar then some (variableDeclaration expression) else none)
    statement)

/-- The declarations up to the end or to a token where they stop. -/
def declarations (stops : Token → Bool) (expression : Rule Expr) (statement : Rule Stmt) :
    Rule (List Slot) :=
  many (unlessAt stops (declaration expression statement))

/-- A block after its opening brace. -/
def blockStatement (expression : Rule Expr) (statement : Rule Stmt) : Rule Stmt := do
  let slots ← declarations (·.kind == .rightBrace) expression statement
  close .rightBrace .block
  pure (.block slots)

def expressionStatement (expression : Rule Expr) : Rule Stmt := do
  let e ← expression
  close .semicolon .expression
  pure (.expression e)

def printStatement (expression : Rule Expr) : Rule Stmt := do
  let e ← expression
  close .semicolon .printedValue
  pure (.print e)

/-- A conditional after its keyword. An `else` belongs to the nearest one that is still open. -/
def ifStatement (expression : Rule Expr) (statement : Rule Stmt) : Rule Stmt := do
  close .leftParen .ifKeyword
  let condition ← expression
  close .rightParen .ifCondition
  let yes ← statement
  let no ← optionalAfter .kwElse statement
  pure (.branch condition yes no)

def whileStatement (expression : Rule Expr) (statement : Rule Stmt) : Rule Stmt := do
  close .leftParen .whileKeyword
  let condition ← expression
  close .rightParen .condition
  let body ← statement
  pure (.loop condition body)

/-- The first clause of a for loop, with its semicolon. -/
def forInitializer (expression : Rule Expr) : Rule (Option Stmt) :=
  choose
    (fun token =>
      match token.kind with
      | .semicolon => some (pure none)
      | .kwVar => some (some <$> variableDeclaration expression)
      | _ => none)
    (some <$> expressionStatement expression)

/-- The loop that a for statement stands for. The increment runs after the body in a block with it,
a missing condition is true, and the initializer runs before the loop in a block around it. -/
def forLoop (line : Nat) (init : Option Stmt) (condition increment : Option Expr) (body : Stmt) :
    Stmt :=
  let body :=
    match increment with
    | none => body
    | some e => .block [some body, some (.expression e)]
  let loop := Stmt.loop (condition.getD (.literal (.bool true) line)) body
  match init with
  | none => loop
  | some s => .block [some s, some loop]

/-- A for loop after its keyword, which stands on the given line. -/
def forStatement (line : Nat) (expression : Rule Expr) (statement : Rule Stmt) : Rule Stmt := do
  close .leftParen .forKeyword
  let init ← forInitializer expression
  let condition ← optionalUntil .semicolon expression
  close .semicolon .loopCondition
  let increment ← optionalUntil .rightParen expression
  close .rightParen .forClauses
  let body ← statement
  pure (forLoop line init condition increment body)

/-- A statement whose parts are read by the given rules. -/
def statementOver (expression : Rule Expr) (statement : Rule Stmt) : Rule Stmt :=
  choose
    (fun token =>
      match token.kind with
      | .kwFor => some (forStatement token.line expression statement)
      | .kwIf => some (ifStatement expression statement)
      | .kwPrint => some (printStatement expression)
      | .kwWhile => some (whileStatement expression statement)
      | .leftBrace => some (blockStatement expression statement)
      | _ => none)
    (expressionStatement expression)

/-- A statement, when `depth` more levels may be opened. -/
def statement : Nat → Rule Stmt
  | 0 => fail .tooDeep
  | depth + 1 => statementOver (expression depth) (statement depth)

/-- How many statements, expressions and operands of unary operators may be open at once. -/
def maxNesting : Nat := 128

def program : Rule (List Slot) :=
  declarations (fun _ => false) (expression maxNesting) (statement maxNesting)

end Rule

structure Parse where
  slots : List Slot
  errors : List ParseError

/-- The token that ends a token list: its first end-of-input token, or one on the line of the last
token. -/
def endToken (tokens : List Token) : Token :=
  (tokens.find? (·.kind == .eof)).getD (.eof ((tokens.getLast?.map (·.line)).getD 1))

/-- Parses the tokens before the first end-of-input token. -/
def parse (tokens : List Token) : Parse :=
  let reply := Rule.program (tokens.takeWhile (·.kind != .eof))
  { slots := reply.result.toOption.getD []
    errors := reply.findings.map fun f => ⟨f.fault, f.token.getD (endToken tokens)⟩ }

end Lox
