import Lox.Diagnostic.Basic
import Lox.Token.Basic
/-!
# Faults of the grammar

What a token list can do wrong, and how it is told.
-/

namespace Lox

/-- The part of a statement after which a symbol is required. -/
inductive Clause where
  | variableDeclaration
  | forKeyword
  | loopCondition
  | forClauses
  | ifKeyword
  | ifCondition
  | whileKeyword
  | condition
  | printedValue
  | expression
  | block
deriving DecidableEq, Repr

namespace Clause

def text : Clause → String
  | variableDeclaration => "variable declaration"
  | forKeyword => "'for'"
  | loopCondition => "loop condition"
  | forClauses => "for clauses"
  | ifKeyword => "'if'"
  | ifCondition => "if condition"
  | whileKeyword => "'while'"
  | condition => "condition"
  | printedValue => "value"
  | expression => "expression"
  | block => "block"

end Clause

/-- Why a token does not fit where it stands. -/
inductive ParseFault where
  | missing (symbol : TokenKind) (after : Clause)
  | missingName
  | missingExpression
  | invalidTarget
  | tooDeep
deriving DecidableEq, Repr

namespace ParseFault

def message : ParseFault → String
  | missing symbol after => "Expect '" ++ symbol.spelling ++ "' after " ++ after.text ++ "."
  | missingName => "Expect variable name."
  | missingExpression => "Expect expression."
  | invalidTarget => "Invalid assignment target."
  | tooDeep => "Too much nesting."

end ParseFault

structure ParseError where
  fault : ParseFault
  token : Token
deriving DecidableEq

namespace ParseError

/-- The place of an error: the text of its token, or the end of input. -/
def place (e : ParseError) : Place :=
  if e.token.kind = .eof then .inputEnd else .lexeme e.token.lexeme

def diagnostic (e : ParseError) : Diagnostic :=
  ⟨.parsing, some e.token.line, e.place, e.fault.message⟩

end ParseError

end Lox
