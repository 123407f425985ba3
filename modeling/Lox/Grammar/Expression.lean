import Lox.Grammar.Rule
import Lox.Tree.Basic
/-!
# The grammar of expressions

An expression is an assignment or a cascade of infix levels over operands. Each open expression and
each operand of a unary operator counts as one level of nesting; the rules take the number of levels
that may still be opened, and fail when none is left.
-/

namespace Lox

namespace Rule

/-- An operator of the level and its right operand, with the operator's line. -/
def operation (level : Level) (operand : Rule Expr) : Rule (Option (InfixOp × Nat × Expr)) :=
  choose
    (fun token => (InfixOp.ofKind? level token.kind).map fun op => do
      let right ← operand
      pure (some (op, token.line, right)))
    (pure none)

/-- Operands joined by operators of one level, which group to the left. -/
def chain (level : Level) (operand : Rule Expr) : Rule Expr := do
  let first ← operand
  let operations ← many (operation level operand)
  pure (operations.foldl (fun left (op, line, right) => op.join line left right) first)

/-- All infix levels over an operand. -/
def cascade (operand : Rule Expr) : Rule Expr :=
  Level.all.foldr chain operand

/-- A cascade, and the value assigned to it if an equals sign follows. Only a variable can be
assigned to; for anything else the fault is noted, and the left side stands alone. -/
def assignment (operand value : Rule Expr) : Rule Expr := do
  let target ← cascade operand
  match ← accept? .equal with
  | none => pure target
  | some equals =>
    let value ← value
    match target with
    | .var name => pure (.assign name value)
    | _ =>
      note .invalidTarget equals
      pure target

/-- A literal, a variable, or an expression in parentheses. -/
def primary (inner : Rule Expr) : Rule Expr :=
  choose
    (fun token =>
      match token.kind with
      | .kwFalse => some (pure (.literal (.bool false) token.line))
      | .kwTrue => some (pure (.literal (.bool true) token.line))
      | .kwNil => some (pure (.literal .nil token.line))
      | .number | .string =>
        token.literal.map fun literal => pure (.literal literal.value token.line)
      | .identifier => some (pure (.var token))
      | .leftParen => some do
        let inner ← inner
        close .rightParen .expression
        pure (.group inner token.line)
      | _ => none)
    (fail .missingExpression)

/-- A unary operator and its operand, or a primary expression. -/
def operandOver (deeper inner : Rule Expr) : Rule Expr :=
  choose
    (fun token => (UnaryOp.ofKind? token.kind).map fun op => do
      let right ← deeper
      pure (.unary op right token.line))
    (primary inner)

mutual

/-- An expression, when `depth` more levels may be opened. -/
def expression : Nat → Rule Expr
  | 0 => fail .tooDeep
  | depth + 1 => assignment (operand depth) (expression depth)

/-- An operand of an infix level, when `depth` more levels may be opened. -/
def operand : Nat → Rule Expr
  | 0 => operandOver (fail .tooDeep) (fail .tooDeep)
  | depth + 1 => operandOver (operand depth) (assignment (operand depth) (expression depth))

end

end Rule

end Lox
