import Lox.Value
/-!
# Tokens

The kinds of tokens with their names and spellings, the literals that tokens carry, and the tokens
themselves.
-/

namespace Lox

/-- The kinds of tokens: symbols, kinds whose tokens have a text of their own, keywords, and the end
of input. -/
inductive TokenKind where
  | leftParen | rightParen | leftBrace | rightBrace
  | comma | dot | minus | plus | semicolon | slash | star
  | bang | bangEqual | equal | equalEqual
  | greater | greaterEqual | less | lessEqual
  | identifier | string | number
  | kwAnd | kwClass | kwElse | kwFalse | kwFun | kwFor | kwIf | kwNil | kwOr
  | kwPrint | kwReturn | kwSuper | kwThis | kwTrue | kwVar | kwWhile
  | eof
deriving DecidableEq, Repr

namespace TokenKind

def symbols : List TokenKind :=
  [leftParen, rightParen, leftBrace, rightBrace, comma, dot, minus, plus, semicolon, slash, star,
   bang, bangEqual, equal, equalEqual, greater, greaterEqual, less, lessEqual]

def keywords : List TokenKind :=
  [kwAnd, kwClass, kwElse, kwFalse, kwFun, kwFor, kwIf, kwNil, kwOr, kwPrint, kwReturn, kwSuper,
   kwThis, kwTrue, kwVar, kwWhile]

def all : List TokenKind :=
  symbols ++ [identifier, string, number] ++ keywords ++ [eof]

/-- The spelling of a symbol or keyword. Kinds whose tokens have a text of their own, and the end of
input, have none. -/
def spelling : TokenKind → String
  | leftParen => "("
  | rightParen => ")"
  | leftBrace => "\x7b"
  | rightBrace => "\x7d"
  | comma => ","
  | dot => "."
  | minus => "-"
  | plus => "+"
  | semicolon => ";"
  | slash => "/"
  | star => "*"
  | bang => "!"
  | bangEqual => "!="
  | equal => "="
  | equalEqual => "=="
  | greater => ">"
  | greaterEqual => ">="
  | less => "<"
  | lessEqual => "<="
  | kwAnd => "and"
  | kwClass => "class"
  | kwElse => "else"
  | kwFalse => "false"
  | kwFun => "fun"
  | kwFor => "for"
  | kwIf => "if"
  | kwNil => "nil"
  | kwOr => "or"
  | kwPrint => "print"
  | kwReturn => "return"
  | kwSuper => "super"
  | kwThis => "this"
  | kwTrue => "true"
  | kwVar => "var"
  | kwWhile => "while"
  | identifier | string | number | eof => ""

/-- The name of a kind in token listings. -/
def name : TokenKind → String
  | leftParen => "LeftParen"
  | rightParen => "RightParen"
  | leftBrace => "LeftBrace"
  | rightBrace => "RightBrace"
  | comma => "Comma"
  | dot => "Dot"
  | minus => "Minus"
  | plus => "Plus"
  | semicolon => "Semicolon"
  | slash => "Slash"
  | star => "Star"
  | bang => "Bang"
  | bangEqual => "BangEqual"
  | equal => "Equal"
  | equalEqual => "EqualEqual"
  | greater => "Greater"
  | greaterEqual => "GreaterEqual"
  | less => "Less"
  | lessEqual => "LessEqual"
  | identifier => "Identifier"
  | string => "String"
  | number => "Number"
  | kwAnd => "And"
  | kwClass => "Class"
  | kwElse => "Else"
  | kwFalse => "False"
  | kwFun => "Fun"
  | kwFor => "For"
  | kwIf => "If"
  | kwNil => "Nil"
  | kwOr => "Or"
  | kwPrint => "Print"
  | kwReturn => "Return"
  | kwSuper => "Super"
  | kwThis => "This"
  | kwTrue => "True"
  | kwVar => "Var"
  | kwWhile => "While"
  | eof => "Eof"

def ofName? (name : String) : Option TokenKind :=
  all.find? (·.name == name)

def keyword? (word : String) : Option TokenKind :=
  keywords.find? (·.spelling == word)

def symbol? (text : String) : Option TokenKind :=
  symbols.find? (·.spelling == text)

/-- No two keywords are spelled alike, so the first one found is the only one. -/
theorem keyword?_eq_some_iff {word : String} {kind : TokenKind} :
    keyword? word = some kind ↔ kind ∈ keywords ∧ kind.spelling = word := by
  have hall : ∀ kind ∈ keywords, keyword? kind.spelling = some kind := by decide
  constructor
  · intro h
    exact ⟨List.mem_of_find?_eq_some h, by simpa using List.find?_some h⟩
  · rintro ⟨hmem, rfl⟩
    exact hall kind hmem

/-- Whether a token of this kind opens a statement, so that parsing can resume at it. -/
def startsStatement : TokenKind → Bool
  | kwClass | kwFun | kwVar | kwFor | kwIf | kwWhile | kwPrint | kwReturn => true
  | _ => false

end TokenKind

/-- The value that a token stands for by itself. -/
inductive Literal where
  | number (n : Number)
  | string (s : String)
deriving DecidableEq

namespace Literal

def value : Literal → Value
  | number n => .number n
  | string s => .string s

def text : Literal → String
  | number n => n.literalText
  | string s => s

end Literal

/-- A token: its kind, the text it was read from, its literal if it has one, and its line. -/
structure Token where
  kind : TokenKind
  lexeme : String
  literal : Option Literal
  line : Nat
deriving DecidableEq

namespace Token

def eof (line : Nat) : Token :=
  ⟨.eof, "", none, line⟩

/-- The token's line in a listing: kind, text and literal. -/
def text (t : Token) : String :=
  t.kind.name ++ " " ++ t.lexeme ++ " " ++ (t.literal.map Literal.text).getD "null"

end Token

end Lox
