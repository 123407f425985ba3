import Lox.Token.Basic
/-!
# Tokens as JSON

A token list is written as a JSON array with one object per token, on one line or indented by two
spaces for each level.
-/

namespace Lox

inductive JsonLayout where
  | compact
  | pretty
deriving DecidableEq, Repr

namespace Json

/-- The hexadecimal digits of a control character. -/
def controlDigits (c : Char) : List Char :=
  [Nat.digitChar (c.toNat / 16), Nat.digitChar (c.toNat % 16)]

/-- A character inside a JSON string. -/
def escape (c : Char) : List Char :=
  if c = '"' then ['\\', '"']
  else if c = '\\' then ['\\', '\\']
  else if c = '\n' then ['\\', 'n']
  else if c = '\r' then ['\\', 'r']
  else if c = '\t' then ['\\', 't']
  else if c = '\x08' then ['\\', 'b']
  else if c = '\x0c' then ['\\', 'f']
  else if c.toNat < 0x20 then ['\\', 'u', '0', '0'] ++ controlDigits c
  else [c]

def quoted (s : String) : List Char :=
  '"' :: s.toList.flatMap escape ++ ['"']

/-- Blanks before an item that is nested `depth` levels deep. -/
def lineStart (layout : JsonLayout) (depth : Nat) : List Char :=
  match layout with
  | .compact => []
  | .pretty => '\n' :: List.replicate (2 * depth) ' '

/-- Items between brackets, each on a line of its own in the pretty layout. -/
def bracketed (layout : JsonLayout) (depth : Nat) (opening closing : Char)
    (items : List (List Char)) : List Char :=
  match items with
  | [] => [opening, closing]
  | _ => opening
      :: List.intercalate [','] (items.map (lineStart layout (depth + 1) ++ ·))
      ++ lineStart layout depth ++ [closing]

def member (layout : JsonLayout) (key : String) (value : List Char) : List Char :=
  match layout with
  | .compact => quoted key ++ ':' :: value
  | .pretty => quoted key ++ ':' :: ' ' :: value

end Json

namespace Literal

def json : Literal → List Char
  | number n => n.json.toList
  | string s => Json.quoted s

end Literal

namespace Token

def json (layout : JsonLayout) (t : Token) : List Char :=
  Json.bracketed layout 1 '\x7b' '\x7d'
    [Json.member layout "kind" (Json.quoted t.kind.name),
     Json.member layout "lexeme" (Json.quoted t.lexeme),
     Json.member layout "line" (Nat.toDigits 10 t.line),
     Json.member layout "literal" ((t.literal.map Literal.json).getD "null".toList)]

def jsonArray (layout : JsonLayout) (tokens : List Token) : String :=
  String.ofList (Json.bracketed layout 0 '[' ']' (tokens.map (json layout)))

end Token

end Lox
