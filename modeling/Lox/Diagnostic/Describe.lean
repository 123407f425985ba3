import Lox.Character.Visible
import Lox.Diagnostic.Journal
/-!
# Journals in full

A description of a journal for debugging, which shows every field of every diagnostic.
-/

namespace Lox

/-- A character of a quoted text. One that is not visible is shown by its code. -/
def describeChar (c : Char) : String :=
  match c with
  | '"' => "\\\""
  | '\\' => "\\\\"
  | '\n' => "\\n"
  | '\r' => "\\r"
  | '\t' => "\\t"
  | '\x00' => "\\0"
  | c =>
    if Character.isVisible c then
      String.singleton c
    else
      "\\u\x7b" ++ String.ofList (Nat.toDigits 16 c.toNat) ++ "\x7d"

def describeText (s : String) : String :=
  "\"" ++ String.join (s.toList.map describeChar) ++ "\""

def Stage.describe : Stage → String
  | scanning => "Lexical"
  | parsing => "Syntax"
  | running => "Runtime"

def Place.describe : Place → String
  | unspecified => "None"
  | inputEnd => "AtEnd"
  | lexeme text => "At(" ++ describeText text ++ ")"

namespace Diagnostic

def describeLine : Option Nat → String
  | none => "None"
  | some line => "Some(" ++ Nat.repr line ++ ")"

def describe (d : Diagnostic) : String :=
  "Diagnostic \x7b kind: " ++ d.stage.describe ++ ", line: " ++ describeLine d.line
    ++ ", location: " ++ d.place.describe ++ ", message: " ++ describeText d.message ++ " \x7d"

end Diagnostic

/-- The records of a journal, and whether it has a reporter. -/
def Journal.describe (j : Journal) : String :=
  "Diagnostics \x7b records: [" ++ ", ".intercalate (j.records.map Diagnostic.describe)
    ++ "], reporter: " ++ (if j.seen.isSome then "true" else "false") ++ " \x7d"

end Lox
