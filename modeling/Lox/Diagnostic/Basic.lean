/-!
# Diagnostics

A report of something wrong with a source or a run: the stage that found it, where, and a message.
-/

namespace Lox

inductive Stage where
  | scanning
  | parsing
  | running
deriving DecidableEq, Repr

/-- The place within a line that a diagnostic points at. -/
inductive Place where
  | unspecified
  | inputEnd
  | lexeme (text : String)
deriving DecidableEq, Repr

namespace Place

def text : Place → String
  | unspecified => ""
  | inputEnd => " at end"
  | lexeme text => " at '" ++ text ++ "'"

end Place

structure Diagnostic where
  stage : Stage
  line : Option Nat
  place : Place
  message : String
deriving DecidableEq, Repr

namespace Diagnostic

def isRuntime (d : Diagnostic) : Bool :=
  d.stage == .running

/-- The text of a diagnostic. A fault at run time gives its line below the message, a fault of the
source before it. -/
def text (d : Diagnostic) : String :=
  match d.stage, d.line with
  | .running, some line => d.message ++ "\n[line " ++ Nat.repr line ++ "]"
  | .running, none => d.message
  | _, some line => "[line " ++ Nat.repr line ++ "] Error" ++ d.place.text ++ ": " ++ d.message
  | _, none => "Error" ++ d.place.text ++ ": " ++ d.message

end Diagnostic

end Lox
