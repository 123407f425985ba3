import Lox.Diagnostic.Basic
/-!
# Diagnostics for a terminal

The text of a diagnostic with its parts colored by terminal escape sequences.
-/

namespace Lox

inductive TextStyle where
  | bold
  | blue
  | red
deriving DecidableEq, Repr

namespace TextStyle

/-- The escape sequence with the given parameter. -/
def sequence (parameter : String) : String :=
  "\x1b[" ++ parameter ++ "m"

def start : TextStyle → String
  | bold => sequence "1"
  | blue => sequence "34"
  | red => sequence "31"

/-- The sequence that turns a style off: everything for bold, the color alone for a color. -/
def stop : TextStyle → String
  | bold => sequence "0"
  | blue | red => sequence "39"

/-- A text in a style, which is marked also around an empty text. -/
def apply (style : TextStyle) (text : String) : String :=
  style.start ++ text ++ style.stop

/-- A text in bold red. -/
def alarm (text : String) : String :=
  bold.apply (red.apply text)

end TextStyle

namespace Diagnostic

open TextStyle

/-- The colored text of a diagnostic. Before a fault of the source without a line there is an empty text
in blue. -/
def styled (d : Diagnostic) : String :=
  match d.stage, d.line with
  | .running, some line => alarm d.message ++ "\n" ++ blue.apply ("[line " ++ Nat.repr line ++ "]")
  | .running, none => alarm d.message
  | _, line =>
    let lead :=
      match line with
      | some line => "[line " ++ Nat.repr line ++ "] "
      | none => ""
    blue.apply lead ++ alarm ("Error" ++ d.place.text) ++ ": " ++ bold.apply d.message

/-- The text of a diagnostic, colored or plain. -/
def render (color : Bool) (d : Diagnostic) : String :=
  if color then d.styled else d.text

end Diagnostic

end Lox
