import Lox.Cli.Arguments
import Lox.Cli.Directory
import Lox.Diagnostic.Styled
import Lox.Session
import Lox.Token.Json
import Lox.Tree.Print
/-!
# The console

What the program writes to its two output streams. A script is one source; at the prompt each line is
a source of its own, and what the lines before it reported is forgotten.
-/

namespace Lox

/-- What decides about the handling of sources. -/
structure Console where
  color : Bool := false
  mode : Mode := .run
deriving DecidableEq, Repr

/-- A session after a source, and what was written on the way. -/
structure Response where
  session : Session
  output : String
  errors : String

/-- How the program ends, and all it has written. -/
structure Outcome where
  exit : UInt32
  output : String := ""
  errors : String := ""
deriving DecidableEq, Repr

namespace Outcome

def usageExit : UInt32 := 2

def faultExit : UInt32 := 65

def unreadableExit : UInt32 := 74

end Outcome

namespace Console

/-- Each text on a line of its own. -/
def lines (texts : List String) : String :=
  String.join (texts.map (· ++ "\n"))

/-- A message of the program itself. -/
def complaint (console : Console) (message : String) : String :=
  (if console.color then TextStyle.alarm message else message) ++ "\n"

/-- The session a console starts with: its reporter writes the diagnostics. -/
def newSession : Session :=
  { journal := .withReporter }

/-- What is written to the error stream between two states of a session. -/
def reported (console : Console) (before after : Session) : String :=
  let old := (before.journal.seen.getD []).length
  lines (((after.journal.seen.getD []).drop old).map (Diagnostic.render console.color))

def respond (limit : Nat) (console : Console) (session : Session) (source : String) :
    Option Response :=
  match console.mode with
  | .run => do
    let after ← session.run limit source
    some
      { session := after
        output := after.machine.sink.textFrom session.machine.sink.written.size
        errors := console.reported session after }
  | .tokens =>
    let (after, tokens) := session.tokenize source
    some
      { session := after
        output := lines [Token.jsonArray .pretty tokens]
        errors := console.reported session after }
  | .tree =>
    let (after, slots) := session.load source
    some
      { session := after
        output := lines (Stmt.slotTexts slots)
        errors := console.reported session after }

def runScript (limit : Nat) (console : Console) (path : String)
    (text : Except ReadError String) : Option Outcome :=
  match text with
  | .error e =>
    some
      { exit := Outcome.unreadableExit
        errors := console.complaint ("Could not read " ++ path ++ ": " ++ e.message) }
  | .ok source => do
    let response ← console.respond limit newSession source
    some
      { exit := if response.session.journal.records.isEmpty then 0 else Outcome.faultExit
        output := response.output
        errors := response.errors }

def promptText : String := "> "

/-- Handles the lines typed at the prompt, up to the end or to one that is no text. -/
def converse (limit : Nat) (console : Console) (session : Session) : List ByteArray → Option Outcome
  | [] => some { exit := 0, output := promptText }
  | line :: rest =>
    match textOfBytes line with
    | .error e =>
      some
        { exit := 0
          output := promptText
          errors := console.complaint ("Error reading input: " ++ e.message) }
    | .ok source => do
      let response ← console.respond limit session source
      let later ← console.converse limit
        { response.session with journal := response.session.journal.reset } rest
      some
        { later with
          output := promptText ++ response.output ++ later.output
          errors := response.errors ++ later.errors }

/-- Cuts input into lines, each with the newline that ends it. -/
def inputLines (line : ByteArray) : List UInt8 → List ByteArray
  | [] => if line.isEmpty then [] else [line]
  | byte :: rest =>
    if byte = 10 then line.push byte :: inputLines .empty rest
    else inputLines (line.push byte) rest

end Console

namespace Outcome

def ofRefusal (refusal : Refusal) : Outcome :=
  if refusal.isError then { exit := usageExit, errors := refusal.message ++ "\n" }
  else { exit := 0, output := refusal.message ++ "\n" }

/-- Runs the program in a directory, with the given input. Its streams are no terminals. -/
def ofArguments (limit : Nat) (directory : Directory) (input : ByteArray)
    (arguments : List String) : Option Outcome :=
  match Command.ofArguments arguments with
  | .error refusal => some (ofRefusal refusal)
  | .ok (.complete _) => some { exit := 0 }
  | .ok (.start options) =>
    let console : Console := ⟨options.color.enabled?.getD false, options.mode⟩
    match options.script with
    | some path => console.runScript limit path (directory.read path >>= textOfBytes)
    | none => console.converse limit Console.newSession (Console.inputLines .empty input.toList)

end Outcome

end Lox
