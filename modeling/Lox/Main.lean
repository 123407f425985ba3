import Lox.Cli.Console
/-!
# The program

Reads the command line, the script or the lines of the prompt, and writes what the console answers.
-/

namespace Lox

/-- No loop gets to the end of this many rounds. -/
def roundLimit : Nat := Nat.pow 2 62

/-- Writes an outcome and gives its exit code. -/
def Outcome.write (outcome : Outcome) : IO UInt32 := do
  IO.print outcome.output
  IO.eprint outcome.errors
  return outcome.exit

/-- Why a file could not be read. Where one kind of failure has several causes, its error number, of
either sign, tells which one it is. -/
def ReadError.ofSystem : IO.Error → ReadError
  | .noFileOrDirectory .. => notFound
  | e@(.invalidArgument _ code _) => if code = 36 ∨ code = -36 then nameTooLong else other (toString e)
  | .inappropriateType _ code _ => if code = 21 ∨ code = -21 then isDirectory else notDirectory
  | e => other (toString e)

def readScript (path : String) : IO (Except ReadError String) := do
  try
    return textOfBytes (← IO.FS.readBinFile path)
  catch e =>
    return .error (.ofSystem e)

/-- Reads bytes up to the next newline. -/
partial def readLine (input : IO.FS.Stream) (line : ByteArray) : IO ByteArray := do
  let byte ← input.read 1
  if byte.isEmpty then return line
  if byte.toList == [10] then return line ++ byte
  readLine input (line ++ byte)

/-- Asks for a line and answers it, until the input ends. -/
partial def prompt (console : Console) (session : Session) (input : IO.FS.Stream) : IO UInt32 := do
  IO.print Console.promptText
  (← IO.getStdout).flush
  let line ← readLine input .empty
  if line.isEmpty then return 0
  match textOfBytes line with
  | .error e =>
    IO.eprint (console.complaint ("Error reading input: " ++ e.message))
    return 0
  | .ok source =>
    match console.respond roundLimit session source with
    | none => return 1
    | some response =>
      IO.print response.output
      IO.eprint response.errors
      prompt console { response.session with journal := response.session.journal.reset } input

end Lox

open Lox

def main (arguments : List String) : IO UInt32 := do
  match Command.ofArguments arguments with
  | .error refusal => (Outcome.ofRefusal refusal).write
  | .ok (.complete _) => return 0
  | .ok (.start options) =>
    let terminal := (← (← IO.getStdout).isTty) && (← (← IO.getStderr).isTty)
    let console : Console := ⟨options.color.enabled?.getD terminal, options.mode⟩
    match options.script with
    | none => prompt console Console.newSession (← IO.getStdin)
    | some path =>
      match console.runScript roundLimit path (← readScript path) with
      | none => return 1
      | some outcome => outcome.write
