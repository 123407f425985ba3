/-!
# Command lines

What a list of arguments asks for. Arguments are read from left to right. A value that stands as an
argument of its own, a script or the value of `--color`, is checked when the next known argument is
met or at the end, so an unknown argument right behind a bad value is what gets refused.
-/

namespace Lox

inductive ColorChoice where
  | auto
  | always
  | never
deriving DecidableEq, Repr

namespace ColorChoice

/-- The choice with the given name, in any case. -/
def ofName? (name : String) : Option ColorChoice :=
  match name.toLower with
  | "auto" => some auto
  | "always" => some always
  | "never" => some never
  | _ => none

/-- Whether color is on, unless that is left to the terminal. -/
def enabled? : ColorChoice → Option Bool
  | auto => none
  | always => some true
  | never => some false

end ColorChoice

inductive Mode where
  | run
  | tokens
  | tree
deriving DecidableEq, Repr

inductive Shell where
  | bash
  | elvish
  | fish
  | powershell
  | zsh
deriving DecidableEq, Repr

namespace Shell

def name : Shell → String
  | bash => "bash"
  | elvish => "elvish"
  | fish => "fish"
  | powershell => "powershell"
  | zsh => "zsh"

def all : List Shell := [bash, elvish, fish, powershell, zsh]

def ofName? (name : String) : Option Shell :=
  all.find? (·.name == name)

end Shell

/-- Why a command line starts nothing: it asks for help or the version, or it is wrong. -/
inductive Refusal where
  | help
  | version
  | missingValue
  | unknownColor (value : String)
  | emptyScript
  | secondScript (value : String)
  | repeated (option : String)
  | tokensWithTree
  | unknownArgument (text : String)
  | unneededValue (option : String)
  | missingShell
  | unknownShell (value : String)
  | unknownCommand (name : String)
deriving DecidableEq, Repr

namespace Refusal

/-- Whether the command line is wrong, rather than a question. -/
def isError : Refusal → Bool
  | help | version => false
  | _ => true

def message : Refusal → String
  | help => "Usage: [OPTIONS] [SCRIPT]"
  | version => "slox 0.1.0"
  | missingValue => "error: a value is required for '--color <WHEN>'"
  | unknownColor value => "error: invalid value '" ++ value ++ "' for '--color <WHEN>'"
  | emptyScript => "error: a value is required for '[SCRIPT]'"
  | secondScript value => "error: unexpected argument '" ++ value ++ "'"
  | repeated option => "error: the argument '" ++ option ++ "' cannot be used multiple times"
  | tokensWithTree => "error: the argument '--tokens' cannot be used with '--ast'"
  | unknownArgument text => "error: unexpected argument '" ++ text ++ "'"
  | unneededValue option => "error: unexpected value for '" ++ option ++ "'"
  | missingShell => "error: a shell is required"
  | unknownShell value => "error: invalid value '" ++ value ++ "' for '<SHELL>'"
  | unknownCommand name => "error: unrecognized subcommand '" ++ name ++ "'"

end Refusal

structure Options where
  script : Option String := none
  color : ColorChoice := .auto
  verbose : Bool := false
  mode : Mode := .run
deriving DecidableEq, Repr

/-- What a command line asks for: a session, or completions for a shell. -/
inductive Command where
  | start (options : Options)
  | complete (shell : Shell)
deriving DecidableEq, Repr

/-- An argument by its form: the mark behind which no options follow, a long option with a value
attached by an equals sign or without, a cluster of one-letter options, or anything else. -/
inductive Argument where
  | mark
  | long (name : String) (value : Option String)
  | short (letters : List Char)
  | plain (text : String)
deriving DecidableEq, Repr

namespace Argument

/-- The form of an argument. A dash alone is no option. -/
def ofText (text : String) : Argument :=
  match text.toList with
  | ['-', '-'] => mark
  | '-' :: '-' :: rest =>
    match rest.dropWhile (· ≠ '=') with
    | [] => long (String.ofList rest) none
    | _ :: value => long (String.ofList (rest.takeWhile (· ≠ '='))) (some (String.ofList value))
  | '-' :: c :: rest => short (c :: rest)
  | _ => plain text

end Argument

/-- Options without a value. -/
inductive Flag where
  | help
  | version
  | verbose
  | tokens
  | tree
deriving DecidableEq, Repr

namespace Flag

def ofLong? : String → Option Flag
  | "help" => some help
  | "version" => some version
  | "verbose" => some verbose
  | "tokens" => some tokens
  | "ast" => some tree
  | _ => none

def ofShort? : Char → Option Flag
  | 'h' => some help
  | 'V' => some version
  | 'v' => some verbose
  | _ => none

def name : Flag → String
  | help => "--help"
  | version => "--version"
  | verbose => "--verbose"
  | tokens => "--tokens"
  | tree => "--ast"

end Flag

/-- A value that has been read but not checked: the value of `--color`, still to come or there, or a
script. -/
inductive Pending where
  | color (value : Option String)
  | script (path : String)
deriving DecidableEq, Repr

/-- The command line as far as it has been read. -/
structure Draft where
  script : Option String := none
  color : Option ColorChoice := none
  flags : List Flag := []
  pending : Option Pending := none

namespace Draft

/-- Takes a value for `--color`, which may be given once. -/
def setColor (draft : Draft) (value : String) : Except Refusal Draft :=
  if draft.color.isSome then .error (.repeated "--color")
  else
    match ColorChoice.ofName? value with
    | some color => .ok { draft with color := some color }
    | none => .error (.unknownColor value)

/-- Checks the value that is pending. -/
def settle (draft : Draft) : Except Refusal Draft :=
  let settled := { draft with pending := none }
  match draft.pending with
  | none => .ok settled
  | some (.color none) => .error .missingValue
  | some (.color (some value)) => settled.setColor value
  | some (.script path) =>
    if path.isEmpty then .error .emptyScript else .ok { settled with script := some path }

/-- Raises a flag, which may be given once. Help and version end the reading. -/
def raise (draft : Draft) (flag : Flag) : Except Refusal Draft := do
  let draft ← draft.settle
  match flag with
  | .help => .error .help
  | .version => .error .version
  | flag =>
    if flag ∈ draft.flags then .error (.repeated flag.name)
    else .ok { draft with flags := flag :: draft.flags }

def raiseAll (draft : Draft) : List Char → Except Refusal Draft
  | [] => .ok draft
  | c :: rest =>
    match Flag.ofShort? c with
    | none => .error (.unknownArgument ("-" ++ String.singleton c))
    | some flag => do
      let draft ← draft.raise flag
      draft.raiseAll rest

def readLong (draft : Draft) (name : String) (value : Option String) : Except Refusal Draft :=
  if name = "color" then do
    let draft ← draft.settle
    match value with
    | some value => draft.setColor value
    | none => .ok { draft with pending := some (.color none) }
  else
    match Flag.ofLong? name, value with
    | none, _ => .error (.unknownArgument ("--" ++ name))
    | some flag, some _ => .error (.unneededValue flag.name)
    | some flag, none => draft.raise flag

/-- Reads a script. There may be only one. -/
def readScript (draft : Draft) (text : String) : Except Refusal Draft :=
  match draft.script, draft.pending with
  | some _, _ | _, some (.script _) => .error (.secondScript text)
  | none, _ => do
    let draft ← draft.settle
    .ok { draft with pending := some (.script text) }

/-- Reads an argument that is no option: the value that is waited for, or a script. -/
def readPlain (draft : Draft) (text : String) : Except Refusal Draft :=
  match draft.pending with
  | some (.color none) => .ok { draft with pending := some (.color (some text)) }
  | _ => draft.readScript text

def finish (draft : Draft) : Except Refusal Options := do
  let draft ← draft.settle
  if .tokens ∈ draft.flags ∧ .tree ∈ draft.flags then .error .tokensWithTree
  else
    .ok
      { script := draft.script
        color := draft.color.getD .auto
        verbose := decide (.verbose ∈ draft.flags)
        mode :=
          if .tokens ∈ draft.flags then .tokens
          else if .tree ∈ draft.flags then .tree
          else .run }

def readAll (draft : Draft) : List String → Except Refusal Draft
  | [] => .ok draft
  | text :: rest =>
    match Argument.ofText text with
    | .mark => rest.foldlM readScript draft
    | .long name value => do
      let draft ← draft.readLong name value
      draft.readAll rest
    | .short letters => do
      let draft ← draft.raiseAll letters
      draft.readAll rest
    | .plain text => do
      let draft ← draft.readPlain text
      draft.readAll rest

end Draft

namespace Shell

def check : Option String → Except Refusal Shell
  | none => .error .missingShell
  | some name =>
    match ofName? name with
    | some shell => .ok shell
    | none => .error (.unknownShell name)

/-- Answers a request for help about completions, after the shell that may stand before it. -/
def helpAfter : Option String → Except Refusal Shell
  | none => .error .help
  | some name => do
    let _ ← check (some name)
    .error .help

/-- Reads a shell behind which nothing follows. -/
def readPlain (given : Option String) : List String → Except Refusal Shell
  | [] => check given
  | text :: rest =>
    match given with
    | none => readPlain (some text) rest
    | some _ => .error (.unknownArgument text)

/-- Reads the arguments of the completions command: one shell, and no options but help. -/
def readAll (given : Option String) : List String → Except Refusal Shell
  | [] => check given
  | text :: rest =>
    match Argument.ofText text with
    | .mark => readPlain given rest
    | .long "help" none | .short ('h' :: _) => helpAfter given
    | .long "help" (some _) => .error (.unneededValue "--help")
    | .plain text =>
      match given with
      | none => readAll (some text) rest
      | some _ => .error (.unknownArgument text)
    | _ => .error (.unknownArgument text)

end Shell

namespace Command

/-- Reads a command line. The commands `complete` and `help` are known as first arguments only. -/
def ofArguments : List String → Except Refusal Command
  | "complete" :: rest => do
    let shell ← Shell.readAll none rest
    .ok (.complete shell)
  | "help" :: rest =>
    match rest with
    | [] | ["complete"] | ["help"] => .error .help
    | "complete" :: name :: _ | "help" :: name :: _ | name :: _ => .error (.unknownCommand name)
  | arguments => do
    let draft ← ({} : Draft).readAll arguments
    let options ← draft.finish
    .ok (.start options)

end Command

end Lox
