/-!
# Files

Reading a file by its path, in a directory that holds given files, and the ways in which that fails.
-/

namespace Lox

inductive ReadError where
  | notFound
  | isDirectory
  | notDirectory
  | nameTooLong
  | notText
  | other (reason : String)
deriving DecidableEq, Repr

namespace ReadError

def message : ReadError → String
  | notFound => "No such file or directory (os error 2)"
  | isDirectory => "Is a directory (os error 21)"
  | notDirectory => "Not a directory (os error 20)"
  | nameTooLong => "File name too long (os error 36)"
  | notText => "stream did not contain valid UTF-8"
  | other reason => reason

end ReadError

def textOfBytes (bytes : ByteArray) : Except ReadError String :=
  match String.fromUTF8? bytes with
  | some text => .ok text
  | none => .error .notText

/-- A directory with files in it, by their paths. -/
structure Directory where
  files : List (String × ByteArray) := []

/-- Where a path leads: into the directory or one below it, by the names on the way, out of it, or to
a file. -/
inductive Spot where
  | inside (names : List String)
  | outside
  | file (bytes : ByteArray)

namespace Directory

def maxPartBytes : Nat := 255

def maxPathBytes : Nat := 4095

def hasBelow (d : Directory) (names : List String) : Bool :=
  d.files.any fun (path, _) =>
    let parts := path.splitOn "/"
    names.isPrefixOf parts && names.length < parts.length

/-- Goes one part of a path further. A part that is too long is refused before it is looked up, and
a file has no parts at all. -/
def step (d : Directory) (spot : Spot) (part : String) : Except ReadError Spot :=
  match spot with
  | .file _ => .error .notDirectory
  | .outside =>
    if part = "" ∨ part = "." ∨ part = ".." then .ok .outside
    else if maxPartBytes < part.utf8ByteSize then .error .nameTooLong
    else .error .notFound
  | .inside names =>
    if part = "" ∨ part = "." then .ok spot
    else if maxPartBytes < part.utf8ByteSize then .error .nameTooLong
    else if part = ".." then
      if names.isEmpty then .ok .outside else .ok (.inside names.dropLast)
    else
      let names := names ++ [part]
      match d.files.lookup ("/".intercalate names) with
      | some bytes => .ok (.file bytes)
      | none => if d.hasBelow names then .ok (.inside names) else .error .notFound

def read (d : Directory) (path : String) : Except ReadError ByteArray := do
  if maxPathBytes < path.utf8ByteSize then
    throw .nameTooLong
  if path.isEmpty then
    throw .notFound
  let start := if path.startsWith "/" then Spot.outside else .inside []
  match ← (path.splitOn "/").foldlM d.step start with
  | .file bytes => .ok bytes
  | _ => .error .isDirectory

end Directory

end Lox
