import Lox.Diagnostic.Basic
import Lox.Token.Piece
/-!
# Scanning

Tokens and scan errors are read off the pieces of a source one by one, while the line is counted. Each
stands on the line where its piece ends, and the tokens are closed by an end-of-input token on the line
that the count has reached.
-/

namespace Lox

inductive ScanFault where
  | unexpectedCharacter (c : Char)
  | unterminatedString
deriving DecidableEq

namespace ScanFault

def message : ScanFault → String
  | unexpectedCharacter _ => "Unexpected character."
  | unterminatedString => "Unterminated string."

end ScanFault

structure ScanError where
  fault : ScanFault
  line : Nat
deriving DecidableEq

namespace ScanError

def diagnostic (e : ScanError) : Diagnostic :=
  ⟨.scanning, some e.line, .unspecified, e.fault.message⟩

end ScanError

namespace Piece

/-- The token a piece stands for, on the given line. -/
def token? (line : Nat) (p : Piece) : Option Token :=
  match p with
  | symbol kind => some ⟨kind, kind.spelling, none, line⟩
  | number whole fraction =>
    some ⟨.number, String.ofList p.text, some (.number (Number.ofDigits whole fraction)), line⟩
  | string body => some ⟨.string, String.ofList p.text, some (.string (String.ofList body)), line⟩
  | word text =>
    let word := String.ofList text
    some ⟨(TokenKind.keyword? word).getD .identifier, word, none, line⟩
  | _ => none

/-- The line reached behind a piece that starts on the given line. Only newlines and strings, closed or
not, move it on. -/
def lineBehind (line : Nat) (p : Piece) : Nat :=
  match p with
  | newline => line + 1
  | string _ => line + p.newlines
  | openString _ => line + p.newlines
  | _ => line

def error? (line : Nat) : Piece → Option ScanError
  | openString _ => some ⟨.unterminatedString, line⟩
  | stray c => some ⟨.unexpectedCharacter c, line⟩
  | _ => none

end Piece

structure Scan where
  tokens : List Token
  errors : List ScanError
deriving DecidableEq

namespace Scan

/-- What pieces give from the given line on. Each is read on the line that is reached behind it, and the
end of input stands on the line reached in the end. -/
def ofPieces (line : Nat) : List Piece → Scan
  | [] => ⟨[Token.eof line], []⟩
  | p :: ps =>
    let line := p.lineBehind line
    let rest := ofPieces line ps
    ⟨(p.token? line).toList ++ rest.tokens, (p.error? line).toList ++ rest.errors⟩

end Scan

def scan (source : String) : Scan :=
  .ofPieces 1 (Piece.split source.toList)

end Lox
