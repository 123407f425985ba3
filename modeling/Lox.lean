import Lox.Diagnostic.Describe
import Lox.Main
import Lox.Proofs.Ebnf
import Lox.Proofs.Layout
import Lox.Proofs.LexicalScope
import Lox.Proofs.Munch
import Lox.Proofs.RoundTrip
import Lox.Proofs.Submissions
import Lox.Proofs.Built
import Lox.Proofs.Height
import Lox.Proofs.Blame
import Lox.Proofs.Transcript
import Lox.Proofs.Truncation
import Lox.Proofs.Interference
import Lox.Proofs.Chronicle
import Lox.Proofs.Rounding
import Lox.Proofs.NumberText
import Lox.Proofs.Cursor
import Lox.Proofs.CursorReading
import Lox.Proofs.Continuation
import Lox.Proofs.Residue
import Lox.Proofs.SingleBlame
import Lox.Proofs.Holes
import Lox.Proofs.NormalForm
import Lox.Proofs.Frame
import Lox.Proofs.ForLoop
import Lox.Proofs.Separator
import Lox.Proofs.Respacing
import Lox.Proofs.Stray
import Lox.Proofs.ScopeLevels
import Lox.Proofs.History
import Lox.Proofs.Styling
import Lox.Proofs.Delimited
import Lox.Proofs.JsonNumber
import Lox.Proofs.JsonText
import Lox.Proofs.Leaves
import Lox.Proofs.TreeText
