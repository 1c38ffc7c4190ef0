import Vee.Diagnostic
import Vee.Text.Lines
import Vee.Token

/-!
# Token files

One token a line: its tag, blanks, its text. Blank lines are skipped.
-/

namespace Vee.Token

set_option autoImplicit false

inductive LineError where
  | unknownTag (tag : String)
  | missingText (tag : String)
  deriving DecidableEq, Repr

def LineError.diagnostic : LineError → Diagnostic
  | .unknownTag tag => { code := .lexical, detail := "UNKNOWN TOKEN TYPE " ++ tag }
  | .missingText tag => { code := .lexical, detail := "MISSING LITERAL FOR " ++ tag }

/-- The token of a line. The tag is looked at before the text. -/
def ofLine (line : List Char) : Except LineError Token :=
  let (tag, rest) := Text.cutAtBlank (Text.trim line)
  let text := Text.trim rest
  match Kind.ofTag? (String.ofList tag) with
  | none => .error (.unknownTag (String.ofList tag))
  | some kind =>
    if text.isEmpty then .error (.missingText (String.ofList tag))
    else .ok ⟨kind, String.ofList text⟩

/-- The tokens of a token file, or what is wrong with its first bad line. -/
def readAll (text : String) : Except LineError (List Token) :=
  ((Text.lines text.toList).filter fun line => !(Text.trim line).isEmpty).mapM ofLine

def writeAll (tokens : List Token) : String :=
  String.join (tokens.map fun t => t.line ++ "\n")

end Vee.Token
