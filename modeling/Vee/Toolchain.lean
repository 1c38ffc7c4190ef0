import Vee.Listing.Generate
import Vee.Program.Assembly
import Vee.Stmt.OfTree
import Vee.Token.File
import Vee.Token.Lexer
import Vee.Tree.Match

/-!
# From source text to programs

The stages one behind another. Lexing and parsing report one diagnostic, the later stages all they find.
-/

namespace Vee.Toolchain

set_option autoImplicit false

/-- The statements of a token list. -/
def parse (tokens : List Token) : Except Diagnostic (List Stmt) := do
  let tree ← (Tree.parse tokens).mapError Tree.NoMatch.diagnostic
  tree.statements.mapError ShapeError.diagnostic

/-- The statements of a source text. -/
def parseSource (source : String) : Except Diagnostic (List Stmt) := do
  let tokens ← (Token.lex source).mapError Token.LexError.diagnostic
  parse tokens

def listing (statements : List Stmt) : Except (List Diagnostic) Listing :=
  (Listing.ofStatements statements).mapError (·.map CompileError.diagnostic)

def assemble (text : String) : Except (List Diagnostic) Program :=
  (Program.assemble text).mapError (·.map Program.AssemblyError.diagnostic)

/-- The listing of a source text. -/
def compileListing (source : String) : Except (List Diagnostic) Listing := do
  let statements ← (parseSource source).mapError fun d => [d]
  listing statements

/-- The program of a source text, by way of the text of its listing. -/
def compile (source : String) : Except (List Diagnostic) Program := do
  let listing ← compileListing source
  assemble listing.text

end Vee.Toolchain
