import Vee.Command.Arguments
import Vee.Command.Host
import Vee.Command.Path
import Vee.Log
import Vee.Toolchain

/-!
# Running commands

Each command reads a file or takes words, and writes a file or runs a program. Diagnostics go to the
error output in bold face. A program runs in slices, and what it prints is written at the end of each
slice.
-/

namespace Vee.Command

set_option autoImplicit false

variable {m : Type → Type} [Monad m] [Host m]

/-- The number of instructions in a slice. -/
def sliceLength : Nat := 5000

def report (ds : List Diagnostic) : m Unit :=
  ds.forM fun d => Host.err ("\x1b[1m" ++ d.text ++ "\x1b[0m\n")

def log (trace : Bool) (entries : List Log.Entry) : m Unit :=
  if trace then entries.forM fun e => Host.out (e.long ++ "\n") else pure ()

/-- Runs a machine for at most so many slices. It succeeds if no fault was reported. -/
def runMachine (trace : Bool) : Nat → Bool → Machine → m Bool
  | 0, success, _ => pure success
  | n + 1, success, machine => do
    if trace then log trace (machine.executeLog sliceLength)
    match machine.execute sliceLength with
    | (.stopped, _) => return success
    | (.running, machine) => runMachine trace n success machine
    | (.printed text, machine) => do
      Host.out text
      runMachine trace n success machine
    | (.failed fault, machine) => do
      report [fault.diagnostic]
      runMachine trace n false machine

/-- The part of a command in which diagnostics end it. -/
abbrev Steps (m : Type → Type) := ExceptT (List Diagnostic) m

def fileDiagnostic (text : String) : Diagnostic := { code := .internal, detail := text }

def readInput (path : String) : m (Except Diagnostic String) := do
  return (← Host.readText path).mapError fun e => fileDiagnostic (path ++ ": " ++ e)

def write (trace : Bool) (path text : String) : Steps m Unit := do
  (log trace [⟨.debug, .command, "writing " ++ path⟩] : m Unit)
  match ← (Host.writeText path text : m (Except String Unit)) with
  | .ok _ => return
  | .error e => throw [fileDiagnostic e]

def execute (options : Options) (slices : Nat) (program : Program) : Steps m Bool := do
  (log options.trace
    [⟨.debug, .command, "loaded " ++ program.words.size.repr ++ " words"⟩] : m Unit)
  (runMachine options.trace slices true (Machine.start program options.limits) : m Bool)

def single {ε α : Type} (f : ε → Diagnostic) (x : Except ε α) : Steps m α :=
  match x with
  | .ok a => pure a
  | .error e => throw [f e]

def listed {α : Type} (x : Except (List Diagnostic) α) : Steps m α :=
  match x with
  | .ok a => pure a
  | .error ds => throw ds

def readSource (path : String) : Steps m String := do
  single id (← (readInput path : m (Except Diagnostic String)))

/-- The listing of statements. What generation logs is written whether it succeeds or not. -/
def generate (trace : Bool) (statements : List Stmt) : Steps m Listing := do
  (log trace (Listing.generate statements).log : m Unit)
  listed (Toolchain.listing statements)

/-- Carries out an action; the outcome is whether it succeeded. -/
def perform (options : Options) (slices : Nat) : Action → Steps m Bool
  | .tokenize input output => do
    let tokens ← single Token.LexError.diagnostic (Token.lex (← readSource input))
    write options.trace (output.getD (Path.withExtension input "vlex")) (Token.writeAll tokens)
    return true
  | .parse input output tree => do
    let tokens ← single Token.LineError.diagnostic (Token.readAll (← readSource input))
    if tree then
      let t ← single Tree.NoMatch.diagnostic (Tree.parse tokens)
      (Host.out (t.render tokens.toArray) : m Unit)
    let statements ← single id (Toolchain.parse tokens)
    let listing ← generate options.trace statements
    write options.trace (output.getD (Path.withExtension input "vbyt")) listing.text
    return true
  | .assemble input output => do
    let program ← listed (Toolchain.assemble (← readSource input))
    write options.trace (output.getD (Path.withExtension input "vcomp")) program.text
    return true
  | .run input => do
    let program ← match ← (readInput input : m (Except Diagnostic String)) with
      | .ok text => single Program.ReadError.diagnostic (Program.ofText text)
      | .error d => do
        (report [d] : m Unit)
        pure Program.halt
    execute options slices program
  | .exec words => do
    execute options slices (← single Program.ReadError.diagnostic (Program.ofCommaList words))
  | .buildRun input => do
    let statements ← single id (Toolchain.parseSource (← readSource input))
    let listing ← generate options.trace statements
    execute options slices (← listed (Toolchain.assemble listing.text))

def usageText : String :=
  "Vee language toolchain\n\n" ++
  "Usage: vee [OPTIONS] <COMMAND>\n\n" ++
  "Commands:\n" ++
  "  tokenize   Source text to a token stream (.vlex)\n" ++
  "  parse      Token stream to assembly text (.vbyt)\n" ++
  "  assemble   Assembly text to integer words (.vcomp)\n" ++
  "  run        Run a compiled program\n" ++
  "  exec       Run comma separated integer words (e.g. \"16,2,21,23\")\n" ++
  "  build-run  Compile and run a source file\n" ++
  "  help       Print this message or the help of the given subcommand(s)\n\n" ++
  "Options:\n" ++
  "      --trace                    Log every executed instruction\n" ++
  "      --stack-size <STACK_SIZE>  Operand stack capacity in words [default: 1024]\n" ++
  "      --globals <GLOBALS>        Number of global variable slots [default: 300]\n" ++
  "  -h, --help                     Print help\n" ++
  "  -V, --version                  Print version\n"

/-- Runs the command of the arguments with at most so many slices, and gives the exit code. -/
def invoke (slices : Nat) (args : List String) : m Nat := do
  match ofArgs args with
  | .error .usage => do
    Host.err usageText
    return 2
  | .error (.help _) => do
    Host.out usageText
    return 0
  | .error .version => do
    Host.out "vee 0.1.0\n"
    return 0
  | .ok (options, action) => do
    match ← (perform options slices action : Steps m Bool).run with
    | .ok success => return if success then 0 else 1
    | .error ds => do
      report ds
      return 1

end Vee.Command
