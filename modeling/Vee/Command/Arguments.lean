import Vee.Machine
import Vee.Word

/-!
# Command line arguments

A verb, its file or words, and options. The options of the machine may stand before or behind the verb;
behind it they win. An option is given at most once on either side.
-/

namespace Vee.Command

set_option autoImplicit false

inductive Verb where
  | tokenize
  | parse
  | assemble
  | run
  | exec
  | buildRun
  deriving DecidableEq, Repr

namespace Verb

def name : Verb → String
  | tokenize => "tokenize"
  | parse => "parse"
  | assemble => "assemble"
  | run => "run"
  | exec => "exec"
  | buildRun => "build-run"

def all : List Verb := [tokenize, parse, assemble, run, exec, buildRun]

def ofName? (s : String) : Option Verb :=
  if s = "runsrc" then some buildRun else all.find? fun v => v.name == s

/-- Whether the verb writes a file. -/
def writes : Verb → Bool
  | tokenize | parse | assemble => true
  | _ => false

end Verb

inductive Flag where
  | trace
  | stackSize
  | globals
  | output
  | tree
  | help
  | version
  deriving DecidableEq, Repr

namespace Flag

def takesValue : Flag → Bool
  | stackSize | globals | output => true
  | _ => false

/-- Whether the flag may stand behind the verb, or in front of every verb. -/
def allowed (verb : Option Verb) : Flag → Bool
  | trace | stackSize | globals | help => true
  | output => verb.any Verb.writes
  | tree => verb == some .parse
  | version => verb.isNone

def ofLong? : String → Option Flag
  | "trace" => some trace
  | "stack-size" => some stackSize
  | "globals" => some globals
  | "output" => some output
  | "tree" => some tree
  | "help" => some help
  | "version" => some version
  | _ => none

def ofShort? : Char → Option Flag
  | 'o' => some output
  | 'h' => some help
  | 'V' => some version
  | _ => none

end Flag

/-- One argument by its form. -/
inductive Arg where
  | plain (text : String)
  | long (name : String) (value : Option String)
  | short (letter : Char) (attached : List Char)
  | terminator
  deriving DecidableEq, Repr

/-- Two hyphens begin a long flag, which may have a value behind an equals sign, and stand alone in front
of arguments that are no flags. One hyphen begins a short flag. -/
def Arg.ofString (s : String) : Arg :=
  match s.toList with
  | ['-', '-'] => .terminator
  | '-' :: '-' :: rest =>
    let name := String.ofList (rest.takeWhile (· ≠ '='))
    match rest.dropWhile (· ≠ '=') with
    | [] => .long name none
    | _ :: value => .long name (some (String.ofList value))
  | '-' :: c :: rest => .short c rest
  | _ => .plain s

/-- What is known of the arguments so far on one side of the verb. -/
structure Given where
  trace : Bool := false
  stackSize : Option Nat := none
  globals : Option Nat := none
  output : Option String := none
  tree : Bool := false
  input : Option String := none
  deriving DecidableEq, Repr

/-- Why no command results. -/
inductive Stop where
  | usage
  | help (verb : Option Verb)
  | version
  deriving DecidableEq, Repr

/-- An optional plus sign and digits, below 2^64. -/
def readSize (s : String) : Except Stop Nat :=
  let digits := match s.toList with
    | '+' :: rest => rest
    | cs => cs
  match Word.readDigits? digits with
  | some n => if n < 18446744073709551616 then .ok n else .error .usage
  | none => .error .usage

namespace Given

def setValue (g : Given) (flag : Flag) (value : String) : Except Stop Given :=
  match flag with
  | .stackSize => do
    if g.stackSize.isSome then throw .usage
    return { g with stackSize := some (← readSize value) }
  | .globals => do
    if g.globals.isSome then throw .usage
    return { g with globals := some (← readSize value) }
  | .output =>
    if g.output.isSome || value.isEmpty then .error .usage
    else .ok { g with output := some value }
  | _ => .error .usage

def setFlag (g : Given) (verb : Option Verb) : Flag → Except Stop Given
  | .trace => if g.trace then .error .usage else .ok { g with trace := true }
  | .tree => if g.tree then .error .usage else .ok { g with tree := true }
  | .help => .error (.help verb)
  | .version => .error .version
  | _ => .error .usage

/-- The one argument of a verb that is no flag. Only words to execute may be empty. -/
def setInput (g : Given) (verb : Verb) (text : String) : Except Stop Given :=
  if g.input.isSome || (text.isEmpty && verb ≠ .exec) then .error .usage
  else .ok { g with input := some text }

end Given

structure Options where
  trace : Bool
  limits : Limits
  deriving DecidableEq, Repr

inductive Action where
  | tokenize (input : String) (output : Option String)
  | parse (input : String) (output : Option String) (tree : Bool)
  | assemble (input : String) (output : Option String)
  | run (input : String)
  | exec (words : String)
  | buildRun (input : String)
  deriving DecidableEq, Repr

/-- The options, from both sides of the verb. -/
def options (outer inner : Given) : Options :=
  { trace := outer.trace || inner.trace
    limits :=
      { stack := (inner.stackSize <|> outer.stackSize).getD ({} : Limits).stack
        globals := (inner.globals <|> outer.globals).getD ({} : Limits).globals } }

def action (verb : Verb) (g : Given) : Except Stop Action :=
  match g.input with
  | none => .error .usage
  | some input =>
    .ok <| match verb with
      | .tokenize => .tokenize input g.output
      | .parse => .parse input g.output g.tree
      | .assemble => .assemble input g.output
      | .run => .run input
      | .exec => .exec input
      | .buildRun => .buildRun input

/-- Reads arguments that are flags, values of flags, or the input of the verb. In front of a verb,
reading ends with the arguments from the verb on. -/
def readArgs (verb : Option Verb) (g : Given) :
    List String → Except Stop (Given × List String)
  | [] => .ok (g, [])
  | arg :: rest =>
    match Arg.ofString arg with
    | .terminator =>
      match verb with
      | none => .error .usage
      | some verb => do return (← rest.foldlM (fun g text => g.setInput verb text) g, [])
    | .plain text =>
      match verb with
      | none => .ok (g, text :: rest)
      | some v => do readArgs verb (← g.setInput v text) rest
    | .long name value =>
      match (Flag.ofLong? name).filter (Flag.allowed verb) with
      | none => .error .usage
      | some flag =>
        if flag.takesValue then
          match value, rest with
          | some value, rest => do readArgs verb (← g.setValue flag value) rest
          | none, next :: rest =>
            match Arg.ofString next with
            | .plain value => do readArgs verb (← g.setValue flag value) rest
            | _ => .error .usage
          | none, [] => .error .usage
        else if value.isSome then .error .usage
        else do readArgs verb (← g.setFlag verb flag) rest
    | .short letter attached =>
      match (Flag.ofShort? letter).filter (Flag.allowed verb) with
      | none => .error .usage
      | some flag =>
        if flag.takesValue then
          match attached, rest with
          | '=' :: value, rest => do readArgs verb (← g.setValue flag (String.ofList value)) rest
          | c :: value, rest => do
            readArgs verb (← g.setValue flag (String.ofList (c :: value))) rest
          | [], next :: rest =>
            match Arg.ofString next with
            | .plain value => do readArgs verb (← g.setValue flag value) rest
            | _ => .error .usage
          | [], [] => .error .usage
        else do readArgs verb (← g.setFlag verb flag) rest

/-- The verb `help` names another one, or none. -/
def helpStop : List String → Stop
  | [] => .help none
  | ["help"] => .help none
  | [name] =>
    match Verb.ofName? name with
    | some verb => .help (some verb)
    | none => .usage
  | _ => .usage

/-- The command that the arguments ask for. -/
def ofArgs (args : List String) : Except Stop (Options × Action) := do
  let (outer, rest) ← readArgs none {} args
  match rest with
  | [] => throw .usage
  | name :: rest =>
    if name = "help" then throw (helpStop rest)
    match Verb.ofName? name with
    | none => throw .usage
    | some verb =>
      let (inner, _) ← readArgs (some verb) {} rest
      return (options outer inner, ← action verb inner)

end Vee.Command
