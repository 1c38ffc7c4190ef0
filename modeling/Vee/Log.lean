import Vee.Listing.Generate
import Vee.Machine.Run

/-!
# Logs

What the stages log: where functions are placed, which symbols are linked, and every instruction that a
machine carries out.
-/

namespace Vee

set_option autoImplicit false

namespace Log

inductive Level where
  | debug
  | trace
  deriving DecidableEq, Repr

def Level.text : Level → String
  | debug => "DEBUG"
  | trace => "TRACE"

/-- The part of the toolchain that logs. -/
inductive Origin where
  | command
  | generation
  | linking
  | machine
  deriving DecidableEq, Repr

def Origin.text : Origin → String
  | command => "vee"
  | generation => "vee::mach::codegen"
  | linking => "vee::mach::link"
  | machine => "vee::mach::runtime"

structure Entry where
  level : Level
  origin : Origin
  message : String
  deriving DecidableEq, Repr

def Entry.short (e : Entry) : String := e.level.text ++ " " ++ e.message

def Entry.long (e : Entry) : String :=
  e.level.text ++ " [" ++ e.origin.text ++ "] " ++ e.message

def padLeft (width : Nat) (s : String) : String :=
  String.ofList (List.replicate (width - s.length) ' ') ++ s

def padRight (width : Nat) (s : String) : String :=
  s ++ String.ofList (List.replicate (width - s.length) ' ')

end Log

open Log

def Patch.logEntry (p : Patch) : Log.Entry :=
  ⟨.debug, .linking,
    "linked $" ++ p.symbol.repr ++ " at " ++ p.address.repr ++ " to " ++ p.target.text⟩

/-- Functions are placed before symbols are linked. -/
def Generated.log (g : Generated) : List Log.Entry :=
  (g.listing.sections.map fun (address, name) =>
    ⟨.debug, .generation, "placing " ++ name ++ " at " ++ address.repr⟩) ++
    g.patches.map Patch.logEntry

namespace Machine

/-- The entry for an instruction, from the machine before and after it. -/
def logEntry (before after : Machine) : Log.Entry :=
  let mnemonic := ((before.program.words[before.pc]?.bind Opcode.ofWord?).map Opcode.mnemonic).getD ""
  ⟨.trace, .machine,
    padLeft 5 before.pc.repr ++ " " ++ padRight 6 mnemonic ++ " pc=" ++ after.pc.repr ++
      " sp=" ++ after.sp.repr ++ " fp=" ++ after.fp.repr ++ " " ++ after.stack.text Word.text⟩

/-- The entries for the instructions that succeed while the machine advances. -/
def advanceLog : Nat → Machine → List Log.Entry
  | 0, _ => []
  | n + 1, m =>
    match step m with
    | .ok _ after => logEntry m after :: if after.halted then [] else advanceLog n after
    | .error _ _ => []

/-- The entries of a slice. -/
def executeLog (cycles : Nat) (m : Machine) : List Log.Entry :=
  if m.ready then advanceLog cycles m else []

/-- The entries of successive slices up to the one that says the machine has stopped. -/
def drainLog (cycles : Nat) : Nat → Machine → List Log.Entry
  | 0, _ => []
  | n + 1, m =>
    executeLog cycles m ++
      match execute cycles m with
      | (.stopped, _) => []
      | (_, after) => drainLog cycles n after

/-- The entries of slices up to the first fault or stop. -/
def runLog (cycles : Nat) : Nat → Machine → List Log.Entry
  | 0, _ => []
  | n + 1, m =>
    executeLog cycles m ++
      match execute cycles m with
      | (.stopped, _) => []
      | (.failed _, _) => []
      | (_, after) => runLog cycles n after

end Machine

end Vee
