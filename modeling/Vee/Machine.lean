import Vee.Memory
import Vee.Program
import Vee.Stack

/-!
# The machine

A stack machine with two registers: `pc` is an address of the program and `fp` an index of the stack.
A call leaves on the stack, from the bottom up, the arguments with the first one on top, their number,
the return address, the caller's `fp`, and the locals, which start at zero. `fp` is the index of the
caller's `fp`, so that parameter `-n` is at `fp - n - 2` and local `n` at `fp + n + 1`.
-/

namespace Vee

set_option autoImplicit false

/-- Why an instruction cannot be carried out. -/
inductive Fault where
  | overflow
  | divisionByZero
  | stack (fault : StackFault)
  | missingArguments
  | returnWithoutCall
  | pcOutOfRange
  | missingOperand
  | jumpOutOfRange (target : Word)
  | globalOutOfRange (index : Word)
  | slotOutOfRange (slot : Word)
  | slotUnreadable
  | slotUnwritable
  | unknownOpcode (word : Word)
  | negativeCount
  | interrupted
  deriving DecidableEq, Repr

def Fault.diagnostic : Fault → Diagnostic
  | overflow => { code := .overflow }
  | divisionByZero => { code := .divisionByZero }
  | stack fault => fault.diagnostic
  | missingArguments => { code := .stackUnderflow, detail := "MISSING ARGUMENTS" }
  | returnWithoutCall => { code := .stackUnderflow, detail := "RETURN WITHOUT CALL" }
  | pcOutOfRange => { code := .invalidAddress, detail := "PROGRAM COUNTER OUT OF RANGE" }
  | missingOperand => { code := .invalidAddress, detail := "MISSING OPERAND" }
  | jumpOutOfRange target => { code := .invalidAddress, detail := "JUMP TO " ++ target.text }
  | globalOutOfRange index =>
    { code := .invalidAddress, detail := "GLOBAL " ++ index.text ++ " OUT OF RANGE" }
  | slotOutOfRange slot =>
    { code := .invalidAddress, detail := "LOCAL SLOT " ++ slot.text ++ " OUT OF RANGE" }
  | slotUnreadable => { code := .invalidAddress }
  | slotUnwritable => { code := .invalidAddress, detail := "LOCAL SLOT OUT OF RANGE" }
  | unknownOpcode word => { code := .illegalInstruction, detail := word.text }
  | negativeCount => { code := .illegalInstruction, detail := "NEGATIVE COUNT" }
  | interrupted => { code := .interrupted }

/-- A fault and the address of the instruction it stopped at. -/
structure Report where
  fault : Fault
  address : Nat
  deriving DecidableEq, Repr

def Report.diagnostic (r : Report) : Diagnostic :=
  { r.fault.diagnostic with address := some r.address }

structure Limits where
  stack : Nat := 1024
  globals : Nat := 300
  deriving DecidableEq, Repr

/-- How many arguments and locals a call has on the stack. -/
structure Activation where
  args : Nat
  locals : Nat
  deriving DecidableEq, Repr

/-- The innermost activation stands first. Faults and output stay with the machine until they are
reported. -/
structure Machine where
  program : Program
  limits : Limits
  stack : Stack Word
  globals : Memory
  activations : List Activation := []
  pc : Nat := 0
  fp : Nat := 0
  halted : Bool := false
  interrupted : Bool := false
  fault : Option Report := none
  output : String := ""

namespace Machine

/-- A machine at the start of a program. -/
def start (program : Program) (limits : Limits) : Machine :=
  { program := program
    limits := limits
    stack := { capacity := limits.stack, label := "OPERAND STACK" }
    globals := { size := limits.globals } }

/-- Starts another program with the same limits. -/
def load (m : Machine) (program : Program) : Machine := start program m.limits

/-- The index of the top of the stack, -1 if it is empty. -/
def sp (m : Machine) : Int := m.stack.items.size - 1

/-- Asks a machine that has not halted to stop before its next instruction. -/
def interrupt (m : Machine) : Machine := if m.halted then m else { m with interrupted := true }

end Machine

end Vee
