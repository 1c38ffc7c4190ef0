import Vee.Machine

/-!
# One instruction

An instruction is an action on the machine. If it fails, what it has done to the stack, the activations
and `fp` stays, and `pc` does not move.
-/

namespace Vee.Machine

set_option autoImplicit false

abbrev Action := EStateM Fault Machine

/-- An action on the operand stack, which is taken out of the machine for as long as the action lasts. -/
@[inline] def onStack {α : Type} (action : Stack.Action Word α) : Action α := fun m =>
  let stack := m.stack
  let rest := { m with stack := { capacity := 0, label := "" } }
  match action stack with
  | .ok a stack => .ok a { rest with stack := stack }
  | .error e stack => .error (.stack e) { rest with stack := stack }

@[inline] def push (w : Word) : Action Unit := onStack (Stack.push w)

@[inline] def pop : Action Word := onStack Stack.pop

@[inline] def popTwo : Action (Word × Word) := onStack Stack.popTwo

/-- A value, or the fault of an operation that has none. -/
@[inline] def orFault {α : Type} (fault : Fault) : Option α → Action α
  | some a => pure a
  | none => throw fault

/-- The word behind the operation, the first operand at offset 1. -/
@[inline] def operand (offset : Nat) : Action Word := do
  let m ← get
  orFault .missingOperand m.program.words[m.pc + offset]?

@[inline] def count (w : Word) : Action Nat := orFault .negativeCount w.toNat?

@[inline] def ofCount (n : Nat) : Action Word := orFault .overflow (Word.ofNat? n)

/-- An address of the program. -/
@[inline] def target (w : Word) : Action Nat := do
  let m ← get
  orFault (.jumpOutOfRange w) (w.toNat?.filter fun a => a < m.program.words.size)

@[inline] def globalIndex (w : Word) : Action Nat := do
  let m ← get
  orFault (.globalOutOfRange w) (w.toNat?.filter fun i => i < m.globals.size)

/-- The index on the stack of a slot of the innermost activation. -/
def slotIndex? (m : Machine) (slot : Word) : Option Nat := do
  let activation ← m.activations.head?
  let n := slot.toInt
  let index := if 0 ≤ n then (m.fp : Int) + n + 1 else (m.fp : Int) + n - 2
  let inFrame := if 0 ≤ n then n < activation.locals else -n ≤ activation.args
  if inFrame ∧ 0 ≤ index ∧ index < m.stack.items.size then some index.toNat else none

def slotIndex (slot : Word) : Action Nat := do
  let m ← get
  orFault (.slotOutOfRange slot) (m.slotIndex? slot)

/-- Replaces the two topmost words by the result of an operation on them. -/
@[inline] def binary (f : Word → Word → Except Fault Word) : Action Unit := do
  let (a, b) ← popTwo
  match f a b with
  | .ok w => push w
  | .error e => throw e

@[inline] def exact (f : Word → Word → Option Word) (a b : Word) : Except Fault Word :=
  match f a b with
  | some w => .ok w
  | none => .error .overflow

@[inline] def divided (f : Word → Word → Option Word) (a b : Word) : Except Fault Word :=
  if b = 0 then .error .divisionByZero else exact f a b

@[inline] def truth (f : Word → Word → Bool) (a b : Word) : Except Fault Word := .ok (Word.ofBool (f a b))

/-- Swaps 0 and 1 and keeps all else. -/
def negate (w : Word) : Word := if w = 0 then 1 else if w = 1 then 0 else w

def pushZeros : Nat → Action Unit
  | 0 => pure ()
  | n + 1 => do
    push 0
    pushZeros n

/-- Jumps if the word below the target equals `expected`. -/
@[inline] def jumpIf (expected : Word) (next : Nat) : Action Nat := do
  let destination ← pop
  let condition ← pop
  if condition = expected then target destination else return next

def call (next : Nat) : Action Nat := do
  let destination ← operand 1
  let nargs ← operand 2
  let args ← count nargs
  let locals ← count (← operand 3)
  if (← get).stack.items.size < args then throw .missingArguments
  push nargs
  push (← ofCount next)
  push (← ofCount (← get).fp)
  modify fun m => { m with fp := m.stack.items.size - 1 }
  pushZeros locals
  modify fun m => { m with activations := ⟨args, locals⟩ :: m.activations }
  target destination

def ret : Action Nat := do
  let value ← pop
  match (← get).activations with
  | [] => throw .returnWithoutCall
  | _ :: rest =>
    modify fun m => { m with activations := rest, stack := m.stack.truncate (m.fp + 1) }
    let fp ← pop
    let back ← pop
    let nargs ← pop
    let fp ← count fp
    modify fun m => { m with fp := fp }
    let next ← target back
    let args ← count nargs
    onStack (Stack.drop args)
    push value
    return next

/-- Carries out an operation, given the address behind its operands, and gives the next `pc`. -/
def perform (next : Nat) : Opcode → Action Nat
  | .add => do binary (exact Word.add?); return next
  | .sub => do binary (exact Word.sub?); return next
  | .mul => do binary (exact Word.mul?); return next
  | .div => do binary (divided Word.div?); return next
  | .mod => do binary (divided Word.mod?); return next
  | .lt => do binary (truth fun a b => a < b); return next
  | .gt => do binary (truth fun a b => b < a); return next
  | .leq => do binary (truth fun a b => a ≤ b); return next
  | .geq => do binary (truth fun a b => b ≤ a); return next
  | .eq => do binary (truth fun a b => a == b); return next
  | .and => do binary (truth fun a b => a == 1 && b == 1); return next
  | .or => do binary (truth fun a b => a == 1 || b == 1); return next
  | .not => do push (negate (← pop)); return next
  | .neg => do push (← orFault .overflow (Word.neg? (← pop))); return next
  | .jmp => do target (← pop)
  | .jmpt => jumpIf 1 next
  | .jmpf => jumpIf 0 next
  | .const => do push (← operand 1); return next
  | .load => do
    let index ← slotIndex (← pop)
    push (← orFault .slotUnreadable (← get).stack.items[index]?)
    return next
  | .store => do
    let slot ← operand 1
    let value ← pop
    let index ← slotIndex slot
    if index < (← get).stack.items.size then
      modify fun m => { m with stack := m.stack.set index value }
      return next
    else throw .slotUnwritable
  | .gload => do
    let index ← pop
    let i ← globalIndex index
    push (← orFault (.globalOutOfRange index) ((← get).globals.get? i))
    return next
  | .gstore => do
    let index ← operand 1
    let value ← pop
    let index ← globalIndex index
    modify fun m => { m with globals := m.globals.set index value }
    return next
  | .print => do
    let value ← pop
    modify fun m => { m with output := m.output ++ value.text ++ "\n" }
    return next
  | .pop => do
    let _ ← pop
    return next
  | .halt => do
    modify fun m => { m with halted := true }
    return (← get).pc
  | .call => call next
  | .ret => ret

/-- The operation at `pc`. -/
@[inline] def fetch : Action Opcode := do
  let m ← get
  let word ← orFault .pcOutOfRange m.program.words[m.pc]?
  orFault (.unknownOpcode word) (Opcode.ofWord? word)

/-- One instruction. -/
def step : Action Unit := do
  let op ← fetch
  let next ← perform ((← get).pc + 1 + op.operands) op
  modify fun m => { m with pc := next }

end Vee.Machine
