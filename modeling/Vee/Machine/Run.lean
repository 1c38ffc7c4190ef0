import Vee.Machine.Step

/-!
# Running in slices

A slice runs a bounded number of instructions and reports one event. Output is reported before the fault
that followed it, and a machine that has halted reports that it has stopped once nothing else is left to
report.
-/

namespace Vee

set_option autoImplicit false

inductive Event where
  | running
  | stopped
  | printed (text : String)
  | failed (report : Report)
  deriving DecidableEq, Repr

namespace Machine

/-- Up to so many instructions, fewer if the machine halts or faults. -/
def advance : Nat → Machine → Machine
  | 0, m => m
  | n + 1, m =>
    match step m with
    | .ok _ m => if m.halted then m else advance n m
    | .error fault m => { m with halted := true, fault := some ⟨fault, m.pc⟩ }

/-- The event that waits to be reported, output first. -/
def pending? (m : Machine) : Option (Event × Machine) :=
  if m.output ≠ "" then some (.printed m.output, { m with output := "" })
  else m.fault.map fun report => (.failed report, { m with fault := none })

/-- Whether a slice would run instructions. -/
def ready (m : Machine) : Bool := m.pending?.isNone && !m.halted && !m.interrupted

/-- One slice of at most so many instructions. -/
def execute (cycles : Nat) (m : Machine) : Event × Machine :=
  match m.pending? with
  | some reported => reported
  | none =>
    if m.halted then (.stopped, m)
    else if m.interrupted then
      (.failed ⟨.interrupted, m.pc⟩, { m with interrupted := false, halted := true })
    else
      let m := advance cycles m
      match m.pending? with
      | some reported => reported
      | none => (if m.halted then .stopped else .running, m)

/-- The events of successive slices up to the one that says the machine has stopped, at most so many. -/
def drain (cycles : Nat) : Nat → Machine → List Event × Machine
  | 0, m => ([], m)
  | n + 1, m =>
    match execute cycles m with
    | (.stopped, m) => ([.stopped], m)
    | (event, m) =>
      let (events, m) := drain cycles n m
      (event :: events, m)

/-- Runs slices until the machine stops or faults, and gives all output or the fault. There is no result
if that many slices do not suffice. -/
def runFrom (cycles : Nat) : Nat → String → Machine → Option (Except Report String) × Machine
  | 0, _, m => (none, m)
  | n + 1, output, m =>
    match execute cycles m with
    | (.printed text, m) => runFrom cycles n (output ++ text) m
    | (.failed report, m) => (some (.error report), m)
    | (.running, m) => runFrom cycles n output m
    | (.stopped, m) => (some (.ok output), m)

def run (cycles slices : Nat) (m : Machine) : Option (Except Report String) × Machine :=
  runFrom cycles slices "" m

end Machine

end Vee
