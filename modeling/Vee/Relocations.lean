import Std.Data.TreeMap
import Vee.Listing

/-!
# Relocations

Where each function was placed, and which cells still hold a symbol. Linking patches the recorded cells
in the order of their addresses and forgets the records.
-/

namespace Vee

set_option autoImplicit false

inductive LinkError where
  | unresolved (address symbol : Nat)
  | unpatched (address : Nat)
  deriving DecidableEq, Repr

def LinkError.diagnostic : LinkError → Diagnostic
  | .unresolved address symbol =>
    { code := .internal, address := some address, detail := "UNRESOLVED SYMBOL $" ++ symbol.repr }
  | .unpatched address => { code := .internal, address := some address, detail := "LINK FAILURE" }

/-- A cell that was changed from a symbol to the address it stands for. -/
structure Patch where
  symbol : Nat
  address : Nat
  target : Word
  deriving DecidableEq, Repr

structure Relocations where
  places : Std.TreeMap Nat Nat := ∅
  unlinked : Std.TreeMap Nat Nat := ∅

namespace Relocations

/-- Records where the function of a symbol starts. -/
def place (r : Relocations) (symbol address : Nat) : Relocations :=
  { r with places := r.places.insert symbol address }

/-- Records that the cell at an address waits for a symbol. -/
def await (r : Relocations) (address symbol : Nat) : Relocations :=
  { r with unlinked := r.unlinked.insert address symbol }

/-- Records all symbols among cells that will stand from an address on. -/
def scan (r : Relocations) (address : Nat) : List Cell → Relocations
  | [] => r
  | .symbol id :: rest => (r.await address id).scan (address + 1) rest
  | _ :: rest => r.scan (address + 1) rest

structure Linked where
  cells : List Cell
  errors : List LinkError := []
  patches : List Patch := []

/-- Patches one recorded cell, or reports why it cannot be patched. -/
def linkOne (places : Std.TreeMap Nat Nat) (done : Linked) (address symbol : Nat) : Linked :=
  match places[symbol]? with
  | none => { done with errors := done.errors ++ [.unresolved address symbol] }
  | some target =>
    match done.cells[address]?, Word.ofNat? target with
    | some (.symbol _), some word =>
      { done with
        cells := done.cells.set address (.int word)
        patches := done.patches ++ [⟨symbol, address, word⟩] }
    | _, _ => { done with errors := done.errors ++ [.unpatched address] }

/-- Patches the recorded cells. No record is left. -/
def link (r : Relocations) (cells : List Cell) : Linked × Relocations :=
  (r.unlinked.toList.foldl (fun done (address, symbol) => linkOne r.places done address symbol)
      { cells := cells },
    { r with unlinked := ∅ })

end Relocations

end Vee
