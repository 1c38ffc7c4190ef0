import Vee.Program

/-!
# Listings

Generated code before it is a program: operations, integers, and symbols that stand for the addresses of
functions. A section names the address at which a function starts. A listing is written with one
instruction on each line, and sections are headed by comment lines.
-/

namespace Vee

set_option autoImplicit false

inductive Cell where
  | op (op : Opcode)
  | int (value : Word)
  | symbol (id : Nat)
  deriving DecidableEq, Repr, Inhabited

namespace Cell

def text : Cell → String
  | op o => o.mnemonic
  | int n => n.text
  | symbol id => "$" ++ id.repr

def isOp : Cell → Bool
  | op _ => true
  | _ => false

end Cell

structure Listing where
  cells : List Cell := []
  sections : List (Nat × String) := []
  deriving DecidableEq, Repr, Inhabited

namespace Listing

def append (l : Listing) (cells : List Cell) : Listing := { l with cells := l.cells ++ cells }

/-- Starts a section at the end. -/
def addSection (l : Listing) (name : String) : Listing :=
  { l with sections := l.sections ++ [(l.cells.length, name)] }

def set (l : Listing) (index : Nat) (cell : Cell) : Listing :=
  { l with cells := l.cells.set index cell }

/-- The address of a symbol that was not linked. -/
structure Unlinked where
  address : Nat
  deriving DecidableEq, Repr

def Unlinked.diagnostic (u : Unlinked) : Diagnostic :=
  { code := .internal, address := some u.address, detail := "UNLINKED SYMBOL" }

def wordsFrom : Nat → List Cell → Except Unlinked (List Word)
  | _, [] => .ok []
  | address, .op o :: rest => do return o.word :: (← wordsFrom (address + 1) rest)
  | address, .int n :: rest => do return n :: (← wordsFrom (address + 1) rest)
  | address, .symbol _ :: _ => .error ⟨address⟩

/-- The program of a listing in which no symbol is left. -/
def toProgram (l : Listing) : Except Unlinked Program := do
  return ⟨(← wordsFrom 0 l.cells).toArray⟩

/-- Pieces of text for cells from an address on. `opened` says that a line has been begun. Sections are
written in their order, each at its address. -/
def pieces (sections : List (Nat × String)) (address : Nat) (opened : Bool) :
    List Cell → List String
  | [] => if opened then ["\n"] else []
  | cell :: rest =>
    let here := sections.takeWhile fun s => s.1 == address
    let heads := here.map fun s => "\n#func " ++ s.2 ++ "\n"
    let lead :=
      if !opened then heads
      else if !here.isEmpty then "\n" :: heads
      else if cell.isOp then ["\n"]
      else [" "]
    lead ++ cell.text ::
      pieces (sections.dropWhile fun s => s.1 == address) (address + 1) true rest

def text (l : Listing) : String := String.join (pieces l.sections 0 false l.cells)

end Listing

end Vee
