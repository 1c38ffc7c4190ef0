/-!
# Variables and their slots

Global variables are numbered in the order of their first assignment outside every function. While a
function is open, names belong to its frame: parameters count down from -1, and names first assigned
there count up from 0. A slot is the position of a name in the list of its kind.
-/

namespace Vee

set_option autoImplicit false

inductive Slot where
  | global (index : Nat)
  | frame (offset : Int)
  deriving DecidableEq, Repr

structure Frame where
  params : List String := []
  locals : List String := []
  deriving DecidableEq, Repr, Inhabited

def Frame.offset? (f : Frame) (name : String) : Option Int :=
  match f.params.idxOf? name with
  | some i => some (-(i + 1))
  | none => (f.locals.idxOf? name).map Int.ofNat

/-- The frames of the open functions stand with the innermost first. -/
structure Variables where
  globals : List String := []
  frames : List Frame := []
  deriving DecidableEq, Repr, Inhabited

namespace Variables

def enter (v : Variables) : Variables := { v with frames := {} :: v.frames }

/-- Closes the innermost function and gives the number of its locals. -/
def leave (v : Variables) : Nat × Variables :=
  match v.frames with
  | [] => (0, v)
  | f :: rest => (f.locals.length, { v with frames := rest })

def inFunction (v : Variables) : Bool := !v.frames.isEmpty

/-- Declares the next parameter of the open function, unless its frame has the name already. -/
def param (v : Variables) (name : String) : Option Int × Variables :=
  match v.frames with
  | [] => (none, v)
  | f :: rest =>
    match f.offset? name with
    | some _ => (none, v)
    | none =>
      (some (-(f.params.length + 1)),
        { v with frames := { f with params := f.params ++ [name] } :: rest })

/-- The slot that an assignment writes; the first assignment allots it. -/
def assign (v : Variables) (name : String) : Slot × Variables :=
  match v.frames with
  | [] =>
    match v.globals.idxOf? name with
    | some i => (.global i, v)
    | none => (.global v.globals.length, { v with globals := v.globals ++ [name] })
  | f :: rest =>
    match f.offset? name with
    | some offset => (.frame offset, v)
    | none =>
      (.frame f.locals.length,
        { v with frames := { f with locals := f.locals ++ [name] } :: rest })

/-- The slot that a reference reads: the open function's, then the global one. -/
def resolve (v : Variables) (name : String) : Option Slot :=
  match v.frames.head?.bind fun f => f.offset? name with
  | some offset => some (.frame offset)
  | none => (v.globals.idxOf? name).map .global

end Variables

end Vee
