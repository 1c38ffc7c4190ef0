import Vee.Diagnostic

/-!
# Stacks of bounded size

Operations are actions on a stack: one that fails keeps what it has changed. The bottom of a stack has
index 0.
-/

namespace Vee

set_option autoImplicit false

structure Stack (α : Type) where
  capacity : Nat
  /-- What the report of an overflow calls the stack. -/
  label : String
  items : Array α := #[]
  deriving Repr

inductive StackFault where
  | overflow (label : String)
  | underflow
  deriving DecidableEq, Repr

def StackFault.diagnostic : StackFault → Diagnostic
  | .overflow label => { code := .stackOverflow, detail := label }
  | .underflow => { code := .stackUnderflow }

namespace Stack

variable {α : Type}

abbrev Action (α β : Type) := EStateM StackFault (Stack α) β

@[inline] def push (a : α) : Action α Unit := fun s =>
  if s.items.size < s.capacity then .ok () { s with items := s.items.push a }
  else .error (.overflow s.label) s

@[inline] def pop : Action α α := fun s =>
  match s.items.back? with
  | some a => .ok a { s with items := s.items.pop }
  | none => .error .underflow s

/-- Takes the top and the item below it; the lower item comes first. -/
@[inline] def popTwo : Action α (α × α) := do
  let b ← pop
  let a ← pop
  return (a, b)

/-- Drops items from the top, all of them or none. -/
@[inline] def drop (count : Nat) : Action α Unit := fun s =>
  if count ≤ s.items.size then .ok () { s with items := s.items.shrink (s.items.size - count) }
  else .error .underflow s

/-- Keeps at most so many items from the bottom. -/
def truncate (count : Nat) (s : Stack α) : Stack α := { s with items := s.items.shrink count }

/-- Replaces an item; nothing changes if there is none at the index. -/
def set (index : Nat) (a : α) (s : Stack α) : Stack α :=
  { s with items := s.items.setIfInBounds index a }

/-- The items from the bottom up, in brackets. -/
def text (itemText : α → String) (s : Stack α) : String :=
  "[" ++ ", ".intercalate (s.items.toList.map itemText) ++ "]"

end Stack

end Vee
