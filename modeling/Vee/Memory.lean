import Std.Data.TreeMap
import Vee.Word

/-!
# Memory

A row of words that all start at zero. Only words that were written are stored, so that a large memory costs
nothing until it is used. Main statement: what is read is what was written there last.
-/

namespace Vee

set_option autoImplicit false

structure Memory where
  size : Nat
  written : Std.TreeMap Nat Word := ∅

namespace Memory

def get? (m : Memory) (index : Nat) : Option Word :=
  if index < m.size then some (m.written.getD index 0) else none

/-- Writes a word; nothing changes if the index is out of range. -/
def set (m : Memory) (index : Nat) (w : Word) : Memory :=
  if index < m.size then { m with written := m.written.insert index w } else m

/-- The words that are not zero, with their indices in ascending order. -/
def nonzero (m : Memory) : List (Nat × Word) := m.written.toList.filter fun (_, w) => w != 0

theorem get?_new (size index : Nat) :
    get? { size := size } index = if index < size then some 0 else none := by
  simp [get?]

theorem size_set (m : Memory) (index : Nat) (w : Word) : (m.set index w).size = m.size := by
  rw [set]
  split <;> rfl

theorem get?_set (m : Memory) (index i : Nat) (w : Word) :
    (m.set index w).get? i = if i = index ∧ index < m.size then some w else m.get? i := by
  rw [set]
  split
  · by_cases hEq : index = i
    · subst hEq
      simp_all [get?]
    · have hNe : i ≠ index := fun h => hEq h.symm
      simp [get?, Std.TreeMap.getD_insert, hEq, hNe]
  · rename_i hOut
    rw [if_neg fun h => hOut h.2]

end Memory

end Vee
