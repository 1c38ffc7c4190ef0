import Vee.Word

/-!
# Operations of the machine

An instruction is an operation and its operands, which stand behind it as words.
-/

namespace Vee

set_option autoImplicit false

inductive Opcode where
  | add
  | sub
  | mul
  | div
  | lt
  | gt
  | leq
  | geq
  | eq
  | and
  | or
  | not
  | jmp
  | jmpt
  | jmpf
  | const
  | load
  | gload
  | store
  | gstore
  | print
  | pop
  | halt
  | call
  | ret
  | mod
  | neg
  deriving DecidableEq, Repr, Inhabited

namespace Opcode

/-- In the order of their numbers, which start at 1. -/
def all : Array Opcode :=
  #[add, sub, mul, div, lt, gt, leq, geq, eq, and, or, not, jmp, jmpt, jmpf, const, load, gload, store,
    gstore, print, pop, halt, call, ret, mod, neg]

def word : Opcode → Word
  | add => 1
  | sub => 2
  | mul => 3
  | div => 4
  | lt => 5
  | gt => 6
  | leq => 7
  | geq => 8
  | eq => 9
  | and => 10
  | or => 11
  | not => 12
  | jmp => 13
  | jmpt => 14
  | jmpf => 15
  | const => 16
  | load => 17
  | gload => 18
  | store => 19
  | gstore => 20
  | print => 21
  | pop => 22
  | halt => 23
  | call => 24
  | ret => 25
  | mod => 26
  | neg => 27

def ofWord? (w : Word) : Option Opcode :=
  match w.toNat? with
  | some (n + 1) => all[n]?
  | _ => none

def mnemonic : Opcode → String
  | add => "ADD"
  | sub => "SUB"
  | mul => "MUL"
  | div => "DIV"
  | lt => "LT"
  | gt => "GT"
  | leq => "LEQ"
  | geq => "GEQ"
  | eq => "EQ"
  | and => "AND"
  | or => "OR"
  | not => "NOT"
  | jmp => "JMP"
  | jmpt => "JMPT"
  | jmpf => "JMPF"
  | const => "CONST"
  | load => "LOAD"
  | gload => "GLOAD"
  | store => "STORE"
  | gstore => "GSTORE"
  | print => "PRINT"
  | pop => "POP"
  | halt => "HALT"
  | call => "CALL"
  | ret => "RET"
  | mod => "MOD"
  | neg => "NEG"

def ofMnemonic? (s : String) : Option Opcode := all.find? fun op => op.mnemonic == s

/-- The number of operands behind the operation. -/
def operands : Opcode → Nat
  | const | store | gstore => 1
  | call => 3
  | _ => 0

theorem ofWord?_word (op : Opcode) : ofWord? op.word = some op := by
  cases op <;> decide

theorem eq_of_word_eq {op other : Opcode} (h : op.word = other.word) : op = other := by
  have hRead := ofWord?_word op
  rw [h, ofWord?_word] at hRead
  exact (Option.some.inj hRead).symm

theorem toInt_word {n : Nat} {op : Opcode} (h : all[n]? = some op) : op.word.toInt = n + 1 := by
  have hAll : ∀ n : Fin all.size, all[n].word.toInt = n + 1 := by decide
  obtain ⟨hLt, rfl⟩ := Array.getElem?_eq_some_iff.mp h
  exact hAll ⟨n, hLt⟩

/-- The number of an operation is one more than its index. -/
theorem index_of_ofWord? {w : Word} {op : Opcode} (h : ofWord? w = some op) :
    ∃ n, w.toNat? = some (n + 1) ∧ all[n]? = some op := by
  rw [ofWord?] at h
  split at h
  · rename_i n hNumber
    exact ⟨n, hNumber, h⟩
  · cases h

theorem toInt_of_ofWord?_none {w : Word} (h : ofWord? w = none) : w.toInt < 1 ∨ (all.size : Int) < w.toInt := by
  rw [ofWord?] at h
  split at h
  · rename_i n hNumber
    right
    rw [Word.toInt_of_toNat? hNumber]
    exact Int.ofNat_lt.mpr (Nat.lt_succ_of_le (Array.getElem?_eq_none_iff.mp h))
  · rename_i hNot
    left
    cases hNumber : w.toNat? with
    | none => exact Word.toInt_of_toNat?_none hNumber
    | some n =>
      rw [Word.toInt_of_toNat? hNumber]
      cases n with
      | zero => decide
      | succ n => exact absurd hNumber (hNot n)

theorem word_of_ofWord? {w : Word} {op : Opcode} (h : ofWord? w = some op) : op.word = w := by
  obtain ⟨n, hNumber, hIndex⟩ := index_of_ofWord? h
  apply Int32.toInt_inj.mp
  rw [toInt_word hIndex, Word.toInt_of_toNat? hNumber]
  rfl

end Opcode

end Vee
