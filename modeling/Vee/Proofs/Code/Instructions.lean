import Vee.Proofs.Code.Link

/-! # Instructions

An instruction is an operation with its operands. Each takes words from the stack and leaves others, so that
instructions without jumps, one behind another, have a depth: the number of words they leave behind. Code of
statements is tidy: it leaves no word behind, and its jumps go to the constant in front of them, with nothing left.
-/

namespace Vee

set_option autoImplicit false

/-- An operation and the words behind it, as many as it takes. -/
structure Instruction where
  op : Opcode
  operands : List Word
  complete : operands.length = op.operands
  deriving DecidableEq

namespace Instruction

def bare (op : Opcode) (h : op.operands = 0) : Instruction := ⟨op, [], h.symm⟩

def const (w : Word) : Instruction := ⟨.const, [w], rfl⟩

def call (entry nargs nlocals : Word) : Instruction := ⟨.call, [entry, nargs, nlocals], rfl⟩

def cells (i : Instruction) : List Cell := .op i.op :: i.operands.map .int

/-- Instructions one behind another. -/
def code (is : List Instruction) : List Cell := is.flatMap cells

def size (is : List Instruction) : Nat := (code is).length

def isJump (i : Instruction) : Bool := i.op == .jmp || i.op == .jmpt || i.op == .jmpf

def isCall (i : Instruction) : Bool := i.op == .call

section

variable {is first second : List Instruction} {i : Instruction}

@[simp] theorem code_nil : code [] = [] := rfl

@[simp] theorem code_cons : code (i :: is) = i.cells ++ code is := rfl

@[simp] theorem code_append : code (first ++ second) = code first ++ code second := List.flatMap_append

theorem length_cells (i : Instruction) : i.cells.length = i.op.operands + 1 := by
  rw [cells, List.length_cons, List.length_map, i.complete]

@[simp] theorem size_nil : size [] = 0 := rfl

@[simp] theorem size_cons : size (i :: is) = i.op.operands + 1 + size is := by
  rw [size, code_cons, List.length_append, length_cells, size]

@[simp] theorem size_append : size (first ++ second) = size first + size second := by
  rw [size, code_append, List.length_append, size, size]

theorem size_concat (i : Instruction) (is : List Instruction) : size (is ++ [i]) = size is + 1 + i.op.operands := by
  rw [size_append, size_cons, size_nil]
  omega

theorem eq_of_size_eq {before after other rest : List Instruction} (h : before ++ after = other ++ rest)
    (hSize : size before = size other) : before = other := by
  have hEmpty : ∀ more : List Instruction, size more = 0 → more = [] := by
    intro more hZero
    cases more with
    | nil => rfl
    | cons i more =>
      rw [size_cons] at hZero
      omega
  rcases List.append_eq_append_iff.mp h with ⟨more, rfl, _⟩ | ⟨more, rfl, _⟩
  · rw [size_append] at hSize
    rw [hEmpty more (by omega), List.append_nil]
  · rw [size_append] at hSize
    rw [hEmpty more (by omega), List.append_nil]

end

/-! ## Depth -/

/-- How many words an instruction takes from the stack. A call takes its arguments. -/
def takes (i : Instruction) : Nat :=
  match i.op with
  | .const | .halt => 0
  | .not | .neg | .load | .gload | .store | .gstore | .print | .pop | .jmp | .ret => 1
  | .call => (i.operands[1]?.bind Word.toNat?).getD 0
  | _ => 2

/-- How many words an instruction leaves in their place. Behind a call stands the value that the function returns. -/
def leaves (i : Instruction) : Nat :=
  match i.op with
  | .jmp | .jmpt | .jmpf | .store | .gstore | .print | .pop | .halt | .ret => 0
  | _ => 1

/-- How many words are on the stack behind instructions, if each finds the words that it takes. -/
def depth : Nat → List Instruction → Option Nat
  | d, [] => some d
  | d, i :: rest => if i.takes ≤ d then depth (d - i.takes + i.leaves) rest else none

theorem takes_call {entry nargs nlocals : Word} {n : Nat} (h : nargs.toNat? = some n) :
    (call entry nargs nlocals).takes = n := by
  simp [takes, call, h]

@[simp] theorem depth_nil (d : Nat) : depth d [] = some d := rfl

theorem depth_append (d : Nat) (first second : List Instruction) :
    depth d (first ++ second) = (depth d first).bind fun d => depth d second := by
  induction first generalizing d with
  | nil => rfl
  | cons i rest ih =>
    rw [List.cons_append, depth, depth]
    split
    · exact ih _
    · rfl

theorem depth_concat {d n : Nat} {is : List Instruction} {i : Instruction} (h : depth d is = some n) :
    depth d (is ++ [i]) = if i.takes ≤ n then some (n - i.takes + i.leaves) else none := by
  rw [depth_append, h]
  rfl

theorem depth_append_of_some {d n : Nat} {first : List Instruction} (h : depth d first = some n)
    (second : List Instruction) : depth d (first ++ second) = depth n second := by
  rw [depth_append, h]
  rfl

theorem exists_depth_of_append {d n : Nat} {first second : List Instruction}
    (h : depth d (first ++ second) = some n) : ∃ k, depth d first = some k ∧ depth k second = some n := by
  rw [depth_append] at h
  exact Option.bind_eq_some_iff.mp h

theorem exists_depth_of_cons {d n : Nat} {before after : List Instruction} {i : Instruction}
    (h : depth d (before ++ i :: after) = some n) :
    ∃ k, depth d before = some k ∧ i.takes ≤ k ∧ depth d (before ++ [i]) = some (k - i.takes + i.leaves) := by
  obtain ⟨k, hBefore, hRest⟩ := exists_depth_of_append h
  rw [depth] at hRest
  split at hRest
  · rename_i hTakes
    refine ⟨k, hBefore, hTakes, ?_⟩
    rw [depth_concat hBefore, if_pos hTakes]
  · cases hRest

theorem depth_concat_const_ne_zero (is : List Instruction) (w : Word) : depth 0 (is ++ [const w]) ≠ some 0 := by
  rw [depth_append]
  cases depth 0 is with
  | none => exact nofun
  | some d => simp [depth, takes, leaves, const]

/-! ## Jumps -/

theorem of_isJump {i : Instruction} (h : i.isJump = true) :
    i.op.operands = 0 ∧ i.leaves = 0 ∧ i.op ≠ .halt ∧ i.op ≠ .ret := by
  obtain ⟨op, operands, hComplete⟩ := i
  cases op with
  | jmp => exact ⟨rfl, rfl, nofun, nofun⟩
  | jmpt => exact ⟨rfl, rfl, nofun, nofun⟩
  | jmpf => exact ⟨rfl, rfl, nofun, nofun⟩
  | _ => cases h

/-- An address in front of, between or behind instructions at which no word is left. -/
def Rests (a : Nat) (is : List Instruction) (t : Nat) : Prop :=
  ∃ before after, is = before ++ after ∧ depth 0 before = some 0 ∧ t = a + size before

theorem rests_start (a : Nat) (is : List Instruction) : Rests a is a := ⟨[], is, rfl, rfl, rfl⟩

theorem rests_between {is : List Instruction} (h : depth 0 is = some 0) (a : Nat) (after : List Instruction) :
    Rests a (is ++ after) (a + size is) := ⟨is, after, rfl, h, rfl⟩

theorem Rests.append {a t : Nat} {is : List Instruction} (h : Rests a is t) (after : List Instruction) :
    Rests a (is ++ after) t := by
  obtain ⟨first, second, rfl, hFirst, rfl⟩ := h
  exact ⟨first, second ++ after, List.append_assoc .., hFirst, rfl⟩

theorem Rests.behind {a t : Nat} {before is : List Instruction} (h : Rests (a + size before) is t)
    (hDepth : depth 0 before = some 0) : Rests a (before ++ is) t := by
  obtain ⟨first, second, rfl, hFirst, rfl⟩ := h
  refine ⟨before ++ first, second, (List.append_assoc ..).symm, ?_, ?_⟩
  · rw [depth_append_of_some hDepth, hFirst]
  · rw [size_append, Nat.add_assoc]

/-- Instructions that leave no word behind. Each jump goes to the constant in front of it, an address of some kind,
and no word is left then, as none is behind a return but the value. -/
structure Tidy (P : Nat → Prop) (is : List Instruction) : Prop where
  depth : depth 0 is = some 0
  jumps : ∀ before i after, is = before ++ i :: after → i.isJump = true →
    ∃ front w t, before = front ++ [const w] ∧ w.toNat? = some t ∧ P t
  settled : ∀ before i after, is = before ++ i :: after → i.isJump = true ∨ i.op = .ret →
    Instruction.depth 0 (before ++ [i]) = some 0

theorem split_append {first second before after : List Instruction} {i : Instruction}
    (h : first ++ second = before ++ i :: after) :
    (∃ more, first = before ++ i :: more) ∨ ∃ more, before = first ++ more ∧ second = more ++ i :: after := by
  rcases List.append_eq_append_iff.mp h with ⟨more, hBefore, hSecond⟩ | ⟨more, hFirst, hRest⟩
  · exact .inr ⟨more, hBefore, hSecond⟩
  · cases more with
    | nil => exact .inr ⟨[], by simpa using hFirst.symm, hRest.symm⟩
    | cons j more =>
      obtain ⟨rfl, _⟩ := List.cons.inj hRest
      exact .inl ⟨more, hFirst⟩

namespace Tidy

variable {P Q : Nat → Prop} {is first second : List Instruction}

theorem nil (P : Nat → Prop) : Tidy P [] :=
  { depth := rfl
    jumps := by simp
    settled := by simp }

theorem mono (h : Tidy P is) (hImp : ∀ t, P t → Q t) : Tidy Q is := by
  refine ⟨h.depth, ?_, h.settled⟩
  intro before i after hSplit hJump
  obtain ⟨front, w, t, hFront, hWord, hTarget⟩ := h.jumps before i after hSplit hJump
  exact ⟨front, w, t, hFront, hWord, hImp t hTarget⟩

theorem of_no_jump (h : Tidy P is) (hPasses : ∀ i ∈ is, i.isJump = false) : Tidy Q is := by
  refine ⟨h.depth, ?_, h.settled⟩
  rintro before i after rfl hJump
  cases (hPasses i (by simp)).symm.trans hJump

theorem append (hFirst : Tidy P first) (hSecond : Tidy P second) : Tidy P (first ++ second) := by
  refine ⟨?_, ?_, ?_⟩
  · rw [depth_append_of_some hFirst.depth, hSecond.depth]
  · intro before i after hSplit hJump
    rcases split_append hSplit with ⟨more, hFront⟩ | ⟨more, rfl, hBack⟩
    · exact hFirst.jumps before i more hFront hJump
    · obtain ⟨front, w, t, rfl, hTarget⟩ := hSecond.jumps more i after hBack hJump
      exact ⟨first ++ front, w, t, (List.append_assoc ..).symm, hTarget⟩
  · intro before i after hSplit hKind
    rcases split_append hSplit with ⟨more, hFront⟩ | ⟨more, rfl, hBack⟩
    · exact hFirst.settled before i more hFront hKind
    · rw [List.append_assoc, depth_append_of_some hFirst.depth]
      exact hSecond.settled more i after hBack hKind

end Tidy

/-! ## Code of expressions -/

/-- Instructions that neither jump nor return and add so many words to the stack. -/
structure Straight (rise : Nat) (is : List Instruction) : Prop where
  depth : ∀ d, depth d is = some (d + rise)
  passes : ∀ i ∈ is, i.isJump = false ∧ i.op ≠ .ret

namespace Straight

variable {P : Nat → Prop} {rise more : Nat} {is first second : List Instruction} {i : Instruction}

theorem nil : Straight 0 [] :=
  { depth := fun _ => rfl
    passes := nofun }

theorem append (hFirst : Straight rise first) (hSecond : Straight more second) :
    Straight (rise + more) (first ++ second) := by
  constructor
  · intro d
    rw [depth_append_of_some (hFirst.depth d), hSecond.depth, Nat.add_assoc]
  · intro i hMem
    rcases List.mem_append.mp hMem with hMem | hMem
    · exact hFirst.passes i hMem
    · exact hSecond.passes i hMem

theorem concat (h : Straight rise is) (hTakes : i.takes ≤ rise) (hLeaves : rise - i.takes + i.leaves = more)
    (hPasses : i.isJump = false ∧ i.op ≠ .ret) : Straight more (is ++ [i]) := by
  constructor
  · intro d
    rw [depth_concat (h.depth d), if_pos (by omega)]
    congr 1
    omega
  · intro j hMem
    rcases List.mem_append.mp hMem with hMem | hMem
    · exact h.passes j hMem
    · rw [List.mem_singleton.mp hMem]
      exact hPasses

theorem const (w : Word) : Straight 1 [const w] := nil.concat (Nat.zero_le _) rfl ⟨rfl, nofun⟩

theorem split_passes (h : Straight rise is) {before after : List Instruction}
    (hSplit : is ++ second = before ++ i :: after) (hKind : i.isJump = true ∨ i.op = .ret) :
    ∃ more, before = is ++ more ∧ second = more ++ i :: after := by
  rcases split_append hSplit with ⟨more, rfl⟩ | hSecond
  · obtain ⟨hJump, hRet⟩ := h.passes i (by simp)
    rcases hKind with hKind | hKind
    · cases hJump.symm.trans hKind
    · exact absurd hKind hRet
  · exact hSecond

theorem tidy (h : Straight 0 is) : Tidy P is := by
  have hNone : ∀ before i after, is = before ++ i :: after → ¬ (i.isJump = true ∨ i.op = .ret) := by
    intro before i after hSplit hKind
    rw [← List.append_nil is] at hSplit
    obtain ⟨more, _, hMore⟩ := h.split_passes hSplit hKind
    simp at hMore
  exact
    { depth := h.depth 0
      jumps := fun before i after hSplit hJump => absurd (.inl hJump) (hNone before i after hSplit)
      settled := fun before i after hSplit hKind => absurd hKind (hNone before i after hSplit) }

/-- Only the last instruction may jump or return. -/
theorem tidy_concat (h : Straight rise is) (hDepth : Instruction.depth 0 (is ++ [i]) = some 0)
    (hJump : i.isJump = true → ∃ front w t, is = front ++ [.const w] ∧ w.toNat? = some t ∧ P t) :
    Tidy P (is ++ [i]) := by
  have hLast : ∀ before j after, is ++ [i] = before ++ j :: after → j.isJump = true ∨ j.op = .ret →
      before = is ∧ j = i := by
    intro before j after hSplit hKind
    obtain ⟨more, rfl, hLast⟩ := h.split_passes hSplit hKind
    cases more with
    | nil => exact ⟨List.append_nil _, (List.cons.inj hLast).1.symm⟩
    | cons k more => simp at hLast
  refine ⟨hDepth, ?_, ?_⟩
  · intro before j after hSplit hKind
    obtain ⟨rfl, rfl⟩ := hLast before j after hSplit (.inl hKind)
    exact hJump hKind
  · intro before j after hSplit hKind
    obtain ⟨rfl, rfl⟩ := hLast before j after hSplit hKind
    exact hDepth

/-- A jump takes the word of its address and all that the instructions in front of it leave. -/
theorem jump {w : Word} {t : Nat} (h : Straight rise is) (hTakes : i.takes = rise + 1) (hLeaves : i.leaves = 0)
    (hWord : w.toNat? = some t) (hTarget : P t) : Tidy P (is ++ [.const w, i]) := by
  rw [List.append_cons]
  refine (h.append (const w)).tidy_concat ?_ fun _ => ⟨is, w, t, rfl, hWord, hTarget⟩
  rw [depth_concat ((h.append (const w)).depth 0), hTakes, hLeaves]
  simp

theorem ret (h : Straight 1 is) : Tidy P (is ++ [bare .ret rfl]) := by
  refine h.tidy_concat ?_ nofun
  rw [depth_concat (h.depth 0)]
  rfl

end Straight

end Instruction

end Vee
