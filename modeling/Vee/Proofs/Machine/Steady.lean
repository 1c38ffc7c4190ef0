import Vee.Machine.Run
import Vee.Proofs.Effect
import Vee.Proofs.Simulation.Follow

/-! # What instructions leave alone

Whatever the words of a program, an instruction changes the stack within its capacity, the words of the global
slots, the activations and the registers. Only a print adds to the output, and only a halt stops the machine. An
instruction that fails has moved neither `pc` nor the output.
-/

namespace Vee

set_option autoImplicit false

open Effect

/-! ## Stacks and memory -/

namespace Stack

variable {α : Type}

/-- What operations keep of a stack. -/
structure Steady (s t : Stack α) : Prop where
  capacity : t.capacity = s.capacity
  fits : s.items.size ≤ s.capacity → t.items.size ≤ t.capacity

instance : Chain (Steady (α := α)) where
  refl _ := ⟨rfl, id⟩
  trans hFirst hSecond := ⟨hSecond.capacity.trans hFirst.capacity, fun h => hSecond.fits (hFirst.fits h)⟩

theorem Steady.of_le {s : Stack α} {items : Array α} (h : items.size ≤ s.items.size) :
    Steady s { s with items := items } := ⟨rfl, Nat.le_trans h⟩

theorem along_push (a : α) : Along Steady (push a) := by
  intro s
  rw [push]
  split
  · rename_i hRoom
    refine ⟨rfl, fun _ => ?_⟩
    simp only [state, Array.size_push]
    exact hRoom
  · exact Chain.refl s

theorem along_pop : Along Steady (pop (α := α)) := by
  intro s
  rw [pop]
  split
  · apply Steady.of_le
    rw [Array.size_pop]
    exact Nat.sub_le ..
  · exact Chain.refl s

theorem along_popTwo : Along Steady (popTwo (α := α)) :=
  along_pop.bind fun _ => along_pop.bind fun _ => along_pure _

theorem steady_truncate (n : Nat) (s : Stack α) : Steady s (s.truncate n) := by
  apply Steady.of_le
  rw [Array.size_shrink]
  exact Nat.min_le_right ..

theorem along_drop (n : Nat) : Along Steady (drop (α := α) n) := by
  intro s
  rw [drop]
  split
  · exact steady_truncate (s.items.size - n) s
  · exact Chain.refl s

theorem steady_set (i : Nat) (a : α) (s : Stack α) : Steady s (s.set i a) := by
  apply Steady.of_le
  exact Nat.le_of_eq Array.size_setIfInBounds

end Stack

namespace Memory

/-- What operations keep of a memory: its size, and the words outside, which they do not reach. -/
structure Steady (m n : Memory) : Prop where
  size : n.size = m.size
  outside : ∀ i, m.size ≤ i → n.written.getD i 0 = m.written.getD i 0

instance : Chain Steady where
  refl _ := ⟨rfl, fun _ _ => rfl⟩
  trans hFirst hSecond :=
    { size := hSecond.size.trans hFirst.size
      outside := fun i hLe => (hSecond.outside i (hFirst.size ▸ hLe)).trans (hFirst.outside i hLe) }

theorem steady_set (m : Memory) (index : Nat) (w : Word) : Steady m (m.set index w) := by
  constructor
  · exact m.size_set index w
  · intro i hLe
    rw [set]
    split
    · rename_i hLt
      rw [Std.TreeMap.getD_insert, if_neg]
      rw [Std.compare_eq_iff_eq]
      omega
    · rfl

end Memory

namespace Machine

/-- What an instruction keeps that neither prints nor halts, the move of `pc` at its end apart. -/
structure Steady (m t : Machine) : Prop where
  program : t.program = m.program
  limits : t.limits = m.limits
  pc : t.pc = m.pc
  halted : t.halted = m.halted
  interrupted : t.interrupted = m.interrupted
  fault : t.fault = m.fault
  output : t.output = m.output
  stack : m.stack.Steady t.stack
  globals : m.globals.Steady t.globals

instance : Chain Steady where
  refl _ := ⟨rfl, rfl, rfl, rfl, rfl, rfl, rfl, Chain.refl _, Chain.refl _⟩
  trans hFirst hSecond :=
    { program := hSecond.program.trans hFirst.program
      limits := hSecond.limits.trans hFirst.limits
      pc := hSecond.pc.trans hFirst.pc
      halted := hSecond.halted.trans hFirst.halted
      interrupted := hSecond.interrupted.trans hFirst.interrupted
      fault := hSecond.fault.trans hFirst.fault
      output := hSecond.output.trans hFirst.output
      stack := Chain.trans hFirst.stack hSecond.stack
      globals := Chain.trans hFirst.globals hSecond.globals }

variable {α β : Type} {m t : Machine}

theorem along_onStack {action : Stack.Action Word α} (h : Along Stack.Steady action) :
    Along Steady (onStack action) := by
  intro m
  have hStack := h m.stack
  rw [onStack]
  simp only
  split
  · rename_i hResult
    rw [hResult] at hStack
    exact ⟨rfl, rfl, rfl, rfl, rfl, rfl, rfl, hStack, Chain.refl _⟩
  · rename_i hResult
    rw [hResult] at hStack
    exact ⟨rfl, rfl, rfl, rfl, rfl, rfl, rfl, hStack, Chain.refl _⟩

theorem along_push (w : Word) : Along Steady (push w) := along_onStack (Stack.along_push w)

theorem along_pop : Along Steady pop := along_onStack Stack.along_pop

theorem along_popTwo : Along Steady popTwo := along_onStack Stack.along_popTwo

section

variable {R : Machine → Machine → Prop}

theorem along_modify {f : Machine → Machine} (h : ∀ m, R m (f m)) : Along R (modify f : Action PUnit) := h

variable [Chain R]

theorem along_orFault (fault : Fault) (o : Option α) : Along R (orFault fault o) := by
  cases o with
  | none => exact along_throw fault
  | some a => exact along_pure a

theorem along_operand (offset : Nat) : Along R (operand offset) := along_get.bind fun _ => along_orFault _ _

theorem along_target (w : Word) : Along R (target w) := along_get.bind fun _ => along_orFault _ _

theorem along_pushZeros (hPush : ∀ w, Along R (push w)) (n : Nat) : Along R (pushZeros n) := by
  induction n with
  | zero => exact along_pure ()
  | succ n ih => exact (hPush 0).bind fun _ => ih

/-- A call pushes words and replaces `fp` and the activations. -/
theorem along_call (hPush : ∀ w, Along R (push w)) (hFp : ∀ m fp, R m { m with fp := fp })
    (hActivations : ∀ m activations, R m { m with activations := activations }) (next : Nat) :
    Along R (call next) := by
  refine (along_operand 1).bind fun _ => (along_operand 2).bind fun nargs => (along_orFault _ _).bind fun args => ?_
  refine (along_operand 3).bind fun _ => (along_orFault _ _).bind fun locals => along_get.bind fun _ => ?_
  split
  · exact fun m => Chain.refl m
  · refine (hPush nargs).bind fun _ => (along_orFault _ _).bind fun _ => (hPush _).bind fun _ => ?_
    refine along_get.bind fun _ => (along_orFault _ _).bind fun _ => (hPush _).bind fun _ => ?_
    refine (along_modify fun m => hFp m _).bind fun _ => (along_pushZeros hPush locals).bind fun _ => ?_
    exact (along_modify fun m => hActivations m _).bind fun _ => along_target _

end

theorem along_globalIndex (w : Word) : Along Steady (globalIndex w) := along_get.bind fun _ => along_orFault _ _

theorem along_slotIndex (w : Word) : Along Steady (slotIndex w) := along_get.bind fun _ => along_orFault _ _

theorem along_binary (f : Word → Word → Except Fault Word) : Along Steady (binary f) := by
  refine along_popTwo.bind fun (a, b) => ?_
  simp only
  split
  · exact along_push _
  · exact along_throw _

theorem along_jumpIf (expected : Word) (next : Nat) : Along Steady (jumpIf expected next) := by
  refine along_pop.bind fun _ => along_pop.bind fun _ => ?_
  split
  · exact along_target _
  · exact along_pure next

theorem along_ret : Along Steady ret := by
  refine along_pop.bind fun value => along_get.bind fun m => ?_
  split
  · exact along_throw _
  · refine (along_modify fun m => ?_).bind fun _ => along_pop.bind fun _ => along_pop.bind fun _ => ?_
    · exact ⟨rfl, rfl, rfl, rfl, rfl, rfl, rfl, Stack.steady_truncate _ _, Chain.refl _⟩
    · refine along_pop.bind fun _ => (along_orFault _ _).bind fun _ => (along_modify fun m => ?_).bind fun _ => ?_
      · exact ⟨rfl, rfl, rfl, rfl, rfl, rfl, rfl, Chain.refl _, Chain.refl _⟩
      · refine (along_target _).bind fun _ => (along_orFault _ _).bind fun args => ?_
        exact (along_onStack (Stack.along_drop args)).bind fun _ => (along_push value).bind fun _ => along_pure _

theorem along_perform {op : Opcode} (next : Nat) (hPrint : op ≠ .print) (hHalt : op ≠ .halt) :
    Along Steady (perform next op) := by
  cases op with
  | not => exact along_pop.bind fun _ => (along_push _).bind fun _ => along_pure next
  | neg => exact along_pop.bind fun _ => (along_orFault _ _).bind fun _ => (along_push _).bind fun _ => along_pure next
  | jmp => exact along_pop.bind fun _ => along_target _
  | jmpt => exact along_jumpIf 1 next
  | jmpf => exact along_jumpIf 0 next
  | const => exact (along_operand 1).bind fun _ => (along_push _).bind fun _ => along_pure next
  | load =>
    refine along_pop.bind fun _ => (along_slotIndex _).bind fun _ => along_get.bind fun _ => ?_
    exact (along_orFault _ _).bind fun _ => (along_push _).bind fun _ => along_pure next
  | store =>
    refine (along_operand 1).bind fun _ => along_pop.bind fun _ => (along_slotIndex _).bind fun _ => ?_
    refine along_get.bind fun _ => ?_
    split
    · refine (along_modify fun m => ?_).bind fun _ => along_pure next
      exact ⟨rfl, rfl, rfl, rfl, rfl, rfl, rfl, Stack.steady_set _ _ _, Chain.refl _⟩
    · exact along_throw _
  | gload =>
    refine along_pop.bind fun _ => (along_globalIndex _).bind fun _ => along_get.bind fun _ => ?_
    exact (along_orFault _ _).bind fun _ => (along_push _).bind fun _ => along_pure next
  | gstore =>
    refine (along_operand 1).bind fun _ => along_pop.bind fun _ => (along_globalIndex _).bind fun _ => ?_
    refine (along_modify fun m => ?_).bind fun _ => along_pure next
    exact ⟨rfl, rfl, rfl, rfl, rfl, rfl, rfl, Chain.refl _, Memory.steady_set ..⟩
  | pop => exact along_pop.bind fun _ => along_pure next
  | call =>
    refine along_call along_push (fun m _ => ?_) (fun m _ => ?_) next
    · exact ⟨rfl, rfl, rfl, rfl, rfl, rfl, rfl, Chain.refl _, Chain.refl _⟩
    · exact ⟨rfl, rfl, rfl, rfl, rfl, rfl, rfl, Chain.refl _, Chain.refl _⟩
  | ret => exact along_ret
  | print => exact absurd rfl hPrint
  | halt => exact absurd rfl hHalt
  | _ => exact (along_binary _).bind fun _ => along_pure next

/-! ## Whole instructions -/

/-- What an instruction starts with: a word at `pc` that is the number of an operation. -/
theorem step_cases (m : Machine) :
    (m.program.words[m.pc]? = none ∧ step m = .error .pcOutOfRange m) ∨
      (∃ w, m.program.words[m.pc]? = some w ∧ Opcode.ofWord? w = none ∧ step m = .error (.unknownOpcode w) m) ∨
      ∃ w op, m.program.words[m.pc]? = some w ∧ Opcode.ofWord? w = some op ∧
        step m = (perform (m.pc + 1 + op.operands) op >>= fun next => modify fun m => { m with pc := next }) m := by
  have hFetch : fetch m = (orFault .pcOutOfRange m.program.words[m.pc]? >>= fun word =>
      orFault (.unknownOpcode word) (Opcode.ofWord? word)) m := rfl
  cases hWord : m.program.words[m.pc]? with
  | none =>
    rw [hWord] at hFetch
    exact .inl ⟨rfl, bind_of_error hFetch⟩
  | some w =>
    rw [hWord] at hFetch
    change fetch m = orFault (.unknownOpcode w) (Opcode.ofWord? w) m at hFetch
    cases hOp : Opcode.ofWord? w with
    | none =>
      rw [hOp] at hFetch
      exact .inr (.inl ⟨w, rfl, hOp, bind_of_error hFetch⟩)
    | some op =>
      rw [hOp] at hFetch
      exact .inr (.inr ⟨w, op, rfl, hOp, bind_of_ok hFetch⟩)

theorem exists_of_step {t : Machine} (h : step m = .ok () t) :
    ∃ (op : Opcode) (next : Nat) (t' : Machine), m.program.words[m.pc]? = some op.word ∧
      perform (m.pc + 1 + op.operands) op m = .ok next t' ∧ t = { t' with pc := next } := by
  rcases step_cases m with ⟨_, hError⟩ | ⟨_, _, _, hError⟩ | ⟨w, op, hWord, hOp, hStep⟩
  · cases hError.symm.trans h
  · cases hError.symm.trans h
  · obtain ⟨next, t', hPerform, hMove⟩ := exists_of_bind_ok (hStep.symm.trans h)
    cases hMove
    exact ⟨op, next, t', by rw [hWord, Opcode.word_of_ofWord? hOp], hPerform, rfl⟩

theorem exists_of_step_error {fault : Fault} {t : Machine} (h : step m = .error fault t) :
    (t = m ∧ (fault = .pcOutOfRange ∨ ∃ w, fault = .unknownOpcode w)) ∨
      ∃ op : Opcode, m.program.words[m.pc]? = some op.word ∧
        perform (m.pc + 1 + op.operands) op m = .error fault t := by
  rcases step_cases m with ⟨_, hError⟩ | ⟨w, _, _, hError⟩ | ⟨w, op, hWord, hOp, hStep⟩
  · cases hError.symm.trans h
    exact .inl ⟨rfl, .inl rfl⟩
  · cases hError.symm.trans h
    exact .inl ⟨rfl, .inr ⟨w, rfl⟩⟩
  · right
    refine ⟨op, by rw [hWord, Opcode.word_of_ofWord? hOp], ?_⟩
    cases hPerform : perform (m.pc + 1 + op.operands) op m with
    | ok next t' =>
      rw [hStep, bind_of_ok hPerform] at h
      cases h
    | error e t' =>
      rw [hStep, bind_of_error hPerform] at h
      cases h
      rfl

theorem pop_eq (m : Machine) :
    pop m = match m.stack.items.back? with
      | some w => .ok w { m with stack := { m.stack with items := m.stack.items.pop } }
      | none => .error (.stack .underflow) m := by
  rw [pop, onStack]
  simp only [Stack.pop]
  cases m.stack.items.back? <;> rfl

theorem popTwo_eq : popTwo = (do let b ← pop; let a ← pop; pure (a, b)) := by
  funext m
  simp only [popTwo, pop, onStack, Stack.popTwo, bind, EStateM.bind]
  cases Stack.pop m.stack with
  | error e s => rfl
  | ok b s =>
    simp only
    cases Stack.pop s <;> rfl

/-- The value that an instruction prints which succeeds. -/
def printing? (m : Machine) : Option Word :=
  match step m with
  | .ok _ _ => if m.program.words[m.pc]? = some Opcode.print.word then m.stack.items.back? else none
  | .error _ _ => none

theorem steady_of_step_error {fault : Fault} {t : Machine} (h : step m = .error fault t) : Steady m t := by
  rcases exists_of_step_error h with ⟨rfl, _⟩ | ⟨op, _, hPerform⟩
  · exact Chain.refl t
  · by_cases hPrint : op = .print
    · subst hPrint
      have hPop := along_pop m
      cases hResult : pop m with
      | ok w t' =>
        rw [perform, bind_of_ok hResult] at hPerform
        cases hPerform
      | error e t' =>
        rw [perform, bind_of_error hResult] at hPerform
        cases hPerform
        rwa [hResult] at hPop
    · by_cases hHalt : op = .halt
      · subst hHalt
        cases hPerform
      · have hSteady := along_perform (m.pc + 1 + op.operands) hPrint hHalt m
        rwa [hPerform] at hSteady

theorem steady_of_step {t : Machine} (h : step m = .ok () t) :
    Steady m { t with pc := m.pc, halted := m.halted, output := m.output } ∧
      t.output = m.output ++ Eval.text m.printing?.toList := by
  obtain ⟨op, next, t', hOp, hPerform, rfl⟩ := exists_of_step h
  have hPrinting : m.printing? = if op = .print then m.stack.items.back? else none := by
    rw [printing?, h, hOp]
    by_cases hPrint : op = .print
    · subst hPrint
      rfl
    · simp only [Option.some.injEq]
      rw [if_neg hPrint, if_neg fun hWord => hPrint (Opcode.eq_of_word_eq hWord)]
  rw [hPrinting]
  by_cases hPrint : op = .print
  · subst hPrint
    rw [if_pos rfl]
    have hPop := along_pop m
    rw [pop_eq] at hPop
    rw [perform] at hPerform
    obtain ⟨w, t, hResult, hRest⟩ := exists_of_bind_ok hPerform
    cases hRest
    rw [pop_eq] at hResult
    cases hBack : m.stack.items.back? with
    | none =>
      rw [hBack] at hResult
      cases hResult
    | some v =>
      rw [hBack] at hResult hPop
      cases hResult
      refine ⟨⟨rfl, rfl, rfl, rfl, rfl, rfl, rfl, hPop.stack, Chain.refl _⟩, ?_⟩
      simp [Eval.text, String.join, String.append_assoc]
  · rw [if_neg hPrint]
    have hNothing : m.output ++ Eval.text (none : Option Word).toList = m.output := by
      simp [Eval.text, String.join]
    rw [hNothing]
    by_cases hHalt : op = .halt
    · subst hHalt
      cases hPerform
      exact ⟨Chain.refl m, rfl⟩
    · have hSteady := along_perform (m.pc + 1 + op.operands) hPrint hHalt m
      rw [hPerform] at hSteady
      exact ⟨⟨hSteady.program, hSteady.limits, rfl, rfl, hSteady.interrupted, hSteady.fault, rfl, hSteady.stack,
        hSteady.globals⟩, hSteady.output⟩

end Machine

end Vee
