import Vee.Listing.Generate
import Vee.Proofs.Machine.Action
import Vee.Stmt.Eval

/-! # Where each instruction leads

One statement for every instruction that generated code holds, on the snapshot in front of it. Results of
operators are those of the evaluator, faults included.
-/

namespace Vee.Machine

set_option autoImplicit false

open Effect

variable {S : Setting} {s t : Snapshot}

theorem fetch_machine {op : Opcode} (h : S.program.words[s.pc]? = some op.word) :
    fetch (s.machine S) = .ok op (s.machine S) := by
  have hWord : (s.machine S).program.words[(s.machine S).pc]? = some op.word := h
  simp [fetch, Bind.bind, EStateM.bind, get, getThe, MonadStateOf.get, EStateM.get, hWord, orFault, Pure.pure,
    EStateM.pure, Opcode.ofWord?_word]

theorem step_eq {op : Opcode} (hOp : S.program.words[s.pc]? = some op.word) :
    step (s.machine S) =
      (perform (s.pc + 1 + op.operands) op >>= fun next => modify fun m => { m with pc := next }) (s.machine S) :=
  bind_of_ok (fetch_machine hOp)

theorem step_of_ok {op : Opcode} {next : Nat} {m : Machine} (hOp : S.program.words[s.pc]? = some op.word)
    (h : perform (s.pc + 1 + op.operands) op (s.machine S) = .ok next m) :
    step (s.machine S) = .ok () { m with pc := next } := by
  rw [step_eq hOp]
  exact bind_of_ok h

theorem step_of_error {op : Opcode} {fault : Fault} {m : Machine} (hOp : S.program.words[s.pc]? = some op.word)
    (h : perform (s.pc + 1 + op.operands) op (s.machine S) = .error fault m) :
    step (s.machine S) = .error fault m := by
  rw [step_eq hOp]
  exact bind_of_error h

theorem leads_step {op : Opcode} (hOp : S.program.words[s.pc]? = some op.word)
    (h : Leads S (perform (s.pc + 1 + op.operands) op) s t.pc { t with pc := s.pc }) : Leads S step s () t := by
  rcases h with h | ⟨fault, m, h, hRest⟩
  · exact .inl (step_of_ok hOp h)
  · exact .inr ⟨fault, m, step_of_error hOp h, hRest⟩

/-! ## Operators -/

theorem leads_binary {f : Word → Word → Except Fault Word} {rest : List Word} {a b w : Word}
    (hStack : s.stack = rest ++ [a, b]) (h : f a b = .ok w) :
    Leads S (binary f) s () { s with stack := rest ++ [w] } := by
  refine Leads.bind (.inl (popTwo_machine hStack)) rfl ?_
  simp only [h]
  exact leads_push w

theorem binary_fault {f : Word → Word → Except Fault Word} {rest : List Word} {a b : Word} {fault : Fault}
    (hStack : s.stack = rest ++ [a, b]) (h : f a b = .error fault) :
    binary f (s.machine S) = .error fault ({ s with stack := rest }.machine S) := by
  rw [binary, bind_of_ok (popTwo_machine hStack)]
  simp only [h]
  rfl

/-- The operation of a binary operator, and what it computes. Only the test for difference takes two. -/
theorem perform_operator (op : BinaryOp) (hNe : op ≠ .ne) :
    ∃ o f, op.opcodes = [o] ∧ o.operands = 0 ∧ f = Eval.binary op ∧
      ∀ next, perform next o = do binary f; return next := by
  cases op
  case ne => exact absurd rfl hNe
  all_goals exact ⟨_, _, rfl, rfl, rfl, fun _ => rfl⟩

theorem step_operator {op : BinaryOp} {o : Opcode} {rest : List Word} {a b : Word}
    (hCode : op.opcodes = [o]) (hOp : S.program.words[s.pc]? = some o.word) (hStack : s.stack = rest ++ [a, b]) :
    (∀ w, Eval.binary op a b = .ok w → Leads S step s () { s with pc := s.pc + 1, stack := rest ++ [w] }) ∧
      ∀ fault, Eval.binary op a b = .error fault →
        step (s.machine S) = .error fault ({ s with stack := rest }.machine S) := by
  have hNe : op ≠ .ne := by
    rintro rfl
    cases hCode
  obtain ⟨o', f, hCode', hOperands, rfl, hPerform⟩ := perform_operator op hNe
  cases hCode.symm.trans hCode'
  constructor
  · intro w hValue
    refine leads_step hOp ?_
    rw [hPerform, hOperands]
    exact (leads_binary hStack hValue).bind rfl (leads_pure _)
  · intro fault hFault
    refine step_of_error hOp ?_
    rw [hPerform]
    exact bind_of_error (binary_fault hStack hFault)

theorem leads_not {rest : List Word} {a : Word} (hOp : S.program.words[s.pc]? = some Opcode.not.word)
    (hStack : s.stack = rest ++ [a]) :
    Leads S step s () { s with pc := s.pc + 1, stack := rest ++ [negate a] } :=
  leads_step hOp ((leads_pop hStack).bind rfl ((leads_push _).bind rfl (leads_pure _)))

theorem step_unary {op : UnaryOp} {rest : List Word} {a : Word}
    (hOp : S.program.words[s.pc]? = some op.opcode.word) (hStack : s.stack = rest ++ [a]) :
    (∀ w, Eval.unary op a = .ok w → Leads S step s () { s with pc := s.pc + 1, stack := rest ++ [w] }) ∧
      ∀ fault, Eval.unary op a = .error fault →
        step (s.machine S) = .error fault ({ s with stack := rest }.machine S) := by
  cases op with
  | not =>
    constructor
    · intro w hValue
      cases hValue
      exact leads_not hOp hStack
    · intro fault hFault
      cases hFault
  | neg =>
    simp only [Eval.unary]
    constructor
    · intro w hValue
      split at hValue
      · rename_i hNeg
        cases hValue
        exact leads_step hOp ((leads_pop hStack).bind rfl
          ((leads_orFault hNeg).bind rfl ((leads_push _).bind rfl (leads_pure _))))
      · cases hValue
    · intro fault hFault
      split at hFault
      · cases hFault
      · rename_i hNeg
        cases hFault
        refine step_of_error hOp ((bind_of_ok (pop_machine hStack)).trans ?_)
        rw [hNeg]
        rfl

/-! ## Constants and jumps -/

theorem leads_const {w : Word} (hOp : S.program.words[s.pc]? = some Opcode.const.word)
    (hArg : S.program.words[s.pc + 1]? = some w) :
    Leads S step s () { s with pc := s.pc + 2, stack := s.stack ++ [w] } :=
  leads_step hOp ((leads_operand hArg).bind rfl ((leads_push _).bind rfl (leads_pure _)))

theorem leads_jmp {rest : List Word} {w : Word} {a : Nat} (hOp : S.program.words[s.pc]? = some Opcode.jmp.word)
    (hStack : s.stack = rest ++ [w]) (hTarget : w.toNat? = some a) (hSize : a < S.program.words.size) :
    Leads S step s () { s with pc := a, stack := rest } :=
  leads_step hOp ((leads_pop hStack).bind rfl (leads_target hTarget hSize))

theorem leads_jumpIf {op : Opcode} {expected : Word} {rest : List Word} {c w : Word} {a : Nat}
    (hPerform : ∀ next, perform next op = jumpIf expected next) (hOperands : op.operands = 0)
    (hOp : S.program.words[s.pc]? = some op.word) (hStack : s.stack = rest ++ [c, w])
    (hTarget : w.toNat? = some a) (hSize : a < S.program.words.size) :
    Leads S step s () { s with pc := if c = expected then a else s.pc + 1, stack := rest } := by
  refine leads_step hOp ?_
  rw [List.append_cons] at hStack
  rw [hPerform, hOperands]
  have hCondition : Leads S pop { s with stack := rest ++ [c] } c { s with stack := rest } := leads_pop rfl
  refine (leads_pop hStack).bind rfl (hCondition.bind rfl ?_)
  split
  · exact leads_target hTarget hSize
  · exact leads_pure _

theorem leads_jmpf {rest : List Word} {c w : Word} {a : Nat}
    (hOp : S.program.words[s.pc]? = some Opcode.jmpf.word) (hStack : s.stack = rest ++ [c, w])
    (hTarget : w.toNat? = some a) (hSize : a < S.program.words.size) :
    Leads S step s () { s with pc := if c = 0 then a else s.pc + 1, stack := rest } :=
  leads_jumpIf (fun _ => rfl) rfl hOp hStack hTarget hSize

/-! ## Variables -/

theorem leads_load {rest : List Word} {w v : Word} {i : Nat}
    (hOp : S.program.words[s.pc]? = some Opcode.load.word) (hStack : s.stack = rest ++ [w])
    (hIndex : ({ s with stack := rest }.machine S).slotIndex? w = some i) (hValue : rest[i]? = some v) :
    Leads S step s () { s with pc := s.pc + 1, stack := rest ++ [v] } := by
  refine leads_step hOp ((leads_pop hStack).bind rfl ?_)
  refine Leads.bind (leads_get.bind rfl (leads_orFault hIndex)) rfl ?_
  refine leads_get.bind rfl (Leads.bind (leads_orFault ?_) rfl ((leads_push v).bind rfl (leads_pure _)))
  simpa [Snapshot.machine] using hValue

theorem leads_store {rest : List Word} {w v : Word} {i : Nat}
    (hOp : S.program.words[s.pc]? = some Opcode.store.word) (hArg : S.program.words[s.pc + 1]? = some w)
    (hStack : s.stack = rest ++ [v])
    (hIndex : ({ s with stack := rest }.machine S).slotIndex? w = some i) (hSize : i < rest.length) :
    Leads S step s () { s with pc := s.pc + 2, stack := rest.set i v } := by
  refine leads_step hOp ((leads_operand hArg).bind rfl ((leads_pop hStack).bind rfl ?_))
  refine Leads.bind (leads_get.bind rfl (leads_orFault hIndex)) rfl (leads_get.bind rfl ?_)
  have hItems : i < ({ s with stack := rest }.machine S).stack.items.size := by
    simpa [Snapshot.machine] using hSize
  rw [if_pos hItems]
  refine Leads.bind (t := { s with stack := rest.set i v }) (leads_modify _ ?_) rfl (leads_pure _)
  simp [Snapshot.machine, Stack.set]

theorem globalIndex_machine {w : Word} {i : Nat} (hIndex : w.toNat? = some i)
    (hMemory : s.globals.size = S.limits.globals) (hName : i < S.globals.length) :
    Leads S (globalIndex w) s i s ∧ (¬ i < s.globals.size → Exhausted S (globalIndex w) s) := by
  have hSize : (s.machine S).globals.size = s.globals.size := rfl
  have hFail : ¬ i < s.globals.size → Exhausted S (globalIndex w) s := by
    intro hOut
    refine ⟨.globalOutOfRange w, s.machine S, ?_, rfl, i, hIndex, by omega, hName⟩
    change orFault (.globalOutOfRange w) (w.toNat?.filter fun j => j < s.globals.size) (s.machine S) = _
    rw [hIndex, Option.filter_some_neg (by simpa using hOut)]
    rfl
  refine ⟨?_, hFail⟩
  by_cases hIn : i < s.globals.size
  · refine leads_get.bind rfl (leads_orFault ?_)
    simp [hIndex, hSize, hIn]
  · exact .inr (hFail hIn)

theorem leads_gload {rest : List Word} {w v : Word} {i : Nat}
    (hOp : S.program.words[s.pc]? = some Opcode.gload.word) (hStack : s.stack = rest ++ [w])
    (hIndex : w.toNat? = some i) (hMemory : s.globals.size = S.limits.globals) (hName : i < S.globals.length)
    (hValue : i < s.globals.size → s.globals.get? i = some v) :
    Leads S step s () { s with pc := s.pc + 1, stack := rest ++ [v] } := by
  refine leads_step hOp ((leads_pop hStack).bind rfl ?_)
  obtain ⟨hLeads, hFail⟩ := globalIndex_machine (s := { s with stack := rest }) hIndex hMemory hName
  by_cases hIn : i < s.globals.size
  · refine hLeads.bind rfl (leads_get.bind rfl ?_)
    exact Leads.bind (leads_orFault (hValue hIn)) rfl ((leads_push v).bind rfl (leads_pure _))
  · exact .inr ((hFail hIn).bind _)

theorem leads_gstore {rest : List Word} {w v : Word} {i : Nat}
    (hOp : S.program.words[s.pc]? = some Opcode.gstore.word) (hArg : S.program.words[s.pc + 1]? = some w)
    (hStack : s.stack = rest ++ [v]) (hIndex : w.toNat? = some i)
    (hMemory : s.globals.size = S.limits.globals) (hName : i < S.globals.length) :
    Leads S step s () { s with pc := s.pc + 2, stack := rest, globals := s.globals.set i v } := by
  refine leads_step hOp ((leads_operand hArg).bind rfl ((leads_pop hStack).bind rfl ?_))
  have hLeads := (globalIndex_machine (s := { s with stack := rest }) hIndex hMemory hName).1
  exact hLeads.bind rfl (Leads.bind (t := { s with stack := rest, globals := s.globals.set i v })
    (leads_modify _ rfl) rfl (leads_pure _))

/-! ## Output and the end -/

theorem leads_pop_instruction {rest : List Word} {w : Word} (hOp : S.program.words[s.pc]? = some Opcode.pop.word)
    (hStack : s.stack = rest ++ [w]) : Leads S step s () { s with pc := s.pc + 1, stack := rest } :=
  leads_step hOp ((leads_pop hStack).bind rfl (leads_pure _))

theorem leads_print {rest : List Word} {w : Word} (hOp : S.program.words[s.pc]? = some Opcode.print.word)
    (hStack : s.stack = rest ++ [w]) :
    Leads S step s () { s with pc := s.pc + 1, stack := rest, output := s.output ++ w.text ++ "\n" } := by
  refine leads_step hOp ((leads_pop hStack).bind rfl (.inl ?_))
  rfl

theorem step_halt (hOp : S.program.words[s.pc]? = some Opcode.halt.word) :
    step (s.machine S) = .ok () { s.machine S with halted := true } :=
  step_of_ok hOp rfl

end Vee.Machine
