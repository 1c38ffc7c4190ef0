import Vee.Proofs.Code.Instructions
import Vee.Proofs.Machine.Frame

/-! # What a successful instruction has done

An instruction that succeeds took its words from the top of the stack and left others there. Words further down are
as before, except that a store may have changed a slot of the running function.
-/

namespace Vee

set_option autoImplicit false

open Effect

namespace Machine

variable {S : Setting} {s t : Snapshot} {α : Type}

theorem Leads.eq_of_ok {action : Action α} {a b : α} {m : Machine} (h : Leads S action s a t)
    (hOk : action (s.machine S) = .ok b m) : b = a ∧ m = t.machine S := by
  rcases h with h | ⟨fault, m', h, _⟩
  · cases h.symm.trans hOk
    exact ⟨rfl, rfl⟩
  · cases h.symm.trans hOk

theorem Exhausted.ne_ok {action : Action α} {a : α} {m : Machine} (h : Exhausted S action s) :
    action (s.machine S) ≠ .ok a m := by
  intro hOk
  obtain ⟨fault, m', h, _⟩ := h
  cases h.symm.trans hOk

/-- What an instruction does that succeeds: its operation, and the move of `pc`. -/
theorem exists_of_step_ok {op : Opcode} {m : Machine} (hOp : S.program.words[s.pc]? = some op.word)
    (h : step (s.machine S) = .ok () m) :
    ∃ next m', perform (s.pc + 1 + op.operands) op (s.machine S) = .ok next m' ∧ m = { m' with pc := next } := by
  rw [step_eq hOp] at h
  obtain ⟨next, m', hPerform, hMove⟩ := exists_of_bind_ok h
  cases hMove
  exact ⟨next, m', hPerform, rfl⟩

theorem exists_of_pop_bind {rest : List Word} {w : Word} {f : Word → Action α} {a : α} {m : Machine}
    (hStack : s.stack = rest ++ [w]) (h : (pop >>= f) (s.machine S) = .ok a m) :
    f w ({ s with stack := rest }.machine S) = .ok a m := by
  rwa [bind_of_ok (pop_machine hStack)] at h

theorem exists_of_binary {op : BinaryOp} {o : Opcode} {rest : List Word} {a b : Word} {m : Machine}
    (hCode : op.opcodes = [o]) (hOp : S.program.words[s.pc]? = some o.word) (hStack : s.stack = rest ++ [a, b])
    (h : step (s.machine S) = .ok () m) : ∃ w, m = { s with pc := s.pc + 1, stack := rest ++ [w] }.machine S := by
  obtain ⟨hLeads, hFault⟩ := step_operator hCode hOp hStack
  cases hValue : Eval.binary op a b with
  | ok w => exact ⟨w, ((hLeads w hValue).eq_of_ok h).2⟩
  | error fault => cases (hFault fault hValue).symm.trans h

theorem exists_of_unary {op : UnaryOp} {rest : List Word} {a : Word} {m : Machine}
    (hOp : S.program.words[s.pc]? = some op.opcode.word) (hStack : s.stack = rest ++ [a])
    (h : step (s.machine S) = .ok () m) : ∃ w, m = { s with pc := s.pc + 1, stack := rest ++ [w] }.machine S := by
  obtain ⟨hLeads, hFault⟩ := step_unary hOp hStack
  cases hValue : Eval.unary op a with
  | ok w => exact ⟨w, ((hLeads w hValue).eq_of_ok h).2⟩
  | error fault => cases (hFault fault hValue).symm.trans h

/-! ## Variables -/

theorem exists_of_slotIndex_bind {w : Word} {f : Nat → Action α} {a : α} {m : Machine}
    (h : (slotIndex w >>= f) (s.machine S) = .ok a m) :
    ∃ i, (s.machine S).slotIndex? w = some i ∧ f i (s.machine S) = .ok a m := by
  obtain ⟨i, m', hIndex, hRest⟩ := exists_of_bind_ok h
  obtain ⟨hSome, rfl⟩ := of_orFault_ok hIndex
  exact ⟨i, hSome, hRest⟩

theorem exists_of_load {rest : List Word} {w : Word} {m : Machine}
    (hOp : S.program.words[s.pc]? = some Opcode.load.word) (hStack : s.stack = rest ++ [w])
    (h : step (s.machine S) = .ok () m) :
    ∃ v, m = { s with pc := s.pc + 1, stack := rest ++ [v] }.machine S := by
  obtain ⟨next, m', hPerform, _⟩ := exists_of_step_ok hOp h
  obtain ⟨i, hIndex, hRead⟩ := exists_of_slotIndex_bind (exists_of_pop_bind hStack hPerform)
  obtain ⟨_, _, hGet, hRead⟩ := exists_of_bind_ok hRead
  cases hGet
  obtain ⟨v, m', hValue, _⟩ := exists_of_bind_ok hRead
  obtain ⟨hSome, _⟩ := of_orFault_ok hValue
  have hLeads := leads_load hOp hStack hIndex (by simpa [Snapshot.machine] using hSome)
  exact ⟨v, (hLeads.eq_of_ok h).2⟩

theorem exists_of_gload {rest : List Word} {w : Word} {m : Machine}
    (hOp : S.program.words[s.pc]? = some Opcode.gload.word) (hStack : s.stack = rest ++ [w])
    (h : step (s.machine S) = .ok () m) :
    ∃ v, m = { s with pc := s.pc + 1, stack := rest ++ [v] }.machine S := by
  obtain ⟨next, m', hPerform, rfl⟩ := exists_of_step_ok hOp h
  obtain ⟨i, m'', hIndex, hRead⟩ := exists_of_bind_ok (exists_of_pop_bind hStack hPerform)
  obtain ⟨_, rfl⟩ := of_orFault_ok hIndex
  obtain ⟨_, _, hGet, hRead⟩ := exists_of_bind_ok hRead
  cases hGet
  obtain ⟨v, m'', hValue, hPush⟩ := exists_of_bind_ok hRead
  obtain ⟨_, rfl⟩ := of_orFault_ok hValue
  have hLeads : Leads S (push v) { s with stack := rest } () { s with stack := rest ++ [v] } := leads_push v
  obtain ⟨_, m'', hPushed, hDone⟩ := exists_of_bind_ok hPush
  obtain ⟨_, rfl⟩ := hLeads.eq_of_ok hPushed
  cases hDone
  exact ⟨v, rfl⟩

theorem exists_of_gstore {rest : List Word} {w v : Word} {m : Machine}
    (hOp : S.program.words[s.pc]? = some Opcode.gstore.word) (hArg : S.program.words[s.pc + 1]? = some w)
    (hStack : s.stack = rest ++ [v]) (h : step (s.machine S) = .ok () m) :
    ∃ globals, m = { s with pc := s.pc + 2, stack := rest, globals := globals }.machine S := by
  obtain ⟨next, m', hPerform, rfl⟩ := exists_of_step_ok hOp h
  obtain ⟨_, _, hOperand, hPerform⟩ := exists_of_bind_ok hPerform
  obtain ⟨rfl, rfl⟩ := (leads_operand hArg).eq_of_ok hOperand
  obtain ⟨i, m'', hIndex, hWrite⟩ := exists_of_bind_ok (exists_of_pop_bind hStack hPerform)
  obtain ⟨_, rfl⟩ := of_orFault_ok hIndex
  cases hWrite
  exact ⟨_, rfl⟩

theorem Home.exists_get? {home : Home} {pc : Nat} {temps : List Word} {globals : Memory} {output : String} {w : Word}
    {i : Nat} (h : ((home.snapshot pc temps globals output).machine S).slotIndex? w = some i) :
    ∃ v, home.get? w.toInt = some v := by
  cases home with
  | main => cases h
  | call c args locals =>
    simp only [slotIndex?, Snapshot.machine, snapshot, activations, Option.bind_eq_bind, List.head?_cons,
      Option.bind_some] at h
    generalize w.toInt = slot at h ⊢
    cases slot with
    | ofNat n =>
      simp only [if_pos (Int.natCast_nonneg n), Int.ofNat_eq_natCast] at h
      split at h
      · rename_i hIn
        exact ⟨_, List.getElem?_eq_getElem (Int.ofNat_lt.mp hIn.1)⟩
      · cases h
    | negSucc n =>
      simp only [if_neg (show ¬ (0 : Int) ≤ .negSucc n by omega)] at h
      split at h
      · rename_i hIn
        exact ⟨_, List.getElem?_eq_getElem (show n < args.length by omega)⟩
      · cases h

theorem of_store {home : Home} {pc : Nat} {temps : List Word} {globals : Memory} {output : String} {w v : Word}
    {m : Machine} (hOp : S.program.words[pc]? = some Opcode.store.word) (hArg : S.program.words[pc + 1]? = some w)
    (h : step ((home.snapshot pc (temps ++ [v]) globals output).machine S) = .ok () m) :
    m = ((home.set w.toInt v).snapshot (pc + 2) temps globals output).machine S := by
  obtain ⟨next, m', hPerform, _⟩ := exists_of_step_ok hOp h
  obtain ⟨_, _, hOperand, hPerform⟩ := exists_of_bind_ok hPerform
  obtain ⟨rfl, rfl⟩ := (leads_operand hArg).eq_of_ok hOperand
  obtain ⟨i, hIndex, _⟩ := exists_of_slotIndex_bind
    (exists_of_pop_bind (List.append_assoc home.stack temps [v]).symm hPerform)
  obtain ⟨old, hSlot⟩ := Home.exists_get? hIndex
  exact ((leads_store_slot hOp hArg hSlot rfl).eq_of_ok h).2

/-! ## Instructions that go on behind themselves -/

/-- The machine behind an instruction that has replaced the top of the stack and moved on. -/
def Passes (S : Setting) (s : Snapshot) (i : Instruction) (low : List Word) (m : Machine) : Prop :=
  ∃ new globals output, new.length = i.leaves ∧ (∀ w, i = .const w → new = [w]) ∧
    m = { s with
      pc := s.pc + 1 + i.op.operands
      stack := low ++ new
      globals := globals
      output := output : Snapshot }.machine S

theorem passes_of_word {i : Instruction} {low : List Word} {w : Word} {next : Nat} (hLeaves : i.leaves = 1)
    (hConst : ∀ v, i = .const v → v = w) (hNext : next = s.pc + 1 + i.op.operands) :
    Passes S s i low ({ s with pc := next, stack := low ++ [w] }.machine S) := by
  refine ⟨[w], s.globals, s.output, hLeaves.symm, ?_, by rw [hNext]⟩
  intro v hEq
  rw [hConst v hEq]

theorem passes_of_none {i : Instruction} {low : List Word} {next : Nat} {globals : Memory} {output : String}
    (hLeaves : i.leaves = 0) (hNext : next = s.pc + 1 + i.op.operands) :
    Passes S s i low
      ({ s with pc := next, stack := low, globals := globals, output := output : Snapshot }.machine S) := by
  refine ⟨[], globals, output, hLeaves.symm, ?_, by rw [hNext, List.append_nil]⟩
  rintro v rfl
  cases hLeaves

theorem exists_operator {i : Instruction} (hTakes : i.takes = 2) (hJump : i.isJump = false) (hCall : i.op ≠ .call) :
    ∃ op : BinaryOp, op.opcodes = [i.op] ∧ i.op.operands = 0 ∧ i.leaves = 1 := by
  obtain ⟨op, operands, hComplete⟩ := i
  cases op with
  | add => exact ⟨.add, rfl, rfl, rfl⟩
  | sub => exact ⟨.sub, rfl, rfl, rfl⟩
  | mul => exact ⟨.mul, rfl, rfl, rfl⟩
  | div => exact ⟨.div, rfl, rfl, rfl⟩
  | mod => exact ⟨.mod, rfl, rfl, rfl⟩
  | lt => exact ⟨.lt, rfl, rfl, rfl⟩
  | gt => exact ⟨.gt, rfl, rfl, rfl⟩
  | leq => exact ⟨.le, rfl, rfl, rfl⟩
  | geq => exact ⟨.ge, rfl, rfl, rfl⟩
  | eq => exact ⟨.eq, rfl, rfl, rfl⟩
  | and => exact ⟨.and, rfl, rfl, rfl⟩
  | or => exact ⟨.or, rfl, rfl, rfl⟩
  | jmpt => cases hJump
  | jmpf => cases hJump
  | call => exact absurd rfl hCall
  | _ => cases hTakes

theorem passes_of_instruction {i : Instruction} {low top : List Word} {m : Machine}
    (hHolds : S.program.Holds ∅ s.pc i.cells) (hStack : s.stack = low ++ top) (hTop : top.length = i.takes)
    (hJump : i.isJump = false) (hCall : i.op ≠ .call) (hRet : i.op ≠ .ret) (hHalt : i.op ≠ .halt)
    (hStore : i.op ≠ .store) (h : step (s.machine S) = .ok () m) : Passes S s i low m := by
  obtain ⟨hOp, hOperands⟩ := Program.holds_op.mp hHolds
  by_cases hTwo : i.takes = 2
  · obtain ⟨op, hCode, hNone, hLeaves⟩ := exists_operator hTwo hJump hCall
    rw [hTwo] at hTop
    obtain ⟨a, b, rfl⟩ : ∃ a b, top = [a, b] := by
      match top, hTop with
      | [a, b], _ => exact ⟨a, b, rfl⟩
    obtain ⟨w, rfl⟩ := exists_of_binary hCode hOp hStack h
    refine passes_of_word hLeaves ?_ (by rw [hNone])
    rintro v rfl
    cases hTwo
  obtain ⟨op, operands, hComplete⟩ := i
  cases op with
  | const =>
    obtain ⟨w, rfl⟩ := List.length_eq_one_iff.mp hComplete
    obtain rfl := List.length_eq_zero_iff.mp hTop
    have hArg := (Program.holds_int.mp hOperands).1
    obtain ⟨_, rfl⟩ := (leads_const hOp hArg).eq_of_ok h
    rw [hStack, List.append_nil]
    refine passes_of_word rfl ?_ rfl
    intro v hEq
    cases hEq
    rfl
  | load =>
    obtain ⟨w, rfl⟩ := List.length_eq_one_iff.mp hTop
    obtain ⟨v, rfl⟩ := exists_of_load hOp hStack h
    exact passes_of_word rfl nofun rfl
  | gload =>
    obtain ⟨w, rfl⟩ := List.length_eq_one_iff.mp hTop
    obtain ⟨v, rfl⟩ := exists_of_gload hOp hStack h
    exact passes_of_word rfl nofun rfl
  | gstore =>
    obtain ⟨w, rfl⟩ := List.length_eq_one_iff.mp hComplete
    obtain ⟨v, rfl⟩ := List.length_eq_one_iff.mp hTop
    obtain ⟨globals, rfl⟩ := exists_of_gstore hOp (Program.holds_int.mp hOperands).1 hStack h
    exact passes_of_none rfl rfl
  | print =>
    obtain ⟨w, rfl⟩ := List.length_eq_one_iff.mp hTop
    obtain ⟨_, rfl⟩ := (leads_print hOp hStack).eq_of_ok h
    exact passes_of_none rfl rfl
  | pop =>
    obtain ⟨w, rfl⟩ := List.length_eq_one_iff.mp hTop
    obtain ⟨_, rfl⟩ := (leads_pop_instruction hOp hStack).eq_of_ok h
    exact passes_of_none rfl rfl
  | not =>
    obtain ⟨a, rfl⟩ := List.length_eq_one_iff.mp hTop
    obtain ⟨w, rfl⟩ := exists_of_unary (show _ = some UnaryOp.not.opcode.word from hOp) hStack h
    exact passes_of_word rfl nofun rfl
  | neg =>
    obtain ⟨a, rfl⟩ := List.length_eq_one_iff.mp hTop
    obtain ⟨w, rfl⟩ := exists_of_unary (show _ = some UnaryOp.neg.opcode.word from hOp) hStack h
    exact passes_of_word rfl nofun rfl
  | jmp => cases hJump
  | jmpt => cases hJump
  | jmpf => cases hJump
  | call => exact absurd rfl hCall
  | ret => exact absurd rfl hRet
  | halt => exact absurd rfl hHalt
  | store => exact absurd rfl hStore
  | _ => exact absurd rfl hTwo

/-! ## Jumps -/

/-- A jump with the constant `w` on top of what it takes. -/
theorem of_jump {i : Instruction} {low top : List Word} {w : Word} {a : Nat} {m : Machine}
    (hOp : S.program.words[s.pc]? = some i.op.word) (hJump : i.isJump = true) (hStack : s.stack = low ++ top)
    (hTop : top.length = i.takes) (hLast : top.getLast? = some w) (hTarget : w.toNat? = some a)
    (hSize : a < S.program.words.size) (h : step (s.machine S) = .ok () m) :
    m = { s with pc := a, stack := low }.machine S ∨ m = { s with pc := s.pc + 1, stack := low }.machine S := by
  have hConditional : ∀ {op : Opcode} {expected : Word}, (∀ next, perform next op = jumpIf expected next) →
      op.operands = 0 → S.program.words[s.pc]? = some op.word → top.length = 2 →
      m = { s with pc := a, stack := low }.machine S ∨ m = { s with pc := s.pc + 1, stack := low }.machine S := by
    intro op expected hPerform hOperands hOp hTwo
    obtain ⟨c, rfl⟩ : ∃ c, top = [c, w] := by
      match top, hTwo with
      | [c, d], _ => exact ⟨c, by cases hLast; rfl⟩
    obtain ⟨_, rfl⟩ := (leads_jumpIf hPerform hOperands hOp hStack hTarget hSize).eq_of_ok h
    split
    · exact .inl rfl
    · exact .inr rfl
  obtain ⟨op, operands, hComplete⟩ := i
  cases op with
  | jmp =>
    obtain ⟨v, rfl⟩ := List.length_eq_one_iff.mp hTop
    cases hLast
    exact .inl ((leads_jmp hOp hStack hTarget hSize).eq_of_ok h).2
  | jmpt => exact hConditional (fun _ => rfl) rfl hOp hTop
  | jmpf => exact hConditional (fun _ => rfl) rfl hOp hTop
  | _ => cases hJump

end Machine

end Vee
