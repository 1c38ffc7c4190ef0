import Vee.Proofs.Machine.Bounds

/-! # What a failing instruction leaves behind

An instruction takes its operands off the stack before anything can go wrong, and what it puts in their place has
room. So a failure leaves a prefix of the stack behind, and leaves the global slots alone. A call pushes before it is
done: its failure leaves the stack as it was with some words of the new activation on top.
-/

namespace Vee

set_option autoImplicit false

open Effect

namespace Machine

variable {α : Type} {m t : Machine} {op : Opcode} {room : Nat}

/-! ## Operands off the stack -/

/-- Amid an instruction that has only popped, with so much room on the stack. -/
structure Cut (m : Machine) (room : Nat) (t : Machine) : Prop where
  globals : t.globals = m.globals
  fp : t.fp = m.fp
  stack : t.stack.items.toList <+: m.stack.items.toList
  fits : t.stack.items.size + room ≤ t.stack.capacity

/-- What is spared by an instruction that fails and is no call. -/
structure Spared (m : Machine) (op : Opcode) (fault : Fault) (t : Machine) : Prop where
  globals : t.globals = m.globals
  fp : op ≠ .ret → t.fp = m.fp
  stack : t.stack.items.toList <+: m.stack.items.toList

def Anything (_ : α) (_ : Machine) : Prop := True

theorem spared_self {fault : Fault} : Spared m op fault m := ⟨rfl, fun _ => rfl, List.prefix_rfl⟩

theorem cut_self (h : m.stack.items.size ≤ m.stack.capacity) : Cut m 0 m := ⟨rfl, rfl, List.prefix_rfl, h⟩

namespace Cut

variable {fault : Fault}

theorem spared (h : Cut m room t) : Spared m op fault t := ⟨h.globals, fun _ => h.fp, h.stack⟩

theorem weaken (h : Cut m 1 t) : Cut m 0 t := ⟨h.globals, h.fp, h.stack, Nat.le_of_succ_le h.fits⟩

theorem below {w : Word} (h : Cut m 0 t) (hTop : t.stack.items.back? = some w) : Cut m 1 t.below := by
  refine ⟨h.globals, h.fp, ?_, Nat.le_trans (size_lt_of_back? hTop) h.fits⟩
  rw [Machine.below, Array.toList_pop]
  exact (List.dropLast_prefix _).trans h.stack

theorem pop (h : Cut m 0 t) : Yields Machine.pop t (fun _ => Cut m 1) (Spared m op) := by
  rw [← bind_pure Machine.pop]
  exact yields_pop_bind (fun w hTop => yields_pure (h.below hTop)) h.spared

theorem push (h : Cut m 1 t) (w : Word) : Yields (Machine.push w) t Anything (Spared m op) := by
  apply yields_push
  · trivial
  · exact fun hFull => absurd h.fits (Nat.not_le.mpr (Nat.lt_succ_of_le hFull))

theorem push_pure (h : Cut m 1 t) (w : Word) (next : α) :
    Yields (Machine.push w >>= fun _ => pure next) t Anything (Spared m op) :=
  (h.push w).bind fun _ _ _ => yields_pure trivial

theorem binary (h : Cut m 0 t) (f : Word → Word → Except Fault Word) :
    Yields (Machine.binary f) t Anything (Spared m op) := by
  have hTwo : Yields popTwo t (fun _ => Cut m 1) (Spared m op) := by
    rw [popTwo_eq]
    exact h.pop.bind fun _ _ hu => hu.weaken.pop.bind fun _ _ hv => yields_pure hv
  refine hTwo.bind fun (a, b) u hu => ?_
  simp only
  split
  · exact hu.push _
  · exact yields_throw hu.spared

theorem target (h : Cut m room t) (w : Word) : Yields (Machine.target w) t (fun _ => Cut m room) (Spared m op) :=
  yields_orFault (fun _ _ => h) fun _ => h.spared

theorem jump (h : Cut m room t) (w : Word) : Yields (Machine.target w) t Anything (Spared m op) :=
  yields_orFault (fun _ _ => trivial) fun _ => h.spared

theorem jumpIf (h : Cut m 0 t) (expected : Word) (next : Nat) :
    Yields (Machine.jumpIf expected next) t Anything (Spared m op) := by
  refine h.pop.bind fun destination _ ha => ha.weaken.pop.bind fun condition _ hb => ?_
  split
  · exact hb.jump destination
  · exact yields_pure trivial

theorem drop (h : Cut m 1 t) (count : Nat) :
    Yields (onStack (Stack.drop count)) t (fun _ => Cut m 1) (Spared m op) := by
  rw [Yields, onStack]
  simp only [Stack.drop]
  by_cases hCount : count ≤ t.stack.items.size
  · rw [if_pos hCount]
    refine ⟨h.globals, h.fp, ?_, Nat.le_trans (Nat.add_le_add_right ?_ 1) h.fits⟩
    · rw [Array.toList_shrink]
      exact (List.take_prefix ..).trans h.stack
    · simp only [Array.size_shrink]
      exact Nat.min_le_right ..
  · rw [if_neg hCount]
    exact h.spared

end Cut

theorem spares_ret (h : m.stack.items.size ≤ m.stack.capacity) : Yields ret m Anything (Spared m .ret) := by
  refine (cut_self h).pop.bind fun value t ht => yields_get_bind ?_
  split
  · exact yields_throw ht.spared
  · rename_i rest _
    have hCut : Cut m 0 { t with activations := rest, stack := t.stack.truncate (t.fp + 1) } := by
      refine ⟨ht.globals, ht.fp, ?_, Nat.le_trans ?_ ht.weaken.fits⟩
      · simp only [Stack.truncate, Array.toList_shrink]
        exact (List.take_prefix ..).trans ht.stack
      · simp only [Stack.truncate, Array.size_shrink]
        exact Nat.min_le_right ..
    refine yields_modify_bind (hCut.pop.bind fun fp _ ha => ha.weaken.pop.bind fun back _ hb => ?_)
    refine hb.weaken.pop.bind fun nargs c hc => ?_
    refine yields_count_bind (fun n _ => yields_modify_bind ?_) hc.spared
    -- From here on `fp` is the word that was saved, and the rest is as before.
    have hMoved : Cut { m with fp := n } 1 { c with fp := n } := ⟨hc.globals, rfl, hc.stack, hc.fits⟩
    have hRest : Yields (Machine.target back >>= fun next => count nargs >>= fun args =>
        onStack (Stack.drop args) >>= fun _ => push value >>= fun _ => pure next) { c with fp := n } Anything
        (Spared { m with fp := n } .ret) := by
      refine (hMoved.target back).bind fun next d hd => ?_
      refine yields_count_bind (fun args _ => ?_) hd.spared
      exact (hd.drop args).bind fun _ e he => he.push_pure value next
    exact hRest.mono (fun _ _ => id) fun _ _ hBad => ⟨hBad.globals, fun hNot => absurd rfl hNot, hBad.stack⟩

/-- An instruction that fails and is no call has only popped. -/
theorem spares_perform (h : m.stack.items.size ≤ m.stack.capacity) (next : Nat) (hCall : op ≠ .call) :
    Yields (perform next op) m Anything (Spared m op) := by
  have hSelf := cut_self h
  cases op with
  | not => exact hSelf.pop.bind fun w _ ha => ha.push_pure (negate w) next
  | neg =>
    refine hSelf.pop.bind fun w t ht => ?_
    exact yields_orFault_bind (fun v _ => ht.push_pure v next) fun _ => ht.spared
  | jmp => exact hSelf.pop.bind fun w _ ha => ha.jump w
  | jmpt => exact hSelf.jumpIf 1 next
  | jmpf => exact hSelf.jumpIf 0 next
  | const =>
    refine yields_operand_bind (fun w _ => ?_) spared_self
    have hPush : Yields (push w) m Anything (Spared m .const) := yields_push trivial fun _ => spared_self
    exact hPush.bind fun _ _ _ => yields_pure trivial
  | load =>
    refine hSelf.pop.bind fun slot t ht => yields_slotIndex_bind (fun i _ => yields_get_bind ?_) ht.spared
    exact yields_orFault_bind (fun v _ => ht.push_pure v next) fun _ => ht.spared
  | store =>
    refine yields_operand_bind (fun slot _ => ?_) spared_self
    refine hSelf.pop.bind fun v t ht => yields_slotIndex_bind (fun i _ => yields_get_bind ?_) ht.spared
    split
    · exact yields_modify_bind (yields_pure trivial)
    · exact yields_throw ht.spared
  | gload =>
    refine hSelf.pop.bind fun w t ht => ?_
    refine yields_globalIndex_bind (fun i _ _ => yields_get_bind ?_) fun _ => ht.spared
    exact yields_orFault_bind (fun v _ => ht.push_pure v next) fun _ => ht.spared
  | gstore =>
    refine yields_operand_bind (fun w _ => ?_) spared_self
    refine hSelf.pop.bind fun v t ht => ?_
    exact yields_globalIndex_bind (fun i _ _ => yields_modify_bind (yields_pure trivial)) fun _ => ht.spared
  | print => exact hSelf.pop.bind fun _ _ _ => yields_modify_bind (yields_pure trivial)
  | pop => exact hSelf.pop.bind fun _ _ _ => yields_pure trivial
  | halt => exact yields_modify_bind (yields_get_bind (yields_pure trivial))
  | call => exact absurd rfl hCall
  | ret => exact spares_ret h
  | _ => exact (hSelf.binary _).bind fun _ _ _ => yields_pure trivial

/-! ## Calls -/

/-- What a call keeps, whether it succeeds or fails. -/
structure Grown (m t : Machine) : Prop where
  globals : t.globals = m.globals
  stack : m.stack.items.toList <+: t.stack.items.toList

instance : Chain Grown where
  refl _ := ⟨rfl, List.prefix_rfl⟩
  trans hFirst hSecond := ⟨hSecond.globals.trans hFirst.globals, hFirst.stack.trans hSecond.stack⟩

theorem grown_push (w : Word) : Along Grown (push w) := by
  intro m
  rw [push, onStack]
  simp only [Stack.push]
  by_cases hRoom : m.stack.items.size < m.stack.capacity
  · rw [if_pos hRoom]
    refine ⟨rfl, ?_⟩
    rw [state, Array.toList_push]
    exact List.prefix_append ..
  · rw [if_neg hRoom]
    exact Chain.refl m

theorem grown_call (next : Nat) : Along Grown (call next) :=
  along_call grown_push (fun _ _ => ⟨rfl, List.prefix_rfl⟩) (fun _ _ => ⟨rfl, List.prefix_rfl⟩) next

/-! ## Whole instructions -/

theorem op_ne_of_word {other : Opcode} (h : m.program.words[m.pc]? = some op.word)
    (hOther : m.program.words[m.pc]? ≠ some other.word) : op ≠ other := by
  rintro rfl
  exact hOther h

theorem spared_of_step_error {fault : Fault} (hFits : m.stack.items.size ≤ m.stack.capacity)
    (hStep : step m = .error fault t) (hCall : m.program.words[m.pc]? ≠ some Opcode.call.word) :
    t.globals = m.globals ∧ t.stack.items.toList <+: m.stack.items.toList ∧
      (m.program.words[m.pc]? ≠ some Opcode.ret.word → t.fp = m.fp) := by
  rcases exists_of_step_error hStep with ⟨rfl, _⟩ | ⟨op, hOp, hPerform⟩
  · exact ⟨rfl, List.prefix_rfl, fun _ => rfl⟩
  · have hSpared := (spares_perform hFits _ (op_ne_of_word hOp hCall)).of_error hPerform
    exact ⟨hSpared.globals, hSpared.stack, fun hRet => hSpared.fp (op_ne_of_word hOp hRet)⟩

theorem grown_of_step_error {fault : Fault} (hStep : step m = .error fault t)
    (hCall : m.program.words[m.pc]? = some Opcode.call.word) : Grown m t := by
  rcases exists_of_step_error hStep with ⟨rfl, _⟩ | ⟨op, hOp, hPerform⟩
  · exact Chain.refl t
  · obtain rfl : op = .call := Opcode.eq_of_word_eq (Option.some.inj (hOp.symm.trans hCall))
    have hGrown := grown_call (m.pc + 1 + Opcode.call.operands) m
    rw [show call (m.pc + 1 + Opcode.call.operands) m = .error fault t from hPerform] at hGrown
    exact hGrown

/-! ## Reports -/

/-- A fault that waits is reported by the next slice, whatever comes before it. -/
theorem Settled.reports_fault {r : Report} (h : m.Settled) (hFault : m.fault = some r) (calls : List Call) (n : Nat) :
    Event.reports (m.events (calls ++ [.execute n])) = [r] ∧
      m.after (calls ++ [.execute n]) = { m with fault := none } := by
  have hHalted := (h.fault r hFault).1
  have hDone : ({ m with fault := none } : Machine).Finished := ⟨h.output, rfl, hHalted⟩
  have hReported (k : Nat) (later : List Call) : Event.reports (m.events (.execute k :: later)) = [r] ∧
      m.after (.execute k :: later) = { m with fault := none } := by
    have hEq := execute_of_fault (n := k) h.output hFault
    rw [events_cons, Event.reports_append, Call.after, Call.event?, hEq, hDone.reports later]
    refine ⟨rfl, ?_⟩
    change (m.execute k).2.after later = _
    rw [hEq]
    exact (hDone.session later).1
  induction calls with
  | nil => exact hReported n []
  | cons c rest ih =>
    cases c with
    | execute k => exact hReported k (rest ++ [.execute n])
    | interrupt =>
      have hSame : m.interrupt = m := if_pos hHalted
      rw [List.cons_append, events_cons]
      change Event.reports (m.interrupt.events _) = [r] ∧ m.interrupt.after _ = _
      rw [hSame]
      exact ih

/-- A slice in which an instruction fails ends there. -/
theorem advance_of_step_error {s : Machine} {fault : Fault} {n : Nat} (hRunning : m.halted = false)
    (hMem : s ∈ m.attempts n) (hStep : step s = .error fault t) :
    m.advance n = { t with halted := true, fault := some ⟨fault, t.pc⟩ } := by
  obtain ⟨k, hk, hHere⟩ := List.mem_map.mp (List.mem_filter.mp hMem).1
  have hGoes : (m.advance k).halted = false := hHere ▸ running_of_mem_attempts hMem
  have hStops : m.advance (k + 1) = { t with halted := true, fault := some ⟨fault, t.pc⟩ } := by
    rw [advance_of_running hGoes, hHere, advance_one, hStep]
  obtain ⟨d, rfl⟩ := Nat.exists_eq_add_of_lt (List.mem_range.mp hk)
  rw [Nat.add_right_comm, advance_add hRunning, hStops]
  rw [hStops]

/-- The instruction of a session that fails is reported behind it, and is the last that was tried. -/
theorem Settled.reports_failure {s : Machine} {fault : Fault} (h : m.Settled) {calls : List Call}
    (hMem : s ∈ m.tried calls) (hStep : step s = .error fault t) (n : Nat) :
    Event.reports (m.events (calls ++ [.execute n])) = [⟨fault, s.pc⟩] ∧
      m.after (calls ++ [.execute n]) = { t with halted := true, fault := none, output := "" } := by
  rw [← (steady_of_step_error hStep).pc]
  induction calls generalizing m with
  | nil => cases hMem
  | cons c rest ih =>
    rw [tried_cons, List.mem_append] at hMem
    rw [List.cons_append, events_cons]
    change _ ∧ (c.after m).after _ = _
    rcases hMem with hHere | hLater
    · cases c with
      | interrupt => cases hHere
      | execute k =>
        rw [Call.tried] at hHere
        split at hHere
        · rename_i hReady
          have hRunning := (ready_iff.mp hReady).2.1
          rw [Call.event?, Call.after, execute_of_ready hReady, advance_of_step_error hRunning hHere hStep]
          rcases report_cases { t with halted := true, fault := some ⟨fault, t.pc⟩ } with hReport |
            ⟨hOutput, r, hFault, hReport⟩ | ⟨_, hFault, _⟩
          · have hWaits : Settled { t with halted := true, fault := some ⟨fault, t.pc⟩, output := "" } := by
              refine ⟨rfl, ?_⟩
              rintro r ⟨⟩
              exact ⟨rfl, rfl⟩
            rw [hReport, Event.reports_append]
            exact hWaits.reports_fault rfl rest n
          · cases hFault
            have hDone : ({ t with halted := true, fault := none } : Machine).Finished := ⟨hOutput, rfl, rfl⟩
            rw [hReport, Event.reports_append, hDone.reports]
            refine ⟨rfl, ?_⟩
            rw [(hDone.session _).1, ← hOutput]
          · cases hFault
        · cases hHere
    · have hLast := ih (h.call c) hLater
      have hQuiet : Event.reports (c.event? m).toList = [] := by
        have hLength := h.length_reports (c :: (rest ++ [.execute n]))
        rw [events_cons, Event.reports_append, List.length_append, hLast.1, List.length_singleton] at hLength
        exact List.eq_nil_of_length_eq_zero (by omega)
      rw [Event.reports_append, hQuiet, hLast.1]
      exact ⟨rfl, hLast.2⟩

/-! ## Sessions -/

/-- An instruction that fails, in any state of a session, changes neither `pc` nor the global slots, the program or the
output. It is the one that is reported, at its address. Only a call or a return has moved `fp`. A call leaves the old
stack below what it has pushed, within the capacity; any other instruction leaves a prefix of the stack. -/
theorem failure_changes_least (program : Program) (limits : Limits) (calls : List Call) {s t : Machine} {fault : Fault}
    (hTried : s ∈ (start program limits).tried calls) (hStep : step s = .error fault t) :
    t.pc = s.pc ∧ t.globals = s.globals ∧ t.program = s.program ∧ t.output = s.output ∧
      (∀ n, Event.reports ((start program limits).events (calls ++ [.execute n])) = [⟨fault, s.pc⟩] ∧
        (start program limits).after (calls ++ [.execute n]) =
          { t with halted := true, fault := none, output := "" }) ∧
      (t.fp ≠ s.fp →
        program.words[s.pc]? = some Opcode.call.word ∨ program.words[s.pc]? = some Opcode.ret.word) ∧
      (program.words[s.pc]? ≠ some Opcode.call.word → t.stack.items.toList <+: s.stack.items.toList) ∧
      (program.words[s.pc]? = some Opcode.call.word →
        s.stack.items.toList <+: t.stack.items.toList ∧ t.stack.items.size ≤ limits.stack) := by
  have hFirst : (start program limits).Settled := settled_start program limits
  obtain ⟨_, hBounded, _⟩ := hFirst.session_invariant keptBetween_bounded (bounded_start program limits) calls
    (fun s _ hs t hStep => hs.step hStep) (fun s _ hs fault t hStep => hs.step_error hStep)
  have hHere := hBounded s hTried
  have hSteady := steady_of_step_error hStep
  have hGlobals : t.globals = s.globals := by
    by_cases hCall : s.program.words[s.pc]? = some Opcode.call.word
    · exact (grown_of_step_error hStep hCall).globals
    · exact (spared_of_step_error hHere.fits hStep hCall).1
  refine ⟨hSteady.pc, hGlobals, hSteady.program, hSteady.output, fun n => hFirst.reports_failure hTried hStep n, ?_⟩
  rw [← hHere.program]
  refine ⟨?_, fun hCall => (spared_of_step_error hHere.fits hStep hCall).2.1, fun hCall => ?_⟩
  · intro hMoved
    by_contra hNeither
    obtain ⟨hCall, hRet⟩ := not_or.mp hNeither
    exact hMoved ((spared_of_step_error hHere.fits hStep hCall).2.2 hRet)
  · refine ⟨(grown_of_step_error hStep hCall).stack, ?_⟩
    rw [← hHere.capacity, ← hSteady.stack.capacity]
    exact hSteady.stack.fits hHere.fits

/-- A call with one argument and two locals, where there is room for only one of them: `fp` has moved, and five of the
six words are there. -/
theorem failure_changes_least_call :
    let first := start ⟨#[16, 5, 24, 0, 1, 2]⟩ ⟨5, 0⟩
    let s := first.advance 1
    ∃ t, step s = .error (.stack (.overflow "OPERAND STACK")) t ∧ s.stack.items = #[5] ∧ s.fp = 0 ∧
      t.stack.items = #[5, 1, 6, 0, 0] ∧ t.fp = 3 ∧ s.stack.items.toList <+: t.stack.items.toList ∧
      ∀ n, Event.reports (first.events ([.execute 9] ++ [.execute n])) =
        [⟨.stack (.overflow "OPERAND STACK"), s.pc⟩] := by
  intro first s
  have hTried : s ∈ first.tried [.execute 9] := by
    rw [tried_cons]
    apply List.mem_append_left
    exact List.mem_filter.mpr ⟨List.mem_map.mpr ⟨1, by decide, rfl⟩, rfl⟩
  have hLast := advance_one s
  have hFault : (s.advance 1).fault = some ⟨.stack (.overflow "OPERAND STACK"), 2⟩ := by decide +kernel
  have hItems : (s.advance 1).stack.items = #[5, 1, 6, 0, 0] := by decide +kernel
  have hFp : (s.advance 1).fp = 3 := by decide +kernel
  cases hStep : step s with
  | ok _ t =>
    rw [hLast, hStep, (steady_of_step hStep).1.fault] at hFault
    cases hFault
  | error fault t =>
    rw [hLast, hStep] at hFault hItems hFp
    injection hFault with hReport
    injection hReport with hFault
    subst hFault
    obtain ⟨_, _, _, _, hReports, _, _, hCall⟩ := failure_changes_least _ _ [.execute 9] hTried hStep
    refine ⟨t, rfl, by decide +kernel, rfl, hItems, hFp, (hCall ?_).1, fun n => (hReports n).1⟩
    decide +kernel

end Machine

end Vee
