import Vee.Proofs.Machine.Session

/-! # Machines that have more

One machine may have words behind its program, room on its stack, global slots and earlier output that another does
not have. It does what the other does, instruction by instruction, until the other fails for want of one of these. So
a program that gets by with the limits of a machine runs the same on every machine with higher limits.
-/

namespace Vee

set_option autoImplicit false

open Effect

/-- What a machine has more: words behind its program, room on its stack, global slots, text that was printed before. -/
structure Surplus where
  words : Array Word := #[]
  stack : Nat := 0
  globals : Nat := 0
  text : String := ""

/-- The faults that a surplus can avert. -/
def Fault.Lacks (s : Surplus) : Fault → Prop
  | .stack (.overflow _) => s.stack ≠ 0
  | .globalOutOfRange _ => s.globals ≠ 0
  | .pcOutOfRange | .missingOperand | .jumpOutOfRange _ => s.words ≠ #[]
  | _ => False

/-- A surplus of room only averts faults for want of room. -/
theorem Fault.Lacks.cases {s : Surplus} {fault : Fault} (h : fault.Lacks s) (hWords : s.words = #[]) :
    (∃ label, fault = .stack (.overflow label)) ∨ ∃ w, fault = .globalOutOfRange w := by
  cases fault with
  | stack error =>
    cases error with
    | overflow label => exact .inl ⟨label, rfl⟩
    | underflow => cases h
  | globalOutOfRange w => exact .inr ⟨w, rfl⟩
  | pcOutOfRange | missingOperand | jumpOutOfRange => exact absurd hWords h
  | _ => cases h

theorem Fault.not_lacks_text (fault : Fault) (text : String) : ¬ fault.Lacks { text := text } := by
  intro h
  rcases h.cases rfl with ⟨label, rfl⟩ | ⟨w, rfl⟩
  · exact h rfl
  · exact h rfl

theorem Memory.toList_append {m : Memory} (h : ∀ i, m.size ≤ i → m.written.getD i 0 = 0) (more : Nat) :
    Memory.toList { m with size := m.size + more } = m.toList ++ List.replicate more 0 := by
  rw [toList, List.range_add, List.map_append]
  congr 1
  rw [List.eq_replicate_iff]
  simp [h]

namespace Machine

/-- The machine with the surplus. -/
def extend (s : Surplus) (m : Machine) : Machine :=
  { m with
    program := ⟨m.program.words ++ s.words⟩
    limits := ⟨m.limits.stack + s.stack, m.limits.globals + s.globals⟩
    stack := { m.stack with capacity := m.stack.capacity + s.stack }
    globals := { m.globals with size := m.globals.size + s.globals }
    output := s.text ++ m.output }

variable {α β : Type} {m : Machine}

/-- A surplus makes no difference to an action that does not fail for want of it. -/
def Indifferent (s : Surplus) (x : Action α) : Prop := Commutes (Fault.Lacks s) (extend s) x

variable (s : Surplus)

/-! ## Parts of instructions -/

theorem indifferent_push (w : Word) : Indifferent s (push w) := by
  intro m
  by_cases hRoom : m.stack.items.size < m.stack.capacity
  · left
    have hMore : m.stack.items.size < m.stack.capacity + s.stack := Nat.lt_add_right s.stack hRoom
    simp [push, onStack, Stack.push, extend, mapState, hRoom, hMore]
  · by_cases hNone : s.stack = 0
    · left
      simp [push, onStack, Stack.push, extend, mapState, hRoom, hNone]
    · right
      refine ⟨.stack (.overflow m.stack.label), m, ?_, hNone⟩
      simp [push, onStack, Stack.push, hRoom]

theorem indifferent_pop : Indifferent s pop := by
  intro m
  left
  have hItems : (extend s m).stack.items = m.stack.items := rfl
  rw [pop_eq, pop_eq, hItems]
  cases m.stack.items.back? <;> rfl

theorem indifferent_drop (n : Nat) : Indifferent s (onStack (Stack.drop n)) := by
  intro m
  left
  by_cases hEnough : n ≤ m.stack.items.size
  · simp [onStack, Stack.drop, extend, mapState, hEnough]
  · simp [onStack, Stack.drop, extend, mapState, hEnough]

theorem indifferent_popTwo : Indifferent s popTwo := by
  rw [popTwo_eq]
  exact (indifferent_pop s).bind fun b => (indifferent_pop s).bind fun a => commutes_pure (a, b)

theorem indifferent_orFault (fault : Fault) (o : Option α) : Indifferent s (orFault fault o) := by
  cases o with
  | none => exact commutes_throw fault
  | some a => exact commutes_pure a

/-- What is found in a machine is found with the surplus, too. -/
theorem indifferent_look {fault : Fault} {look : Machine → Option α}
    (hSome : ∀ m a, look m = some a → look (extend s m) = some a)
    (hNone : ∀ m, look m = none → look (extend s m) = none ∨ fault.Lacks s) :
    Indifferent s (get >>= fun m => orFault fault (look m)) := by
  intro m
  change orFault fault (look (extend s m)) (extend s m) = mapState (extend s) (orFault fault (look m) m) ∨
    ∃ e t, orFault fault (look m) m = .error e t ∧ e.Lacks s
  cases hLook : look m with
  | some a =>
    rw [hSome m a hLook]
    exact .inl rfl
  | none =>
    rcases hNone m hLook with hSame | hLacks
    · rw [hSame]
      exact .inl rfl
    · exact .inr ⟨fault, m, rfl, hLacks⟩

theorem word_append {words more : Array Word} {i : Nat} {w : Word} (h : words[i]? = some w) :
    (words ++ more)[i]? = some w := by
  obtain ⟨hLt, rfl⟩ := Array.getElem?_eq_some_iff.mp h
  rw [Array.getElem?_append_left hLt]
  exact h

theorem word_append_none {words more : Array Word} {i : Nat} (h : words[i]? = none) :
    (words ++ more)[i]? = none ∨ more ≠ #[] := by
  by_cases hMore : more = #[]
  · subst hMore
    rw [Array.append_empty]
    exact .inl h
  · exact .inr hMore

theorem indifferent_operand (offset : Nat) : Indifferent s (operand offset) :=
  indifferent_look s (fun _ _ => word_append) fun _ => word_append_none

theorem filter_append {w : Option Nat} {p q : Nat → Bool} {n : Nat} (hMore : ∀ i, p i = true → q i = true)
    (h : w.filter p = some n) : w.filter q = some n := by
  rw [Option.filter_eq_some_iff] at h ⊢
  exact ⟨h.1, hMore n h.2⟩

theorem indifferent_target (w : Word) : Indifferent s (target w) := by
  apply indifferent_look
  · intro m a
    apply filter_append
    intro i hLt
    apply decide_eq_true
    rw [extend, Array.size_append]
    exact Nat.lt_add_right s.words.size (of_decide_eq_true hLt)
  · intro m hNone
    by_cases hMore : s.words = #[]
    · left
      simpa [extend, hMore] using hNone
    · exact .inr hMore

theorem indifferent_globalIndex (w : Word) : Indifferent s (globalIndex w) := by
  apply indifferent_look
  · intro m a
    apply filter_append
    intro i hLt
    exact decide_eq_true (Nat.lt_add_right s.globals (of_decide_eq_true hLt))
  · intro m hNone
    by_cases hMore : s.globals = 0
    · left
      simpa [extend, hMore] using hNone
    · exact .inr hMore

theorem indifferent_global (w : Word) (i : Nat) :
    Indifferent s (get >>= fun m => orFault (.globalOutOfRange w) (m.globals.get? i)) := by
  apply indifferent_look
  · intro m v hGet
    rw [Memory.get?, Option.ite_none_right_eq_some] at hGet ⊢
    exact ⟨Nat.lt_add_right s.globals hGet.1, hGet.2⟩
  · intro m hNone
    by_cases hMore : s.globals = 0
    · left
      simpa [extend, hMore, Memory.get?] using hNone
    · exact .inr hMore

theorem indifferent_slotIndex (slot : Word) : Indifferent s (slotIndex slot) :=
  indifferent_look s (fun _ _ h => h) fun _ h => .inl h

theorem indifferent_slot (i : Nat) : Indifferent s (get >>= fun m => orFault .slotUnreadable m.stack.items[i]?) :=
  indifferent_look s (fun _ _ h => h) fun _ h => .inl h

/-- A global slot that is written is in range already without the surplus. -/
theorem indifferent_setGlobal (w value : Word) :
    Indifferent s (globalIndex w >>= fun i => modify fun m => { m with globals := m.globals.set i value }) := by
  apply (indifferent_globalIndex s w).bind_of
  intro m i t hIndex
  obtain ⟨hFound, rfl⟩ := of_orFault_ok hIndex
  have hLt : i < t.globals.size := of_decide_eq_true (Option.filter_eq_some_iff.mp hFound).2
  have hSet : (extend s t).globals.set i value = (extend s { t with globals := t.globals.set i value }).globals := by
    simp only [extend, Memory.set, if_pos hLt]
    exact if_pos (Nat.lt_add_right s.globals hLt)
  left
  change EStateM.Result.ok () { extend s t with globals := (extend s t).globals.set i value } = _
  rw [hSet]
  rfl

theorem indifferent_binary (f : Word → Word → Except Fault Word) : Indifferent s (binary f) := by
  apply (indifferent_popTwo s).bind
  rintro ⟨a, b⟩
  simp only
  split
  · exact indifferent_push s _
  · exact commutes_throw _

theorem indifferent_pushZeros (n : Nat) : Indifferent s (pushZeros n) := by
  induction n with
  | zero => exact commutes_pure ()
  | succ n ih => exact (indifferent_push s 0).bind fun _ => ih

theorem indifferent_jumpIf (expected : Word) (next : Nat) : Indifferent s (jumpIf expected next) := by
  apply (indifferent_pop s).bind
  intro destination
  apply (indifferent_pop s).bind
  intro condition
  split
  · exact indifferent_target s destination
  · exact commutes_pure next

/-! ## Instructions -/

theorem indifferent_call (next : Nat) : Indifferent s (call next) := by
  refine (indifferent_operand s 1).bind fun destination => (indifferent_operand s 2).bind fun nargs => ?_
  refine (indifferent_orFault s _ _).bind fun args => (indifferent_operand s 3).bind fun _ => ?_
  refine (indifferent_orFault s _ _).bind fun locals => commutes_get_bind (fun _ => rfl) fun m => ?_
  split
  · exact fun _ => .inl rfl
  · refine (indifferent_push s nargs).bind fun _ => (indifferent_orFault s _ _).bind fun back => ?_
    refine (indifferent_push s back).bind fun _ => commutes_get_bind (fun _ => rfl) fun m => ?_
    refine (indifferent_orFault s _ _).bind fun fp => (indifferent_push s fp).bind fun _ => ?_
    refine (commutes_modify fun _ => by rfl).bind fun _ => (indifferent_pushZeros s locals).bind fun _ => ?_
    exact (commutes_modify fun _ => by rfl).bind fun _ => indifferent_target s destination

theorem indifferent_ret : Indifferent s ret := by
  refine (indifferent_pop s).bind fun value => commutes_get_bind (fun _ => rfl) fun m => ?_
  split
  · exact commutes_throw _
  · refine (commutes_modify fun _ => by rfl).bind fun _ => (indifferent_pop s).bind fun fp => ?_
    refine (indifferent_pop s).bind fun back => (indifferent_pop s).bind fun nargs => ?_
    refine (indifferent_orFault s _ _).bind fun fp => (commutes_modify fun _ => by rfl).bind fun _ => ?_
    refine (indifferent_target s back).bind fun next => (indifferent_orFault s _ _).bind fun args => ?_
    exact (indifferent_drop s args).bind fun _ => (indifferent_push s value).bind fun _ => commutes_pure next

theorem indifferent_perform (next : Nat) (op : Opcode) : Indifferent s (perform next op) := by
  cases op with
  | not => exact (indifferent_pop s).bind fun _ => (indifferent_push s _).bind fun _ => commutes_pure next
  | neg =>
    refine (indifferent_pop s).bind fun _ => (indifferent_orFault s _ _).bind fun w => ?_
    exact (indifferent_push s w).bind fun _ => commutes_pure next
  | jmp => exact (indifferent_pop s).bind fun w => indifferent_target s w
  | jmpt => exact indifferent_jumpIf s 1 next
  | jmpf => exact indifferent_jumpIf s 0 next
  | const => exact (indifferent_operand s 1).bind fun w => (indifferent_push s w).bind fun _ => commutes_pure next
  | load =>
    refine (indifferent_pop s).bind fun slot => (indifferent_slotIndex s slot).bind fun i => ?_
    rw [← bind_assoc]
    exact (indifferent_slot s i).bind fun w => (indifferent_push s w).bind fun _ => commutes_pure next
  | store =>
    refine (indifferent_operand s 1).bind fun slot => (indifferent_pop s).bind fun value => ?_
    refine (indifferent_slotIndex s slot).bind fun i => commutes_get_bind (fun _ => rfl) fun m => ?_
    split
    · exact (commutes_modify fun _ => by rfl).bind fun _ => commutes_pure next
    · exact commutes_throw _
  | gload =>
    refine (indifferent_pop s).bind fun w => (indifferent_globalIndex s w).bind fun i => ?_
    rw [← bind_assoc]
    exact (indifferent_global s w i).bind fun v => (indifferent_push s v).bind fun _ => commutes_pure next
  | gstore =>
    refine (indifferent_operand s 1).bind fun w => (indifferent_pop s).bind fun value => ?_
    rw [← bind_assoc]
    exact (indifferent_setGlobal s w value).bind fun _ => commutes_pure next
  | print =>
    refine (indifferent_pop s).bind fun w => (commutes_modify fun m => ?_).bind fun _ => commutes_pure next
    simp only [extend, String.append_assoc]
  | pop => exact (indifferent_pop s).bind fun _ => commutes_pure next
  | halt =>
    refine (commutes_modify fun _ => by rfl).bind fun _ => ?_
    exact commutes_get_bind (fun _ => rfl) fun _ => commutes_pure _
  | call => exact indifferent_call s next
  | ret => exact indifferent_ret s
  | _ => exact (indifferent_binary s _).bind fun _ => commutes_pure next

theorem indifferent_fetch : Indifferent s fetch := by
  have hWord : Indifferent s (get >>= fun m => orFault .pcOutOfRange m.program.words[m.pc]?) :=
    indifferent_look s (fun _ _ => word_append) fun _ => word_append_none
  rw [fetch, ← bind_assoc]
  exact hWord.bind fun w => indifferent_orFault s _ _

theorem indifferent_step : Indifferent s step := by
  refine (indifferent_fetch s).bind fun op => commutes_get_bind (fun _ => rfl) fun m => ?_
  exact (indifferent_perform s _ op).bind fun _ => commutes_modify fun _ => by rfl

/-! ## Runs -/

/-- A run that does not fail for want of a surplus is the same with it. -/
theorem advance_extend {n : Nat} (h : ∀ r, (m.advance n).fault = some r → ¬ r.fault.Lacks s) :
    (extend s m).advance n = extend s (m.advance n) := by
  induction n generalizing m with
  | zero => rfl
  | succ n ih =>
    simp only [advance] at h ⊢
    rcases indifferent_step s m with hSame | ⟨fault, t, hError, hLacks⟩
    · rw [hSame]
      cases hStep : step m with
      | error fault t => rfl
      | ok _ t =>
        rw [hStep] at h
        change (if t.halted = true then extend s t else (extend s t).advance n) = extend s (if t.halted then _ else _)
        by_cases hHalted : t.halted = true
        · rw [if_pos hHalted, if_pos hHalted]
        · rw [if_neg hHalted, if_neg hHalted]
          apply ih
          simpa only [if_neg hHalted] using h
    · rw [hError] at h
      exact absurd hLacks (h _ rfl)

/-! ## Higher limits -/

theorem start_extend (program : Program) (limits : Limits) (stack globals : Nat) :
    start program ⟨limits.stack + stack, limits.globals + globals⟩ =
      extend { stack := stack, globals := globals } (start program limits) := by
  simp [start, extend]

theorem steady_globals (hRunning : m.halted = false) (n : Nat) : m.globals.Steady (m.advance n).globals := by
  apply (advance_invariant (P := fun t => m.globals.Steady t.globals) (Chain.refl _) hRunning n ?_ ?_).1
  · intro t _ hBefore u hStep
    exact Chain.trans hBefore (steady_of_step hStep).1.globals
  · intro t _ hBefore fault u hStep
    exact Chain.trans hBefore (steady_of_step_error hStep).globals

/-- A run that needs no more room on the stack and no more global slots than it has is the same under higher limits,
but for the global slots that come in addition, which stay zero. -/
theorem advance_of_higher_limits (program : Program) (limits higher : Limits) (hStack : limits.stack ≤ higher.stack)
    (hGlobals : limits.globals ≤ higher.globals) (n : Nat)
    (hSuffice : ∀ r, ((start program limits).advance n).fault = some r →
      (∀ label, r.fault ≠ .stack (.overflow label)) ∧ ∀ w, r.fault ≠ .globalOutOfRange w) :
    let low := (start program limits).advance n
    let high := (start program higher).advance n
    high.pc = low.pc ∧ high.fp = low.fp ∧ high.sp = low.sp ∧ high.stack.items = low.stack.items ∧
      high.activations = low.activations ∧ high.halted = low.halted ∧ high.output = low.output ∧
      high.fault = low.fault ∧ low.globals.toList.length = limits.globals ∧
      high.globals.toList = low.globals.toList ++ List.replicate (higher.globals - limits.globals) 0 := by
  intro low high
  obtain ⟨stack, hStack⟩ := Nat.exists_eq_add_of_le hStack
  obtain ⟨globals, hGlobals⟩ := Nat.exists_eq_add_of_le hGlobals
  have hHigher : higher = ⟨limits.stack + stack, limits.globals + globals⟩ := by
    rw [← hStack, ← hGlobals]
  have hHigh : high = extend { stack := stack, globals := globals } low := by
    rw [← advance_extend, ← start_extend, ← hHigher]
    intro r hFault hLacks
    obtain ⟨hRoom, hSlots⟩ := hSuffice r hFault
    rcases hLacks.cases rfl with ⟨label, hOverflow⟩ | ⟨w, hRange⟩
    · exact hRoom label hOverflow
    · exact hSlots w hRange
  have hSteady : (start program limits).globals.Steady low.globals := steady_globals rfl n
  have hOutside : ∀ i, low.globals.size ≤ i → low.globals.written.getD i 0 = 0 := by
    intro i hLe
    rw [hSteady.outside i (hSteady.size ▸ hLe)]
    exact Std.TreeMap.getD_emptyc
  have hList : high.globals.toList = low.globals.toList ++ List.replicate globals 0 := by
    rw [hHigh]
    exact Memory.toList_append hOutside globals
  have hLength : low.globals.toList.length = limits.globals := by
    rw [Memory.toList, List.length_map, List.length_range, hSteady.size]
    rfl
  have hMore : higher.globals - limits.globals = globals := by
    omega
  rw [hMore, hList, hHigh]
  exact ⟨rfl, rfl, rfl, rfl, rfl, rfl, String.empty_append, rfl, hLength, rfl⟩

/-- A program that stores 7 in slot 0, prints it and adds without operands, where the first machine has room for one
word and one global slot. -/
theorem advance_of_higher_limits_underflow :
    let program : Program := ⟨#[16, 7, 20, 0, 16, 0, 18, 21, 1]⟩
    let low := (start program ⟨1, 1⟩).advance 6
    let high := (start program ⟨4, 3⟩).advance 6
    low.fault = some ⟨.stack .underflow, 8⟩ ∧ high.fault = low.fault ∧ high.output = low.output ∧
      high.globals.toList = low.globals.toList ++ [0, 0] := by
  intro program low high
  have hFault : low.fault = some ⟨.stack .underflow, 8⟩ := by
    decide +kernel
  have hSame := advance_of_higher_limits program ⟨1, 1⟩ ⟨4, 3⟩ (by decide) (by decide) 6 ?_
  · exact ⟨hFault, hSame.2.2.2.2.2.2.2.1, hSame.2.2.2.2.2.2.1, hSame.2.2.2.2.2.2.2.2.2⟩
  · intro r hReport
    cases hFault.symm.trans hReport
    exact ⟨nofun, nofun⟩

end Machine

end Vee
