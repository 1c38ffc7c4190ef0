import Vee.Proofs.Code.Extension
import Vee.Proofs.Machine.Slicing
import Vee.Proofs.Simulation.Correctness

/-! # Programs in lock step

A machine with a surplus goes through every session in lock step with the machine without it, as long as no instruction
fails for want of the surplus. Compiled code never leaves its program, so words behind it make no difference. Main
statement: a function declared behind a program that does not use it changes nothing that the machine does.
-/

namespace Vee

set_option autoImplicit false

namespace Machine

variable {m : Machine} {s : Surplus}

/-! ## Sessions with a surplus -/

/-- No run from a machine fails for want of a surplus. -/
def Provided (s : Surplus) (m : Machine) : Prop := ∀ n r, (m.advance n).fault = some r → ¬ r.fault.Lacks s

theorem output_extend (hText : s.text = "") (m : Machine) : (extend s m).output = m.output := by
  rw [extend, hText]
  exact String.empty_append

theorem pending?_extend (hText : s.text = "") (m : Machine) :
    (extend s m).pending? = m.pending?.map fun x => (x.1, extend s x.2) := by
  rw [pending?, pending?, output_extend hText]
  split
  · simp [extend, hText]
  · cases hFault : m.fault <;> simp [extend, hText, hFault]

theorem report_extend (hText : s.text = "") (m : Machine) :
    (extend s m).report = (m.report.1, extend s m.report.2) := by
  rw [report, report, pending?_extend hText]
  cases m.pending? <;> rfl

theorem execute_extend (hText : s.text = "") (h : m.ready = true → m.Provided s) (n : Nat) :
    (extend s m).execute n = ((m.execute n).1, extend s (m.execute n).2) := by
  cases hReady : m.ready with
  | true =>
    have hBoth : (extend s m).ready = true := by
      obtain ⟨hPending, hHalted, hInterrupted⟩ := ready_iff.mp hReady
      exact ready_iff.mpr ⟨by rw [pending?_extend hText, hPending]; rfl, hHalted, hInterrupted⟩
    rw [execute_of_ready hReady, execute_of_ready hBoth, advance_extend s (h hReady n), report_extend hText]
  | false =>
    rw [execute, execute, pending?_extend hText]
    cases hPending : m.pending? with
    | some reported => rfl
    | none =>
      have hHalted : (extend s m).halted = m.halted := rfl
      have hInterrupted : (extend s m).interrupted = m.interrupted := rfl
      simp only [Option.map_none, hHalted, hInterrupted]
      cases hStopped : m.halted with
      | true => rfl
      | false =>
        cases hWaiting : m.interrupted with
        | true => rfl
        | false =>
          rw [ready, hPending, hStopped, hWaiting] at hReady
          cases hReady

theorem fault_advance_output (m : Machine) (n : Nat) :
    (({ m with output := "" } : Machine).advance n).fault = (m.advance n).fault := by
  have hText : prepend m.output { m with output := "" } = m := by
    simp [prepend]
  have hFault := congrArg Machine.fault (advance_prepend m.output { m with output := "" } n)
  rw [hText] at hFault
  exact hFault.symm

/-- A slice of a provided machine leaves the rest of a run to be done, or nothing. -/
theorem Settled.provided_execute (h : m.Settled) (hProvided : m.ready = true → m.Provided s) (n : Nat)
    (hReady : (m.execute n).2.ready = true) : (m.execute n).2.Provided s := by
  obtain ⟨_, hRunning, _⟩ := ready_iff.mp hReady
  rcases h.execute_cases n with ⟨r, hFault, _, hEq⟩ | ⟨hFinished, _, hEq⟩ | ⟨_, _, _, hEq⟩ | ⟨hFault, hHalted, hRuns, hEq⟩
  · rw [hEq] at hRunning
    cases hRunning.symm.trans (h.fault r hFault).1
  · rw [hEq] at hRunning
    cases hRunning.symm.trans hFinished.halted
  · rw [hEq] at hRunning
    cases hRunning
  · have hLater : ∀ k r, (m.advance n).halted = false → ((m.advance n).advance k).fault = some r → ¬ r.fault.Lacks s := by
      intro k r hStill hSome
      rw [← advance_of_running hStill] at hSome
      exact hProvided hRuns (n + k) r hSome
    rw [hEq] at hRunning ⊢
    intro k r hSome
    rcases (m.advance n).report_cases with hReport | ⟨_, r', hFailed, hReport⟩ | ⟨_, _, hReport⟩
    · rw [hReport] at hRunning hSome
      rw [fault_advance_output] at hSome
      exact hLater k r hRunning hSome
    · rw [hReport] at hRunning
      cases hRunning.symm.trans (fault_advance hFault hHalted n r' hFailed).1
    · rw [hReport] at hRunning hSome
      exact hLater k r hRunning hSome

theorem Settled.provided_call (h : m.Settled) (hProvided : m.ready = true → m.Provided s) (c : Call)
    (hReady : (c.after m).ready = true) : (c.after m).Provided s := by
  cases c with
  | execute n => exact h.provided_execute hProvided n hReady
  | interrupt =>
    obtain ⟨_, hRunning, hCalm⟩ := ready_iff.mp hReady
    rw [Call.after, Machine.interrupt] at hRunning hCalm
    split at hRunning
    · rename_i hHalted
      cases hRunning.symm.trans hHalted
    · rename_i hHalted
      rw [if_neg hHalted] at hCalm
      cases hCalm

theorem call_extend (hText : s.text = "") (h : m.ready = true → m.Provided s) (c : Call) :
    c.after (extend s m) = extend s (c.after m) ∧ c.event? (extend s m) = c.event? m := by
  cases c with
  | execute n =>
    rw [Call.after, Call.after, Call.event?, Call.event?, execute_extend hText h n]
    exact ⟨rfl, rfl⟩
  | interrupt =>
    refine ⟨?_, rfl⟩
    have hHalted : (extend s m).halted = m.halted := rfl
    rw [Call.after, Call.after, Machine.interrupt, Machine.interrupt, hHalted]
    split <;> rfl

/-- A machine that does not need a surplus goes through a session in lock step with one that has it. -/
theorem Settled.session_extend (hText : s.text = "") (h : m.Settled) (hProvided : m.ready = true → m.Provided s)
    (calls : List Call) :
    (extend s m).after calls = extend s (m.after calls) ∧ (extend s m).events calls = m.events calls := by
  induction calls generalizing m with
  | nil => exact ⟨rfl, rfl⟩
  | cons c rest ih =>
    obtain ⟨hAfter, hEvent⟩ := call_extend hText hProvided c
    obtain ⟨hLast, hEvents⟩ := ih (h.call c) (h.provided_call hProvided c)
    rw [events_cons, events_cons, hEvent, hAfter, hEvents]
    refine ⟨?_, rfl⟩
    change (c.after (extend s m)).after rest = _
    rw [hAfter]
    exact hLast

theorem Settled.program_after (h : m.Settled) (calls : List Call) : (m.after calls).program = m.program := by
  have hBetween : KeptBetween fun t => t.program = m.program := ⟨fun _ => id, fun _ => id, fun _ _ => id, fun _ => id⟩
  apply (h.session_invariant hBetween rfl calls ?_ ?_).1
  · intro t _ hBefore u hStep
    exact (steady_of_step hStep).1.program.trans hBefore
  · intro t _ hBefore fault u hStep
    exact (steady_of_step_error hStep).program.trans hBefore

/-- Words behind a program that it does not need make no difference to any session, but that they are there. -/
theorem session_of_more_words {first second : Program} {limits : Limits} {more : Array Word}
    (hSecond : second = ⟨first.words ++ more⟩) (h : (start first limits).Provided { words := more })
    (calls : List Call) :
    (start second limits).events calls = (start first limits).events calls ∧
      (start second limits).after calls = { (start first limits).after calls with program := second } := by
  subst hSecond
  have hStart : start ⟨first.words ++ more⟩ limits = extend { words := more } (start first limits) := by
    simp [start, extend]
  obtain ⟨hAfter, hEvents⟩ := (settled_start first limits).session_extend rfl (fun _ => h) calls
  have hProgram := (settled_start first limits).program_after calls
  rw [hStart, hAfter, hEvents, extend, hProgram]
  exact ⟨rfl, by simp [start]⟩

/-- Compiled code does not leave its program. -/
theorem Image.provided (I : Image) (words : Array Word) : (I.first.machine I.toSetting).Provided { words := words } := by
  intro n r hFault hLacks
  have hStopped := (fault_advance rfl rfl n r hFault).1
  have hEnds : (I.first.machine I.toSetting).EndsWith
      (.faulted r.fault ((I.first.machine I.toSetting).advance n).output) := by
    refine ⟨n, ?_⟩
    rw [outcome?, if_pos hStopped, hFault]
  rcases I.outcome_of_run hEnds with ⟨_, hKind⟩ | ⟨fault, text, hSame, hExhausts⟩
  · rcases hKind _ _ rfl with hOverflow | hDivision
    · rw [hOverflow] at hLacks
      exact hLacks
    · rw [hDivision] at hLacks
      exact hLacks
  · cases hSame
    generalize r.fault = fault at hLacks hExhausts
    cases fault with
    | stack error =>
      cases error with
      | overflow label => exact hLacks rfl
      | underflow => exact hLacks
    | globalOutOfRange w => exact hLacks rfl
    | pcOutOfRange | missingOperand | jumpOutOfRange => exact hExhausts
    | _ => exact hLacks

end Machine

/-! ## Functions that nothing uses -/

theorem Listing.prefix_of_toProgram {short long : Listing} {first second : Program}
    (hFirst : short.toProgram = .ok first) (hSecond : long.toProgram = .ok second) (h : short.cells <+: long.cells) :
    first.words.toList <+: second.words.toList := by
  obtain ⟨words, hWords, hProgram⟩ := Effect.exists_of_except_bind hFirst
  obtain ⟨others, hOthers, hLonger⟩ := Effect.exists_of_except_bind hSecond
  cases hProgram
  cases hLonger
  have hMap := h.map (Cell.word? ∅)
  rw [Listing.word?_of_wordsFrom hWords, Listing.word?_of_wordsFrom hOthers] at hMap
  exact (List.prefix_map_iff_of_injective (Option.some_injective _)).mp hMap

/-- A function behind a program that compiles without it goes unseen: the code and the sections of the program are the
beginning of the longer ones, and in every session the two machines report the same events and are the same but for
their programs. -/
theorem Listing.unused_function_unseen {statements : List Stmt} {span : Span} {name : String} {params : List String}
    {body : List Stmt} {short long : Listing} (hShort : Listing.ofStatements statements = .ok short)
    (hLong : Listing.ofStatements (statements ++ [.function span name params body]) = .ok long)
    (hSize : short.cells.length < 2147483648) :
    short.cells <+: long.cells ∧ short.sections <+: long.sections ∧
      ∃ first second, short.toProgram = .ok first ∧ long.toProgram = .ok second ∧
        first.words.toList <+: second.words.toList ∧ ∀ limits calls,
          (Machine.start second limits).events calls = (Machine.start first limits).events calls ∧
          (Machine.start second limits).after calls =
            { (Machine.start first limits).after calls with program := second } := by
  obtain ⟨hCells, hSections⟩ := Listing.prefix_of_function_behind hShort hLong
  obtain ⟨first, hFirst, hImage⟩ := Listing.exists_image hShort hSize
  obtain ⟨second, _, hSecond, _⟩ := Listing.exists_layout hLong
  have hWords := Listing.prefix_of_toProgram hFirst hSecond hCells
  refine ⟨hCells, hSections, first, second, hFirst, hSecond, hWords, ?_⟩
  intro limits calls
  obtain ⟨more, hMore⟩ := hWords
  obtain ⟨I, hStart, _⟩ := hImage limits
  have hLonger : second = ⟨first.words ++ more.toArray⟩ := by
    apply congrArg Program.mk
    rw [← Array.toList_inj, Array.toList_append, hMore]
  exact Machine.session_of_more_words hLonger (hStart ▸ I.provided more.toArray) calls

/-- A function that declares another one and calls what was declared before it. -/
def Stmt.unused : Stmt :=
  let span := Span.nowhere
  .function span "twice" ["n"]
    [.function span "half" [] [.ret span (some (.call span "sum" [.var span "x"]))],
      .assign span "y" (.call span "half" []),
      .ret span (some (.binary .add span (.var span "y") (.call span "sum" [.var span "n"])))]

theorem Listing.unused_function_unseen_sumDown :
    (Listing.generate Stmt.sumDown).listing.sections <+:
        (Listing.generate (Stmt.sumDown ++ [Stmt.unused])).listing.sections ∧
      (Listing.generate (Stmt.sumDown ++ [Stmt.unused])).listing.sections.map Prod.snd = ["sum", "twice", "half"] ∧
      ∃ first second, (Listing.generate Stmt.sumDown).listing.toProgram = .ok first ∧
        (Listing.generate (Stmt.sumDown ++ [Stmt.unused])).listing.toProgram = .ok second ∧
        ∀ limits calls, (Machine.start second limits).events calls = (Machine.start first limits).events calls := by
  have hShort : Listing.ofStatements Stmt.sumDown = .ok (Listing.generate Stmt.sumDown).listing := rfl
  have hLong : Listing.ofStatements (Stmt.sumDown ++ [Stmt.unused]) =
      .ok (Listing.generate (Stmt.sumDown ++ [Stmt.unused])).listing := rfl
  obtain ⟨_, hSections, first, second, hFirst, hSecond, _, hSame⟩ :=
    Listing.unused_function_unseen hShort hLong (by decide +kernel)
  exact ⟨hSections, by decide +kernel, first, second, hFirst, hSecond, fun limits calls => (hSame limits calls).1⟩

end Vee
