import Vee.Proofs.Machine.Outcome
import Vee.Proofs.Simulation.Statement

/-! # Correctness of code

The machine that runs the code of a program has the outcome of evaluation: it halts with the same text and the same
values of global variables, it faults alike, or neither comes to an end. The one difference is that a machine may
run out of what its limits grant. Main statements: with a stack of less than 2^31 words and enough global slots only
the stack can run out, and what was printed until then is the beginning of what evaluation prints; and whatever the
limits, no instruction of compiled code fails for any other reason than arithmetic and limits.
-/

namespace Vee

set_option autoImplicit false

namespace Eval

/-- The words of so many global slots, given the names of the first ones. -/
def slots (names : List String) (size : Nat) (globals : Bindings) : List Word :=
  (List.range size).map fun i => (names[i]?.map globals.get).getD 0

/-- The outcome that evaluation shows, unless it needs more fuel. -/
def outcome? (names : List String) (size : Nat) : EStateM.Result Stuck Store Flow → Option Outcome
  | .ok _ store => some (.halted (text store.printed) (slots names size store.globals))
  | .error (.fault fault) store => some (.faulted fault (text store.printed))
  | .error _ _ => none

/-- Evaluation with enough fuel ends in an outcome. -/
def EndsWith (statements : List Stmt) (size : Nat) (o : Outcome) : Prop :=
  ∃ fuel, outcome? (Stmt.globalNames statements) size (program fuel statements) = some o

theorem exists_text_append {part printed : List Word} (h : part <+: printed) :
    ∃ rest, text printed = text part ++ rest := by
  obtain ⟨more, rfl⟩ := h
  exact ⟨text more, by rw [text, List.map_append, String.join_append]; rfl⟩

end Eval

namespace Machine

open Eval (Store Flow)

/-! ## The end of a run -/

section

variable {S : Setting} {s t : Snapshot} {n : Nat}

theorem Steps.advance (h : Steps S n s t) (k : Nat) : (s.machine S).advance (n + k) = (t.machine S).advance k := by
  induction h with
  | refl => rw [Nat.zero_add]
  | step hStep _ ih => rw [Nat.add_right_comm, advance_of_ok hStep rfl, ih]

theorem Steps.endsWith {o : Outcome} (h : Steps S n s t) (hEnd : (t.machine S).EndsWith o) :
    (s.machine S).EndsWith o := by
  obtain ⟨k, hk⟩ := hEnd
  exact ⟨n + k, by rw [h.advance, hk]⟩

theorem StopsShort.endsWith {printed : List Word} (h : StopsShort S s printed) :
    ∃ fault part, (s.machine S).EndsWith (.faulted fault (Eval.text part)) ∧ fault.Exhausts S ∧
      part <+: printed := by
  obtain ⟨n, t, part, hSteps, ⟨fault, m, hStep, hSame, hFault⟩, hOutput, hPart⟩ := h
  refine ⟨fault, part, hSteps.endsWith ?_, hFault, hPart⟩
  rw [← hOutput, ← hSame]
  exact endsWith_of_error hStep

end

/-! ## Runs of images -/

/-- The machine at the start of a program. -/
def Image.first (I : Image) : Snapshot :=
  { pc := 0, fp := 0, stack := [], globals := { size := I.limits.globals }, activations := [], output := "" }

section

variable {I : Image}

theorem Image.at_first (I : Image) : At I ⟨I.globals, []⟩ .main 0 [] {} I.first where
  runs := .main
  memory :=
    { size := rfl
      named := fun _ hLt => (Memory.get?_new ..).trans (if_pos hLt)
      rest := fun _ hLt => (Memory.get?_new ..).trans (if_pos hLt) }
  own := nofun
  pc := rfl
  fp := rfl
  stack := rfl
  activations := rfl
  output := rfl

theorem MemoryStores.toList {memory : Memory} {globals : Eval.Bindings} (h : MemoryStores I memory globals) :
    memory.toList = Eval.slots (Stmt.globalNames I.statements) I.limits.globals globals := by
  rw [Eval.slots, ← I.globals_eq, ← h.size]
  refine Memory.toList_eq fun i hLt => ?_
  cases hName : I.globals[i]? with
  | none => exact h.rest (List.getElem?_eq_none_iff.mp hName) hLt
  | some x => exact h.named hName hLt

/-- The run of a program as far as evaluation tells, halt included. -/
theorem Image.follows (I : Image) {rounds fuel : Nat} (hFuel : I.Fuels rounds fuel (sizeOf I.statements)) :
    Follows I.toSetting rounds I.first (Eval.block I.declarations none fuel I.statements) {}
      fun _ store t => (t.machine I.toSetting).EndsWith
        (.halted (Eval.text store.printed)
          (Eval.slots (Stmt.globalNames I.statements) I.limits.globals store.globals)) := by
  obtain ⟨code, hCode, hHolds⟩ := I.layout.main
  rw [Program.holds_append, Program.holds_op] at hHolds
  obtain ⟨hMain, hHalt, _⟩ := hHolds
  have hEnd := (Array.getElem?_eq_some_iff.mp hHalt).1
  have hWithin : (Variables.assignAll {} (Stmt.blockTargets I.statements)).Within ⟨I.globals, []⟩ := by
    rw [I.globals_eq, show ({} : Variables) = ⟨[], []⟩ from rfl, Variables.assignAll_main]
    exact .main List.prefix_rfl
  have hFollows := (following I fuel).block hFuel hCode hMain (fun _ => hEnd) (.main []) hWithin I.at_first
  refine hFollows.andThen fun flow store t hEnds => .pure ?_
  cases flow with
  | ret w =>
    obtain ⟨c, hCaller, _⟩ := hEnds
    cases hCaller
  | next =>
    obtain ⟨home, _, hAt⟩ := hEnds
    rw [← hAt.pc] at hHalt
    rw [← hAt.memory.toList, ← hAt.output]
    exact endsWith_of_halt (step_halt hHalt) rfl rfl

/-- What the run and the evaluation of a program have to do with each other. -/
theorem Image.outcome_of_eval (I : Image) {fuel : Nat} {o : Outcome}
    (h : Eval.outcome? (Stmt.globalNames I.statements) I.limits.globals (Eval.program fuel I.statements) = some o) :
    (I.first.machine I.toSetting).EndsWith o ∨
      ∃ fault text, (I.first.machine I.toSetting).EndsWith (.faulted fault text) ∧ fault.Exhausts I.toSetting ∧
        ∃ rest, o.text = text ++ rest := by
  have hNone : I.Fuels 0 fuel (sizeOf I.statements) := by
    rw [Image.Fuels, Nat.zero_mul]
    exact Nat.zero_le _
  have hFollows := I.follows hNone
  rw [Follows] at hFollows
  rw [Eval.program, ← Image.declarations] at h
  generalize Eval.block I.declarations none fuel I.statements {} = result at h hFollows
  rcases hFollows with hStops | hReaches
  · right
    obtain ⟨fault, part, hEnds, hFault, hPart⟩ := hStops.endsWith
    refine ⟨fault, _, hEnds, hFault, ?_⟩
    obtain ⟨rest, hRest⟩ := Eval.exists_text_append hPart
    refine ⟨rest, ?_⟩
    rw [← hRest]
    cases result with
    | ok flow store =>
      cases h
      rfl
    | error stuck store =>
      cases stuck with
      | fault fault =>
        cases h
        rfl
      | undefined name => cases h
      | outOfFuel => cases h
  · left
    cases result with
    | ok flow store =>
      cases h
      obtain ⟨n, t, hSteps, hEnds⟩ := hReaches
      exact hSteps.endsWith hEnds
    | error stuck store =>
      cases stuck with
      | fault fault =>
        cases h
        obtain ⟨n, t, m, hSteps, hStep, hSame, hOutput, _⟩ := hReaches
        refine hSteps.endsWith ?_
        rw [← hOutput, ← hSame]
        exact endsWith_of_error hStep
      | undefined name => cases h
      | outOfFuel => cases h

/-- A run that ends has an outcome of evaluation, or the limits did not suffice. -/
theorem Image.outcome_of_run (I : Image) {o : Outcome} (h : (I.first.machine I.toSetting).EndsWith o) :
    (Eval.EndsWith I.statements I.limits.globals o ∧
        ∀ fault text, o = .faulted fault text → fault = .overflow ∨ fault = .divisionByZero) ∨
      ∃ fault text, o = .faulted fault text ∧ fault.Exhausts I.toSetting := by
  obtain ⟨n, hn⟩ := h
  -- Fuel for as many rounds as the run takes.
  let fuel := n * sizeOf I.functions.list + sizeOf I.statements
  have hFuel : I.Fuels n fuel (sizeOf I.statements) := by
    rw [Image.Fuels]
    omega
  have hFollows := I.follows hFuel
  have hEnds : (I.first.machine I.toSetting).EndsWith o := ⟨n, hn⟩
  rw [Follows] at hFollows
  have hEval : ∀ o', Eval.outcome? (Stmt.globalNames I.statements) I.limits.globals
      (Eval.block I.declarations none fuel I.statements {}) = some o' → Eval.EndsWith I.statements I.limits.globals o' := by
    intro o' hOutcome
    exact ⟨fuel, hOutcome⟩
  generalize Eval.block I.declarations none fuel I.statements {} = result at hEval hFollows
  rcases hFollows with hStops | hReaches
  · right
    obtain ⟨fault, part, hOther, hFault, _⟩ := hStops.endsWith
    exact ⟨fault, _, hEnds.unique rfl hOther, hFault⟩
  · left
    cases result with
    | ok flow store =>
      obtain ⟨k, t, hSteps, hOther⟩ := hReaches
      obtain rfl := hEnds.unique rfl (hSteps.endsWith hOther)
      refine ⟨hEval _ rfl, ?_⟩
      intro fault text hEq
      cases hEq
    | error stuck store =>
      cases stuck with
      | fault fault =>
        obtain ⟨k, t, m, hSteps, hStep, hSame, hOutput, hKind⟩ := hReaches
        have hOther := hSteps.endsWith (endsWith_of_error hStep)
        rw [hSame, hOutput] at hOther
        obtain rfl := hEnds.unique rfl hOther
        refine ⟨hEval _ rfl, ?_⟩
        intro f text hEq
        cases hEq
        exact hKind
      | undefined name => cases hReaches
      | outOfFuel =>
        obtain ⟨t, hSteps⟩ := hReaches
        have hRunning := hSteps.advance 0
        rw [Nat.add_zero] at hRunning
        rw [hRunning] at hn
        cases hn

end

end Machine

/-! ## Compiled programs -/

theorem Listing.exists_image {statements : List Stmt} {listing : Listing}
    (hListing : Listing.ofStatements statements = .ok listing) (hSize : listing.cells.length < 2147483648) :
    ∃ program, listing.toProgram = .ok program ∧ ∀ limits, ∃ I : Machine.Image,
      I.first.machine I.toSetting = Machine.start program limits ∧ I.statements = statements ∧ I.limits = limits := by
  obtain ⟨program, places, hProgram, hLength, hLayout⟩ := Listing.exists_layout hListing
  have hDeclared := Functions.declarations_declareBlock (Listing.exists_draft hListing).1
  refine ⟨program, hProgram, fun limits => ?_⟩
  exact ⟨⟨⟨program, limits, Stmt.globalNames statements⟩, _, places, statements, hDeclared, hLayout, rfl,
    hLength ▸ hSize⟩, rfl, rfl, rfl⟩

/-- The machine ends as evaluation does and runs on as evaluation does, unless its stack overflows; then it has
printed the beginning of what evaluation prints. -/
theorem Listing.endsWith_iff_eval {statements : List Stmt} {listing : Listing} {limits : Limits}
    (hListing : Listing.ofStatements statements = .ok listing) (hSize : listing.cells.length < 2147483648)
    (hStack : limits.stack < 2147483648) (hGlobals : (Stmt.globalNames statements).length ≤ limits.globals) :
    ∃ program, listing.toProgram = .ok program ∧
      ((∀ o, (Machine.start program limits).EndsWith o ↔ Eval.EndsWith statements limits.globals o) ∨
        ∃ label text, (Machine.start program limits).EndsWith (.faulted (.stack (.overflow label)) text) ∧
          ∀ o, Eval.EndsWith statements limits.globals o → ∃ rest, o.text = text ++ rest) := by
  obtain ⟨program, hProgram, hImage⟩ := Listing.exists_image hListing hSize
  obtain ⟨I, hStart, rfl, rfl⟩ := hImage limits
  have hOverflow : ∀ {fault : Fault}, fault.Exhausts I.toSetting → ∃ label, fault = .stack (.overflow label) := by
    intro fault hFault
    rw [← I.globals_eq] at hGlobals
    cases fault with
    | stack fault =>
      cases fault with
      | overflow label => exact ⟨label, rfl⟩
      | underflow => cases hFault
    | overflow => exact absurd hFault (Nat.not_le.mpr hStack)
    | globalOutOfRange w =>
      obtain ⟨i, _, hOut, hIn⟩ := hFault
      omega
    | _ => cases hFault
  refine ⟨program, hProgram, ?_⟩
  rw [← hStart]
  by_cases hStops : ∃ label text,
      (I.first.machine I.toSetting).EndsWith (.faulted (.stack (.overflow label)) text)
  · right
    obtain ⟨label, text, hEnds⟩ := hStops
    refine ⟨label, text, hEnds, ?_⟩
    rintro o ⟨fuel, hEval⟩
    rcases I.outcome_of_eval hEval with hSame | ⟨fault, part, hOther, _, hPart⟩
    · obtain rfl := hEnds.unique rfl hSame
      exact ⟨"", (String.append_empty ..).symm⟩
    · cases hEnds.unique rfl hOther
      exact hPart
  · left
    intro o
    constructor
    · intro hEnds
      rcases I.outcome_of_run hEnds with ⟨hEval, _⟩ | ⟨fault, text, rfl, hFault⟩
      · exact hEval
      · obtain ⟨label, rfl⟩ := hOverflow hFault
        exact absurd ⟨label, text, hEnds⟩ hStops
    · rintro ⟨fuel, hEval⟩
      rcases I.outcome_of_eval hEval with hEnds | ⟨fault, text, hEnds, hFault, _⟩
      · exact hEnds
      · obtain ⟨label, rfl⟩ := hOverflow hFault
        exact absurd ⟨label, text, hEnds⟩ hStops

/-- A function that adds up the numbers down to zero, and a call of it. -/
def Stmt.sumDown : List Stmt :=
  let span := Span.nowhere
  let n := Expr.var span "n"
  [.function span "sum" ["n"]
    [.branch span n [.ret span (some (.binary .add span n (.call span "sum" [.binary .sub span n (.int span 1)])))] [],
      .ret span (some n)],
    .assign span "x" (.call span "sum" [.int span 3]),
    .print span (.var span "x")]

/-- The words of its code. -/
def Program.sumDown : Program :=
  ⟨#[16, 3, 24, 13, 1, 0, 20, 0, 16, 0, 18, 21, 23, 16, -1, 17, 16, 34, 15, 16, -1, 17, 16, -1, 17, 16, 1, 2, 24, 13, 1, 0,
    1, 25, 16, -1, 17, 25]⟩

theorem Listing.endsWith_iff_eval_sumDown :
    (Listing.generate Stmt.sumDown).listing.toProgram = .ok Program.sumDown ∧
      (Machine.start Program.sumDown ⟨30, 1⟩).EndsWith (.halted "6\n" [6]) ∧
      ∀ o, (Machine.start Program.sumDown ⟨30, 1⟩).EndsWith o ↔ Eval.EndsWith Stmt.sumDown 1 o := by
  have hWords : (Listing.generate Stmt.sumDown).listing.toProgram = .ok Program.sumDown := rfl
  have hRun : (Machine.start Program.sumDown ⟨30, 1⟩).EndsWith (.halted "6\n" [6]) := ⟨70, by decide +kernel⟩
  obtain ⟨program, hProgram, hEither⟩ := Listing.endsWith_iff_eval
    (show Listing.ofStatements Stmt.sumDown = .ok (Listing.generate Stmt.sumDown).listing from rfl) (by decide +kernel)
    (show (Limits.mk 30 1).stack < 2147483648 by decide) (by decide +kernel)
  obtain rfl : Program.sumDown = program := Except.ok.inj (hWords.symm.trans hProgram)
  refine ⟨hWords, hRun, ?_⟩
  -- The machine halts, so that its stack did not overflow.
  rcases hEither with hSame | ⟨label, text, hOverflow, _⟩
  · exact hSame
  · cases hRun.unique rfl hOverflow

/-- Without room on the stack a program cannot even print a number. -/
theorem Listing.not_endsWith_iff_of_no_stack :
    ¬ ∀ (statements : List Stmt) (listing : Listing) (limits : Limits) (program : Program),
      Listing.ofStatements statements = .ok listing → listing.cells.length < 2147483648 →
      limits.stack < 2147483648 → (Stmt.globalNames statements).length ≤ limits.globals →
      listing.toProgram = .ok program →
      ∀ o, (Machine.start program limits).EndsWith o ↔ Eval.EndsWith statements limits.globals o := by
  intro h
  let statements : List Stmt := [.print Span.nowhere (.int Span.nowhere 1)]
  let program : Program := ⟨#[16, 1, 21, 23]⟩
  have hIff := h statements _ ⟨0, 0⟩ program rfl (by decide +kernel) (by decide) (by decide) rfl
  have hEval : Eval.EndsWith statements 0 (.halted (Eval.text [1]) []) := ⟨3, rfl⟩
  have hRun : (Machine.start program ⟨0, 0⟩).EndsWith (.faulted (.stack (.overflow "OPERAND STACK")) "") := ⟨1, rfl⟩
  cases ((hIff _).mpr hEval).unique rfl hRun

/-- A failing instruction of compiled code, in any state of a run, fails for arithmetic or since the limits do not
suffice. -/
theorem Listing.fault_of_reachable {statements : List Stmt} {listing : Listing}
    (hListing : Listing.ofStatements statements = .ok listing) (hSize : listing.cells.length < 2147483648) :
    ∃ program, listing.toProgram = .ok program ∧ ∀ (limits : Limits) (m next : Machine) (fault : Fault),
      (Machine.start program limits).Reachable m → m.halted = false → m.step = .error fault next →
      (fault.diagnostic.code = .overflow ∨ fault.diagnostic.code = .divisionByZero ∨
          fault.diagnostic.code = .stackOverflow ∨
          ∃ k, limits.globals ≤ k ∧
            fault.diagnostic = { code := .invalidAddress, detail := "GLOBAL " ++ k.repr ++ " OUT OF RANGE" }) ∧
        ((Stmt.globalNames statements).length ≤ limits.globals → fault.diagnostic.code ≠ .invalidAddress) := by
  obtain ⟨program, hProgram, hImage⟩ := Listing.exists_image hListing hSize
  refine ⟨program, hProgram, ?_⟩
  intro limits m next fault hReachable hRunning hStep
  obtain ⟨I, hStart, rfl, rfl⟩ := hImage limits
  rw [← hStart] at hReachable
  have hEnds := hReachable.endsWith hRunning (Machine.endsWith_of_error hStep)
  rcases I.outcome_of_run hEnds with ⟨_, hKind⟩ | ⟨_, _, hEq, hFault⟩
  · rcases hKind _ _ rfl with rfl | rfl
    · exact ⟨.inl rfl, fun _ => nofun⟩
    · exact ⟨.inr (.inl rfl), fun _ => nofun⟩
  · cases hEq
    cases fault with
    | stack fault =>
      cases fault with
      | overflow label => exact ⟨.inr (.inr (.inl rfl)), fun _ => nofun⟩
      | underflow => cases hFault
    | overflow => exact ⟨.inl rfl, fun _ => nofun⟩
    | globalOutOfRange w =>
      obtain ⟨k, hIndex, hOut, hIn⟩ := hFault
      refine ⟨.inr (.inr (.inr ⟨k, hOut, ?_⟩)), ?_⟩
      · rw [Fault.diagnostic, Word.text_of_toNat? hIndex]
      · intro hEnough
        rw [← I.globals_eq] at hEnough
        omega
    | _ => cases hFault

/-- One global slot is enough for the sum. -/
theorem Listing.fault_of_reachable_sumDown :
    ∃ program, (Listing.generate Stmt.sumDown).listing.toProgram = .ok program ∧
      ∀ (stack : Nat) (m next : Machine) (fault : Fault),
        (Machine.start program ⟨stack, 1⟩).Reachable m → m.halted = false → m.step = .error fault next →
        fault.diagnostic.code = .overflow ∨ fault.diagnostic.code = .divisionByZero ∨
          fault.diagnostic.code = .stackOverflow := by
  obtain ⟨program, hProgram, hFaults⟩ := Listing.fault_of_reachable
    (show Listing.ofStatements Stmt.sumDown = .ok (Listing.generate Stmt.sumDown).listing from rfl) (by decide +kernel)
  refine ⟨program, hProgram, ?_⟩
  intro stack m next fault hReachable hRunning hStep
  obtain ⟨hCodes, hGlobal⟩ := hFaults ⟨stack, 1⟩ m next fault hReachable hRunning hStep
  have hNot := hGlobal (show (Stmt.globalNames Stmt.sumDown).length ≤ 1 by decide +kernel)
  rcases hCodes with hCode | hCode | hCode | ⟨k, _, hEq⟩
  · exact .inl hCode
  · exact .inr (.inl hCode)
  · exact .inr (.inr hCode)
  · rw [hEq] at hNot
    exact absurd rfl hNot

end Vee
