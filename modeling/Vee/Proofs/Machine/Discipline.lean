import Vee.Proofs.Machine.Activations

/-! # The discipline of calls

In every state of a run of compiled code the stack is a row of frames, each with the words that lead back to the call
that made it. Between statements the running function has nothing above its frame, so that loops leave nothing
behind. The return that ends a call leaves the stack of the caller as it was, with the value in place of the
arguments.
-/

namespace Vee

set_option autoImplicit false

open Instruction

/-- The stack with the frames of all activations, given the instructions of the program from address 0 on. The last
two lists are the temporaries of the innermost activation and the whole stack. -/
inductive Framed (code : List Instruction) : Nat → List Activation → List Word → List Word → Prop
  | main (temps : List Word) : Framed code 0 [] temps temps
  | call {fp : Nat} {activations : List Activation} {below stack args locals : List Word}
      {before after : List Instruction} {entry nargs nlocals back saved : Word}
      (hCaller : Framed code fp activations below stack)
      (hSite : code = before ++ .call entry nargs nlocals :: after)
      (hArgs : Word.ofNat? args.length = some nargs) (hLocals : Word.ofNat? locals.length = some nlocals)
      (hBack : Word.ofNat? (size before + 4) = some back) (hSaved : Word.ofNat? fp = some saved)
      (temps : List Word) :
      Framed code (stack.length + args.length + 2) (⟨args.length, locals.length⟩ :: activations) temps
        (stack ++ args.reverse ++ [nargs, back, saved] ++ locals ++ temps)

/-- The addresses at which statements of the program and of its functions start. -/
def Listing.statementStarts (l : Listing) (statements : List Stmt) : List Nat :=
  Stmt.blockStarts 0 statements ++
    (l.sections.zip (Stmt.blockDeclarations statements)).flatMap fun x => Stmt.blockStarts x.1.1 x.2.body

namespace Machine

/-- The states of a run for as long as it has more activations than a number. -/
inductive RunsAbove (bound : Nat) (first : Machine) : Machine → Prop
  | refl : RunsAbove bound first first
  | step {m next : Machine} (h : RunsAbove bound first m) (hRunning : m.halted = false)
      (hStep : Machine.step m = .ok () next) (hAbove : bound < next.activations.length) : RunsAbove bound first next

/-- A call at `m`, and the step that ends it, from `last` to `next`. -/
structure Returns (m last next : Machine) : Prop where
  call : m.program.words[m.pc]? = some Opcode.call.word
  body : ∃ entered, Machine.step m = .ok () entered ∧ RunsAbove m.activations.length entered last
  running : last.halted = false
  step : Machine.step last = .ok () next
  back : next.activations.length ≤ m.activations.length

variable {S : Setting} {parts : List Part}

/-- The machine stands at a sound position. -/
def Stands (S : Setting) (parts : List Part) (x : Position) (m : Machine) : Prop :=
  x.Sound parts ∧ ∃ globals output halted, m = { (x.snapshot globals output).machine S with halted := halted }

theorem Stands.eq_of_running {x : Position} {m : Machine} (h : Stands S parts x m) (hRunning : m.halted = false) :
    ∃ globals output, m = (x.snapshot globals output).machine S := by
  obtain ⟨_, globals, output, halted, rfl⟩ := h
  cases hRunning
  exact ⟨globals, output, rfl⟩

theorem Stands.step (hLoaded : Loaded S parts) {x : Position} {m next : Machine} (h : Stands S parts x m)
    (hRunning : m.halted = false) (hStep : Machine.step m = .ok () next) :
    ∃ y, Stands S parts y next ∧ Moves x y := by
  obtain ⟨globals, output, rfl⟩ := h.eq_of_running hRunning
  obtain ⟨y, globals', output', halted, hSound, hMoves, hNext⟩ := h.1.step hLoaded hStep
  exact ⟨y, ⟨hSound, globals', output', halted, hNext⟩, hMoves⟩

theorem Stands.of_reachable (hLoaded : Loaded S parts) {x : Position} {first m : Machine}
    (hFirst : Stands S parts x first) (h : first.Reachable m) : ∃ y, Stands S parts y m := by
  induction h with
  | refl => exact ⟨x, hFirst⟩
  | step h hRunning hStep ih =>
    obtain ⟨y, hStands⟩ := ih
    obtain ⟨z, hNext, _⟩ := hStands.step hLoaded hRunning hStep
    exact ⟨z, hNext⟩

theorem Stands.length_activations {x : Position} {m : Machine} (h : Stands S parts x m) :
    m.activations.length = x.outers.length := by
  obtain ⟨hSound, globals, output, halted, rfl⟩ := h
  exact hSound.called.length_activations

/-! ## Frames -/

theorem Called.framed {code : List Instruction} (hLoaded : Loaded S parts)
    (hCode : ∀ p ∈ parts, ∃ before after, code = before ++ p.instructions ++ after ∧ p.start = size before)
    {home : Home} {outers : List Home} (h : Called parts home outers) (temps : List Word) :
    Framed code home.fp home.activations temps (home.stack ++ temps) := by
  induction h generalizing temps with
  | main => exact .main temps
  | @call outer outers p before after entry nargs nlocals under args locals hOuter hPart hSite hArgs hLocals hDepth hFp
      ih =>
    obtain ⟨first, last, hSplit, hStart⟩ := hCode p hPart
    have hAddress : p.start + size before + 4 = size (first ++ before) + 4 := by
      rw [hStart, size_append]
    have hCalled := Called.call hOuter hPart hSite hArgs hLocals hDepth hFp
    obtain ⟨hSound, hCount⟩ := hCalled.caller_sound hLoaded
    have hNargs : nargs = Word.ofCount args.length := Option.some.inj (hArgs.symm.trans (Word.ofNat?_eq_ofCount hCount))
    have hSite : code = first ++ before ++ .call entry nargs nlocals :: (after ++ last) := by
      rw [hSplit, hSite]
      simp
    have hFramed := Framed.call (ih under) hSite hArgs hLocals
      (Word.ofNat?_eq_ofCount (hAddress ▸ hSound.back_small)) (Word.ofNat?_eq_ofCount hFp) temps
    rw [← hAddress, hNargs] at hFramed
    exact hFramed

/-- Nothing is above the frame at an address where no word is left, whichever way the run came there. -/
theorem Position.Sound.temps_eq_nil (hLoaded : Loaded S parts) (hFollow : Part.Follow 0 parts) {x : Position}
    (h : x.Sound parts) {p : Part} (hPart : p ∈ parts) (hRests : Rests p.start p.instructions x.pc) : x.temps = [] := by
  have hDepth : ∀ p ∈ parts, Instruction.depth 0 p.instructions = some 0 := fun p hMem => hLoaded.depth_eq hMem
  obtain ⟨before, after, hCode, hStart, hBefore⟩ := hFollow.exists_split hDepth hPart
  obtain ⟨front, back, hOwn, hFront, hFrontDepth⟩ := hFollow.exists_split hDepth h.part
  obtain ⟨passed, rest, hPassed, hLevel, hAddress⟩ := hRests
  obtain ⟨i, later, hInside⟩ := h.inside
  rw [hPassed] at hCode
  rw [hInside] at hOwn
  have hBoth : before ++ passed ++ (rest ++ after) = front ++ x.before ++ (i :: later ++ back) := by
    simpa using hCode.symm.trans hOwn
  have hSame : before ++ passed = front ++ x.before := by
    apply eq_of_size_eq hBoth
    rw [Position.pc] at hAddress
    rw [size_append, size_append]
    omega
  have hZero : Instruction.depth 0 x.before = some 0 := by
    rw [← depth_append_of_some hFrontDepth, ← hSame, depth_append_of_some hBefore, hLevel]
  exact List.length_eq_zero_iff.mp (Option.some.inj (h.depth.symm.trans hZero))

/-! ## Returns -/

theorem RunsAbove.advance {bound n : Nat} {m : Machine}
    (h : ∀ k < n + 1, (m.advance k).halted = false ∧ bound < (m.advance k).activations.length) :
    RunsAbove bound m (m.advance n) := by
  induction n with
  | zero => exact .refl
  | succ n ih =>
    have hBefore : RunsAbove bound m (m.advance n) := ih fun k hLt => h k (Nat.lt_succ_of_lt hLt)
    obtain ⟨hRunning, hAbove⟩ := h (n + 1) (Nat.lt_succ_self _)
    exact .step hBefore (h n (by omega)).1 (step_advance hRunning) hAbove

/-- A call whose body takes so many instructions before it returns. -/
theorem returns_advance {m : Machine} {n : Nat} (hCall : m.program.words[m.pc]? = some Opcode.call.word)
    (hBody : ∀ k < n + 1, ((m.advance 1).advance k).halted = false ∧
      m.activations.length < ((m.advance 1).advance k).activations.length)
    (hNext : ((m.advance 1).advance (n + 1)).halted = false)
    (hBack : ((m.advance 1).advance (n + 1)).activations.length ≤ m.activations.length) :
    m.Returns ((m.advance 1).advance n) ((m.advance 1).advance (n + 1)) where
  call := hCall
  body := ⟨m.advance 1, step_advance (hBody 0 (Nat.succ_pos n)).1, .advance hBody⟩
  running := (hBody n (Nat.lt_succ_self n)).1
  step := step_advance hNext
  back := hBack

/-- The function with a caller `c` runs, or one that it has called. -/
def Inside (c : Caller) (home : Home) (outers : List Home) (x : Position) : Prop :=
  ∃ inner callee, x.home :: x.outers = inner ++ callee :: home :: outers ∧ callee.caller? = some c

theorem Inside.moves {c : Caller} {home : Home} {outers : List Home} {x y : Position} (h : Inside c home outers x)
    (hMoves : Moves x y) (hAbove : outers.length < y.outers.length) : Inside c home outers y := by
  obtain ⟨inner, callee, hHomes, hCaller⟩ := h
  cases hMoves with
  | stay hOuters hSame =>
    cases inner with
    | nil =>
      obtain ⟨rfl, hRest⟩ := List.cons.inj hHomes
      exact ⟨[], y.home, by rw [hOuters, hRest]; rfl, hSame.trans hCaller⟩
    | cons top inner =>
      obtain ⟨_, hRest⟩ := List.cons.inj hHomes
      exact ⟨y.home :: inner, callee, by rw [hOuters, hRest]; rfl, hCaller⟩
  | call hTemps hOuters _ => exact ⟨y.home :: inner, callee, by rw [hOuters, hHomes]; rfl, hCaller⟩
  | ret hSplit hRet hOuters =>
    cases inner with
    | nil =>
      obtain ⟨_, hRest⟩ := List.cons.inj hHomes
      obtain ⟨_, hEq⟩ := List.cons.inj (hOuters.symm.trans hRest)
      exact absurd hAbove (by rw [hEq]; exact Nat.lt_irrefl _)
    | cons top inner =>
      obtain ⟨_, hRest⟩ := List.cons.inj hHomes
      exact ⟨inner, callee, hOuters.symm.trans hRest, hCaller⟩

theorem RunsAbove.stands (hLoaded : Loaded S parts) {c : Caller} {home : Home} {outers : List Home} {y : Position}
    {entered last : Machine} (h : RunsAbove outers.length entered last) (hEntered : Stands S parts y entered)
    (hInside : Inside c home outers y) : ∃ z, Stands S parts z last ∧ Inside c home outers z := by
  induction h with
  | refl => exact ⟨y, hEntered, hInside⟩
  | step h hRunning hStep hAbove ih =>
    obtain ⟨x, hStands, hDeep⟩ := ih
    obtain ⟨z, hNext, hMoves⟩ := hStands.step hLoaded hRunning hStep
    rw [hNext.length_activations] at hAbove
    exact ⟨z, hNext, hDeep.moves hMoves hAbove⟩

theorem Stands.returns (hLoaded : Loaded S parts) {x : Position} {m last next : Machine} (h : Stands S parts x m)
    (hRunning : m.halted = false) (hReturns : Returns m last next) :
    ∃ (rest args below : List Word) (nargs value : Word), S.program.words[m.pc + 2]? = some nargs ∧
      nargs.toNat? = some args.length ∧ m.stack.items.toList = rest ++ args ∧
      S.program.words[last.pc]? = some Opcode.ret.word ∧ last.stack.items.toList = below ++ [value] ∧
      next.pc = m.pc + 4 ∧ next.fp = m.fp ∧ next.activations = m.activations ∧
      next.stack.items.toList = rest ++ [value] := by
  obtain ⟨globals, output, rfl⟩ := h.eq_of_running hRunning
  obtain ⟨i, after, hSplit⟩ := h.1.inside
  have hOp := (Program.holds_op.mp (hLoaded.holds_at h.1.part hSplit)).1
  have hCall : i.op = .call := Opcode.eq_of_word_eq (Option.some.inj (hOp.symm.trans hReturns.call))
  obtain ⟨entered, hEnter, hRuns⟩ := hReturns.body
  obtain ⟨y, low, args, nargs, hSound, hTemps, hWord, hCount, hOuters, hCaller, hEntered⟩ :=
    h.1.step_call hLoaded hSplit hCall hEnter
  rw [h.length_activations] at hRuns
  have hInside : Inside _ x.home x.outers y := ⟨[], y.home, by rw [hOuters]; rfl, hCaller⟩
  obtain ⟨z, hLast, inner, callee, hHomes, hSame⟩ :=
    hRuns.stands hLoaded ⟨hSound, globals, output, false, hEntered⟩ hInside
  obtain ⟨w, hNext, hMoves⟩ := hLast.step hLoaded hReturns.running hReturns.step
  have hBack := hReturns.back
  rw [hNext.length_activations, h.length_activations] at hBack
  have hLength := congrArg List.length hHomes
  simp only [List.length_cons, List.length_append] at hLength
  -- Only a return brings the number of waiting functions down again.
  cases hMoves with
  | stay hStay _ =>
    rw [hStay] at hBack
    omega
  | call _ hMore _ =>
    rw [hMore, List.length_cons] at hBack
    omega
  | @ret j later hAt hRet hFewer =>
    rw [hFewer, List.length_cons] at hLength
    obtain rfl : inner = [] := List.length_eq_zero_iff.mp (by omega)
    obtain ⟨rfl, _⟩ := List.cons.inj hHomes
    obtain ⟨globals', output', rfl⟩ := hLast.eq_of_running hReturns.running
    obtain ⟨c, value, hReturn, hValue, rfl⟩ := hLast.1.step_ret hLoaded hAt hRet hReturns.step
    cases hSame.symm.trans hReturn
    have hRetWord := (Program.holds_op.mp (hLoaded.holds_at hLast.1.part hAt)).1
    rw [hRet] at hRetWord
    refine ⟨x.home.stack ++ low, args, z.home.stack, nargs, value, hWord, hCount, ?_, hRetWord, ?_, rfl, rfl, rfl, rfl⟩
    · rw [List.append_assoc, ← hTemps]
      rfl
    · rw [← hValue]
      rfl

end Machine

/-! ## Compiled programs -/

namespace Listing.Composed

variable {l : Listing} {statements : List Stmt} {main : Part} {bodies : List Part} {S : Setting}

theorem exists_split (h : l.Composed statements main bodies) (p : Part) (hMem : p ∈ main :: bodies) :
    ∃ before after, (main :: bodies).flatMap Part.instructions = before ++ p.instructions ++ after ∧
      p.start = size before := by
  have hDepth : ∀ p ∈ main :: bodies, depth 0 p.instructions = some 0 := by
    intro p hMem
    obtain ⟨body, last, hSound, _⟩ := h.exists_sound hMem
    exact hSound.tidy.depth
  obtain ⟨before, after, hSplit, hStart, _⟩ := h.follow.exists_split hDepth hMem
  exact ⟨before, after, hSplit, by rw [hStart, Nat.zero_add]⟩

theorem loaded (h : l.Composed statements main bodies) (hProgram : l.toProgram = .ok S.program)
    (hSize : S.program.words.size < 2147483648) : Machine.Loaded S (main :: bodies) := by
  refine ⟨hSize, ?_, ?_, ?_⟩
  · intro p hMem
    obtain ⟨before, after, hSplit, hStart⟩ := h.exists_split p hMem
    have hHolds := Listing.holds_of_toProgram hProgram ∅
    rw [h.cells, hSplit, code_append, code_append, Program.holds_append, Program.holds_append] at hHolds
    rw [hStart, ← Nat.zero_add (size before)]
    exact hHolds.1.2
  · intro p hMem
    obtain ⟨body, last, hSound, hLast⟩ := h.exists_sound hMem
    exact ⟨_, body, last, hSound, hLast⟩
  · intro p hMem i hInstruction hCall
    obtain ⟨q, hTarget, hRest⟩ := h.exists_callee hMem hInstruction hCall
    exact ⟨q, List.mem_cons_of_mem _ hTarget, hRest⟩

theorem stands_start {program : Program} {limits : Limits} (h : l.Composed statements main bodies) :
    Machine.Stands ⟨program, limits, []⟩ (main :: bodies) ⟨.main, [], main, [], []⟩ (Machine.start program limits) := by
  constructor
  · refine ⟨.main, List.mem_cons_self .., ?_, rfl, ?_⟩
    · obtain ⟨front, hFront⟩ := List.getLast?_eq_some_iff.mp h.entry.ends
      cases front with
      | nil => exact ⟨_, _, hFront⟩
      | cons i front => exact ⟨i, _, hFront⟩
    · intro front w hEnd
      simp at hEnd
  · refine ⟨{ size := limits.globals }, "", false, ?_⟩
    simp only [Machine.Position.snapshot, Machine.Position.pc, size_nil, h.follow.1]
    rfl

theorem rests_of_start (h : l.Composed statements main bodies) {t : Nat} (hStart : t ∈ l.statementStarts statements) :
    ∃ p ∈ main :: bodies, Rests p.start p.instructions t := by
  rcases List.mem_append.mp hStart with hMain | hFunction
  · refine ⟨main, List.mem_cons_self .., h.entry.starts t ?_⟩
    rw [h.follow.1]
    exact hMain
  · obtain ⟨⟨s, d⟩, hMem, hInside⟩ := List.mem_flatMap.mp hFunction
    obtain ⟨p, hPair, hAddress⟩ := h.exists_part hMem
    rw [← hAddress] at hInside
    exact ⟨p, List.mem_cons_of_mem _ (List.of_mem_zip hPair).1, (h.function p d hPair).starts t hInside⟩

end Listing.Composed

/-- In every state of a run the stack has the frames of the activations, and nothing above them where a statement
starts. A call that returns leaves its value in place of the arguments, and all else as it was. -/
theorem Listing.framed_of_reachable {statements : List Stmt} {listing : Listing}
    (hListing : Listing.ofStatements statements = .ok listing) (hSize : listing.cells.length < 2147483648) :
    ∃ program code, listing.toProgram = .ok program ∧ listing.cells = Instruction.code code ∧
      ∀ (limits : Limits) (m : Machine), (Machine.start program limits).Reachable m →
        (∃ temps, Framed code m.fp m.activations temps m.stack.items.toList ∧
          (m.pc ∈ listing.statementStarts statements → temps = [])) ∧
        ∀ last next, m.halted = false → m.Returns last next →
          ∃ (rest args below : List Word) (nargs value : Word), program.words[m.pc + 2]? = some nargs ∧
            nargs.toNat? = some args.length ∧ m.stack.items.toList = rest ++ args ∧
            program.words[last.pc]? = some Opcode.ret.word ∧ last.stack.items.toList = below ++ [value] ∧
            next.pc = m.pc + 4 ∧ next.fp = m.fp ∧ next.activations = m.activations ∧
            next.stack.items.toList = rest ++ [value] := by
  obtain ⟨program, _, hProgram, hLength, _⟩ := Listing.exists_layout hListing
  obtain ⟨main, bodies, hComposed⟩ := Listing.exists_composed hListing hSize
  refine ⟨program, (main :: bodies).flatMap Part.instructions, hProgram, hComposed.cells, ?_⟩
  intro limits m hReachable
  have hLoaded : Machine.Loaded ⟨program, limits, []⟩ (main :: bodies) :=
    hComposed.loaded hProgram (by rw [hLength]; exact hSize)
  obtain ⟨x, hStands⟩ := hComposed.stands_start.of_reachable hLoaded hReachable
  constructor
  · obtain ⟨hSound, globals, output, halted, rfl⟩ := hStands
    refine ⟨x.temps, hSound.called.framed hLoaded hComposed.exists_split x.temps, ?_⟩
    intro hStart
    obtain ⟨p, hPart, hRests⟩ := hComposed.rests_of_start hStart
    exact hSound.temps_eq_nil hLoaded hComposed.follow hPart hRests
  · intro last next hRunning hReturns
    exact hStands.returns hLoaded hRunning hReturns

/-- The machine at the start of the countdown. -/
def Machine.countDown : Machine :=
  .start ⟨#[16, 2, 24, 8, 1, 0, 21, 23, 16, -1, 17, 16, 27, 15, 16, -1, 17, 24, 30, 0, 0, 2, 19, -1, 16, 8, 13, 16, -1,
    25, 16, 1, 25]⟩ ⟨20, 0⟩

/-- The call stands behind a constant, and 31 instructions of the function are carried out before its return. -/
theorem Machine.exists_returns_countDown :
    ∃ m last next : Machine, countDown.Reachable m ∧ m.halted = false ∧ m.Returns last next ∧ m.pc = 2 ∧
      m.stack.items.toList = [2] ∧ last.stack.items.toList = [0, 1, 6, 0] ++ [-1] := by
  have hReturns := returns_advance (m := countDown.advance 1) (n := 31) (by decide +kernel) (by decide +kernel)
    (by decide +kernel) (by decide +kernel)
  refine ⟨_, _, _, reachable_advance rfl ?_, ?_, hReturns, ?_, ?_, ?_⟩
  all_goals decide +kernel

theorem Listing.framed_of_reachable_countDown :
    ∃ program code, (Listing.generate Stmt.countDown).listing.toProgram = .ok program ∧
      (Listing.generate Stmt.countDown).listing.cells = Instruction.code code ∧
      (∀ (limits : Limits) (m : Machine), (Machine.start program limits).Reachable m →
        ∃ temps, Framed code m.fp m.activations temps m.stack.items.toList ∧ (m.pc ∈ [0, 8, 14, 30] → temps = [])) ∧
      ∃ m last next : Machine, (Machine.start program ⟨20, 0⟩).Reachable m ∧ m.Returns last next ∧
        m.stack.items.toList = [2] ∧ last.stack.items.toList = [0, 1, 6, 0] ++ [-1] ∧
        next.pc = 6 ∧ next.fp = m.fp ∧ next.activations = m.activations ∧ next.stack.items.toList = [-1] := by
  have hStarts : (Listing.generate Stmt.countDown).listing.statementStarts Stmt.countDown = [0, 8, 14, 30] := by
    decide +kernel
  have hWords : (Listing.generate Stmt.countDown).listing.toProgram = .ok Machine.countDown.program := rfl
  obtain ⟨program, code, hProgram, hCode, h⟩ :=
    Listing.framed_of_reachable (rfl : Listing.ofStatements Stmt.countDown = .ok _) (by decide +kernel)
  obtain rfl : Machine.countDown.program = program := Except.ok.inj (hWords.symm.trans hProgram)
  refine ⟨_, code, hProgram, hCode, fun limits m hReachable => hStarts ▸ (h limits m hReachable).1, ?_⟩
  obtain ⟨m, last, next, hReachable, hRunning, hReturns, hPc, hStack, hLast⟩ := Machine.exists_returns_countDown
  obtain ⟨rest, args, below, nargs, value, hWord, hCount, hArgs, -, hValue, hBack, hFp, hActivations, hNext⟩ :=
    (h ⟨20, 0⟩ m hReachable).2 last next hRunning hReturns
  refine ⟨m, last, next, hReachable, hReturns, hStack, hLast, ?_, hFp, hActivations, ?_⟩
  · rw [hBack, hPc]
  · -- One argument makes way for the word that lies on top at the return.
    rw [hPc] at hWord
    obtain rfl : 1 = nargs := Option.some.inj hWord
    obtain ⟨rfl, hArg⟩ := List.append_inj' (show [] ++ [2] = rest ++ args from hStack ▸ hArgs) (Option.some.inj hCount)
    obtain ⟨_, hSame⟩ := List.append_inj' (hLast.symm.trans hValue) rfl
    rw [hNext, ← hSame]
    rfl

end Vee
