import Vee.Proofs.Code.Sections
import Vee.Proofs.Machine.Inversion
import Vee.Proofs.Machine.Outcome

/-! # Activations of compiled code

Where a run of compiled code stands: the function that runs, the ones that wait for it, and the instructions in front
of `pc` in their part. The depth of these instructions is the number of temporaries, so that the stack has the
frames of all activations and nothing else. A step moves inside the running function, calls or returns.
-/

namespace Vee.Machine

set_option autoImplicit false

open Instruction

/-- Functions that wait for calls, the innermost first. Each has the instructions in front of its call, and as many
temporaries as these leave below the arguments. -/
inductive Called (parts : List Part) : Home → List Home → Prop
  | main : Called parts .main []
  | call {outer : Home} {outers : List Home} {p : Part} {before after : List Instruction}
      {entry nargs nlocals : Word} {temps args locals : List Word} (hOuter : Called parts outer outers)
      (hPart : p ∈ parts) (hSite : p.instructions = before ++ .call entry nargs nlocals :: after)
      (hArgs : Word.ofNat? args.length = some nargs) (hLocals : Word.ofNat? locals.length = some nlocals)
      (hDepth : depth 0 before = some (temps.length + args.length)) (hFp : outer.fp < 2147483648) :
      Called parts
        (.call ⟨outer.stack ++ temps, outer.fp, p.start + size before + 4, outer.activations⟩ args locals)
        (outer :: outers)

/-- Where a run stands. -/
structure Position where
  home : Home
  outers : List Home
  part : Part
  before : List Instruction
  temps : List Word

namespace Position

def pc (x : Position) : Nat := x.part.start + size x.before

def snapshot (x : Position) (globals : Memory) (output : String) : Snapshot :=
  x.home.snapshot x.pc x.temps globals output

/-- The part has an instruction behind those passed, which leave the temporaries, a constant at their end on top. -/
structure Sound (parts : List Part) (x : Position) : Prop where
  called : Called parts x.home x.outers
  part : x.part ∈ parts
  inside : ∃ i after, x.part.instructions = x.before ++ i :: after
  depth : Instruction.depth 0 x.before = some x.temps.length
  known : ∀ front w, x.before = front ++ [.const w] → x.temps.getLast? = some w

end Position

/-- A program with the code of sound parts, in which calls lead to parts. -/
structure Loaded (S : Setting) (parts : List Part) : Prop where
  small : S.program.words.size < 2147483648
  holds : ∀ p ∈ parts, S.program.Holds ∅ p.start (code p.instructions)
  sound : ∀ p ∈ parts, ∃ call body last, p.Sound call body last ∧ (last = .bare .halt rfl ∨ last = .bare .ret rfl)
  call : ∀ p ∈ parts, ∀ i ∈ p.instructions, i.op = .call → ∃ q ∈ parts, ∃ entry nargs nlocals arity locals,
    i = .call entry nargs nlocals ∧ Word.ofNat? q.start = some entry ∧ Word.ofNat? arity = some nargs ∧
      Word.ofNat? locals = some nlocals

/-! ## Callers -/

namespace Called

variable {S : Setting} {parts : List Part} {home : Home} {outers : List Home}

theorem length_activations (h : Called parts home outers) : home.activations.length = outers.length := by
  induction h with
  | main => rfl
  | call hOuter hPart hSite hArgs hLocals hDepth hFp ih => rw [Home.activations_call, List.length_cons, ih]; rfl

theorem set (h : Called parts home outers) (slot : Int) (w : Word) : Called parts (home.set slot w) outers := by
  cases h with
  | main => exact .main
  | call hOuter hPart hSite hArgs hLocals hDepth hFp =>
    cases slot with
    | ofNat n => exact .call hOuter hPart hSite hArgs (by rwa [List.length_set]) hDepth hFp
    | negSucc n => exact .call hOuter hPart hSite (by rwa [List.length_set]) hLocals (by rwa [List.length_set]) hFp

end Called

namespace Loaded

variable {S : Setting} {parts : List Part} {p : Part} {before after : List Instruction} {i : Instruction}

theorem holds_at (h : Loaded S parts) (hPart : p ∈ parts) (hSplit : p.instructions = before ++ i :: after) :
    S.program.Holds ∅ (p.start + size before) i.cells := by
  have hHolds := h.holds p hPart
  rw [hSplit, code_append, code_cons, Program.holds_append, Program.holds_append] at hHolds
  exact hHolds.2.1

theorem size_le (h : Loaded S parts) (hPart : p ∈ parts) (hSplit : p.instructions = before ++ i :: after) :
    p.start + size before + i.op.operands + 1 ≤ S.program.words.size := by
  have hLe := (h.holds_at hPart hSplit).length_le (by rw [length_cells]; omega)
  rw [length_cells] at hLe
  omega

theorem depth_eq (h : Loaded S parts) (hPart : p ∈ parts) : Instruction.depth 0 p.instructions = some 0 := by
  obtain ⟨call, body, last, hSound, _⟩ := h.sound p hPart
  exact hSound.tidy.depth

/-- Only a halt or a return stands at the end of a part. -/
theorem exists_next (h : Loaded S parts) (hPart : p ∈ parts) (hSplit : p.instructions = before ++ i :: after)
    (hHalt : i.op ≠ .halt) (hRet : i.op ≠ .ret) : ∃ j rest, p.instructions = before ++ [i] ++ j :: rest := by
  obtain ⟨call, body, last, hSound, hLast⟩ := h.sound p hPart
  have hEnd := hSound.ends
  cases after with
  | cons j rest => exact ⟨j, rest, by rw [hSplit, ← List.append_cons]⟩
  | nil =>
    rw [hSplit, List.getLast?_concat] at hEnd
    cases hEnd
    rcases hLast with rfl | rfl
    · exact absurd rfl hHalt
    · exact absurd rfl hRet

theorem exists_first (h : Loaded S parts) (hPart : p ∈ parts) : ∃ i after, p.instructions = i :: after := by
  obtain ⟨call, body, last, hSound, _⟩ := h.sound p hPart
  cases hInstructions : p.instructions with
  | nil =>
    have hEnd := hSound.ends
    rw [hInstructions] at hEnd
    cases hEnd
  | cons i after => exact ⟨i, after, rfl⟩

end Loaded

theorem Called.caller_sound {S : Setting} {parts : List Part} (hLoaded : Loaded S parts) {c : Caller}
    {args locals : List Word} {outers : List Home} (h : Called parts (.call c args locals) outers) :
    c.Sound S ∧ args.length < 2147483648 := by
  cases h with
  | call hOuter hPart hSite hArgs hLocals hDepth hFp =>
    obtain ⟨j, rest, hNext⟩ := hLoaded.exists_next hPart hSite nofun nofun
    have hLe := hLoaded.size_le hPart hNext
    have hSmall := hLoaded.small
    rw [size_concat, show Opcode.operands (Instruction.op (.call ..)) = 3 from rfl] at hLe
    refine ⟨⟨?_, ?_, hFp⟩, Word.lt_of_ofNat? hArgs⟩
    · change _ + 4 < _
      omega
    · change _ + 4 < _
      omega

/-! ## Steps -/

/-- How the waiting functions change in a step. -/
inductive Moves (x y : Position) : Prop
  | stay (hOuters : y.outers = x.outers) (hCaller : y.home.caller? = x.home.caller?)
  | call {temps args : List Word} (hTemps : x.temps = temps ++ args) (hOuters : y.outers = x.home :: x.outers)
      (hCaller : y.home.caller? = some ⟨x.home.stack ++ temps, x.home.fp, x.pc + 4, x.home.activations⟩)
  | ret {i : Instruction} {after : List Instruction} (hSplit : x.part.instructions = x.before ++ i :: after)
      (hRet : i.op = .ret) (hOuters : x.outers = y.home :: y.outers)

/-- A machine that stands one move behind a position, halted or not. -/
def Arrives (S : Setting) (parts : List Part) (x : Position) (m : Machine) : Prop :=
  ∃ y globals output halted, y.Sound parts ∧ Moves x y ∧
    m = { (y.snapshot globals output).machine S with halted := halted }

theorem exists_top {words : List Word} {n : Nat} (h : n ≤ words.length) :
    ∃ low top, words = low ++ top ∧ top.length = n ∧ low.length = words.length - n := by
  refine ⟨words.take (words.length - n), words.drop (words.length - n), (List.take_append_drop ..).symm, ?_, ?_⟩
  · rw [List.length_drop]
    omega
  · rw [List.length_take]
    omega

namespace Position.Sound

variable {S : Setting} {parts : List Part} {x : Position} {i : Instruction} {after : List Instruction}
    {globals : Memory} {output : String} {m : Machine}

theorem takes_le (hLoaded : Loaded S parts) (h : x.Sound parts)
    (hSplit : x.part.instructions = x.before ++ i :: after) :
    i.takes ≤ x.temps.length ∧
      Instruction.depth 0 (x.before ++ [i]) = some (x.temps.length - i.takes + i.leaves) := by
  have hDepth := hLoaded.depth_eq h.part
  rw [hSplit] at hDepth
  obtain ⟨k, hBefore, hTakes, hBehind⟩ := exists_depth_of_cons hDepth
  cases hBefore.symm.trans h.depth
  exact ⟨hTakes, hBehind⟩

/-- The position behind an instruction that stays in its function. -/
theorem behind (hLoaded : Loaded S parts) (h : x.Sound parts) (hSplit : x.part.instructions = x.before ++ i :: after)
    (hHalt : i.op ≠ .halt) (hRet : i.op ≠ .ret) {home : Home} (hCalled : Called parts home x.outers)
    {temps : List Word} (hDepth : Instruction.depth 0 (x.before ++ [i]) = some temps.length)
    (hKnown : ∀ w, i = .const w → temps.getLast? = some w) :
    Sound parts ⟨home, x.outers, x.part, x.before ++ [i], temps⟩ := by
  refine ⟨hCalled, h.part, hLoaded.exists_next h.part hSplit hHalt hRet, hDepth, ?_⟩
  intro front w hEnd
  obtain ⟨_, hLast⟩ := List.append_inj' hEnd rfl
  exact hKnown w (List.cons.inj hLast).1

theorem step_passing (hLoaded : Loaded S parts) (h : x.Sound parts)
    (hSplit : x.part.instructions = x.before ++ i :: after) (hJump : i.isJump = false) (hCall : i.op ≠ .call)
    (hRet : i.op ≠ .ret) (hHalt : i.op ≠ .halt) (hStore : i.op ≠ .store)
    (hStep : step ((x.snapshot globals output).machine S) = .ok () m) :
    Arrives S parts x m := by
  obtain ⟨hTakes, hBehind⟩ := h.takes_le hLoaded hSplit
  obtain ⟨low, top, hTemps, hTop, hLow⟩ := exists_top hTakes
  have hStack : (x.snapshot globals output).stack = x.home.stack ++ low ++ top := by
    rw [List.append_assoc, ← hTemps]
    rfl
  obtain ⟨new, globals', output', hNew, hConst, rfl⟩ :=
    passes_of_instruction (hLoaded.holds_at h.part hSplit) hStack hTop hJump hCall hRet hHalt hStore hStep
  have hSound : Sound parts ⟨x.home, x.outers, x.part, x.before ++ [i], low ++ new⟩ := by
    apply h.behind hLoaded hSplit hHalt hRet h.called
    · rw [hBehind, List.length_append, hLow, hNew]
    · intro w hEq
      rw [hConst w hEq, List.getLast?_concat]
  refine ⟨_, globals', output', false, hSound, .stay rfl rfl, ?_⟩
  simp only [snapshot, Home.snapshot, pc, size_concat, List.append_assoc, Nat.add_assoc]
  rfl

theorem step_store (hLoaded : Loaded S parts) (h : x.Sound parts)
    (hSplit : x.part.instructions = x.before ++ i :: after) (hStore : i.op = .store)
    (hStep : step ((x.snapshot globals output).machine S) = .ok () m) :
    Arrives S parts x m := by
  obtain ⟨hTakes, hBehind⟩ := h.takes_le hLoaded hSplit
  have hHolds := hLoaded.holds_at h.part hSplit
  obtain ⟨op, operands, hComplete⟩ := i
  cases hStore
  obtain ⟨slot, rfl⟩ := List.length_eq_one_iff.mp hComplete
  obtain ⟨low, top, hTemps, hTop, hLow⟩ := exists_top hTakes
  obtain ⟨v, rfl⟩ := List.length_eq_one_iff.mp hTop
  obtain ⟨hOp, hOperands⟩ := Program.holds_op.mp hHolds
  rw [snapshot, hTemps] at hStep
  obtain rfl := of_store hOp (Program.holds_int.mp hOperands).1 hStep
  have hSound : Sound parts ⟨x.home.set slot.toInt v, x.outers, x.part, x.before ++ [⟨.store, [slot], rfl⟩], low⟩ := by
    apply h.behind hLoaded hSplit nofun nofun (h.called.set slot.toInt v)
    · rw [hBehind, hLow]
      rfl
    · exact nofun
  refine ⟨_, globals, output, false, hSound, .stay rfl (Home.caller?_set ..), ?_⟩
  simp only [snapshot, pc, size_concat, Nat.add_assoc]
  rfl

/-- A jump goes to an address of its part at which no word is left, or on. -/
theorem step_jump (hLoaded : Loaded S parts) (h : x.Sound parts)
    (hSplit : x.part.instructions = x.before ++ i :: after) (hJump : i.isJump = true)
    (hStep : step ((x.snapshot globals output).machine S) = .ok () m) : Arrives S parts x m := by
  obtain ⟨hTakes, hBehind⟩ := h.takes_le hLoaded hSplit
  obtain ⟨low, top, hTemps, hTop, hLow⟩ := exists_top hTakes
  obtain ⟨call, body, last, hPart, _⟩ := hLoaded.sound x.part h.part
  obtain ⟨front, w, t, hFront, hWord, first, j, rest, hInside, hLevel, rfl⟩ :=
    hPart.tidy.jumps x.before i after hSplit hJump
  have hSettled := hPart.tidy.settled x.before i after hSplit (.inl hJump)
  obtain ⟨hOperands, hLeaves, hHalt, hRet⟩ := of_isJump hJump
  have hEmpty : low = [] := by
    rw [hBehind, hLeaves, ← hLow] at hSettled
    exact List.length_eq_zero_iff.mp (Option.some.inj hSettled)
  subst hEmpty
  have hLast : top.getLast? = some w := by
    rw [← h.known front w hFront, hTemps, List.nil_append]
  have hStack : (x.snapshot globals output).stack = x.home.stack ++ top := by
    rw [snapshot, Home.snapshot, hTemps, List.nil_append]
  have hSize : x.part.start + size first < S.program.words.size := by
    have hLe := hLoaded.size_le h.part hInside
    omega
  have hOp := (Program.holds_op.mp (hLoaded.holds_at h.part hSplit)).1
  rcases of_jump hOp hJump hStack hTop hLast hWord hSize hStep with rfl | rfl
  · have hSound : Sound parts ⟨x.home, x.outers, x.part, first, []⟩ := by
      refine ⟨h.called, h.part, ⟨j, rest, hInside⟩, hLevel, ?_⟩
      rintro front' w' rfl
      exact absurd hLevel (depth_concat_const_ne_zero front' w')
    refine ⟨_, globals, output, false, hSound, .stay rfl rfl, ?_⟩
    simp only [snapshot, Home.snapshot, pc, List.append_nil]
    rfl
  · have hSound : Sound parts ⟨x.home, x.outers, x.part, x.before ++ [i], []⟩ := by
      apply h.behind hLoaded hSplit hHalt hRet h.called
      · exact hSettled
      · rintro v rfl
        cases hJump
    refine ⟨_, globals, output, false, hSound, .stay rfl rfl, ?_⟩
    simp only [snapshot, Home.snapshot, pc, size_concat, hOperands, List.append_nil, Nat.add_assoc]
    rfl

/-- A call leaves the function that waits for it with the temporaries below the arguments. -/
theorem step_call (hLoaded : Loaded S parts) (h : x.Sound parts)
    (hSplit : x.part.instructions = x.before ++ i :: after) (hCall : i.op = .call)
    (hStep : step ((x.snapshot globals output).machine S) = .ok () m) :
    ∃ (y : Position) (low top : List Word) (nargs : Word), y.Sound parts ∧ x.temps = low ++ top ∧
      S.program.words[x.pc + 2]? = some nargs ∧ nargs.toNat? = some top.length ∧
      y.outers = x.home :: x.outers ∧
      y.home.caller? = some ⟨x.home.stack ++ low, x.home.fp, x.pc + 4, x.home.activations⟩ ∧
      m = (y.snapshot globals output).machine S := by
  obtain ⟨hTakes, _⟩ := h.takes_le hLoaded hSplit
  obtain ⟨q, hTarget, entry, nargs, nlocals, arity, locals, rfl, hEntry, hArity, hLocals⟩ :=
    hLoaded.call x.part h.part i (by rw [hSplit]; simp) hCall
  obtain ⟨low, top, hTemps, hTop, hLow⟩ := exists_top hTakes
  rw [takes_call (Word.toNat?_of_ofNat? hArity)] at hTop
  have hHolds := hLoaded.holds_at h.part hSplit
  simp only [cells, Instruction.call, List.map_cons, List.map_nil, Program.holds_op, Program.holds_int] at hHolds
  obtain ⟨hOp, hFirst, hSecond, hThird, _⟩ := hHolds
  obtain ⟨j, rest, hStart⟩ := hLoaded.exists_first hTarget
  have hInside : q.instructions = [] ++ j :: rest := hStart
  have hSize : q.start < S.program.words.size := by
    have hLe := hLoaded.size_le hTarget hInside
    omega
  have hBack : x.pc + 4 < 2147483648 := by
    have hLe := hLoaded.size_le h.part hSplit
    have hSmall := hLoaded.small
    rw [show Opcode.operands (Instruction.op (.call ..)) = 3 from rfl] at hLe
    rw [pc]
    omega
  have hCount : Word.ofNat? top.reverse.length = some nargs := by rw [List.length_reverse, hTop, hArity]
  let callee : Home :=
    .call ⟨x.home.stack ++ low, x.home.fp, x.pc + 4, x.home.activations⟩ top.reverse (List.replicate locals 0)
  have hLeads : if x.home.fp < 2147483648 then
        Leads S Machine.step (x.home.snapshot x.pc (low ++ top.reverse.reverse) globals output) ()
          (callee.snapshot q.start [] globals output)
      else Exhausted S Machine.step (x.home.snapshot x.pc (low ++ top.reverse.reverse) globals output) :=
    leads_call hOp hFirst hSecond hThird (Word.toNat?_of_ofNat? hEntry) hSize hCount
      (Word.toNat?_of_ofNat? hLocals) hBack
  rw [List.reverse_reverse, ← hTemps] at hLeads
  split at hLeads
  · rename_i hFp
    obtain ⟨_, rfl⟩ := hLeads.eq_of_ok hStep
    have hCalled : Called parts callee (x.home :: x.outers) := by
      refine .call h.called h.part hSplit hCount ?_ ?_ hFp
      · rw [List.length_replicate, hLocals]
      · rw [h.depth, hTemps, List.length_append, List.length_reverse]
    refine ⟨⟨callee, x.home :: x.outers, q, [], []⟩, low, top, nargs,
      ⟨hCalled, hTarget, ⟨j, rest, hInside⟩, rfl, ?_⟩, hTemps, hSecond, ?_, rfl, rfl, rfl⟩
    · intro front w hEnd
      simp at hEnd
    · rw [hTop]
      exact Word.toNat?_of_ofNat? hArity
  · exact absurd hStep hLeads.ne_ok

theorem step_ret (hLoaded : Loaded S parts) (h : x.Sound parts)
    (hSplit : x.part.instructions = x.before ++ i :: after) (hRet : i.op = .ret)
    (hStep : step ((x.snapshot globals output).machine S) = .ok () m) :
    ∃ c value, x.home.caller? = some c ∧ x.temps = [value] ∧ m = (c.snapshot value globals output).machine S := by
  obtain ⟨hTakes, hBehind⟩ := h.takes_le hLoaded hSplit
  obtain ⟨call, body, last, hPart, _⟩ := hLoaded.sound x.part h.part
  have hSettled := hPart.tidy.settled x.before i after hSplit (.inr hRet)
  obtain ⟨op, operands, hComplete⟩ := i
  cases hRet
  obtain ⟨value, hValue⟩ : ∃ value, x.temps = [value] := by
    apply List.length_eq_one_iff.mp
    have hZero := Option.some.inj (hBehind.symm.trans hSettled)
    change x.temps.length - 1 + 0 = 0 at hZero
    change 1 ≤ x.temps.length at hTakes
    omega
  have hOp := (Program.holds_op.mp (hLoaded.holds_at h.part hSplit)).1
  rw [snapshot, hValue] at hStep
  cases hHome : x.home with
  | main =>
    rw [hHome] at hStep
    obtain ⟨next, m', hPerform, _⟩ := exists_of_step_ok hOp hStep
    cases exists_of_pop_bind rfl hPerform
  | call c args locals =>
    have hCalled := h.called
    rw [hHome] at hStep hCalled
    obtain ⟨hSound, hArgs⟩ := hCalled.caller_sound hLoaded
    exact ⟨c, value, rfl, hValue, ((leads_ret hOp hSound hArgs).eq_of_ok hStep).2⟩

end Position.Sound

theorem Called.exists_resumed {S : Setting} {parts : List Part} (hLoaded : Loaded S parts) {home : Home}
    {outers : List Home} {c : Caller} (h : Called parts home outers) (hCaller : home.caller? = some c) (value : Word)
    (globals : Memory) (output : String) :
    ∃ y : Position, y.Sound parts ∧ outers = y.home :: y.outers ∧
      y.snapshot globals output = c.snapshot value globals output := by
  cases h with
  | main => cases hCaller
  | @call outer outers p before after entry nargs nlocals temps args locals hOuter hPart hSite hArgs hLocals hDepth
      hFp =>
    cases hCaller
    have hSound : Position.Sound parts
        ⟨outer, outers, p, before ++ [.call entry nargs nlocals], temps ++ [value]⟩ := by
      refine ⟨hOuter, hPart, hLoaded.exists_next hPart hSite nofun nofun, ?_, ?_⟩
      · rw [depth_concat hDepth, takes_call (Word.toNat?_of_ofNat? hArgs), if_pos (Nat.le_add_left ..),
          Nat.add_sub_cancel, List.length_append]
        rfl
      · intro front w hEnd
        obtain ⟨_, hLast⟩ := List.append_inj' hEnd rfl
        cases (List.cons.inj hLast).1
    refine ⟨_, hSound, rfl, ?_⟩
    simp only [Position.snapshot, Position.pc, Home.snapshot, Caller.snapshot, size_concat, List.append_assoc]
    rfl

theorem Position.Sound.step {S : Setting} {parts : List Part} {x : Position} {globals : Memory} {output : String}
    {m : Machine} (hLoaded : Loaded S parts) (h : x.Sound parts)
    (hStep : Machine.step ((x.snapshot globals output).machine S) = .ok () m) : Arrives S parts x m := by
  obtain ⟨i, after, hSplit⟩ := h.inside
  by_cases hCall : i.op = .call
  · obtain ⟨y, low, top, nargs, hSound, hTemps, _, _, hOuters, hCaller, rfl⟩ := h.step_call hLoaded hSplit hCall hStep
    exact ⟨y, globals, output, false, hSound, .call hTemps hOuters hCaller, rfl⟩
  by_cases hRet : i.op = .ret
  · obtain ⟨c, value, hCaller, _, rfl⟩ := h.step_ret hLoaded hSplit hRet hStep
    obtain ⟨y, hSound, hOuters, hEq⟩ := h.called.exists_resumed hLoaded hCaller value globals output
    exact ⟨y, globals, output, false, hSound, .ret hSplit hRet hOuters, by rw [hEq]; rfl⟩
  by_cases hHalt : i.op = .halt
  · have hOp := (Program.holds_op.mp (hLoaded.holds_at h.part hSplit)).1
    rw [hHalt] at hOp
    cases (step_halt (s := x.snapshot globals output) hOp).symm.trans hStep
    exact ⟨x, globals, output, true, h, .stay rfl rfl, rfl⟩
  by_cases hStore : i.op = .store
  · exact h.step_store hLoaded hSplit hStore hStep
  cases hJump : i.isJump with
  | true => exact h.step_jump hLoaded hSplit hJump hStep
  | false => exact h.step_passing hLoaded hSplit hJump hCall hRet hHalt hStore hStep

end Vee.Machine
