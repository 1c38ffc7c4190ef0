import Vee.Proofs.Code.Emission
import Vee.Proofs.Code.Instructions
import Vee.Proofs.Machine.Action

/-! # Code as instructions

Linked code of expressions and statements splits into instructions. That of an expression neither jumps nor
returns and adds one word to the stack. That of a statement is tidy, and no word is left where it starts or where
any statement inside it starts. The calls among the instructions are those of the source, in its order.
-/

namespace Vee

set_option autoImplicit false

/-! ## Calls in the order of code -/

mutual

def Expr.callees : Expr → List String
  | .int _ _ => []
  | .var _ _ => []
  | .call _ name args => Expr.allCallees args ++ [name]
  | .unary _ _ e => e.callees
  | .binary _ _ l r => l.callees ++ r.callees

/-- The last argument comes first. -/
def Expr.allCallees : List Expr → List String
  | [] => []
  | e :: rest => Expr.allCallees rest ++ e.callees

end

mutual

/-- The functions that a statement calls. The bodies of functions inside it do not count. -/
def Stmt.callees : Stmt → List String
  | .assign _ _ e => e.callees
  | .expr _ e => e.callees
  | .print _ e => e.callees
  | .function _ _ _ _ => []
  | .ret _ none => []
  | .ret _ (some e) => e.callees
  | .branch _ c yes no => c.callees ++ Stmt.blockCallees yes ++ Stmt.blockCallees no
  | .whileLoop _ c body => c.callees ++ Stmt.blockCallees body
  | .forLoop _ init c step body => init.callees ++ c.callees ++ Stmt.blockCallees body ++ step.callees

def Stmt.blockCallees : List Stmt → List String
  | [] => []
  | s :: rest => s.callees ++ Stmt.blockCallees rest

end

/-! ## Where statements start -/

mutual

def Expr.codeLength : Expr → Nat
  | .int _ _ => 2
  | .var _ _ => 3
  | .call _ _ args => Expr.allCodeLength args + 4
  | .unary _ _ e => e.codeLength + 1
  | .binary op _ l r => l.codeLength + r.codeLength + op.opcodes.length

def Expr.allCodeLength : List Expr → Nat
  | [] => 0
  | e :: rest => Expr.allCodeLength rest + e.codeLength

end

mutual

def Stmt.codeLength : Stmt → Nat
  | .assign _ _ e => e.codeLength + 2
  | .expr _ e => e.codeLength + 1
  | .print _ e => e.codeLength + 1
  | .function _ _ _ _ => 0
  | .ret _ none => 3
  | .ret _ (some e) => e.codeLength + 1
  | .branch _ c yes [] => c.codeLength + 3 + Stmt.blockCodeLength yes
  | .branch _ c yes no => c.codeLength + 3 + Stmt.blockCodeLength yes + 3 + Stmt.blockCodeLength no
  | .whileLoop _ c body => c.codeLength + 3 + Stmt.blockCodeLength body + 3
  | .forLoop _ init c step body =>
    init.codeLength + c.codeLength + 3 + Stmt.blockCodeLength body + step.codeLength + 3

def Stmt.blockCodeLength : List Stmt → Nat
  | [] => 0
  | s :: rest => s.codeLength + Stmt.blockCodeLength rest

end

mutual

/-- Where the code of a statement at an address starts, and that of the statements inside it. A function has no
code there. -/
def Stmt.starts (a : Nat) : Stmt → List Nat
  | .assign _ _ _ => [a]
  | .expr _ _ => [a]
  | .print _ _ => [a]
  | .function _ _ _ _ => []
  | .ret _ _ => [a]
  | .branch _ c yes no =>
    let inside := a + c.codeLength + 3
    a :: Stmt.blockStarts inside yes ++ Stmt.blockStarts (inside + Stmt.blockCodeLength yes + 3) no
  | .whileLoop _ c body => a :: Stmt.blockStarts (a + c.codeLength + 3) body
  | .forLoop _ init c step body =>
    let inside := a + init.codeLength + c.codeLength + 3
    a :: init.starts a ++ Stmt.blockStarts inside body ++ step.starts (inside + Stmt.blockCodeLength body)

def Stmt.blockStarts (a : Nat) : List Stmt → List Nat
  | [] => []
  | s :: rest => s.starts a ++ Stmt.blockStarts (a + s.codeLength) rest

end

section

variable {fs : Functions}

mutual

theorem Expr.HasCode.length_eq {v : Variables} {e : Expr} {code : List Cell} (h : e.HasCode fs v code) :
    code.length = e.codeLength := by
  cases h with
  | int span n => rfl
  | own span hSlot hWord => rfl
  | global span hSlot hWord => rfl
  | call span hFind hArity hArgs hArityWord hLocals => simp [Expr.codeLength, hArgs.length_eq]
  | unary span hOperand => simp [Expr.codeLength, hOperand.length_eq]
  | binary span hLeft hRight => simp [Expr.codeLength, hLeft.length_eq, hRight.length_eq, Nat.add_assoc]

theorem Expr.ArgsHaveCode.length_eq {v : Variables} {es : List Expr} {code : List Cell}
    (h : Expr.ArgsHaveCode fs v es code) : code.length = Expr.allCodeLength es := by
  cases h with
  | nil => rfl
  | cons hLater hFirst => simp [Expr.allCodeLength, hLater.length_eq, hFirst.length_eq]

end

mutual

theorem Stmt.HasCode.length_eq {v : Variables} {a : Nat} {s : Stmt} {code : List Cell}
    (h : s.HasCode fs v a code) : code.length = s.codeLength := by
  cases h with
  | own span hValue hSlot hWord => simp [Stmt.codeLength, hValue.length_eq]
  | global span hValue hSlot hWord => simp [Stmt.codeLength, hValue.length_eq]
  | expr span hValue => simp [Stmt.codeLength, hValue.length_eq]
  | print span hValue => simp [Stmt.codeLength, hValue.length_eq]
  | function span name params body => rfl
  | ret span hOpen => rfl
  | retValue span hOpen hValue => simp [Stmt.codeLength, hValue.length_eq]
  | when span hTest hYes hSkip => simp [Stmt.codeLength, hTest.length_eq, hYes.length_eq, Nat.add_assoc]
  | branch span hElse hTest hYes hNo hSkip hLeave =>
    simp [Stmt.codeLength, hTest.length_eq, hYes.length_eq, hNo.length_eq, Nat.add_assoc]
  | whileLoop span hTest hBody hLeave hAgain =>
    simp [Stmt.codeLength, hTest.length_eq, hBody.length_eq, Nat.add_assoc]
  | forLoop span hInit hTest hBody hStep hLeave hAgain =>
    simp [Stmt.codeLength, hInit.length_eq, hTest.length_eq, hBody.length_eq, hStep.length_eq, Nat.add_assoc]

theorem Stmt.BlockHasCode.length_eq {v : Variables} {a : Nat} {body : List Stmt} {code : List Cell}
    (h : Stmt.BlockHasCode fs v a body code) : code.length = Stmt.blockCodeLength body := by
  cases h with
  | nil => rfl
  | cons hFirst hLater => simp [Stmt.blockCodeLength, hFirst.length_eq, hLater.length_eq]

end

end

/-! ## Instructions -/

/-- The instruction that calls a function: its address, its number of parameters and its number of locals. -/
def Functions.callTo? (fs : Functions) (places : Std.TreeMap Nat Nat) (name : String) : Option Instruction := do
  let f ← fs.find? name
  let entry ← places[f.symbol]?.bind Word.ofNat?
  return .call entry (← Word.ofNat? f.arity) (← Word.ofNat? f.locals)

/-- Linked code in instructions, with calls of some functions in their order. -/
structure Spells (fs : Functions) (places : Std.TreeMap Nat Nat) (code : List Cell) (names : List String)
    (is : List Instruction) : Prop where
  code : code.map (Cell.linked places) = Instruction.code is
  calls : (is.filter Instruction.isCall).map some = names.map (fs.callTo? places)

section

variable {fs : Functions} {places : Std.TreeMap Nat Nat}

namespace Spells

variable {code first second : List Cell} {names more : List String} {is js : List Instruction}

theorem nil : Spells fs places [] [] [] := ⟨rfl, rfl⟩

theorem append (hFirst : Spells fs places first names is) (hSecond : Spells fs places second more js) :
    Spells fs places (first ++ second) (names ++ more) (is ++ js) := by
  constructor
  · rw [List.map_append, hFirst.code, hSecond.code, Instruction.code_append]
  · rw [List.filter_append, List.map_append, hFirst.calls, hSecond.calls, List.map_append]

theorem size (h : Spells fs places code names is) : Instruction.size is = code.length := by
  rw [Instruction.size, ← h.code, List.length_map]

theorem bare (op : Opcode) (hOperands : op.operands = 0) (hCall : op ≠ .call) :
    Spells fs places [.op op] [] [.bare op hOperands] := by
  constructor
  · rfl
  · simp [Instruction.isCall, Instruction.bare, hCall]

theorem const (w : Word) : Spells fs places [.op .const, .int w] [] [.const w] := ⟨rfl, rfl⟩

end Spells

open Instruction

theorem UnaryOp.straight (op : UnaryOp) {is : List Instruction} (h : Straight 1 is) :
    ∃ i, Spells fs places [.op op.opcode] [] [i] ∧ Straight 1 (is ++ [i]) := by
  cases op with
  | neg => exact ⟨_, .bare .neg rfl nofun, h.concat (Nat.le_refl 1) rfl ⟨rfl, nofun⟩⟩
  | not => exact ⟨_, .bare .not rfl nofun, h.concat (Nat.le_refl 1) rfl ⟨rfl, nofun⟩⟩

theorem BinaryOp.straight (op : BinaryOp) {is : List Instruction} (h : Straight 2 is) :
    ∃ js, Spells fs places (op.opcodes.map Cell.op) [] js ∧ Straight 1 (is ++ js) := by
  cases op
  case ne =>
    refine ⟨_, (Spells.bare .eq rfl nofun).append (.bare .not rfl nofun), ?_⟩
    rw [← List.append_assoc]
    have hEq : Straight 1 (is ++ [.bare .eq rfl]) := h.concat (Nat.le_refl 2) rfl ⟨rfl, nofun⟩
    exact hEq.concat (Nat.le_refl 1) rfl ⟨rfl, nofun⟩
  all_goals exact ⟨_, .bare _ rfl nofun, h.concat (Nat.le_refl 2) rfl ⟨rfl, nofun⟩⟩

/-- Every function has an address that is a word. -/
def Functions.Placed (fs : Functions) (places : Std.TreeMap Nat Nat) : Prop :=
  ∀ f ∈ fs.list, ∃ w, places[f.symbol]?.bind Word.ofNat? = some w

mutual

theorem Expr.HasCode.straight (hPlaced : fs.Placed places) {v : Variables} {e : Expr} {code : List Cell}
    (h : e.HasCode fs v code) : ∃ is, Spells fs places code e.callees is ∧ Straight 1 is := by
  cases h with
  | int span n => exact ⟨_, .const n, .const n⟩
  | @own _ _ w span hSlot hWord =>
    exact ⟨_, (Spells.const w).append (.bare .load rfl nofun),
      (Straight.const w).concat (Nat.le_refl 1) rfl ⟨rfl, nofun⟩⟩
  | @global _ _ w span hSlot hWord =>
    exact ⟨_, (Spells.const w).append (.bare .gload rfl nofun),
      (Straight.const w).concat (Nat.le_refl 1) rfl ⟨rfl, nofun⟩⟩
  | @call name f args code arity locals span hFind hArity hArgs hArityWord hLocals =>
    obtain ⟨is, hSpells, hStraight⟩ := hArgs.straight hPlaced
    obtain ⟨entry, hEntry⟩ := hPlaced f (List.mem_of_find?_eq_some hFind)
    have hTakes : (Instruction.call entry arity locals).takes = args.length := by
      rw [takes_call (Word.toNat?_of_ofNat? hArityWord), hArity]
    refine ⟨is ++ [.call entry arity locals], hSpells.append ⟨?_, ?_⟩, ?_⟩
    · simp [Cell.linked, hEntry, Instruction.cells, Instruction.call]
    · simp [Functions.callTo?, hFind, hEntry, hArityWord, hLocals, Instruction.isCall, Instruction.call]
    · refine hStraight.concat (Nat.le_of_eq hTakes) ?_ ⟨rfl, nofun⟩
      rw [hTakes, Nat.sub_self]
      rfl
  | @unary op _ _ span hOperand =>
    obtain ⟨is, hSpells, hStraight⟩ := hOperand.straight hPlaced
    obtain ⟨i, hOp, hBoth⟩ := op.straight hStraight
    refine ⟨is ++ [i], ?_, hBoth⟩
    rw [← List.append_nil (Expr.callees _)]
    exact hSpells.append hOp
  | @binary op _ _ _ _ span hLeft hRight =>
    obtain ⟨is, hFirst, hOne⟩ := hLeft.straight hPlaced
    obtain ⟨js, hSecond, hTwo⟩ := hRight.straight hPlaced
    obtain ⟨ops, hOps, hAll⟩ := op.straight (hOne.append hTwo)
    refine ⟨is ++ js ++ ops, ?_, hAll⟩
    rw [← List.append_nil (Expr.callees _)]
    exact (hFirst.append hSecond).append hOps

theorem Expr.ArgsHaveCode.straight (hPlaced : fs.Placed places) {v : Variables} {es : List Expr}
    {code : List Cell} (h : Expr.ArgsHaveCode fs v es code) :
    ∃ is, Spells fs places code (Expr.allCallees es) is ∧ Straight es.length is := by
  cases h with
  | nil => exact ⟨[], .nil, .nil⟩
  | cons hLater hFirst =>
    obtain ⟨is, hSpells, hStraight⟩ := hLater.straight hPlaced
    obtain ⟨js, hOne, hLast⟩ := hFirst.straight hPlaced
    exact ⟨is ++ js, hSpells.append hOne, hStraight.append hLast⟩

end

/-! ## Statements -/

/-- Linked code at an address in tidy instructions. Jumps go to addresses of their own at which no word is left, or
to others of some kind. No word is left at some addresses at which statements start. -/
structure Balanced (fs : Functions) (places : Std.TreeMap Nat Nat) (P : Nat → Prop) (a : Nat) (code : List Cell)
    (names : List String) (starts : List Nat) (is : List Instruction) : Prop where
  spells : Spells fs places code names is
  tidy : Tidy (fun t => Rests a is t ∨ P t) is
  starts : ∀ t ∈ starts, Rests a is t

namespace Balanced

variable {P Q : Nat → Prop} {a b rise : Nat} {code first second : List Cell} {names more : List String}
    {starts others : List Nat} {is js : List Instruction}

theorem nil : Balanced fs places P a [] [] [] [] :=
  { spells := .nil
    tidy := .nil _
    starts := nofun }

theorem append (hFirst : Balanced fs places P a first names starts is)
    (hSecond : Balanced fs places P b second more others js) (hAddress : b = a + first.length) :
    Balanced fs places P a (first ++ second) (names ++ more) (starts ++ others) (is ++ js) := by
  have hDepth := hFirst.tidy.depth
  rw [← hFirst.spells.size] at hAddress
  subst hAddress
  refine ⟨hFirst.spells.append hSecond.spells, .append ?_ ?_, ?_⟩
  · refine hFirst.tidy.mono fun t hTarget => ?_
    rcases hTarget with hRests | hOther
    · exact .inl (hRests.append js)
    · exact .inr hOther
  · refine hSecond.tidy.mono fun t hTarget => ?_
    rcases hTarget with hRests | hOther
    · exact .inl (hRests.behind hDepth)
    · exact .inr hOther
  · intro t hMem
    rcases List.mem_append.mp hMem with hMem | hMem
    · exact (hFirst.starts t hMem).append js
    · exact (hSecond.starts t hMem).behind hDepth

theorem start (h : Balanced fs places P a code names starts is) :
    Balanced fs places P a code names (a :: starts) is := by
  refine ⟨h.spells, h.tidy, fun t hMem => ?_⟩
  rcases List.mem_cons.mp hMem with rfl | hMem
  · exact rests_start t is
  · exact h.starts t hMem

theorem close (h : Balanced fs places P a code names starts is) (hTargets : ∀ t, P t → Rests a is t) :
    Balanced fs places Q a code names starts is := by
  refine ⟨h.spells, h.tidy.mono fun t hTarget => ?_, h.starts⟩
  exact .inl (hTarget.elim id (hTargets t))

theorem rests_behind (h : Balanced fs places P a code names starts is) {t : Nat} (hAddress : t = a + code.length)
    (js : List Instruction) : Rests a (is ++ js) t := by
  rw [hAddress, ← h.spells.size]
  exact rests_between h.tidy.depth a js

theorem rests_end (h : Balanced fs places P a code names starts is) {t : Nat} (hAddress : t = a + code.length) :
    Rests a is t := by
  rw [← List.append_nil is]
  exact h.rests_behind hAddress []

theorem of_tidy (hSpells : Spells fs places code names is) (hTidy : Tidy (fun t => Rests a is t ∨ P t) is) :
    Balanced fs places P a code names [a] is :=
  { spells := hSpells
    tidy := hTidy
    starts := fun _ hMem => List.mem_singleton.mp hMem ▸ rests_start a is }

/-- A value that an instruction takes away. -/
theorem consume (hSpells : Spells fs places code names is) (hStraight : Straight 1 is) {i : Instruction}
    {cells : List Cell} (hLast : Spells fs places cells [] [i]) (hTakes : i.takes = 1) (hLeaves : i.leaves = 0)
    (hPasses : i.isJump = false ∧ i.op ≠ .ret) : Balanced fs places P a (code ++ cells) names [a] (is ++ [i]) := by
  have hNone : Straight 0 (is ++ [i]) := by
    refine hStraight.concat (Nat.le_of_eq hTakes) ?_ hPasses
    rw [hTakes, hLeaves]
  refine of_tidy ?_ hNone.tidy
  rw [← List.append_nil names]
  exact hSpells.append hLast

theorem ret (hSpells : Spells fs places code names is) (hStraight : Straight 1 is) :
    Balanced fs places P a (code ++ [.op .ret]) names [a] (is ++ [.bare .ret rfl]) := by
  refine of_tidy ?_ hStraight.ret
  rw [← List.append_nil names]
  exact hSpells.append (.bare .ret rfl nofun)

theorem jump {w : Word} {t : Nat} {op : Opcode} (hSpells : Spells fs places code names is)
    (hStraight : Straight rise is) (hOperands : op.operands = 0) (hCall : op ≠ .call)
    (hTakes : (Instruction.bare op hOperands).takes = rise + 1) (hLeaves : (Instruction.bare op hOperands).leaves = 0)
    (hWord : Word.ofNat? t = some w) (hTarget : P t) :
    Balanced fs places P a (code ++ jumpCode w op) names [] (is ++ [.const w, .bare op hOperands]) := by
  refine ⟨?_, hStraight.jump hTakes hLeaves (Word.toNat?_of_ofNat? hWord) (.inr hTarget), nofun⟩
  rw [← List.append_nil names]
  exact hSpells.append ((Spells.const w).append (.bare op hOperands hCall))

/-- The code of a loop from its test on, with that of a step behind the body. -/
theorem loop {test body step : List Cell} {onTest inBody inStep : List String} {bodyStarts stepStarts : List Nat}
    {ts bs ss : List Instruction} {leave again : Word} (hTest : Spells fs places test onTest ts)
    (hStraight : Straight 1 ts)
    (hBody : ∀ P, Balanced fs places P (a + test.length + 3) body inBody bodyStarts bs)
    (hStep : ∀ P, Balanced fs places P (a + test.length + 3 + body.length) step inStep stepStarts ss)
    (hLeave : Word.ofNat? (a + test.length + 3 + body.length + step.length + 3) = some leave)
    (hAgain : Word.ofNat? a = some again) :
    ∃ is, ∀ P, Balanced fs places P a (test ++ jumpCode leave .jmpf ++ body ++ step ++ jumpCode again .jmp)
      (onTest ++ inBody ++ inStep) (bodyStarts ++ stepStarts) is := by
  let Q : Nat → Prop := fun t => t = a + test.length + 3 + body.length + step.length + 3 ∨ t = a
  have hHead : Balanced fs places Q a (test ++ jumpCode leave .jmpf) onTest [] _ :=
    .jump hTest hStraight rfl nofun rfl rfl hLeave (.inl rfl)
  have hBack : Balanced fs places Q (a + test.length + 3 + body.length + step.length) (jumpCode again .jmp) [] [] _ :=
    .jump .nil .nil rfl nofun rfl rfl hAgain (.inr rfl)
  have hRound := hHead.append (hBody Q) (by simp only [List.length_append, length_jumpCode]; omega)
  have hFront := hRound.append (hStep Q) (by simp only [List.length_append, length_jumpCode]; omega)
  have hAll := hFront.append hBack (by simp only [List.length_append, length_jumpCode]; omega)
  simp only [List.append_nil, List.nil_append] at hAll
  refine ⟨_, fun P => hAll.close ?_⟩
  rintro t (hEnd | rfl)
  · exact hAll.rests_end (by simp only [List.length_append, length_jumpCode]; omega)
  · exact rests_start _ _

end Balanced

mutual

theorem Stmt.HasCode.balanced (hPlaced : fs.Placed places) {v : Variables} {a : Nat} {s : Stmt} {code : List Cell}
    (h : s.HasCode fs v a code) : ∃ is, ∀ P, Balanced fs places P a code s.callees (s.starts a) is := by
  cases h with
  | @own _ _ _ _ _ _ w span hValue hSlot hWord =>
    obtain ⟨is, hSpells, hStraight⟩ := hValue.straight hPlaced
    have hStore : Spells fs places [.op .store, .int w] [] [⟨.store, [w], rfl⟩] := ⟨rfl, rfl⟩
    exact ⟨_, fun P => .consume hSpells hStraight hStore rfl rfl ⟨rfl, nofun⟩⟩
  | @global _ _ _ _ _ _ w span hValue hSlot hWord =>
    obtain ⟨is, hSpells, hStraight⟩ := hValue.straight hPlaced
    have hStore : Spells fs places [.op .gstore, .int w] [] [⟨.gstore, [w], rfl⟩] := ⟨rfl, rfl⟩
    exact ⟨_, fun P => .consume hSpells hStraight hStore rfl rfl ⟨rfl, nofun⟩⟩
  | expr span hValue =>
    obtain ⟨is, hSpells, hStraight⟩ := hValue.straight hPlaced
    exact ⟨_, fun P => .consume hSpells hStraight (.bare .pop rfl nofun) rfl rfl ⟨rfl, nofun⟩⟩
  | print span hValue =>
    obtain ⟨is, hSpells, hStraight⟩ := hValue.straight hPlaced
    exact ⟨_, fun P => .consume hSpells hStraight (.bare .print rfl nofun) rfl rfl ⟨rfl, nofun⟩⟩
  | function span name params body => exact ⟨[], fun P => .nil⟩
  | ret span hOpen => exact ⟨_, fun P => .ret (.const (-1)) (.const (-1))⟩
  | retValue span hOpen hValue =>
    obtain ⟨is, hSpells, hStraight⟩ := hValue.straight hPlaced
    exact ⟨_, fun P => .ret hSpells hStraight⟩
  | @when _ _ _ _ test code skip span hTest hYes hSkip =>
    obtain ⟨ts, hSpells, hStraight⟩ := hTest.straight hPlaced
    obtain ⟨ys, hBlock⟩ := hYes.balanced hPlaced
    have hHead : Balanced fs places (· = a + test.length + 3 + code.length) a (test ++ jumpCode skip .jmpf) _ [] _ :=
      .jump hSpells hStraight rfl nofun rfl rfl hSkip rfl
    have hAll := (hHead.append (hBlock _) (by simp only [List.length_append, length_jumpCode]; omega)).start
    simp only [Stmt.callees, Stmt.starts, Stmt.blockCallees, Stmt.blockStarts, List.append_nil, ← hTest.length_eq]
    refine ⟨_, fun P => hAll.close fun t hEnd => ?_⟩
    exact hAll.rests_end (by simp only [List.length_append, length_jumpCode]; omega)
  | @branch _ _ _ _ _ test yesCode noCode skip leave span hElse hTest hYes hNo hSkip hLeave =>
    obtain ⟨ts, hSpells, hStraight⟩ := hTest.straight hPlaced
    obtain ⟨ys, hFirst⟩ := hYes.balanced hPlaced
    obtain ⟨ns, hSecond⟩ := hNo.balanced hPlaced
    let Q : Nat → Prop := fun t => t = a + test.length + 3 + yesCode.length + 3 ∨
      t = a + test.length + 3 + yesCode.length + 3 + noCode.length
    have hHead : Balanced fs places Q a (test ++ jumpCode skip .jmpf) _ [] _ :=
      .jump hSpells hStraight rfl nofun rfl rfl hSkip (.inl rfl)
    have hExit : Balanced fs places Q (a + test.length + 3 + yesCode.length) (jumpCode leave .jmp) [] [] _ :=
      .jump .nil .nil rfl nofun rfl rfl hLeave (.inr rfl)
    have hBranch := hHead.append (hFirst Q) (by simp only [List.length_append, length_jumpCode]; omega)
    have hFront := hBranch.append hExit (by simp only [List.length_append, length_jumpCode]; omega)
    have hAll := (hFront.append (hSecond Q) (by simp only [List.length_append, length_jumpCode]; omega)).start
    simp only [List.append_nil, List.nil_append] at hAll
    simp only [Stmt.callees, Stmt.starts, ← hTest.length_eq, ← hYes.length_eq]
    refine ⟨_, fun P => hAll.close ?_⟩
    rintro t (hSkip | hLeave)
    · exact hFront.rests_behind (by simp only [List.length_append, length_jumpCode]; omega) ns
    · exact hAll.rests_end (by simp only [List.length_append, length_jumpCode]; omega)
  | whileLoop span hTest hBody hLeave hAgain =>
    obtain ⟨ts, hSpells, hStraight⟩ := hTest.straight hPlaced
    obtain ⟨bs, hBlock⟩ := hBody.balanced hPlaced
    obtain ⟨is, hLoop⟩ := Balanced.loop hSpells hStraight hBlock (fun P => .nil) hLeave hAgain
    refine ⟨is, fun P => ?_⟩
    rw [Stmt.callees, Stmt.starts, ← hTest.length_eq]
    have hStart := (hLoop P).start
    simpa only [List.append_nil] using hStart
  | forLoop span hInit hTest hBody hStep hLeave hAgain =>
    obtain ⟨fs, hFirst⟩ := hInit.balanced hPlaced
    obtain ⟨ts, hSpells, hStraight⟩ := hTest.straight hPlaced
    obtain ⟨bs, hBlock⟩ := hBody.balanced hPlaced
    obtain ⟨ss, hLast⟩ := hStep.balanced hPlaced
    obtain ⟨is, hLoop⟩ := Balanced.loop hSpells hStraight hBlock hLast hLeave hAgain
    refine ⟨fs ++ is, fun P => ?_⟩
    rw [Stmt.callees, Stmt.starts, ← hInit.length_eq, ← hTest.length_eq, ← hBody.length_eq]
    have hStart := ((hFirst P).append (hLoop P) rfl).start
    simpa only [List.append_assoc, List.cons_append] using hStart

theorem Stmt.BlockHasCode.balanced (hPlaced : fs.Placed places) {v : Variables} {a : Nat} {body : List Stmt}
    {code : List Cell} (h : Stmt.BlockHasCode fs v a body code) :
    ∃ is, ∀ P, Balanced fs places P a code (Stmt.blockCallees body) (Stmt.blockStarts a body) is := by
  cases h with
  | nil => exact ⟨[], fun P => .nil⟩
  | cons hFirst hLater =>
    obtain ⟨is, hStmt⟩ := hFirst.balanced hPlaced
    obtain ⟨js, hRest⟩ := hLater.balanced hPlaced
    refine ⟨is ++ js, fun P => ?_⟩
    rw [Stmt.blockCallees, Stmt.blockStarts, ← hFirst.length_eq]
    exact (hStmt P).append (hRest P) rfl

end

end

end Vee
