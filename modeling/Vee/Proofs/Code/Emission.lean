import Vee.Listing.Generate
import Vee.Proofs.Code.Variables
import Vee.Proofs.Effect

/-! # Code of programs without errors

Which code stands for a phrase when no error is found, given the table of variables in front of it. The relations
have one rule for each shape of code and leave the bookkeeping of errors out. Main statement: what generation
gives without an error is related to its source, and the table behind it is the one in front with the assigned
names added.
-/

namespace Vee

set_option autoImplicit false

/-- The code that goes to the address of a word. -/
def jumpCode (w : Word) (op : Opcode) : List Cell := [.op .const, .int w, .op op]

@[simp] theorem length_jumpCode (w : Word) (op : Opcode) : (jumpCode w op).length = 3 := rfl

mutual

inductive Expr.HasCode (fs : Functions) (v : Variables) : Expr → List Cell → Prop
  | int (span : Span) (n : Word) : HasCode fs v (.int span n) [.op .const, .int n]
  | own {name : String} {offset : Int} {w : Word} (span : Span) (hSlot : v.resolve name = some (.frame offset))
      (hWord : Word.ofInt? offset = some w) : HasCode fs v (.var span name) [.op .const, .int w, .op .load]
  | global {name : String} {i : Nat} {w : Word} (span : Span) (hSlot : v.resolve name = some (.global i))
      (hWord : Word.ofNat? i = some w) : HasCode fs v (.var span name) [.op .const, .int w, .op .gload]
  | call {name : String} {f : Function} {args : List Expr} {code : List Cell} {arity locals : Word} (span : Span)
      (hFind : fs.find? name = some f) (hArity : f.arity = args.length) (hArgs : Expr.ArgsHaveCode fs v args code)
      (hArityWord : Word.ofNat? f.arity = some arity) (hLocals : Word.ofNat? f.locals = some locals) :
      HasCode fs v (.call span name args) (code ++ [.op .call, .symbol f.symbol, .int arity, .int locals])
  | unary {op : UnaryOp} {e : Expr} {code : List Cell} (span : Span) (hOperand : HasCode fs v e code) :
      HasCode fs v (.unary op span e) (code ++ [.op op.opcode])
  | binary {op : BinaryOp} {l r : Expr} {left right : List Cell} (span : Span) (hLeft : HasCode fs v l left)
      (hRight : HasCode fs v r right) :
      HasCode fs v (.binary op span l r) (left ++ right ++ op.opcodes.map Cell.op)

inductive Expr.ArgsHaveCode (fs : Functions) (v : Variables) : List Expr → List Cell → Prop
  | nil : ArgsHaveCode fs v [] []
  | cons {e : Expr} {rest : List Expr} {code later : List Cell} (hLater : ArgsHaveCode fs v rest later)
      (hFirst : Expr.HasCode fs v e code) : ArgsHaveCode fs v (e :: rest) (later ++ code)

end

mutual

inductive Stmt.HasCode (fs : Functions) : Variables → Nat → Stmt → List Cell → Prop
  | own {v : Variables} {a : Nat} {name : String} {e : Expr} {value : List Cell} {offset : Int} {w : Word}
      (span : Span) (hValue : Expr.HasCode fs v e value) (hSlot : (v.assign name).1 = .frame offset)
      (hWord : Word.ofInt? offset = some w) : HasCode fs v a (.assign span name e) (value ++ [.op .store, .int w])
  | global {v : Variables} {a : Nat} {name : String} {e : Expr} {value : List Cell} {i : Nat} {w : Word}
      (span : Span) (hValue : Expr.HasCode fs v e value) (hSlot : (v.assign name).1 = .global i)
      (hWord : Word.ofNat? i = some w) : HasCode fs v a (.assign span name e) (value ++ [.op .gstore, .int w])
  | expr {v : Variables} {a : Nat} {e : Expr} {value : List Cell} (span : Span)
      (hValue : Expr.HasCode fs v e value) : HasCode fs v a (.expr span e) (value ++ [.op .pop])
  | print {v : Variables} {a : Nat} {e : Expr} {value : List Cell} (span : Span)
      (hValue : Expr.HasCode fs v e value) : HasCode fs v a (.print span e) (value ++ [.op .print])
  | function {v : Variables} {a : Nat} (span : Span) (name : String) (params : List String) (body : List Stmt) :
      HasCode fs v a (.function span name params body) []
  | ret {v : Variables} {a : Nat} (span : Span) (hOpen : v.inFunction = true) :
      HasCode fs v a (.ret span none) [.op .const, .int (-1), .op .ret]
  | retValue {v : Variables} {a : Nat} {e : Expr} {value : List Cell} (span : Span) (hOpen : v.inFunction = true)
      (hValue : Expr.HasCode fs v e value) : HasCode fs v a (.ret span (some e)) (value ++ [.op .ret])
  | when {v : Variables} {a : Nat} {c : Expr} {yes : List Stmt} {test code : List Cell} {skip : Word} (span : Span)
      (hTest : Expr.HasCode fs v c test) (hYes : Stmt.BlockHasCode fs v (a + test.length + 3) yes code)
      (hSkip : Word.ofNat? (a + test.length + 3 + code.length) = some skip) :
      HasCode fs v a (.branch span c yes []) (test ++ jumpCode skip .jmpf ++ code)
  | branch {v : Variables} {a : Nat} {c : Expr} {yes no : List Stmt} {test yesCode noCode : List Cell}
      {skip leave : Word} (span : Span) (hElse : no ≠ []) (hTest : Expr.HasCode fs v c test)
      (hYes : Stmt.BlockHasCode fs v (a + test.length + 3) yes yesCode)
      (hNo : Stmt.BlockHasCode fs (v.assignAll (Stmt.blockTargets yes))
        (a + test.length + 3 + yesCode.length + 3) no noCode)
      (hSkip : Word.ofNat? (a + test.length + 3 + yesCode.length + 3) = some skip)
      (hLeave : Word.ofNat? (a + test.length + 3 + yesCode.length + 3 + noCode.length) = some leave) :
      HasCode fs v a (.branch span c yes no)
        (test ++ jumpCode skip .jmpf ++ yesCode ++ jumpCode leave .jmp ++ noCode)
  | whileLoop {v : Variables} {a : Nat} {c : Expr} {body : List Stmt} {test code : List Cell} {leave again : Word}
      (span : Span) (hTest : Expr.HasCode fs v c test)
      (hBody : Stmt.BlockHasCode fs v (a + test.length + 3) body code)
      (hLeave : Word.ofNat? (a + test.length + 3 + code.length + 3) = some leave)
      (hAgain : Word.ofNat? a = some again) :
      HasCode fs v a (.whileLoop span c body) (test ++ jumpCode leave .jmpf ++ code ++ jumpCode again .jmp)
  | forLoop {v : Variables} {a : Nat} {init step : Stmt} {c : Expr} {body : List Stmt}
      {initCode test code stepCode : List Cell} {leave again : Word} (span : Span)
      (hInit : HasCode fs v a init initCode) (hTest : Expr.HasCode fs (v.assignAll init.targets) c test)
      (hBody : Stmt.BlockHasCode fs (v.assignAll init.targets) (a + initCode.length + test.length + 3) body code)
      (hStep : HasCode fs ((v.assignAll init.targets).assignAll (Stmt.blockTargets body))
        (a + initCode.length + test.length + 3 + code.length) step stepCode)
      (hLeave : Word.ofNat? (a + initCode.length + test.length + 3 + code.length + stepCode.length + 3) =
        some leave)
      (hAgain : Word.ofNat? (a + initCode.length) = some again) :
      HasCode fs v a (.forLoop span init c step body)
        (initCode ++ test ++ jumpCode leave .jmpf ++ code ++ stepCode ++ jumpCode again .jmp)

inductive Stmt.BlockHasCode (fs : Functions) : Variables → Nat → List Stmt → List Cell → Prop
  | nil (v : Variables) (a : Nat) : BlockHasCode fs v a [] []
  | cons {v : Variables} {a : Nat} {s : Stmt} {rest : List Stmt} {code later : List Cell}
      (hFirst : Stmt.HasCode fs v a s code)
      (hLater : BlockHasCode fs (v.assignAll s.targets) (a + code.length) rest later) :
      BlockHasCode fs v a (s :: rest) (code ++ later)

end

/-- The code of a loop from its condition on, with the statements that follow the body in each round. -/
inductive Stmt.LoopHasCode (fs : Functions) (v : Variables) (a : Nat) (c : Expr) (body step : List Stmt) :
    List Cell → Prop
  | mk {test code stepCode : List Cell} {leave again : Word} (hTest : c.HasCode fs v test)
      (hBody : Stmt.BlockHasCode fs v (a + test.length + 3) body code)
      (hStep : Stmt.BlockHasCode fs (v.assignAll (Stmt.blockTargets body)) (a + test.length + 3 + code.length) step
        stepCode)
      (hLeave : Word.ofNat? (a + test.length + 3 + code.length + stepCode.length + 3) = some leave)
      (hAgain : Word.ofNat? a = some again) :
      LoopHasCode fs v a c body step
        (test ++ jumpCode leave .jmpf ++ code ++ stepCode ++ jumpCode again .jmp)

theorem Stmt.HasCode.loop_of_while {fs : Functions} {v : Variables} {a : Nat} {span : Span} {c : Expr}
    {body : List Stmt} {code : List Cell} (h : Stmt.HasCode fs v a (.whileLoop span c body) code) :
    Stmt.LoopHasCode fs v a c body [] code := by
  cases h with
  | @whileLoop _ _ _ _ test code leave again _ hTest hBody hLeave hAgain =>
    have hLoop := Stmt.LoopHasCode.mk hTest hBody (.nil _ _) hLeave hAgain
    rwa [List.append_nil] at hLoop

theorem Stmt.HasCode.loop_of_for {fs : Functions} {v : Variables} {a : Nat} {span : Span} {init step : Stmt}
    {c : Expr} {body : List Stmt} {code : List Cell}
    (h : Stmt.HasCode fs v a (.forLoop span init c step body) code) :
    ∃ initCode rest, code = initCode ++ rest ∧ Stmt.HasCode fs v a init initCode ∧
      Stmt.LoopHasCode fs (v.assignAll init.targets) (a + initCode.length) c body [step] rest := by
  cases h with
  | @forLoop _ _ _ _ _ _ initCode test code stepCode leave again _ hInit hTest hBody hStep hLeave hAgain =>
    have hOnce := Stmt.BlockHasCode.cons hStep (.nil _ _)
    rw [List.append_nil] at hOnce
    refine ⟨initCode, _, ?_, hInit, .mk hTest hBody hOnce hLeave hAgain⟩
    simp only [List.append_assoc]

/-- A return has code. -/
theorem Stmt.BlockHasCode.length_pos {fs : Functions} {v : Variables} {a : Nat} {body : List Stmt}
    {code : List Cell} (h : Stmt.BlockHasCode fs v a body code)
    (hReturn : body.getLast?.any Stmt.isReturn = true) : 0 < code.length := by
  induction body generalizing v a code with
  | nil => cases hReturn
  | cons s rest ih =>
    cases h with
    | cons hFirst hLater =>
      rw [List.length_append]
      cases rest with
      | nil =>
        refine Nat.lt_of_lt_of_le ?_ (Nat.le_add_right ..)
        cases hFirst with
        | ret span hOpen => exact Nat.zero_lt_succ 2
        | retValue span hOpen hValue => simp
        | _ => cases hReturn
      | cons s' rest =>
        have hPos := ih hLater (by simpa using hReturn)
        omega

/-! ## Slots -/

namespace Slot

variable {slot : Slot} {code : List Cell}

theorem loadCode?_cases (h : slot.loadCode? = some code) :
    (∃ offset w, slot = .frame offset ∧ Word.ofInt? offset = some w ∧ code = [.op .const, .int w, .op .load]) ∨
      ∃ i w, slot = .global i ∧ Word.ofNat? i = some w ∧ code = [.op .const, .int w, .op .gload] := by
  cases slot with
  | frame offset =>
    obtain ⟨w, hWord, hCode⟩ := Option.bind_eq_some_iff.mp h
    cases hCode
    exact .inl ⟨offset, w, rfl, hWord, rfl⟩
  | global i =>
    obtain ⟨w, hWord, hCode⟩ := Option.bind_eq_some_iff.mp h
    cases hCode
    exact .inr ⟨i, w, rfl, hWord, rfl⟩

theorem storeCode_cases {span : Span} (h : slot.storeCode span = .ok code) :
    (∃ offset w, slot = .frame offset ∧ Word.ofInt? offset = some w ∧ code = [.op .store, .int w]) ∨
      ∃ i w, slot = .global i ∧ Word.ofNat? i = some w ∧ code = [.op .gstore, .int w] := by
  cases slot with
  | frame offset =>
    rw [storeCode] at h
    split at h
    · rename_i w hWord
      cases h
      exact .inl ⟨offset, w, rfl, hWord, rfl⟩
    · cases h
  | global i =>
    rw [storeCode] at h
    split at h
    · rename_i w hWord
      cases h
      exact .inr ⟨i, w, rfl, hWord, rfl⟩
    · cases h

end Slot

/-! ## Expressions -/

section

variable {fs : Functions} {v : Variables}

mutual

theorem Expr.hasCode_of_code {e : Expr} {code : List Cell} (h : e.code fs v = .ok code) : e.HasCode fs v code := by
  cases e with
  | int span n =>
    cases h
    exact .int span n
  | var span name =>
    rw [Expr.code] at h
    split at h
    · cases h
    · rename_i slot hSlot
      split at h
      · rename_i load hLoad
        cases h
        rcases Slot.loadCode?_cases hLoad with ⟨offset, w, rfl, hWord, rfl⟩ | ⟨i, w, rfl, hWord, rfl⟩
        · exact .own span hSlot hWord
        · exact .global span hSlot hWord
      · cases h
  | call span name args =>
    rw [Expr.code] at h
    split at h
    · cases h
    · rename_i f hFind
      split at h
      · rename_i hArity
        obtain ⟨argsCode, hArgs, h⟩ := Effect.exists_of_except_bind h
        split at h
        · rename_i arity locals hArityWord hLocals
          cases h
          exact .call span hFind hArity (Expr.argsHaveCode_of_argsCode hArgs) hArityWord hLocals
        · cases h
      · cases h
  | unary op span a =>
    rw [Expr.code] at h
    obtain ⟨operand, hOperand, h⟩ := Effect.exists_of_except_bind h
    cases h
    exact .unary span (Expr.hasCode_of_code hOperand)
  | binary op span l r =>
    rw [Expr.code] at h
    obtain ⟨left, hLeft, h⟩ := Effect.exists_of_except_bind h
    obtain ⟨right, hRight, h⟩ := Effect.exists_of_except_bind h
    cases h
    exact .binary span (Expr.hasCode_of_code hLeft) (Expr.hasCode_of_code hRight)

theorem Expr.argsHaveCode_of_argsCode {es : List Expr} {code : List Cell}
    (h : Expr.argsCode fs v es = .ok code) : Expr.ArgsHaveCode fs v es code := by
  cases es with
  | nil =>
    cases h
    exact .nil
  | cons e rest =>
    rw [Expr.argsCode] at h
    obtain ⟨later, hLater, h⟩ := Effect.exists_of_except_bind h
    obtain ⟨first, hFirst, h⟩ := Effect.exists_of_except_bind h
    cases h
    exact .cons (Expr.argsHaveCode_of_argsCode hLater) (Expr.hasCode_of_code hFirst)

end

end

/-! ## Errors stay -/

section

variable {fs : Functions}

open Effect

theorem Gen.appends_expr (e : Expr) : Appends Scope.errors (Gen.expr fs e) := by
  intro scope
  rw [Gen.expr]
  split <;> exact List.prefix_rfl

theorem Gen.appends_assign (name : String) : Appends Scope.errors (Gen.assign name) := fun _ => List.prefix_rfl

theorem Gen.appends_jump (target : Nat) (op : Opcode) : Appends Scope.errors (Gen.jump target op) := by
  refine Appends.bind ?_ fun _ => appends_pure _
  rw [Gen.address]
  split
  · exact appends_pure _
  · exact appends_throw _

theorem Gen.appends_jumps {α : Type} {a b : Nat} {op op' : Opcode} {f : List Cell → List Cell → α} :
    Appends Scope.errors (do
      let first ← Gen.jump a op
      let second ← Gen.jump b op'
      return f first second) :=
  (Gen.appends_jump a op).bind fun _ => (Gen.appends_jump b op').bind fun _ => appends_pure _

mutual

theorem Stmt.appends_code (a : Nat) (s : Stmt) : Appends Scope.errors (Stmt.code fs a s) := by
  cases s with
  | assign span name e =>
    rw [Stmt.code]
    refine (Gen.appends_expr e).bind fun value => (Gen.appends_assign name).bind fun slot => ?_
    split
    · exact appends_pure _
    · exact appends_throw _
  | expr span e => exact (Gen.appends_expr e).bind fun _ => appends_pure _
  | print span e => exact (Gen.appends_expr e).bind fun _ => appends_pure _
  | function span name params body => exact appends_pure _
  | ret span value =>
    cases value with
    | none =>
      refine appends_get.bind fun scope => ?_
      split
      · exact appends_pure _
      · exact appends_throw _
    | some e =>
      refine appends_get.bind fun scope => ?_
      split
      · exact (Gen.appends_expr e).bind fun _ => appends_pure _
      · exact appends_throw _
  | branch span c yes no =>
    rw [Stmt.code]
    refine (Gen.appends_expr c).bind fun test => ?_
    refine (appends_modifyGet fun scope => Stmt.errors_blockCode _ yes scope).bind fun yesCode => ?_
    split
    · exact (Gen.appends_jump _ _).bind fun _ => appends_pure _
    · refine (appends_modifyGet fun scope => Stmt.errors_blockCode _ no scope).bind fun noCode => ?_
      exact Gen.appends_jumps
  | whileLoop span c body =>
    rw [Stmt.code]
    refine (Gen.appends_expr c).bind fun test => ?_
    refine (appends_modifyGet fun scope => Stmt.errors_blockCode _ body scope).bind fun code => ?_
    exact Gen.appends_jumps
  | forLoop span init c step body =>
    rw [Stmt.code]
    refine (Stmt.appends_code a init).bind fun initCode => (Gen.appends_expr c).bind fun test => ?_
    refine (appends_modifyGet fun scope => Stmt.errors_blockCode _ body scope).bind fun code => ?_
    refine (Stmt.appends_code _ step).bind fun stepCode => ?_
    exact Gen.appends_jumps

theorem Stmt.errors_blockCode (a : Nat) (body : List Stmt) (scope : Scope) :
    scope.errors <+: (Stmt.blockCode fs a body scope).2.errors := by
  cases body with
  | nil => exact List.prefix_rfl
  | cons s rest =>
    have hFirst := Stmt.appends_code a s scope
    rw [Stmt.blockCode]
    cases hCode : Stmt.code fs a s scope with
    | ok code later =>
      rw [hCode] at hFirst
      exact hFirst.trans (Stmt.errors_blockCode _ rest later)
    | error e later =>
      rw [hCode] at hFirst
      have hError : later.errors <+: later.errors ++ [e] := List.prefix_append _ _
      exact (hFirst.trans hError).trans (Stmt.errors_blockCode a rest { later with errors := later.errors ++ [e] })

end

theorem Stmt.no_errors_before_block {a : Nat} {body : List Stmt} {code : List Cell} {scope later : Scope}
    (h : Stmt.blockCode fs a body scope = (code, later)) (hErrors : later.errors = []) : scope.errors = [] := by
  have hPrefix : scope.errors <+: (Stmt.blockCode fs a body scope).2.errors := Stmt.errors_blockCode a body scope
  rw [h] at hPrefix
  exact List.prefix_nil.mp (hErrors ▸ hPrefix)

theorem Stmt.no_errors_before {a : Nat} {s : Stmt} {code : List Cell} {scope later : Scope}
    (h : Stmt.code fs a s scope = .ok code later) (hErrors : later.errors = []) : scope.errors = [] := by
  have hPrefix : scope.errors <+: (state (Stmt.code fs a s scope)).errors := Stmt.appends_code a s scope
  rw [h] at hPrefix
  exact List.prefix_nil.mp (hErrors ▸ hPrefix)

end

/-! ## Statements -/

section

variable {fs : Functions}

open Effect

theorem Gen.exists_of_expr_bind {α : Type} {e : Expr} {f : List Cell → Gen α} {result : α} {scope later : Scope}
    (h : (Gen.expr fs e >>= f) scope = .ok result later) :
    ∃ code, e.HasCode fs scope.vars code ∧ f code scope = .ok result later := by
  obtain ⟨code, mid, hFirst, h⟩ := exists_of_bind_ok h
  cases hCode : e.code fs scope.vars with
  | error e =>
    simp only [Gen.expr, hCode] at hFirst
    cases hFirst
  | ok cells =>
    simp only [Gen.expr, hCode] at hFirst
    cases hFirst
    exact ⟨code, Expr.hasCode_of_code hCode, h⟩

theorem Gen.exists_of_jump_bind {α : Type} {target : Nat} {op : Opcode} {f : List Cell → Gen α} {result : α}
    {scope later : Scope} (h : (Gen.jump target op >>= f) scope = .ok result later) :
    ∃ w, Word.ofNat? target = some w ∧ f (jumpCode w op) scope = .ok result later := by
  obtain ⟨code, mid, hFirst, h⟩ := exists_of_bind_ok h
  obtain ⟨cell, mid, hCell, hFirst⟩ := exists_of_bind_ok hFirst
  cases hFirst
  cases hWord : Word.ofNat? target with
  | none =>
    simp only [Gen.address, hWord] at hCell
    cases hCell
  | some w =>
    simp only [Gen.address, hWord] at hCell
    cases hCell
    exact ⟨w, rfl, h⟩

theorem Gen.assign_ok {name : String} {slot : Slot} {scope later : Scope}
    (h : Gen.assign name scope = .ok slot later) :
    slot = (scope.vars.assign name).1 ∧ later = { scope with vars := (scope.vars.assign name).2 } := by
  rw [Gen.assign] at h
  injection h with hSlot hLater
  exact ⟨hSlot.symm, hLater.symm⟩

mutual

theorem Stmt.hasCode_of_code {a : Nat} {s : Stmt} {code : List Cell} {scope later : Scope}
    (h : Stmt.code fs a s scope = .ok code later) (hErrors : later.errors = []) :
    later.vars = scope.vars.assignAll s.targets ∧ s.HasCode fs scope.vars a code := by
  cases s with
  | assign span name e =>
    rw [Stmt.code] at h
    obtain ⟨value, hValue, h⟩ := Gen.exists_of_expr_bind h
    obtain ⟨slot, mid, hSlot, h⟩ := exists_of_bind_ok h
    obtain ⟨rfl, rfl⟩ := Gen.assign_ok hSlot
    cases hStore : (scope.vars.assign name).1.storeCode span with
    | error e =>
      simp only [hStore] at h
      cases h
    | ok store =>
      simp only [hStore] at h
      cases h
      rcases Slot.storeCode_cases hStore with ⟨offset, w, hFrame, hWord, rfl⟩ | ⟨i, w, hGlobal, hWord, rfl⟩
      · exact ⟨rfl, .own span hValue hFrame hWord⟩
      · exact ⟨rfl, .global span hValue hGlobal hWord⟩
  | expr span e =>
    rw [Stmt.code] at h
    obtain ⟨value, hValue, h⟩ := Gen.exists_of_expr_bind h
    cases h
    exact ⟨rfl, .expr span hValue⟩
  | print span e =>
    rw [Stmt.code] at h
    obtain ⟨value, hValue, h⟩ := Gen.exists_of_expr_bind h
    cases h
    exact ⟨rfl, .print span hValue⟩
  | function span name params body =>
    cases h
    exact ⟨rfl, .function span name params body⟩
  | ret span value =>
    cases value with
    | none =>
      rw [Stmt.code] at h
      obtain ⟨current, mid, hGet, h⟩ := exists_of_bind_ok h
      cases hGet
      split at h
      · rename_i hOpen
        cases h
        exact ⟨rfl, .ret span hOpen⟩
      · cases h
    | some e =>
      rw [Stmt.code] at h
      obtain ⟨current, mid, hGet, h⟩ := exists_of_bind_ok h
      cases hGet
      split at h
      · rename_i hOpen
        obtain ⟨value, hValue, h⟩ := Gen.exists_of_expr_bind h
        cases h
        exact ⟨rfl, .retValue span hOpen hValue⟩
      · cases h
  | branch span c yes no =>
    rw [Stmt.code] at h
    obtain ⟨test, hTest, h⟩ := Gen.exists_of_expr_bind h
    obtain ⟨yesCode, behindYes, hYesRun, h⟩ := exists_of_modifyGet_bind h
    split at h
    · rename_i hEmpty
      obtain ⟨skip, hSkip, h⟩ := Gen.exists_of_jump_bind h
      cases h
      obtain ⟨hVars, hYes⟩ := Stmt.blockHasCode_of_blockCode hYesRun hErrors
      obtain rfl := List.isEmpty_iff.mp hEmpty
      refine ⟨?_, .when span hTest hYes hSkip⟩
      rw [hVars, Stmt.targets, Stmt.blockTargets, List.append_nil]
    · rename_i hElse
      obtain ⟨noCode, behindNo, hNoRun, h⟩ := exists_of_modifyGet_bind h
      obtain ⟨skip, hSkip, h⟩ := Gen.exists_of_jump_bind h
      obtain ⟨leave, hLeave, h⟩ := Gen.exists_of_jump_bind h
      cases h
      obtain ⟨hVars, hNo⟩ := Stmt.blockHasCode_of_blockCode hNoRun hErrors
      obtain ⟨hYesVars, hYes⟩ :=
        Stmt.blockHasCode_of_blockCode hYesRun (Stmt.no_errors_before_block hNoRun hErrors)
      rw [hYesVars] at hVars hNo
      refine ⟨?_, .branch span (by simpa using hElse) hTest hYes hNo hSkip hLeave⟩
      rw [hVars, Stmt.targets, Variables.assignAll_append]
  | whileLoop span c body =>
    rw [Stmt.code] at h
    obtain ⟨test, hTest, h⟩ := Gen.exists_of_expr_bind h
    obtain ⟨code, behindBody, hBodyRun, h⟩ := exists_of_modifyGet_bind h
    obtain ⟨leave, hLeave, h⟩ := Gen.exists_of_jump_bind h
    obtain ⟨again, hAgain, h⟩ := Gen.exists_of_jump_bind h
    cases h
    obtain ⟨hVars, hBody⟩ := Stmt.blockHasCode_of_blockCode hBodyRun hErrors
    exact ⟨hVars, .whileLoop span hTest hBody hLeave hAgain⟩
  | forLoop span init c step body =>
    rw [Stmt.code] at h
    obtain ⟨initCode, afterInit, hInit, h⟩ := exists_of_bind_ok h
    obtain ⟨test, hTest, h⟩ := Gen.exists_of_expr_bind h
    obtain ⟨code, behindBody, hBodyRun, h⟩ := exists_of_modifyGet_bind h
    obtain ⟨stepCode, mid, hStep, h⟩ := exists_of_bind_ok h
    obtain ⟨leave, hLeave, h⟩ := Gen.exists_of_jump_bind h
    obtain ⟨again, hAgain, h⟩ := Gen.exists_of_jump_bind h
    cases h
    -- Errors are found backwards: there are none behind the step, so there were none before.
    obtain ⟨hStepVars, hStepCode⟩ := Stmt.hasCode_of_code hStep hErrors
    have hBehindBody := Stmt.no_errors_before hStep hErrors
    obtain ⟨hBodyVars, hBody⟩ := Stmt.blockHasCode_of_blockCode hBodyRun hBehindBody
    obtain ⟨hInitVars, hInit⟩ := Stmt.hasCode_of_code hInit (Stmt.no_errors_before_block hBodyRun hBehindBody)
    rw [hBodyVars, hInitVars] at hStepVars hStepCode
    rw [hInitVars] at hTest hBody
    refine ⟨?_, .forLoop span hInit hTest hBody hStepCode hLeave hAgain⟩
    rw [hStepVars, Stmt.targets, Variables.assignAll_append, Variables.assignAll_append]

theorem Stmt.blockHasCode_of_blockCode {a : Nat} {body : List Stmt} {code : List Cell} {scope later : Scope}
    (h : Stmt.blockCode fs a body scope = (code, later)) (hErrors : later.errors = []) :
    later.vars = scope.vars.assignAll (Stmt.blockTargets body) ∧
      Stmt.BlockHasCode fs scope.vars a body code := by
  cases body with
  | nil =>
    cases h
    exact ⟨rfl, .nil _ a⟩
  | cons s rest =>
    rw [Stmt.blockCode] at h
    split at h
    · rename_i first mid hFirst
      cases hRest : Stmt.blockCode fs (a + first.length) rest mid with
      | mk restCode behind =>
      rw [hRest] at h
      cases h
      have hBefore := Stmt.no_errors_before_block hRest hErrors
      obtain ⟨hVars, hRest⟩ := Stmt.blockHasCode_of_blockCode hRest hErrors
      obtain ⟨hFirstVars, hFirst⟩ := Stmt.hasCode_of_code hFirst hBefore
      rw [hFirstVars] at hVars hRest
      refine ⟨?_, .cons hFirst hRest⟩
      rw [hVars, Stmt.blockTargets, Variables.assignAll_append]
    · rename_i e mid hFirst
      have hBefore : mid.errors ++ [e] = [] := Stmt.no_errors_before_block h hErrors
      simp at hBefore

end

end

end Vee
