import Vee.Proofs.Code.Balance
import Vee.Proofs.Code.Scope

/-! # Accesses that have code

An access fits if the table of variables in front of it has a slot for it that a word can number, or the functions
have one that it can call. Statements have code exactly if all their accesses fit, as long as addresses are words too,
and generation then finds this code and no error.
-/

namespace Vee

set_option autoImplicit false

open Access

theorem Word.exists_ofInt?_iff {n : Int} : (∃ w, Word.ofInt? n = some w) ↔ -2147483648 ≤ n ∧ n ≤ 2147483647 := by
  simp only [Word.ofInt?, Option.ite_none_right_eq_some, exists_and_left, Option.some.injEq, exists_eq', and_true]

theorem Word.exists_ofNat?_iff {n : Nat} : (∃ w, Word.ofNat? n = some w) ↔ n < 2147483648 := by
  rw [Word.ofNat?, Word.exists_ofInt?_iff]
  omega

/-- The word of a slot in code. -/
def Slot.word? : Slot → Option Word
  | .frame offset => Word.ofInt? offset
  | .global index => Word.ofNat? index

namespace Access

/-- An access that has code behind others. -/
def Fits (fs : Functions) (v : Variables) (before : List Access) : Access → Prop
  | read x => ∃ slot w, (v.assignAll (writes before)).resolve x = some slot ∧ slot.word? = some w
  | write x => ∃ w, ((v.assignAll (writes before)).assign x).1.word? = some w
  | call name count => ∃ f arity locals, fs.find? name = some f ∧ f.arity = count ∧
      Word.ofNat? f.arity = some arity ∧ Word.ofNat? f.locals = some locals
  | ret => (v.assignAll (writes before)).inFunction = true

variable {fs : Functions} {v : Variables} {first second : List Access}

theorem each_fits_append : Each (Fits fs v) (first ++ second) ↔
    Each (Fits fs v) first ∧ Each (Fits fs (v.assignAll (writes first))) second := by
  rw [each_append]
  apply and_congr_right
  intro _
  apply Each.congr
  intro before a
  have hTable : v.assignAll (writes (first ++ before)) = (v.assignAll (writes first)).assignAll (writes before) := by
    rw [writes_append, Variables.assignAll_append]
  cases a with
  | call name count => rfl
  | _ => simp only [Fits, hTable]

theorem each_fits_append_quiet (h : writes first = []) :
    Each (Fits fs v) (first ++ second) ↔ Each (Fits fs v) first ∧ Each (Fits fs v) second := by
  rw [each_fits_append, h]
  rfl

end Access

/-! ## Expressions -/

section

variable {fs : Functions} {v : Variables}

mutual

theorem Expr.exists_hasCode_iff (e : Expr) : (∃ code, e.HasCode fs v code) ↔ Each (Fits fs v) e.accesses := by
  cases e with
  | int span n => exact ⟨fun _ => each_nil, fun _ => ⟨_, .int span n⟩⟩
  | var span x =>
    rw [Expr.accesses, each_singleton]
    constructor
    · rintro ⟨code, hCode⟩
      cases hCode with
      | own _ hSlot hWord => exact ⟨_, _, hSlot, hWord⟩
      | global _ hSlot hWord => exact ⟨_, _, hSlot, hWord⟩
    · rintro ⟨slot, w, hSlot, hWord⟩
      cases slot with
      | frame offset => exact ⟨_, .own span hSlot hWord⟩
      | global i => exact ⟨_, .global span hSlot hWord⟩
  | call span name args =>
    rw [Expr.accesses, each_fits_append_quiet (Expr.writes_allAccesses args), each_singleton,
      ← Expr.exists_argsHaveCode_iff args]
    constructor
    · rintro ⟨code, hCode⟩
      cases hCode with
      | call _ hFind hArity hArgs hArityWord hLocals => exact ⟨⟨_, hArgs⟩, _, _, _, hFind, hArity, hArityWord, hLocals⟩
    · rintro ⟨⟨code, hArgs⟩, f, arity, locals, hFind, hArity, hArityWord, hLocals⟩
      exact ⟨_, .call span hFind hArity hArgs hArityWord hLocals⟩
  | unary op span e =>
    rw [Expr.accesses, ← e.exists_hasCode_iff]
    constructor
    · rintro ⟨code, hCode⟩
      cases hCode with
      | unary _ hOperand => exact ⟨_, hOperand⟩
    · rintro ⟨code, hOperand⟩
      exact ⟨_, .unary span hOperand⟩
  | binary op span l r =>
    rw [Expr.accesses, each_fits_append_quiet l.writes_accesses, ← l.exists_hasCode_iff, ← r.exists_hasCode_iff]
    constructor
    · rintro ⟨code, hCode⟩
      cases hCode with
      | binary _ hLeft hRight => exact ⟨⟨_, hLeft⟩, _, hRight⟩
    · rintro ⟨⟨left, hLeft⟩, right, hRight⟩
      exact ⟨_, .binary span hLeft hRight⟩

theorem Expr.exists_argsHaveCode_iff (es : List Expr) :
    (∃ code, Expr.ArgsHaveCode fs v es code) ↔ Each (Fits fs v) (Expr.allAccesses es) := by
  cases es with
  | nil => exact ⟨fun _ => each_nil, fun _ => ⟨_, .nil⟩⟩
  | cons e rest =>
    rw [Expr.allAccesses, each_fits_append_quiet e.writes_accesses, ← e.exists_hasCode_iff,
      ← Expr.exists_argsHaveCode_iff rest]
    constructor
    · rintro ⟨code, hCode⟩
      cases hCode with
      | cons hLater hFirst => exact ⟨⟨_, hFirst⟩, _, hLater⟩
    · rintro ⟨⟨code, hFirst⟩, later, hLater⟩
      exact ⟨_, .cons hLater hFirst⟩

end

end

/-! ## Statements -/

section

variable {fs : Functions}

mutual

theorem Stmt.HasCode.fits {v : Variables} {a : Nat} {s : Stmt} {code : List Cell} (h : s.HasCode fs v a code) :
    Each (Fits fs v) s.accesses := by
  cases h with
  | own span hValue hSlot hWord =>
    rw [Stmt.accesses, each_fits_append_quiet (Expr.writes_accesses _), each_singleton]
    exact ⟨(Expr.exists_hasCode_iff _).mp ⟨_, hValue⟩, _, (congrArg Slot.word? hSlot).trans hWord⟩
  | global span hValue hSlot hWord =>
    rw [Stmt.accesses, each_fits_append_quiet (Expr.writes_accesses _), each_singleton]
    exact ⟨(Expr.exists_hasCode_iff _).mp ⟨_, hValue⟩, _, (congrArg Slot.word? hSlot).trans hWord⟩
  | expr span hValue => exact (Expr.exists_hasCode_iff _).mp ⟨_, hValue⟩
  | print span hValue => exact (Expr.exists_hasCode_iff _).mp ⟨_, hValue⟩
  | function span name params body => exact each_nil
  | ret span hOpen => exact each_singleton.mpr hOpen
  | retValue span hOpen hValue =>
    rw [Stmt.accesses, ← List.singleton_append, each_fits_append_quiet rfl, each_singleton]
    exact ⟨hOpen, (Expr.exists_hasCode_iff _).mp ⟨_, hValue⟩⟩
  | when span hTest hYes hSkip =>
    rw [Stmt.accesses, each_fits_append_quiet (Expr.writes_accesses _), each_fits_append]
    exact ⟨(Expr.exists_hasCode_iff _).mp ⟨_, hTest⟩, hYes.fits, each_nil⟩
  | branch span hElse hTest hYes hNo hSkip hLeave =>
    rw [Stmt.accesses, each_fits_append_quiet (Expr.writes_accesses _), each_fits_append, Stmt.writes_blockAccesses]
    exact ⟨(Expr.exists_hasCode_iff _).mp ⟨_, hTest⟩, hYes.fits, hNo.fits⟩
  | whileLoop span hTest hBody hLeave hAgain =>
    rw [Stmt.accesses, each_fits_append_quiet (Expr.writes_accesses _)]
    exact ⟨(Expr.exists_hasCode_iff _).mp ⟨_, hTest⟩, hBody.fits⟩
  | forLoop span hInit hTest hBody hStep hLeave hAgain =>
    rw [Stmt.accesses, each_fits_append, Stmt.writes_accesses, each_fits_append_quiet (Expr.writes_accesses _),
      each_fits_append, Stmt.writes_blockAccesses]
    exact ⟨hInit.fits, (Expr.exists_hasCode_iff _).mp ⟨_, hTest⟩, hBody.fits, hStep.fits⟩

theorem Stmt.BlockHasCode.fits {v : Variables} {a : Nat} {body : List Stmt} {code : List Cell}
    (h : Stmt.BlockHasCode fs v a body code) : Each (Fits fs v) (Stmt.blockAccesses body) := by
  cases h with
  | nil => exact each_nil
  | cons hFirst hLater =>
    rw [Stmt.blockAccesses, each_fits_append, Stmt.writes_accesses]
    exact ⟨hFirst.fits, hLater.fits⟩

end

mutual

theorem Stmt.exists_hasCode {v : Variables} {a : Nat} {s : Stmt} (h : Each (Fits fs v) s.accesses)
    (hSize : a + s.codeLength < 2147483648) : ∃ code, s.HasCode fs v a code := by
  cases s with
  | assign span name e =>
    rw [Stmt.accesses, each_fits_append_quiet e.writes_accesses, each_singleton, ← e.exists_hasCode_iff] at h
    obtain ⟨⟨value, hValue⟩, w, hWord⟩ := h
    change (v.assign name).1.word? = some w at hWord
    cases hSlot : (v.assign name).1 with
    | frame offset =>
      rw [hSlot] at hWord
      exact ⟨_, .own span hValue hSlot hWord⟩
    | global i =>
      rw [hSlot] at hWord
      exact ⟨_, .global span hValue hSlot hWord⟩
  | expr span e =>
    obtain ⟨value, hValue⟩ := e.exists_hasCode_iff.mpr h
    exact ⟨_, .expr span hValue⟩
  | print span e =>
    obtain ⟨value, hValue⟩ := e.exists_hasCode_iff.mpr h
    exact ⟨_, .print span hValue⟩
  | function span name params body => exact ⟨_, .function span name params body⟩
  | ret span value =>
    cases value with
    | none => exact ⟨_, .ret span (each_singleton.mp h)⟩
    | some e =>
      rw [Stmt.accesses, ← List.singleton_append, each_fits_append_quiet rfl, each_singleton,
        ← e.exists_hasCode_iff] at h
      obtain ⟨hOpen, value, hValue⟩ := h
      exact ⟨_, .retValue span hOpen hValue⟩
  | branch span c yes no =>
    rw [Stmt.accesses, each_fits_append_quiet c.writes_accesses, each_fits_append, ← c.exists_hasCode_iff,
      Stmt.writes_blockAccesses] at h
    obtain ⟨⟨test, hTest⟩, hYes, hNo⟩ := h
    have hTestLength := hTest.length_eq
    cases no with
    | nil =>
      simp only [Stmt.codeLength] at hSize
      obtain ⟨yesCode, hYes⟩ := Stmt.exists_blockHasCode (a := a + test.length + 3) hYes (by omega)
      have hYesLength := hYes.length_eq
      obtain ⟨skip, hSkip⟩ := Word.exists_ofNat?_iff.mpr
        (show a + test.length + 3 + yesCode.length < 2147483648 by omega)
      exact ⟨_, .when span hTest hYes hSkip⟩
    | cons s rest =>
      simp only [Stmt.codeLength] at hSize
      obtain ⟨yesCode, hYes⟩ := Stmt.exists_blockHasCode (a := a + test.length + 3) hYes (by omega)
      have hYesLength := hYes.length_eq
      obtain ⟨noCode, hNo⟩ :=
        Stmt.exists_blockHasCode (a := a + test.length + 3 + yesCode.length + 3) hNo (by omega)
      have hNoLength := hNo.length_eq
      obtain ⟨skip, hSkip⟩ := Word.exists_ofNat?_iff.mpr
        (show a + test.length + 3 + yesCode.length + 3 < 2147483648 by omega)
      obtain ⟨leave, hLeave⟩ := Word.exists_ofNat?_iff.mpr
        (show a + test.length + 3 + yesCode.length + 3 + noCode.length < 2147483648 by omega)
      exact ⟨_, .branch span nofun hTest hYes hNo hSkip hLeave⟩
  | whileLoop span c body =>
    rw [Stmt.accesses, each_fits_append_quiet c.writes_accesses, ← c.exists_hasCode_iff] at h
    rw [Stmt.codeLength] at hSize
    obtain ⟨⟨test, hTest⟩, hBody⟩ := h
    have hTestLength := hTest.length_eq
    obtain ⟨code, hBody⟩ := Stmt.exists_blockHasCode (a := a + test.length + 3) hBody (by omega)
    have hBodyLength := hBody.length_eq
    obtain ⟨leave, hLeave⟩ := Word.exists_ofNat?_iff.mpr
      (show a + test.length + 3 + code.length + 3 < 2147483648 by omega)
    obtain ⟨again, hAgain⟩ := Word.exists_ofNat?_iff.mpr (show a < 2147483648 by omega)
    exact ⟨_, .whileLoop span hTest hBody hLeave hAgain⟩
  | forLoop span init c step body =>
    rw [Stmt.accesses, each_fits_append, Stmt.writes_accesses, each_fits_append_quiet c.writes_accesses,
      each_fits_append, Stmt.writes_blockAccesses, ← c.exists_hasCode_iff] at h
    rw [Stmt.codeLength] at hSize
    obtain ⟨hInit, ⟨test, hTest⟩, hBody, hStep⟩ := h
    obtain ⟨initCode, hInit⟩ := Stmt.exists_hasCode (a := a) hInit (by omega)
    have hInitLength := hInit.length_eq
    have hTestLength := hTest.length_eq
    obtain ⟨code, hBody⟩ :=
      Stmt.exists_blockHasCode (a := a + initCode.length + test.length + 3) hBody (by omega)
    have hBodyLength := hBody.length_eq
    obtain ⟨stepCode, hStep⟩ :=
      Stmt.exists_hasCode (a := a + initCode.length + test.length + 3 + code.length) hStep (by omega)
    have hStepLength := hStep.length_eq
    obtain ⟨leave, hLeave⟩ := Word.exists_ofNat?_iff.mpr
      (show a + initCode.length + test.length + 3 + code.length + stepCode.length + 3 < 2147483648 by omega)
    obtain ⟨again, hAgain⟩ := Word.exists_ofNat?_iff.mpr (show a + initCode.length < 2147483648 by omega)
    exact ⟨_, .forLoop span hInit hTest hBody hStep hLeave hAgain⟩

theorem Stmt.exists_blockHasCode {v : Variables} {a : Nat} {body : List Stmt}
    (h : Each (Fits fs v) (Stmt.blockAccesses body)) (hSize : a + Stmt.blockCodeLength body < 2147483648) :
    ∃ code, Stmt.BlockHasCode fs v a body code := by
  cases body with
  | nil => exact ⟨_, .nil v a⟩
  | cons s rest =>
    rw [Stmt.blockAccesses, each_fits_append, Stmt.writes_accesses] at h
    rw [Stmt.blockCodeLength] at hSize
    obtain ⟨code, hFirst⟩ := Stmt.exists_hasCode (a := a) h.1 (by omega)
    have hLength := hFirst.length_eq
    obtain ⟨later, hLater⟩ := Stmt.exists_blockHasCode (a := a + code.length) h.2 (by omega)
    exact ⟨_, .cons hFirst hLater⟩

end

end

/-! ## Generation finds the code -/

section

variable {fs : Functions}

open Effect

mutual

theorem Expr.HasCode.code_eq {v : Variables} {e : Expr} {code : List Cell} (h : e.HasCode fs v code) :
    e.code fs v = .ok code := by
  cases h with
  | int span n => rfl
  | own span hSlot hWord => simp [Expr.code, hSlot, Slot.loadCode?, hWord]
  | global span hSlot hWord => simp [Expr.code, hSlot, Slot.loadCode?, hWord]
  | call span hFind hArity hArgs hArityWord hLocals =>
    simp only [Expr.code, hFind, if_pos hArity, hArgs.argsCode_eq, hArityWord, hLocals]
    rfl
  | unary span hOperand =>
    simp only [Expr.code, hOperand.code_eq]
    rfl
  | binary span hLeft hRight =>
    simp only [Expr.code, hLeft.code_eq, hRight.code_eq]
    rfl

theorem Expr.ArgsHaveCode.argsCode_eq {v : Variables} {es : List Expr} {code : List Cell}
    (h : Expr.ArgsHaveCode fs v es code) : Expr.argsCode fs v es = .ok code := by
  cases h with
  | nil => rfl
  | cons hLater hFirst =>
    simp only [Expr.argsCode, hLater.argsCode_eq, hFirst.code_eq]
    rfl

end

variable {scope : Scope}

theorem Gen.expr_eq {e : Expr} {code : List Cell} (h : e.HasCode fs scope.vars code) :
    Gen.expr fs e scope = .ok code scope := by
  rw [Gen.expr, h.code_eq]

theorem Gen.assign_eq (name : String) :
    Gen.assign name scope = .ok (scope.vars.assign name).1 { scope with vars := (scope.vars.assign name).2 } := rfl

theorem Gen.jump_eq {target : Nat} {op : Opcode} {w : Word} (h : Word.ofNat? target = some w) :
    Gen.jump target op scope = .ok (jumpCode w op) scope := by
  have hAddress : Gen.address target scope = .ok (.int w) scope := by
    rw [Gen.address, h]
    rfl
  exact bind_of_ok hAddress

mutual

theorem Stmt.HasCode.code_eq {scope : Scope} {a : Nat} {s : Stmt} {code : List Cell}
    (h : s.HasCode fs scope.vars a code) :
    Stmt.code fs a s scope = .ok code { scope with vars := scope.vars.assignAll s.targets } := by
  have hGet : (get : Gen Scope) scope = .ok scope scope := rfl
  cases h with
  | own span hValue hSlot hWord =>
    rw [Stmt.code, bind_of_ok (Gen.expr_eq hValue), bind_of_ok (Gen.assign_eq _)]
    simp only [hSlot, Slot.storeCode, hWord]
    rfl
  | global span hValue hSlot hWord =>
    rw [Stmt.code, bind_of_ok (Gen.expr_eq hValue), bind_of_ok (Gen.assign_eq _)]
    simp only [hSlot, Slot.storeCode, hWord]
    rfl
  | expr span hValue =>
    rw [Stmt.code, bind_of_ok (Gen.expr_eq hValue)]
    rfl
  | print span hValue =>
    rw [Stmt.code, bind_of_ok (Gen.expr_eq hValue)]
    rfl
  | function span name params body => rfl
  | ret span hOpen =>
    rw [Stmt.code, bind_of_ok hGet, if_pos hOpen]
    rfl
  | retValue span hOpen hValue =>
    rw [Stmt.code, bind_of_ok hGet, if_pos hOpen]
    exact bind_of_ok (Gen.expr_eq hValue)
  | when span hTest hYes hSkip =>
    rw [Stmt.code, bind_of_ok (Gen.expr_eq hTest), bind_of_ok (modifyGet_eq hYes.blockCode_eq)]
    simp only [List.isEmpty_nil, if_true]
    rw [bind_of_ok (Gen.jump_eq hSkip), Stmt.targets, Stmt.blockTargets, List.append_nil]
    rfl
  | branch span hElse hTest hYes hNo hSkip hLeave =>
    rw [Stmt.code, bind_of_ok (Gen.expr_eq hTest), bind_of_ok (modifyGet_eq hYes.blockCode_eq),
      if_neg (by simpa using hElse), bind_of_ok (modifyGet_eq hNo.blockCode_eq), bind_of_ok (Gen.jump_eq hSkip),
      bind_of_ok (Gen.jump_eq hLeave), Stmt.targets, Variables.assignAll_append]
    rfl
  | whileLoop span hTest hBody hLeave hAgain =>
    rw [Stmt.code, bind_of_ok (Gen.expr_eq hTest), bind_of_ok (modifyGet_eq hBody.blockCode_eq),
      bind_of_ok (Gen.jump_eq hLeave), bind_of_ok (Gen.jump_eq hAgain)]
    rfl
  | forLoop span hInit hTest hBody hStep hLeave hAgain =>
    rw [Stmt.code, bind_of_ok hInit.code_eq, bind_of_ok (Gen.expr_eq hTest),
      bind_of_ok (modifyGet_eq hBody.blockCode_eq), bind_of_ok hStep.code_eq, bind_of_ok (Gen.jump_eq hLeave),
      bind_of_ok (Gen.jump_eq hAgain), Stmt.targets, Variables.assignAll_append, Variables.assignAll_append]
    rfl

theorem Stmt.BlockHasCode.blockCode_eq {scope : Scope} {a : Nat} {body : List Stmt} {code : List Cell}
    (h : Stmt.BlockHasCode fs scope.vars a body code) :
    Stmt.blockCode fs a body scope = (code, { scope with vars := scope.vars.assignAll (Stmt.blockTargets body) }) := by
  cases h with
  | nil => rfl
  | @cons _ _ s rest code later hFirst hLater =>
    have hRest : Stmt.blockCode fs (a + code.length) rest { scope with vars := scope.vars.assignAll s.targets } =
        (later, _) := Stmt.BlockHasCode.blockCode_eq hLater
    rw [Stmt.blockCode, hFirst.code_eq, Stmt.blockTargets, Variables.assignAll_append]
    simp only [hRest]

end

end

end Vee
