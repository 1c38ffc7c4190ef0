import Vee.Listing.Generate
import Vee.Proofs.Effect

/-! # Where errors are raised

An error that ends the code of an expression or a statement is raised at a phrase of it. Errors in the blocks of a
statement end nothing there.
-/

namespace Vee

set_option autoImplicit false

open Effect

/-! ## Errors at phrases -/

namespace CompileError

inductive RaisedAt : CompileError → Phrase → Prop where
  | undefinedVariable (span : Span) (name : String) :
      RaisedAt (.undefinedVariable span name) (.expr (.var span name))
  | variableTooLarge (span : Span) (name : String) : RaisedAt (.numberTooLarge span name) (.expr (.var span name))
  | undefinedFunction (span : Span) (name : String) (args : List Expr) :
      RaisedAt (.undefinedFunction span name) (.expr (.call span name args))
  | wrongArity (span : Span) (name : String) (args : List Expr) (arity : Nat) :
      RaisedAt (.wrongArity span name arity) (.expr (.call span name args))
  | callTooLarge (span : Span) (name : String) (args : List Expr) :
      RaisedAt (.numberTooLarge span name) (.expr (.call span name args))
  | returnOutsideFunction (span : Span) (value : Option Expr) :
      RaisedAt (.returnOutsideFunction span) (.stmt (.ret span value))
  | tooManyLocals (span : Span) (name : String) (e : Expr) :
      RaisedAt (.tooManyLocals span) (.stmt (.assign span name e))
  | tooManyGlobals (span : Span) (name : String) (e : Expr) :
      RaisedAt (.tooManyGlobals span) (.stmt (.assign span name e))
  | branchTooLarge (span : Span) (c : Expr) (yes no : List Stmt) :
      RaisedAt .programTooLarge (.stmt (.branch span c yes no))
  | whileTooLarge (span : Span) (c : Expr) (body : List Stmt) :
      RaisedAt .programTooLarge (.stmt (.whileLoop span c body))
  | forTooLarge (span : Span) (init : Stmt) (c : Expr) (step : Stmt) (body : List Stmt) :
      RaisedAt .programTooLarge (.stmt (.forLoop span init c step body))

def RaisedIn (phrases : List Phrase) (e : CompileError) : Prop := ∃ p ∈ phrases, e.RaisedAt p

variable {e : CompileError} {phrases more : List Phrase} {p : Phrase}

theorem RaisedAt.raisedIn (h : e.RaisedAt p) (hMem : p ∈ phrases) : e.RaisedIn phrases := ⟨p, hMem, h⟩

theorem RaisedIn.mono (h : e.RaisedIn phrases) (hSub : phrases ⊆ more) : e.RaisedIn more := by
  obtain ⟨p, hMem, hRaised⟩ := h
  exact ⟨p, hSub hMem, hRaised⟩

end CompileError

open CompileError

/-! ## Expressions -/

theorem Effect.error_of_except_bind {ε α β : Type} {x : Except ε α} {f : α → Except ε β} {e : ε}
    (h : (x >>= f) = .error e) : x = .error e ∨ ∃ a, x = .ok a ∧ f a = .error e := by
  cases x with
  | error d =>
    cases h
    exact .inl rfl
  | ok a => exact .inr ⟨a, rfl, h⟩

namespace Expr

variable {fs : Functions} {v : Variables}

mutual

theorem raisedIn_of_code {e : Expr} {error : CompileError} (h : e.code fs v = .error error) :
    error.RaisedIn e.walk := by
  cases e with
  | int span n => cases h
  | var span name =>
    rw [code] at h
    split at h
    · cases h
      exact (RaisedAt.undefinedVariable span name).raisedIn List.mem_cons_self
    · split at h
      · cases h
      · cases h
        exact (RaisedAt.variableTooLarge span name).raisedIn List.mem_cons_self
  | call span name args =>
    rw [code] at h
    rw [walk]
    split at h
    · cases h
      exact (RaisedAt.undefinedFunction span name args).raisedIn (by simp)
    · split at h
      · rcases error_of_except_bind h with hArgs | ⟨code, -, h⟩
        · exact (raisedIn_of_argsCode hArgs).mono (List.subset_append_left _ _)
        · split at h
          · cases h
          · cases h
            exact (RaisedAt.callTooLarge span name args).raisedIn (by simp)
      · cases h
        exact (RaisedAt.wrongArity span name args _).raisedIn (by simp)
  | unary op span a =>
    rw [code] at h
    rw [walk]
    rcases error_of_except_bind h with hOperand | ⟨code, -, h⟩
    · exact (raisedIn_of_code hOperand).mono (List.subset_append_left _ _)
    · cases h
  | binary op span l r =>
    rw [code] at h
    rw [walk]
    rcases error_of_except_bind h with hLeft | ⟨left, -, h⟩
    · exact (raisedIn_of_code hLeft).mono fun p hMem => by simp [hMem]
    · rcases error_of_except_bind h with hRight | ⟨right, -, h⟩
      · exact (raisedIn_of_code hRight).mono fun p hMem => by simp [hMem]
      · cases h

theorem raisedIn_of_argsCode {args : List Expr} {error : CompileError} (h : argsCode fs v args = .error error) :
    error.RaisedIn (walkList args) := by
  cases args with
  | nil => cases h
  | cons e rest =>
    rw [argsCode] at h
    rw [walkList]
    rcases error_of_except_bind h with hLater | ⟨later, -, h⟩
    · exact (raisedIn_of_argsCode hLater).mono (List.subset_append_right _ _)
    · rcases error_of_except_bind h with hFirst | ⟨first, -, h⟩
      · exact (raisedIn_of_code hFirst).mono (List.subset_append_left _ _)
      · cases h

end

theorem argsCode_append_error {rest : List Expr} {error : CompileError} (h : argsCode fs v rest = .error error)
    (first : List Expr) : argsCode fs v (first ++ rest) = .error error := by
  induction first with
  | nil => exact h
  | cons e first ih =>
    rw [List.cons_append, argsCode, ih]
    rfl

end Expr

/-! ## Statements -/

theorem Slot.raisedAt_of_storeCode {slot : Slot} {span : Span} {error : CompileError}
    (h : slot.storeCode span = .error error) (name : String) (e : Expr) :
    error.RaisedAt (.stmt (.assign span name e)) := by
  cases slot with
  | frame offset =>
    rw [storeCode] at h
    split at h
    · cases h
    · cases h
      exact .tooManyLocals span name e
  | global index =>
    rw [storeCode] at h
    split at h
    · cases h
    · cases h
      exact .tooManyGlobals span name e

namespace Gen

/-- The errors found by the end of a step, with the one that ended it. -/
def found {α : Type} : EStateM.Result CompileError Scope α → List CompileError
  | .ok _ scope => scope.errors
  | .error e scope => scope.errors ++ [e]

/-- A step fails only with an error at some of the phrases. -/
structure Fails {α : Type} (phrases : List Phrase) (x : Gen α) : Prop where
  raised (scope : Scope) {e : CompileError} {later : Scope} : x scope = .error e later → e.RaisedIn phrases

variable {α β : Type} {x : Gen α} {f : α → Gen β} {scope : Scope} {phrases more : List Phrase} {fs : Functions}

theorem subset_found (r : EStateM.Result CompileError Scope α) : (state r).errors ⊆ found r := by
  cases r with
  | ok a scope => exact List.Subset.refl _
  | error e scope => exact List.subset_append_left _ _

theorem found_subset_bind (hRest : ∀ a, Appends Scope.errors (f a)) : found (x scope) ⊆ found ((x >>= f) scope) := by
  cases hResult : x scope with
  | ok a later =>
    rw [bind_of_ok hResult]
    exact List.Subset.trans (hRest a later).subset (subset_found _)
  | error e later =>
    rw [bind_of_error hResult]
    exact List.Subset.refl _

theorem Fails.mono (h : Fails phrases x) (hSub : phrases ⊆ more) : Fails more x :=
  ⟨fun scope _ _ hError => (h.raised scope hError).mono hSub⟩

theorem Fails.bind (hFirst : Fails phrases x) (hRest : ∀ a, Fails phrases (f a)) : Fails phrases (x >>= f) := by
  constructor
  intro scope e later hError
  cases hResult : x scope with
  | ok a mid =>
    rw [bind_of_ok hResult] at hError
    exact (hRest a).raised mid hError
  | error d mid =>
    rw [bind_of_error hResult] at hError
    cases hError
    exact hFirst.raised scope hResult

theorem fails_of_ok (h : ∀ scope, ∃ a later, x scope = .ok a later) : Fails phrases x := by
  constructor
  intro scope e later hError
  obtain ⟨a, next, hOk⟩ := h scope
  rw [hOk] at hError
  cases hError

theorem fails_pure (a : α) : Fails phrases (pure a : Gen α) := fails_of_ok fun scope => ⟨a, scope, rfl⟩

theorem fails_get : Fails phrases (get : Gen Scope) := fails_of_ok fun scope => ⟨scope, scope, rfl⟩

theorem fails_modifyGet (g : Scope → α × Scope) : Fails phrases (modifyGet g : Gen α) :=
  fails_of_ok fun scope => ⟨(g scope).1, (g scope).2, rfl⟩

theorem fails_assign (name : String) : Fails phrases (assign name) := fails_of_ok fun _ => ⟨_, _, rfl⟩

theorem fails_throw {e : CompileError} (h : e.RaisedIn phrases) : Fails phrases (throw e : Gen α) := by
  constructor
  intro scope d later hError
  cases hError
  exact h

theorem fails_expr (e : Expr) : Fails e.walk (expr fs e) := by
  constructor
  intro scope error later hError
  cases hCode : e.code fs scope.vars with
  | ok code =>
    simp only [expr, hCode] at hError
    cases hError
  | error d =>
    simp only [expr, hCode] at hError
    cases hError
    exact Expr.raisedIn_of_code hCode

theorem fails_jump (h : programTooLarge.RaisedIn phrases) (target : Nat) (op : Opcode) :
    Fails phrases (jump target op) := by
  refine Fails.bind ?_ fun _ => fails_pure _
  rw [address]
  split
  · exact fails_pure _
  · exact fails_throw h

end Gen

namespace Stmt

open Gen

variable {fs : Functions}

theorem fails_code (s : Stmt) (a : Nat) : Fails s.walk (s.code fs a) := by
  cases s with
  | assign span name e =>
    rw [code, walk]
    refine ((fails_expr e).mono (List.subset_append_left _ _)).bind fun value => (fails_assign name).bind fun slot => ?_
    split
    · exact fails_pure _
    · rename_i error hStore
      exact fails_throw ((Slot.raisedAt_of_storeCode hStore name e).raisedIn (by simp))
  | expr span e =>
    rw [code, walk]
    exact ((fails_expr e).mono (List.subset_append_left _ _)).bind fun _ => fails_pure _
  | print span e =>
    rw [code, walk]
    exact ((fails_expr e).mono (List.subset_append_left _ _)).bind fun _ => fails_pure _
  | function span name params body =>
    rw [code]
    exact fails_pure _
  | ret span value =>
    cases value with
    | none =>
      refine Fails.bind fails_get fun scope => ?_
      split
      · exact fails_pure _
      · exact fails_throw ((RaisedAt.returnOutsideFunction span none).raisedIn (by simp [walk]))
    | some e =>
      refine Fails.bind fails_get fun scope => ?_
      rw [walk]
      split
      · exact ((fails_expr e).mono (List.subset_append_left _ _)).bind fun _ => fails_pure _
      · exact fails_throw ((RaisedAt.returnOutsideFunction span (some e)).raisedIn (by simp))
  | branch span c yes no =>
    have hLarge : programTooLarge.RaisedIn (walk (.branch span c yes no)) :=
      (RaisedAt.branchTooLarge span c yes no).raisedIn (by simp [walk])
    have hTest : Fails (walk (.branch span c yes no)) (Gen.expr fs c) :=
      (fails_expr c).mono fun p hMem => by simp [walk, hMem]
    rw [code]
    refine hTest.bind fun test => ?_
    refine (fails_modifyGet _).bind fun yesCode => ?_
    split
    · exact (fails_jump hLarge _ _).bind fun _ => fails_pure _
    · refine (fails_modifyGet _).bind fun noCode => ?_
      exact (fails_jump hLarge _ _).bind fun _ => (fails_jump hLarge _ _).bind fun _ => fails_pure _
  | whileLoop span c body =>
    have hLarge : programTooLarge.RaisedIn (walk (.whileLoop span c body)) :=
      (RaisedAt.whileTooLarge span c body).raisedIn (by simp [walk])
    have hTest : Fails (walk (.whileLoop span c body)) (Gen.expr fs c) :=
      (fails_expr c).mono fun p hMem => by simp [walk, hMem]
    rw [code]
    refine hTest.bind fun test => ?_
    refine (fails_modifyGet _).bind fun bodyCode => ?_
    exact (fails_jump hLarge _ _).bind fun _ => (fails_jump hLarge _ _).bind fun _ => fails_pure _
  | forLoop span init c step body =>
    have hLarge : programTooLarge.RaisedIn (walk (.forLoop span init c step body)) :=
      (RaisedAt.forTooLarge span init c step body).raisedIn (by simp [walk])
    have hInit : ∀ a, Fails (walk (.forLoop span init c step body)) (init.code fs a) :=
      fun a => (fails_code init a).mono fun p hMem => by simp [walk, hMem]
    have hTest : Fails (walk (.forLoop span init c step body)) (Gen.expr fs c) :=
      (fails_expr c).mono fun p hMem => by simp [walk, hMem]
    have hStep : ∀ a, Fails (walk (.forLoop span init c step body)) (step.code fs a) :=
      fun a => (fails_code step a).mono fun p hMem => by simp [walk, hMem]
    rw [code]
    refine (hInit _).bind fun initCode => hTest.bind fun test => ?_
    refine (fails_modifyGet _).bind fun bodyCode => (hStep _).bind fun stepCode => ?_
    exact (fails_jump hLarge _ _).bind fun _ => (fails_jump hLarge _ _).bind fun _ => fails_pure _

end Stmt

end Vee
