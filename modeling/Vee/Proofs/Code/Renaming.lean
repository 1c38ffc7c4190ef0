import Vee.Proofs.Code.Layout
import Vee.Toolchain

/-! # Names in generated code

A renaming gives new names to variables and, apart from them, to functions, and keeps different names different. The
code of the renamed statements is the same, cell by cell, and so are the addresses of its sections. What cannot be
generated fails with errors of the same codes at the same places: only the names in their details change.
-/

namespace Vee

set_option autoImplicit false

open Effect

/-- New names for variables and for functions. Different names stay different. -/
structure Renaming where
  vars : String → String
  functions : String → String
  vars_injective : Function.Injective vars
  functions_injective : Function.Injective functions

/-- What a diagnostic says apart from its detail. -/
def Diagnostic.mark (d : Diagnostic) : Diagnostic.Code × Span × Option Nat := (d.code, d.span, d.address)

def CompileError.mark (e : CompileError) : Diagnostic.Code × Span × Option Nat := e.diagnostic.mark

namespace Renaming

variable (ρ : Renaming)

/-! ## Renamed data -/

mutual

def expr : Expr → Expr
  | .int span n => .int span n
  | .var span x => .var span (ρ.vars x)
  | .call span f es => .call span (ρ.functions f) (args es)
  | .unary op span e => .unary op span (expr e)
  | .binary op span l r => .binary op span (expr l) (expr r)

def args : List Expr → List Expr
  | [] => []
  | e :: es => expr e :: args es

end

mutual

/-- Parameters are variables. -/
def stmt : Stmt → Stmt
  | .assign span x e => .assign span (ρ.vars x) (ρ.expr e)
  | .expr span e => .expr span (ρ.expr e)
  | .forLoop span init c step body => .forLoop span (stmt init) (ρ.expr c) (stmt step) (block body)
  | .function span f params body => .function span (ρ.functions f) (params.map ρ.vars) (block body)
  | .branch span c yes no => .branch span (ρ.expr c) (block yes) (block no)
  | .print span e => .print span (ρ.expr e)
  | .ret span value => .ret span (value.map ρ.expr)
  | .whileLoop span c body => .whileLoop span (ρ.expr c) (block body)

def block : List Stmt → List Stmt
  | [] => []
  | s :: rest => stmt s :: block rest

end

def frame (f : Frame) : Frame := ⟨f.params.map ρ.vars, f.locals.map ρ.vars⟩

def table (v : Variables) : Variables := ⟨v.globals.map ρ.vars, v.frames.map ρ.frame⟩

def function (f : Function) : Function :=
  { f with name := ρ.functions f.name, params := f.params.map ρ.vars, body := ρ.block f.body }

def declared (fs : Functions) : Functions := ⟨fs.list.map ρ.function⟩

/-- Only the names of the sections change. -/
def listing (l : Listing) : Listing := { l with sections := l.sections.map fun s => (s.1, ρ.functions s.2) }

theorem length_args (es : List Expr) : (ρ.args es).length = es.length := by
  induction es with
  | nil => rfl
  | cons e es ih => rw [args, List.length_cons, List.length_cons, ih]

theorem block_eq_map (body : List Stmt) : ρ.block body = body.map ρ.stmt := by
  induction body with
  | nil => rfl
  | cons s rest ih => rw [block, List.map_cons, ih]

theorem isReturn_stmt (s : Stmt) : (ρ.stmt s).isReturn = s.isReturn := by
  cases s <;> rfl

/-! ## Slots -/

variable {ρ}

theorem idxOf?_map_vars (names : List String) (x : String) :
    (names.map ρ.vars).idxOf? (ρ.vars x) = names.idxOf? x := by
  have hSame : (fun y => y == ρ.vars x) ∘ ρ.vars = fun y => y == x := by
    funext y
    exact Bool.eq_iff_iff.mpr (by simp [ρ.vars_injective.eq_iff])
  rw [List.idxOf?, List.idxOf?, List.findIdx?_map, hSame]

theorem offset?_frame (f : Frame) (x : String) : (ρ.frame f).offset? (ρ.vars x) = f.offset? x := by
  simp only [Frame.offset?, frame, idxOf?_map_vars]

theorem resolve_table (v : Variables) (x : String) : (ρ.table v).resolve (ρ.vars x) = v.resolve x := by
  obtain ⟨globals, frames⟩ := v
  cases frames with
  | nil => simp [Variables.resolve, table, idxOf?_map_vars]
  | cons f rest => simp [Variables.resolve, table, idxOf?_map_vars, offset?_frame]

theorem enter_table (v : Variables) : (ρ.table v).enter = ρ.table v.enter := rfl

theorem inFunction_table (v : Variables) : (ρ.table v).inFunction = v.inFunction := by
  rw [Variables.inFunction, Variables.inFunction, table, List.isEmpty_map]

theorem leave_table (v : Variables) : (ρ.table v).leave = (v.leave.1, ρ.table v.leave.2) := by
  obtain ⟨globals, frames⟩ := v
  cases frames with
  | nil => rfl
  | cons f rest => simp [Variables.leave, table, frame]

theorem param_table (v : Variables) (x : String) :
    (ρ.table v).param (ρ.vars x) = ((v.param x).1, ρ.table (v.param x).2) := by
  obtain ⟨globals, frames⟩ := v
  cases frames with
  | nil => rfl
  | cons f rest =>
    simp only [Variables.param, table, List.map_cons, offset?_frame]
    cases f.offset? x with
    | none => simp [frame]
    | some offset => rfl

theorem assign_table (v : Variables) (x : String) :
    (ρ.table v).assign (ρ.vars x) = ((v.assign x).1, ρ.table (v.assign x).2) := by
  obtain ⟨globals, frames⟩ := v
  cases frames with
  | nil =>
    simp only [Variables.assign, table, List.map_nil, idxOf?_map_vars]
    cases globals.idxOf? x with
    | none => simp
    | some i => rfl
  | cons f rest =>
    simp only [Variables.assign, table, List.map_cons, offset?_frame]
    cases f.offset? x with
    | none => simp [frame]
    | some offset => rfl

/-! ## Declarations -/

mutual

theorem walk_assigned_stmt (s : Stmt) :
    (ρ.stmt s).walk.filterMap Phrase.assigned? = (s.walk.filterMap Phrase.assigned?).map ρ.vars := by
  cases s with
  | assign span x e | expr span e | print span e =>
    simp only [stmt, Stmt.walk, List.filterMap_append, Expr.walk_assigned]
    rfl
  | function span f params body => rfl
  | ret span value =>
    cases value with
    | none => rfl
    | some e =>
      simp only [stmt, Option.map_some, Stmt.walk, List.filterMap_append, Expr.walk_assigned]
      rfl
  | branch span c yes no =>
    simp only [stmt, Stmt.walk, List.filterMap_append, Expr.walk_assigned, walk_assigned_block yes,
      walk_assigned_block no, List.map_append]
    rfl
  | whileLoop span c body =>
    simp only [stmt, Stmt.walk, List.filterMap_append, Expr.walk_assigned, walk_assigned_block body, List.map_append]
    rfl
  | forLoop span init c step body =>
    simp only [stmt, Stmt.walk, List.filterMap_append, Expr.walk_assigned, walk_assigned_stmt init,
      walk_assigned_stmt step, walk_assigned_block body, List.map_append]
    rfl

theorem walk_assigned_block (body : List Stmt) :
    (Stmt.walkList (ρ.block body)).filterMap Phrase.assigned? =
      ((Stmt.walkList body).filterMap Phrase.assigned?).map ρ.vars := by
  cases body with
  | nil => rfl
  | cons s rest => simp [block, Stmt.walkList, walk_assigned_stmt s, walk_assigned_block rest]

end

/-- A renamed body has as many locals. -/
theorem countLocals_block (params : List String) (body : List Stmt) :
    Function.countLocals (params.map ρ.vars) (ρ.block body) = Function.countLocals params body := by
  have hParams : params.foldl (fun v p => (v.param (ρ.vars p)).2) (ρ.table (Variables.enter {})) =
      ρ.table (params.foldl (fun v p => (v.param p).2) (Variables.enter {})) :=
    List.foldl_hom ρ.table fun v p => congrArg Prod.snd (param_table v p)
  have hAssigned : ∀ v, (Stmt.assignedNames body).foldl (fun v x => (v.assign (ρ.vars x)).2) (ρ.table v) =
      ρ.table ((Stmt.assignedNames body).foldl (fun v x => (v.assign x).2) v) :=
    fun _ => List.foldl_hom ρ.table fun v x => congrArg Prod.snd (assign_table v x)
  have hNames : Stmt.assignedNames (ρ.block body) = (Stmt.assignedNames body).map ρ.vars := walk_assigned_block body
  simp only [Function.countLocals, hNames, List.foldl_map]
  change (List.foldl _ (List.foldl _ (ρ.table (Variables.enter {})) _) _).leave.1 = _
  rw [hParams, hAssigned, leave_table]

theorem find?_declared (fs : Functions) (f : String) :
    (ρ.declared fs).find? (ρ.functions f) = (fs.find? f).map ρ.function := by
  have hSame : (fun g => g.name == ρ.functions f) ∘ ρ.function = fun g => g.name == f := by
    funext g
    exact Bool.eq_iff_iff.mpr (by simp [function, ρ.functions_injective.eq_iff])
  rw [Functions.find?, Functions.find?, declared, List.find?_map, hSame]

mutual

theorem declareStmt_stmt (fs : Functions) (s : Stmt) :
    ((ρ.declared fs).declareStmt (ρ.stmt s)).1 = ρ.declared (fs.declareStmt s).1 ∧
      ((ρ.declared fs).declareStmt (ρ.stmt s)).2.map CompileError.mark = (fs.declareStmt s).2.map CompileError.mark := by
  cases s with
  | assign span x e => exact ⟨rfl, rfl⟩
  | expr span e => exact ⟨rfl, rfl⟩
  | print span e => exact ⟨rfl, rfl⟩
  | ret span value => exact ⟨rfl, rfl⟩
  | whileLoop span c body => exact declareBlock_block fs body
  | forLoop span init c step body => exact declareBlock_block fs body
  | branch span c yes no =>
    have hYes := declareBlock_block fs yes
    have hNo := declareBlock_block (fs.declareBlock yes).1 no
    simp only [stmt, Functions.declareStmt]
    rw [hYes.1, List.map_append, List.map_append, hYes.2]
    exact ⟨hNo.1, congrArg _ hNo.2⟩
  | function span f params body =>
    simp only [stmt, Functions.declareStmt, Functions.declare, find?_declared]
    cases fs.find? f with
    | some g =>
      obtain ⟨hDeclared, hErrors⟩ := declareBlock_block fs body
      simp only [Option.map_some, List.map_cons, hErrors]
      exact ⟨hDeclared, rfl⟩
    | none =>
      have hBody := declareBlock_block
        ⟨fs.list ++ [⟨f, fs.list.length, params, body, Function.countLocals params body⟩]⟩ body
      simp only [declared, List.map_append, List.map_cons, List.map_nil, function] at hBody
      simpa [declared, countLocals_block] using hBody

theorem declareBlock_block (fs : Functions) (body : List Stmt) :
    ((ρ.declared fs).declareBlock (ρ.block body)).1 = ρ.declared (fs.declareBlock body).1 ∧
      ((ρ.declared fs).declareBlock (ρ.block body)).2.map CompileError.mark =
        (fs.declareBlock body).2.map CompileError.mark := by
  cases body with
  | nil => exact ⟨rfl, rfl⟩
  | cons s rest =>
    have hFirst := declareStmt_stmt fs s
    have hRest := declareBlock_block (fs.declareStmt s).1 rest
    simp only [block, Functions.declareBlock]
    rw [hFirst.1, List.map_append, List.map_append, hFirst.2]
    exact ⟨hRest.1, congrArg _ hRest.2⟩

end

/-! ## Expressions -/

mutual

theorem code_expr (fs : Functions) (vs : Variables) (e : Expr) :
    ((ρ.expr e).code (ρ.declared fs) (ρ.table vs)).mapError CompileError.mark =
      (e.code fs vs).mapError CompileError.mark := by
  cases e with
  | int span n => rfl
  | var span x =>
    simp only [expr, Expr.code, resolve_table]
    cases vs.resolve x with
    | none => rfl
    | some slot =>
      dsimp only
      cases slot.loadCode? <;> rfl
  | unary op span e =>
    simp only [expr, Expr.code, mapError_bind, code_expr fs vs e]
  | binary op span l r =>
    simp only [expr, Expr.code, mapError_bind, code_expr fs vs l, code_expr fs vs r]
  | call span f es =>
    simp only [expr, Expr.code, find?_declared]
    cases fs.find? f with
    | none => rfl
    | some g =>
      have hArity : (ρ.function g).arity = g.arity := List.length_map _
      simp only [Option.map_some, hArity, length_args]
      split
      · rw [mapError_bind, mapError_bind, argsCode_args fs vs es]
        congr 1
        funext code
        have hLocals : (ρ.function g).locals = g.locals := rfl
        rw [hLocals]
        cases Word.ofNat? g.arity <;> cases Word.ofNat? g.locals <;> rfl
      · rfl

theorem argsCode_args (fs : Functions) (vs : Variables) (es : List Expr) :
    (Expr.argsCode (ρ.declared fs) (ρ.table vs) (ρ.args es)).mapError CompileError.mark =
      (Expr.argsCode fs vs es).mapError CompileError.mark := by
  cases es with
  | nil => rfl
  | cons e es => simp only [args, Expr.argsCode, mapError_bind, argsCode_args fs vs es, code_expr fs vs e]

end

/-! ## Statements -/

/-- The scope that generation has reached in the renamed statements. -/
structure Scopes (ρ : Renaming) (s t : Scope) : Prop where
  vars : t.vars = ρ.table s.vars
  errors : t.errors.map CompileError.mark = s.errors.map CompileError.mark

/-- Steps of generation for a piece of a program and for the renamed piece. -/
def Alike {α : Type} (ρ : Renaming) (x y : Gen α) : Prop := Mirrors ρ.Scopes (fun d e => e.mark = d.mark) x y

theorem Scopes.report {s t : Scope} (h : ρ.Scopes s t) {d e : CompileError} (hMark : e.mark = d.mark) :
    ρ.Scopes { s with errors := s.errors ++ [d] } { t with errors := t.errors ++ [e] } := by
  refine ⟨h.vars, ?_⟩
  simp only [List.map_append, List.map_cons, List.map_nil, h.errors, hMark]

theorem alike_expr (fs : Functions) (e : Expr) : ρ.Alike (Gen.expr fs e) (Gen.expr (ρ.declared fs) (ρ.expr e)) := by
  intro s t hState
  have hCode := code_expr (ρ := ρ) fs s.vars e
  simp only [Gen.expr, hState.vars]
  cases hLeft : e.code fs s.vars <;> cases hRight : (ρ.expr e).code (ρ.declared fs) (ρ.table s.vars) <;>
    rw [hLeft, hRight] at hCode
  · injection hCode with hMark
    exact .error hMark hState
  · cases hCode
  · cases hCode
  · injection hCode with hSame
    subst hSame
    exact .ok hState

theorem alike_assign (x : String) : ρ.Alike (Gen.assign x) (Gen.assign (ρ.vars x)) := by
  intro s t hState
  simp only [Gen.assign, hState.vars, assign_table]
  exact .ok ⟨rfl, hState.errors⟩

theorem alike_jump (target : Nat) (op : Opcode) : ρ.Alike (Gen.jump target op) (Gen.jump target op) := by
  refine Mirrors.bind ?_ fun cell => mirrors_pure _
  rw [Gen.address]
  cases Word.ofNat? target with
  | none => exact mirrors_throw rfl
  | some n => exact mirrors_pure _

mutual

theorem alike_code (fs : Functions) (address : Nat) (s : Stmt) :
    ρ.Alike (s.code fs address) ((ρ.stmt s).code (ρ.declared fs) address) := by
  cases s with
  | assign span x e =>
    rw [stmt, Stmt.code, Stmt.code]
    refine (alike_expr fs e).bind fun value => (alike_assign x).bind fun slot => ?_
    cases slot.storeCode span with
    | ok store => exact mirrors_pure _
    | error e => exact mirrors_throw rfl
  | expr span e =>
    rw [stmt, Stmt.code, Stmt.code]
    exact (alike_expr fs e).bind fun value => mirrors_pure _
  | print span e =>
    rw [stmt, Stmt.code, Stmt.code]
    exact (alike_expr fs e).bind fun value => mirrors_pure _
  | function span f params body =>
    rw [stmt, Stmt.code, Stmt.code]
    exact mirrors_pure _
  | ret span value =>
    cases value with
    | none =>
      rw [stmt, Option.map_none, Stmt.code, Stmt.code]
      refine mirrors_get_bind fun before after hState => ?_
      rw [hState.vars, inFunction_table]
      split
      · exact mirrors_pure _
      · exact mirrors_throw rfl
    | some e =>
      rw [stmt, Option.map_some, Stmt.code, Stmt.code]
      refine mirrors_get_bind fun before after hState => ?_
      rw [hState.vars, inFunction_table]
      split
      · exact (alike_expr fs e).bind fun value => mirrors_pure _
      · exact mirrors_throw rfl
  | branch span c yes no =>
    have hEmpty : (ρ.block no).isEmpty = no.isEmpty := by rw [block_eq_map, List.isEmpty_map]
    rw [stmt, Stmt.code, Stmt.code]
    simp only [hEmpty]
    refine (alike_expr fs c).bind fun test => (mirrors_modifyGet (blockCode_block fs _ yes)).bind fun yesCode => ?_
    split
    · exact (alike_jump _ _).bind fun skip => mirrors_pure _
    · exact (mirrors_modifyGet (blockCode_block fs _ no)).bind fun noCode => (alike_jump _ _).bind fun skip =>
        (alike_jump _ _).bind fun leave => mirrors_pure _
  | whileLoop span c body =>
    rw [stmt, Stmt.code, Stmt.code]
    exact (alike_expr fs c).bind fun test => (mirrors_modifyGet (blockCode_block fs _ body)).bind fun bodyCode =>
      (alike_jump _ _).bind fun leave => (alike_jump _ _).bind fun again => mirrors_pure _
  | forLoop span init c step body =>
    rw [stmt, Stmt.code, Stmt.code]
    exact (alike_code fs _ init).bind fun initCode => (alike_expr fs c).bind fun test =>
      (mirrors_modifyGet (blockCode_block fs _ body)).bind fun bodyCode => (alike_code fs _ step).bind fun stepCode =>
      (alike_jump _ _).bind fun leave => (alike_jump _ _).bind fun again => mirrors_pure _

theorem blockCode_block (fs : Functions) (address : Nat) (body : List Stmt) (s t : Scope) (h : ρ.Scopes s t) :
    (Stmt.blockCode (ρ.declared fs) address (ρ.block body) t).1 = (Stmt.blockCode fs address body s).1 ∧
      ρ.Scopes (Stmt.blockCode fs address body s).2 (Stmt.blockCode (ρ.declared fs) address (ρ.block body) t).2 := by
  cases body with
  | nil => exact ⟨rfl, h⟩
  | cons first rest =>
    have hFirst := alike_code fs address first s t h
    simp only [block, Stmt.blockCode]
    cases hLeft : first.code fs address s <;> cases hRight : (ρ.stmt first).code (ρ.declared fs) address t <;>
      rw [hLeft, hRight] at hFirst <;> cases hFirst
    · rename_i code s' t' hNext
      obtain ⟨hRest, hLast⟩ := blockCode_block fs (address + code.length) rest s' t' hNext
      exact ⟨congrArg (code ++ ·) hRest, hLast⟩
    · rename_i d s' e t' hMark hNext
      exact blockCode_block fs address rest _ _ (hNext.report hMark)

end

/-! ## Programs -/

/-- The draft that generation has reached in the renamed program. -/
structure Drafts (ρ : Renaming) (d e : Draft) : Prop where
  listing : e.listing = ρ.listing d.listing
  relocations : e.relocations = d.relocations
  scope : ρ.Scopes d.scope e.scope

theorem addSection_listing (l : Listing) (f : String) :
    (ρ.listing l).addSection (ρ.functions f) = ρ.listing (l.addSection f) := by
  simp [Listing.addSection, listing]

section

variable {d e : Draft} (h : ρ.Drafts d e)

include h

theorem Drafts.cells : e.listing.cells = d.listing.cells := by
  rw [h.listing]
  rfl

theorem Drafts.place {s t : Scope} (hScope : ρ.Scopes s t) (cells : List Cell) :
    ρ.Drafts (Draft.place { d with scope := s } cells) (Draft.place { e with scope := t } cells) := by
  refine ⟨?_, ?_, hScope⟩
  · rw [Draft.place, h.listing]
    rfl
  · rw [Draft.place, h.relocations, h.cells]
    rfl

theorem Drafts.block (fs : Functions) (body : List Stmt) :
    (e.block (ρ.declared fs) (ρ.block body)).1 = (d.block fs body).1 ∧
      ρ.Scopes (d.block fs body).2 (e.block (ρ.declared fs) (ρ.block body)).2 := by
  rw [Draft.block, Draft.block, h.cells]
  exact blockCode_block fs _ body d.scope e.scope h.scope

theorem Drafts.entry (fs : Functions) (statements : List Stmt) :
    ρ.Drafts (d.entry fs statements) (e.entry (ρ.declared fs) (ρ.block statements)) := by
  obtain ⟨hCode, hScope⟩ := h.block fs statements
  rw [Draft.entry, Draft.entry]
  dsimp only
  rw [hCode]
  exact h.place hScope _

end

theorem Scopes.declareParam {s t : Scope} (h : ρ.Scopes s t) (x : String) :
    ρ.Scopes (Draft.declareParam s x) (Draft.declareParam t (ρ.vars x)) := by
  rw [Draft.declareParam, Draft.declareParam, h.vars, param_table]
  obtain ⟨offset, vars⟩ := s.vars.param x
  cases offset with
  | some offset => exact ⟨rfl, h.errors⟩
  | none =>
    have hMark : (CompileError.duplicateParameter (ρ.vars x)).mark = (CompileError.duplicateParameter x).mark := rfl
    exact ⟨rfl, (h.report hMark).errors⟩

theorem Scopes.declareParams {s t : Scope} (h : ρ.Scopes s t) (params : List String) :
    ρ.Scopes (params.foldl Draft.declareParam s) ((params.map ρ.vars).foldl Draft.declareParam t) := by
  induction params generalizing s t with
  | nil => exact h
  | cons x params ih => exact ih (h.declareParam x)

theorem returnCode_block (body : List Stmt) : Draft.returnCode (ρ.block body) = Draft.returnCode body := by
  have hLast : (ρ.block body).getLast?.any Stmt.isReturn = body.getLast?.any Stmt.isReturn := by
    rw [block_eq_map, List.getLast?_map]
    cases body.getLast? with
    | none => rfl
    | some s => exact isReturn_stmt ρ s
  rw [Draft.returnCode, Draft.returnCode, hLast]

theorem Drafts.opened {d e : Draft} (h : ρ.Drafts d e) (f : Function) :
    ρ.Drafts (d.opened f) (e.opened (ρ.function f)) := by
  have hEntered : ρ.Scopes { d.scope with vars := d.scope.vars.enter } { e.scope with vars := e.scope.vars.enter } :=
    ⟨by rw [h.scope.vars, enter_table], h.scope.errors⟩
  refine ⟨?_, ?_, hEntered.declareParams f.params⟩
  · rw [Draft.opened, h.listing]
    exact addSection_listing d.listing f.name
  · rw [Draft.opened, h.relocations, h.cells]
    rfl

theorem Drafts.function {d e : Draft} (h : ρ.Drafts d e) (fs : Functions) (f : Function) :
    ρ.Drafts (Draft.function fs d f) (Draft.function (ρ.declared fs) e (ρ.function f)) := by
  obtain ⟨hCode, hScope⟩ := (h.opened f).block fs f.body
  have hLeft : ρ.Scopes { (d.body fs f).2 with vars := (d.body fs f).2.vars.leave.2 }
      { (e.body (ρ.declared fs) (ρ.function f)).2 with
        vars := (e.body (ρ.declared fs) (ρ.function f)).2.vars.leave.2 } :=
    ⟨(congrArg (·.leave.2) hScope.vars).trans (congrArg Prod.snd (leave_table _)), hScope.errors⟩
  have hReturn : Draft.returnCode (ρ.function f).body = Draft.returnCode f.body := returnCode_block f.body
  rw [Draft.function_opened, Draft.function_opened, hReturn, Draft.body, Draft.body]
  rw [show (ρ.function f).body = ρ.block f.body from rfl, hCode]
  exact (h.opened f).place hLeft _

theorem Drafts.functions {d e : Draft} (h : ρ.Drafts d e) (fs : Functions) (list : List Function) :
    ρ.Drafts (list.foldl (Draft.function fs) d)
      ((list.map ρ.function).foldl (Draft.function (ρ.declared fs)) e) := by
  induction list generalizing d e with
  | nil => exact h
  | cons f list ih => exact ih (h.function fs f)

/-- What is generated for renamed statements. -/
theorem generate_block (statements : List Stmt) :
    (Listing.generate (ρ.block statements)).listing = ρ.listing (Listing.generate statements).listing ∧
      (Listing.generate (ρ.block statements)).errors.map CompileError.mark =
        (Listing.generate statements).errors.map CompileError.mark := by
  obtain ⟨hDeclared, hErrors⟩ := declareBlock_block (ρ := ρ) {} statements
  have hStart : ρ.Drafts { scope := { errors := (Functions.declareBlock {} statements).2 } }
      { scope := { errors := (Functions.declareBlock {} (ρ.block statements)).2 } } := ⟨rfl, rfl, rfl, hErrors⟩
  have hDraft := (hStart.entry (Functions.declareBlock {} statements).1 statements).functions
    (Functions.declareBlock {} statements).1 (Functions.declareBlock {} statements).1.list
  have hDeclared : (Functions.declareBlock {} (ρ.block statements)).1 =
    ρ.declared (Functions.declareBlock {} statements).1 := hDeclared
  simp only [Listing.generate, hDeclared, List.map_append]
  rw [show (ρ.declared (Functions.declareBlock {} statements).1).list =
    (Functions.declareBlock {} statements).1.list.map ρ.function from rfl, hDraft.relocations, hDraft.cells,
    hDraft.scope.errors, hDraft.listing]
  exact ⟨rfl, rfl⟩

variable {statements : List Stmt}

theorem listing_of_ok {listing : Listing} (h : Toolchain.listing statements = .ok listing) :
    Toolchain.listing (ρ.block statements) = .ok (ρ.listing listing) := by
  obtain ⟨hListing, hMarks⟩ := generate_block (ρ := ρ) statements
  rw [Toolchain.listing, Listing.ofStatements] at h ⊢
  split at h
  · rename_i hEmpty
    rw [List.isEmpty_iff] at hEmpty
    rw [hEmpty, List.map_nil, List.map_eq_nil_iff] at hMarks
    cases h
    simp only [hMarks, List.isEmpty_nil, if_true, hListing]
    rfl
  · cases h

theorem listing_of_error {found : List Diagnostic} (h : Toolchain.listing statements = .error found) :
    ∃ renamed, Toolchain.listing (ρ.block statements) = .error renamed ∧
      renamed.map Diagnostic.mark = found.map Diagnostic.mark := by
  obtain ⟨_, hMarks⟩ := generate_block (ρ := ρ) statements
  rw [Toolchain.listing, Listing.ofStatements] at h ⊢
  split at h
  · cases h
  · rename_i hFound
    cases h
    have hRenamed : (Listing.generate (ρ.block statements)).errors.isEmpty ≠ true := by
      rw [← List.isEmpty_map (f := CompileError.mark), hMarks, List.isEmpty_map]
      exact hFound
    rw [if_neg hRenamed]
    refine ⟨_, rfl, ?_⟩
    rw [List.map_map, List.map_map]
    exact hMarks

end Renaming

/-- Names leave no trace in generated code: renamed statements have a listing exactly if the statements have one, with
the same words and with sections at the same addresses, and otherwise errors of the same codes at the same places. -/
theorem Toolchain.listing_renamed (ρ : Renaming) (statements : List Stmt) :
    ((∃ listing, Toolchain.listing (ρ.block statements) = .ok listing) ↔
      ∃ listing, Toolchain.listing statements = .ok listing) ∧
    (∀ listing, Toolchain.listing statements = .ok listing →
      ∃ renamed, Toolchain.listing (ρ.block statements) = .ok renamed ∧ renamed.cells = listing.cells ∧
        renamed.toProgram = listing.toProgram ∧
        renamed.sections = listing.sections.map fun s => (s.1, ρ.functions s.2)) ∧
    ∀ found, Toolchain.listing statements = .error found →
      ∃ renamed, Toolchain.listing (ρ.block statements) = .error renamed ∧
        renamed.map Diagnostic.mark = found.map Diagnostic.mark := by
  refine ⟨⟨?_, ?_⟩, ?_, ?_⟩
  · rintro ⟨renamed, hRenamed⟩
    cases hListing : Toolchain.listing statements with
    | ok listing => exact ⟨listing, rfl⟩
    | error found =>
      obtain ⟨others, hOthers, _⟩ := Renaming.listing_of_error (ρ := ρ) hListing
      cases hRenamed.symm.trans hOthers
  · rintro ⟨listing, hListing⟩
    exact ⟨_, Renaming.listing_of_ok hListing⟩
  · intro listing hListing
    exact ⟨_, Renaming.listing_of_ok hListing, rfl, rfl, rfl⟩
  · intro found hFound
    exact Renaming.listing_of_error hFound

/-- Names of variables and of functions with different marks in front. -/
def Renaming.marked : Renaming where
  vars x := "v_" ++ x
  functions f := "f_" ++ f
  vars_injective _ _ h := (String.append_right_inj _).mp h
  functions_injective _ _ h := (String.append_right_inj _).mp h

/-- A function with the name of a global variable, which its parameter hides. -/
def Stmt.hiding : List Stmt :=
  let span := Span.nowhere
  let x := Expr.var span "x"
  [.assign span "x" (.int span 1),
    .function span "x" ["x"] [.assign span "x" (.unary .neg span x), .ret span (some x)],
    .print span (.call span "x" [x])]

/-- A parameter that is declared twice, and a variable that is not known. -/
def Stmt.mistaken : List Stmt :=
  [.function ⟨0, 9⟩ "f" ["x", "x"] [], .print ⟨9, 11⟩ (.var ⟨10, 11⟩ "x")]

theorem Toolchain.listing_renamed_marked :
    (∃ listing renamed, Toolchain.listing Stmt.hiding = .ok listing ∧
      Toolchain.listing (Renaming.marked.block Stmt.hiding) = .ok renamed ∧ renamed.cells = listing.cells ∧
      renamed.sections = [(13, "f_x")]) ∧
    ∃ renamed, Toolchain.listing (Renaming.marked.block Stmt.mistaken) = .error renamed ∧
      renamed.map Diagnostic.mark = [(.undefinedVariable, ⟨10, 11⟩, none), (.syntactic, Span.nowhere, none)] := by
  constructor
  · have hListing : Toolchain.listing Stmt.hiding = .ok (Listing.generate Stmt.hiding).listing := rfl
    obtain ⟨renamed, hRenamed, hCells, _, hSections⟩ :=
      (Toolchain.listing_renamed Renaming.marked Stmt.hiding).2.1 _ hListing
    have hSection : (Listing.generate Stmt.hiding).listing.sections = [(13, "x")] := by decide +kernel
    rw [hSection] at hSections
    exact ⟨_, renamed, hListing, hRenamed, hCells, hSections⟩
  · exact (Toolchain.listing_renamed Renaming.marked Stmt.mistaken).2.2 _ rfl

end Vee
