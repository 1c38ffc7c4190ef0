import Vee.Proofs.Simulation.Follow

/-! # Output only grows

Evaluation appends to what was printed and takes nothing back. The five functions of the evaluator call each
other with less fuel, so that one induction on the fuel serves them all.
-/

namespace Vee.Eval

set_option autoImplicit false

open Effect

theorem grows_read (own : Own) (name : String) : Grows (read own name) :=
  appends_get.bind fun _ => appends_pure _

theorem grows_write (own : Own) (name : String) (w : Word) : Grows (write own name w) := by
  rw [write]
  split
  · exact appends_modify fun _ => List.prefix_rfl
  · exact appends_modify fun _ => List.prefix_rfl

theorem grows_setOwn (own : Bindings) : Grows (modify fun s => { s with own := own }) :=
  appends_modify fun _ => List.prefix_rfl

theorem grows_lift (x : Except Fault Word) : Grows (lift x) := by
  cases x with
  | ok w => exact appends_pure w
  | error fault => exact appends_throw _

/-- All evaluation with so much fuel grows. -/
structure Growing (ds : List Declaration) (fuel : Nat) : Prop where
  expr : ∀ own e, Grows (expr ds own fuel e)
  args : ∀ own es, Grows (args ds own fuel es)
  stmt : ∀ own s, Grows (stmt ds own fuel s)
  loop : ∀ own inside c body step, Grows (loop ds own inside fuel c body step)
  block : ∀ own body, Grows (block ds own fuel body)

section

variable {ds : List Declaration} {fuel : Nat}

theorem Growing.call (h : Growing ds fuel) (d : Declaration) (values : List Word) :
    Grows (do
      let caller := (← get).own
      modify fun s => { s with own := d.params.zip values }
      let flow ← Eval.block ds (some d.params) fuel d.body
      modify fun s => { s with own := caller }
      match flow with
      | .ret w => return w
      | .next => return -1 : M Word) := by
  refine appends_get.bind fun store => (grows_setOwn _).bind fun _ => ?_
  refine (h.block _ _).bind fun flow => (grows_setOwn _).bind fun _ => ?_
  cases flow with
  | next => exact appends_pure _
  | ret w => exact appends_pure _

theorem Growing.expr_succ (h : Growing ds fuel) (own : Own) (e : Expr) : Grows (Eval.expr ds own (fuel + 1) e) := by
  cases e with
  | int span n => exact appends_pure _
  | var span name => exact grows_read own name
  | unary op span a => exact (h.expr own a).bind fun _ => grows_lift _
  | binary op span l r => exact (h.expr own l).bind fun _ => (h.expr own r).bind fun _ => grows_lift _
  | call span name actuals =>
    refine (h.args own actuals).bind fun values => ?_
    cases function? ds name with
    | none => exact appends_throw _
    | some d => exact h.call d values

theorem Growing.args_succ (h : Growing ds fuel) (own : Own) (es : List Expr) :
    Grows (Eval.args ds own (fuel + 1) es) := by
  cases es with
  | nil => exact appends_pure _
  | cons e rest => exact (h.args own rest).bind fun _ => (h.expr own e).bind fun _ => appends_pure _

theorem Growing.stmt_succ (h : Growing ds fuel) (own : Own) (s : Stmt) : Grows (Eval.stmt ds own (fuel + 1) s) := by
  cases s with
  | assign span name e => exact (h.expr own e).bind fun w => (grows_write own name w).bind fun _ => appends_pure _
  | expr span e => exact (h.expr own e).bind fun _ => appends_pure _
  | print span e =>
    exact (h.expr own e).bind fun w =>
      (appends_modify fun store => List.prefix_append store.printed [w]).bind fun _ => appends_pure _
  | function span name params body => exact appends_pure _
  | ret span value =>
    cases value with
    | none => exact appends_pure _
    | some e => exact (h.expr own e).bind fun _ => appends_pure _
  | branch span c yes no =>
    refine (h.expr own c).bind fun w => ?_
    split
    · exact h.block own yes
    · exact h.block _ no
  | whileLoop span c body => exact h.loop own _ c body []
  | forLoop span init c step body =>
    refine (h.stmt own init).bind fun flow => ?_
    cases flow with
    | next => exact h.loop _ _ c body [step]
    | ret w => exact appends_pure _

theorem Growing.again (h : Growing ds fuel) (own inside : Own) (c : Expr) (body step : List Stmt) (flow : Flow) :
    Grows (match flow with
      | .ret w => return .ret w
      | .next => Eval.loop ds own inside fuel c body step : M Flow) := by
  cases flow with
  | ret w => exact appends_pure _
  | next => exact h.loop own inside c body step

theorem Growing.behindBody (h : Growing ds fuel) (own inside : Own) (c : Expr) (body step : List Stmt)
    (flow : Flow) :
    Grows (match flow with
      | .ret w => return .ret w
      | .next => do
        match ← Eval.block ds inside fuel step with
        | .ret w => return .ret w
        | .next => Eval.loop ds own inside fuel c body step : M Flow) := by
  cases flow with
  | ret w => exact appends_pure _
  | next => exact (h.block inside step).bind (h.again own inside c body step)

theorem Growing.loop_succ (h : Growing ds fuel) (own inside : Own) (c : Expr) (body step : List Stmt) :
    Grows (Eval.loop ds own inside (fuel + 1) c body step) := by
  refine (h.expr own c).bind fun w => ?_
  split
  · exact (h.block own body).bind (h.behindBody own inside c body step)
  · exact appends_pure _

theorem Growing.block_succ (h : Growing ds fuel) (own : Own) (body : List Stmt) :
    Grows (Eval.block ds own (fuel + 1) body) := by
  cases body with
  | nil => exact appends_pure _
  | cons s rest =>
    refine (h.stmt own s).bind fun flow => ?_
    cases flow with
    | ret w => exact appends_pure _
    | next => exact h.block _ rest

end

theorem growing (ds : List Declaration) (fuel : Nat) : Growing ds fuel := by
  induction fuel with
  | zero =>
    exact ⟨fun _ _ => appends_throw _, fun _ _ => appends_throw _, fun _ _ => appends_throw _,
      fun _ _ _ _ _ => appends_throw _, fun _ _ => appends_throw _⟩
  | succ fuel ih => exact ⟨ih.expr_succ, ih.args_succ, ih.stmt_succ, ih.loop_succ, ih.block_succ⟩

end Vee.Eval
