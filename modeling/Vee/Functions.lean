import Vee.CompileError
import Vee.Stmt.Walk
import Vee.Variables

/-!
# Declared functions

What a call needs to know of a function before its body has code. The symbol of a function is its
position in the order of declaration.
-/

namespace Vee

set_option autoImplicit false

structure Function where
  name : String
  symbol : Nat
  params : List String
  body : List Stmt
  locals : Nat

def Function.arity (f : Function) : Nat := f.params.length

/-- The number of distinct names, parameters apart, that a body assigns. -/
def Function.countLocals (params : List String) (body : List Stmt) : Nat :=
  let entered := params.foldl (fun v p => (v.param p).2) (Variables.enter {})
  ((Stmt.assignedNames body).foldl (fun v x => (v.assign x).2) entered).leave.1

structure Functions where
  list : List Function := []

namespace Functions

def find? (fs : Functions) (name : String) : Option Function :=
  fs.list.find? fun f => f.name == name

/-- Declares a function under a new name and gives its symbol. -/
def declare (fs : Functions) (span : Span) (name : String) (params : List String)
    (body : List Stmt) : Except CompileError (Nat × Functions) :=
  match fs.find? name with
  | some _ => .error (.duplicateFunction span name)
  | none =>
    let f : Function :=
      ⟨name, fs.list.length, params, body, Function.countLocals params body⟩
    .ok (f.symbol, ⟨fs.list ++ [f]⟩)

mutual

/-- Declares the functions in a statement, those inside a function behind it. -/
def declareStmt (fs : Functions) : Stmt → Functions × List CompileError
  | .function span name params body =>
    match fs.declare span name params body with
    | .ok (_, fs) => declareBlock fs body
    | .error e =>
      let (fs, errors) := declareBlock fs body
      (fs, e :: errors)
  | .branch _ _ yes no =>
    let (fs, first) := declareBlock fs yes
    let (fs, second) := declareBlock fs no
    (fs, first ++ second)
  | .whileLoop _ _ body => declareBlock fs body
  | .forLoop _ _ _ _ body => declareBlock fs body
  | _ => (fs, [])

def declareBlock (fs : Functions) : List Stmt → Functions × List CompileError
  | [] => (fs, [])
  | s :: rest =>
    let (fs, first) := declareStmt fs s
    let (fs, second) := declareBlock fs rest
    (fs, first ++ second)

end

end Functions

end Vee
