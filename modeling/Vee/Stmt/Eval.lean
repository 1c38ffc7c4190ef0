import Vee.Machine
import Vee.Stmt.Scoped

/-!
# Meaning of programs

An evaluator of statements that knows nothing of code. Outside functions every name is a global variable.
In a function a name is its own if it is a parameter or if an assignment to it stands earlier in the body,
and global otherwise; where it stands decides, not what has been executed. Variables start at zero, and a
function that does not return a value returns -1. The fuel bounds the depth of evaluation.
-/

namespace Vee.Eval

set_option autoImplicit false

def unary : UnaryOp → Word → Except Fault Word
  | .neg, a =>
    match Word.neg? a with
    | some w => .ok w
    | none => .error .overflow
  | .not, a => .ok (if a = 0 then 1 else if a = 1 then 0 else a)

/-- A result that is no word is an overflow. -/
def checked : Option Word → Except Fault Word
  | some w => .ok w
  | none => .error .overflow

/-- Only 1 counts as true for the logical operators. -/
def binary : BinaryOp → Word → Word → Except Fault Word
  | .add, a, b => checked (Word.add? a b)
  | .sub, a, b => checked (Word.sub? a b)
  | .mul, a, b => checked (Word.mul? a b)
  | .div, a, b => if b = 0 then .error .divisionByZero else checked (Word.div? a b)
  | .mod, a, b => if b = 0 then .error .divisionByZero else checked (Word.mod? a b)
  | .eq, a, b => .ok (Word.ofBool (a == b))
  | .ne, a, b => .ok (Word.ofBool (a != b))
  | .lt, a, b => .ok (Word.ofBool (a < b))
  | .le, a, b => .ok (Word.ofBool (a ≤ b))
  | .gt, a, b => .ok (Word.ofBool (b < a))
  | .ge, a, b => .ok (Word.ofBool (b ≤ a))
  | .and, a, b => .ok (Word.ofBool (a == 1 && b == 1))
  | .or, a, b => .ok (Word.ofBool (a == 1 || b == 1))

/-- Values of names; a name that has none is zero. -/
abbrev Bindings := List (String × Word)

def Bindings.get (b : Bindings) (name : String) : Word := (b.lookup name).getD 0

def Bindings.set : Bindings → String → Word → Bindings
  | [], name, w => [(name, w)]
  | (x, v) :: rest, name, w => if x = name then (x, w) :: rest else (x, v) :: Bindings.set rest name w

structure Store where
  globals : Bindings := []
  own : Bindings := []
  printed : List Word := []

/-- Why evaluation does not go on. -/
inductive Stuck where
  | fault (fault : Fault)
  | undefined (name : String)
  | outOfFuel
  deriving DecidableEq, Repr

abbrev M := EStateM Stuck Store

/-- The names that belong to the function at hand, if there is one. -/
abbrev Own := Option (List String)

/-- What becomes of the names behind statements. -/
def after (own : Own) (body : List Stmt) : Own := own.map (· ++ Stmt.assignedNames body)

def isOwn (own : Own) (name : String) : Bool := own.any fun names => names.contains name

def read (own : Own) (name : String) : M Word := do
  let store ← get
  return if isOwn own name then store.own.get name else store.globals.get name

/-- Inside a function an assignment makes a name the function's own. -/
def write (own : Own) (name : String) (w : Word) : M Unit := do
  if own.isSome then modify fun s => { s with own := s.own.set name w }
  else modify fun s => { s with globals := s.globals.set name w }

def lift (x : Except Fault Word) : M Word :=
  match x with
  | .ok w => pure w
  | .error f => throw (.fault f)

/-- How a statement ends: the next one follows, or the function returns. -/
inductive Flow where
  | next
  | ret (value : Word)
  deriving DecidableEq, Repr

/-- The function that a call of a name enters. -/
def function? (ds : List Declaration) (name : String) : Option Declaration := ds.find? fun d => d.name == name

mutual

def expr (ds : List Declaration) (own : Own) : Nat → Expr → M Word
  | 0, _ => throw .outOfFuel
  | fuel + 1, e =>
    match e with
    | .int _ n => pure n
    | .var _ name => read own name
    | .unary op _ a => do lift (unary op (← expr ds own fuel a))
    | .binary op _ l r => do
      let a ← expr ds own fuel l
      let b ← expr ds own fuel r
      lift (binary op a b)
    | .call _ name actuals => do
      let values ← args ds own fuel actuals
      match function? ds name with
      | none => throw (.undefined name)
      | some d => do
        let caller := (← get).own
        modify fun s => { s with own := d.params.zip values }
        let flow ← block ds (some d.params) fuel d.body
        modify fun s => { s with own := caller }
        match flow with
        | .ret w => return w
        | .next => return -1

/-- The values of arguments, the last of which is evaluated first. -/
def args (ds : List Declaration) (own : Own) : Nat → List Expr → M (List Word)
  | 0, _ => throw .outOfFuel
  | _ + 1, [] => pure []
  | fuel + 1, e :: rest => do
    let later ← args ds own fuel rest
    return (← expr ds own fuel e) :: later

def stmt (ds : List Declaration) (own : Own) : Nat → Stmt → M Flow
  | 0, _ => throw .outOfFuel
  | fuel + 1, s =>
    match s with
    | .assign _ name e => do
      write own name (← expr ds own fuel e)
      return .next
    | .expr _ e => do
      let _ ← expr ds own fuel e
      return .next
    | .print _ e => do
      let w ← expr ds own fuel e
      modify fun s => { s with printed := s.printed ++ [w] }
      return .next
    | .function _ _ _ _ => pure .next
    | .ret _ none => pure (.ret (-1))
    | .ret _ (some e) => do return .ret (← expr ds own fuel e)
    | .branch _ c yes no => do
      if (← expr ds own fuel c) ≠ 0 then block ds own fuel yes
      else block ds (after own yes) fuel no
    | .whileLoop _ c body => loop ds own (after own body) fuel c body []
    | .forLoop _ init c step body => do
      match ← stmt ds own fuel init with
      | .ret w => return .ret w
      | .next =>
        let inside := after own [init]
        loop ds inside (after inside body) fuel c body [step]

/-- Repeats a body and what follows it in each round, which may see the names assigned in the body. -/
def loop (ds : List Declaration) (own inside : Own) : Nat → Expr → List Stmt → List Stmt → M Flow
  | 0, _, _, _ => throw .outOfFuel
  | fuel + 1, c, body, step => do
    if (← expr ds own fuel c) ≠ 0 then
      match ← block ds own fuel body with
      | .ret w => return .ret w
      | .next =>
        match ← block ds inside fuel step with
        | .ret w => return .ret w
        | .next => loop ds own inside fuel c body step
    else return .next

def block (ds : List Declaration) (own : Own) : Nat → List Stmt → M Flow
  | 0, _ => throw .outOfFuel
  | _ + 1, [] => pure .next
  | fuel + 1, s :: rest => do
    match ← stmt ds own fuel s with
    | .ret w => return .ret w
    | .next => block ds (after own [s]) fuel rest

end

/-- Evaluates a program with the functions declared anywhere in it. -/
def program (fuel : Nat) (statements : List Stmt) : EStateM.Result Stuck Store Flow :=
  block (Stmt.blockDeclarations statements) none fuel statements {}

end Vee.Eval
