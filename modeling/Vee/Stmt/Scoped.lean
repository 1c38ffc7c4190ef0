import Vee.Stmt.Walk

/-!
# Well-scoped programs

Which programs have code, said without code: functions and the parameters of each have distinct names,
calls fit a declared function, returns stand in functions, and a variable is read only where it is known.
Outside functions a variable is known behind an assignment to it; in a function also its parameters are
known, and all variables assigned outside functions. A loop's step is read behind its body.
-/

namespace Vee

set_option autoImplicit false

/-- A function with its parameters and body. -/
structure Declaration where
  name : String
  params : List String
  body : List Stmt

mutual

/-- The functions declared in a statement, those inside a function behind it. -/
def Stmt.declarations : Stmt → List Declaration
  | .function _ name params body => ⟨name, params, body⟩ :: Stmt.blockDeclarations body
  | .branch _ _ yes no => Stmt.blockDeclarations yes ++ Stmt.blockDeclarations no
  | .whileLoop _ _ body => Stmt.blockDeclarations body
  | .forLoop _ _ _ _ body => Stmt.blockDeclarations body
  | _ => []

def Stmt.blockDeclarations : List Stmt → List Declaration
  | [] => []
  | s :: rest => s.declarations ++ Stmt.blockDeclarations rest

end

/-- Whether some function has the name and so many parameters. -/
def Declaration.fits (ds : List Declaration) (name : String) (count : Nat) : Bool :=
  ds.any fun d => d.name == name && d.params.length == count

mutual

/-- Whether an expression may stand where some names are known. -/
def Expr.scoped (ds : List Declaration) (known : List String) : Expr → Bool
  | .int _ _ => true
  | .var _ name => known.contains name
  | .call _ name args => Declaration.fits ds name args.length && Expr.allScoped ds known args
  | .unary _ _ e => e.scoped ds known
  | .binary _ _ l r => l.scoped ds known && r.scoped ds known

def Expr.allScoped (ds : List Declaration) (known : List String) : List Expr → Bool
  | [] => true
  | e :: rest => e.scoped ds known && Expr.allScoped ds known rest

end

mutual

/-- Whether a statement may stand where some names are known, in a function or outside. -/
def Stmt.scoped (ds : List Declaration) (inFunction : Bool) (known : List String) : Stmt → Bool
  | .assign _ _ e => e.scoped ds known
  | .expr _ e => e.scoped ds known
  | .print _ e => e.scoped ds known
  | .function _ _ _ _ => true
  | .ret _ none => inFunction
  | .ret _ (some e) => inFunction && e.scoped ds known
  | .branch _ c yes no =>
    c.scoped ds known && Stmt.blockScoped ds inFunction known yes &&
      Stmt.blockScoped ds inFunction (known ++ Stmt.assignedNames yes) no
  | .whileLoop _ c body => c.scoped ds known && Stmt.blockScoped ds inFunction known body
  | .forLoop _ init c step body =>
    let inside := known ++ Stmt.assignedNames [init]
    init.scoped ds inFunction known && c.scoped ds inside &&
      Stmt.blockScoped ds inFunction inside body &&
      step.scoped ds inFunction (inside ++ Stmt.assignedNames body)

def Stmt.blockScoped (ds : List Declaration) (inFunction : Bool) (known : List String) :
    List Stmt → Bool
  | [] => true
  | s :: rest =>
    s.scoped ds inFunction known &&
      Stmt.blockScoped ds inFunction (known ++ Stmt.assignedNames [s]) rest

end

/-- Whether a program is well-scoped. -/
def Stmt.programScoped (statements : List Stmt) : Bool :=
  let ds := Stmt.blockDeclarations statements
  decide (ds.map Declaration.name).Nodup &&
    ds.all (fun d => decide d.params.Nodup) &&
    Stmt.blockScoped ds false [] statements &&
    ds.all (fun d =>
      Stmt.blockScoped ds true (d.params ++ Stmt.assignedNames statements) d.body)

end Vee
