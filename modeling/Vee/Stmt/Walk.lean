import Vee.Stmt

/-!
# Walking over statements

The statements and expressions below a statement, children first. A loop's step comes before its body.
The body of a function is a scope of its own and is not entered.
-/

namespace Vee

set_option autoImplicit false

inductive Phrase where
  | stmt (s : Stmt)
  | expr (e : Expr)

mutual

def Expr.walk : Expr → List Phrase
  | .int s n => [.expr (.int s n)]
  | .var s x => [.expr (.var s x)]
  | .call s f args => Expr.walkList args ++ [.expr (.call s f args)]
  | .unary op s e => e.walk ++ [.expr (.unary op s e)]
  | .binary op s l r => l.walk ++ r.walk ++ [.expr (.binary op s l r)]

def Expr.walkList : List Expr → List Phrase
  | [] => []
  | e :: es => e.walk ++ Expr.walkList es

end

mutual

def Stmt.walk : Stmt → List Phrase
  | .assign s x e => e.walk ++ [.stmt (.assign s x e)]
  | .expr s e => e.walk ++ [.stmt (.expr s e)]
  | .forLoop s init c step body =>
    init.walk ++ c.walk ++ step.walk ++ Stmt.walkList body ++ [.stmt (.forLoop s init c step body)]
  | .function s f params body => [.stmt (.function s f params body)]
  | .branch s c yes no =>
    c.walk ++ Stmt.walkList yes ++ Stmt.walkList no ++ [.stmt (.branch s c yes no)]
  | .print s e => e.walk ++ [.stmt (.print s e)]
  | .ret s none => [.stmt (.ret s none)]
  | .ret s (some e) => e.walk ++ [.stmt (.ret s (some e))]
  | .whileLoop s c body => c.walk ++ Stmt.walkList body ++ [.stmt (.whileLoop s c body)]

def Stmt.walkList : List Stmt → List Phrase
  | [] => []
  | s :: ss => s.walk ++ Stmt.walkList ss

end

/-- The name that a phrase assigns to. -/
def Phrase.assigned? : Phrase → Option String
  | .stmt (.assign _ x _) => some x
  | _ => none

/-- The names assigned in a list of statements, in the order of the walk. -/
def Stmt.assignedNames (body : List Stmt) : List String :=
  (Stmt.walkList body).filterMap Phrase.assigned?

end Vee
