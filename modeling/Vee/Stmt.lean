import Vee.Span
import Vee.Word

/-!
# Statements and expressions

The typed form of a program. Every node keeps the span of the tokens it came from.
-/

namespace Vee

set_option autoImplicit false

inductive UnaryOp where
  | neg
  | not
  deriving DecidableEq, Repr

inductive BinaryOp where
  | mul
  | div
  | mod
  | add
  | sub
  | eq
  | ne
  | lt
  | le
  | gt
  | ge
  | and
  | or
  deriving DecidableEq, Repr

inductive Expr where
  | int (span : Span) (value : Word)
  | var (span : Span) (name : String)
  | call (span : Span) (name : String) (args : List Expr)
  | unary (op : UnaryOp) (span : Span) (operand : Expr)
  | binary (op : BinaryOp) (span : Span) (left right : Expr)
  deriving Inhabited

def Expr.span : Expr → Span
  | int s _ => s
  | var s _ => s
  | call s _ _ => s
  | unary _ s _ => s
  | binary _ s _ _ => s

inductive Stmt where
  | assign (span : Span) (name : String) (value : Expr)
  | expr (span : Span) (value : Expr)
  | forLoop (span : Span) (init : Stmt) (condition : Expr) (step : Stmt) (body : List Stmt)
  | function (span : Span) (name : String) (params : List String) (body : List Stmt)
  | branch (span : Span) (condition : Expr) (yes no : List Stmt)
  | print (span : Span) (value : Expr)
  | ret (span : Span) (value : Option Expr)
  | whileLoop (span : Span) (condition : Expr) (body : List Stmt)
  deriving Inhabited

def Stmt.span : Stmt → Span
  | assign s _ _ => s
  | expr s _ => s
  | forLoop s _ _ _ _ => s
  | function s _ _ _ => s
  | branch s _ _ _ => s
  | print s _ => s
  | ret s _ => s
  | whileLoop s _ _ => s

def Stmt.isReturn : Stmt → Bool
  | ret _ _ => true
  | _ => false

end Vee
