import Vee.Stmt
import Vee.Token

/-!
# Statements as tokens

The concrete form of statements, with parentheses only where the order of the operators needs them.
Operators of one precedence associate to the left. A negative number is a minus sign and its absolute
value.
-/

namespace Vee

set_option autoImplicit false

/-- The token of a kind that has a lexeme. -/
def Token.fixed (kind : Token.Kind) : Token := ⟨kind, kind.lexeme?.getD ""⟩

def UnaryOp.kind : UnaryOp → Token.Kind
  | .neg => .minus
  | .not => .not

def BinaryOp.kind : BinaryOp → Token.Kind
  | .mul => .times
  | .div => .divide
  | .mod => .modulo
  | .add => .plus
  | .sub => .minus
  | .eq => .equal
  | .ne => .notEqual
  | .lt => .less
  | .le => .lessEq
  | .gt => .greater
  | .ge => .greaterEq
  | .and => .and
  | .or => .or

/-- Tighter operators have the larger number. -/
def BinaryOp.precedence : BinaryOp → Nat
  | .or => 1
  | .and => 2
  | .eq | .ne => 3
  | .lt | .le | .gt | .ge => 4
  | .add | .sub => 5
  | .mul | .div | .mod => 6

namespace Expr

def precedence : Expr → Nat
  | binary op _ _ _ => op.precedence
  | unary _ _ _ => 7
  | int _ n => if n < 0 then 7 else 8
  | _ => 8

/-- Whether the operand of a unary operator stands in parentheses. A minus sign would become part of a
number right behind it. -/
def enclosedUnder (op : UnaryOp) : Expr → Bool
  | binary _ _ _ _ => true
  | int _ n => op == .neg && 0 ≤ n
  | _ => false

def enclose (b : Bool) (tokens : List Token) : List Token :=
  if b then .fixed .openParen :: tokens ++ [.fixed .closeParen] else tokens

mutual

def tokens : Expr → List Token
  | int _ n =>
    let number : Token := ⟨.number, n.toInt.natAbs.repr⟩
    if n < 0 then [.fixed .minus, number] else [number]
  | var _ name => [⟨.name, name⟩]
  | call _ name args =>
    ⟨.name, name⟩ :: .fixed .openParen :: argTokens args ++ [.fixed .closeParen]
  | unary op _ e => .fixed op.kind :: enclose (e.enclosedUnder op) e.tokens
  | binary op _ l r =>
    enclose (l.precedence < op.precedence) l.tokens ++ .fixed op.kind ::
      enclose (r.precedence ≤ op.precedence) r.tokens

/-- Arguments with commas between them. -/
def argTokens : List Expr → List Token
  | [] => []
  | [e] => e.tokens
  | e :: rest => e.tokens ++ .fixed .comma :: argTokens rest

end

end Expr

namespace Stmt

/-- A statement of one line without its semicolon. -/
def clause : Stmt → List Token
  | assign _ name e => ⟨.name, name⟩ :: .fixed .assign :: e.tokens
  | expr _ e => e.tokens
  | print _ e => .fixed .print :: .fixed .openParen :: e.tokens ++ [.fixed .closeParen]
  | ret _ none => [.fixed .ret]
  | ret _ (some e) => .fixed .ret :: e.tokens
  | _ => []

/-- Parameters with commas between them. -/
def paramTokens : List String → List Token
  | [] => []
  | [p] => [⟨.name, p⟩]
  | p :: rest => ⟨.name, p⟩ :: .fixed .comma :: paramTokens rest

def braces (body : List Token) : List Token :=
  .fixed .openBrace :: body ++ [.fixed .closeBrace]

def parens (inner : List Token) : List Token :=
  .fixed .openParen :: inner ++ [.fixed .closeParen]

mutual

def tokens : Stmt → List Token
  | forLoop _ init c step body =>
    .fixed .forWord ::
      parens (init.clause ++ .fixed .semicolon :: c.tokens ++ .fixed .semicolon :: step.clause) ++
      braces (blockTokens body)
  | function _ name params body =>
    .fixed .func :: ⟨.name, name⟩ :: parens (paramTokens params) ++ braces (blockTokens body)
  | branch _ c yes no =>
    .fixed .ifWord :: parens c.tokens ++ braces (blockTokens yes) ++
      if no.isEmpty then [] else .fixed .elseWord :: braces (blockTokens no)
  | whileLoop _ c body => .fixed .whileWord :: parens c.tokens ++ braces (blockTokens body)
  | s => s.clause ++ [.fixed .semicolon]

def blockTokens : List Stmt → List Token
  | [] => []
  | s :: rest => s.tokens ++ blockTokens rest

end

end Stmt

end Vee
