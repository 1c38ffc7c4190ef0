import Vee.Diagnostic
import Vee.Stmt
import Vee.Tree

/-!
# From parse trees to statements

In a parse tree the rest of a block hangs below its first statement, and equally tight operators lean
to the right. Here blocks become lists, operators associate to the left, and a minus sign directly in
front of a number belongs to the number.
-/

namespace Vee

set_option autoImplicit false

inductive ShapeError where
  | literalOutOfRange (span : Span) (literal : String)
  | unexpected (span : Span) (rule : Grammar.Name)
  deriving DecidableEq, Repr

def ShapeError.diagnostic : ShapeError → Diagnostic
  | .literalOutOfRange span literal => { code := .overflow, span := span, detail := literal }
  | .unexpected span rule =>
    { code := .internal, span := span, detail := "UNEXPECTED " ++ rule.text }

namespace Expr

def ofLiteral (span : Span) (literal : String) : Except ShapeError Expr :=
  match Word.read? literal.toList with
  | some n => .ok (.int span n)
  | none => .error (.literalOutOfRange span literal)

end Expr

def BinaryOp.ofKind? : Token.Kind → Option BinaryOp
  | .times => some .mul
  | .divide => some .div
  | .modulo => some .mod
  | .plus => some .add
  | .minus => some .sub
  | .equal => some .eq
  | .notEqual => some .ne
  | .less => some .lt
  | .lessEq => some .le
  | .greater => some .gt
  | .greaterEq => some .ge
  | .and => some .and
  | .or => some .or
  | _ => none

/-- The operator of a tree, if the rule is one of operators between operands. -/
def BinaryOp.ofOperator? (rule : Grammar.Name) (operator : Option Token) : Option BinaryOp :=
  match rule with
  | .or | .and | .equality | .comparison | .sum | .product => operator.bind fun t => ofKind? t.kind
  | _ => none

def UnaryOp.ofKind? : Token.Kind → Option UnaryOp
  | .minus => some .neg
  | .not => some .not
  | _ => none

/-- The text of an operator that has to be a name. -/
def nameOf (rule : Grammar.Name) (span : Span) (operator : Option Token) : Except ShapeError String :=
  match operator with
  | some token => if token.kind = .name then .ok token.text else .error (.unexpected span rule)
  | none => .error (.unexpected span rule)

/-- A left operand and its operator, waiting for the right operand. -/
structure LeftOperand where
  rule : Grammar.Name
  op : BinaryOp
  value : Expr

/-- An expression as the right operand of what waits for it. -/
def LeftOperand.join (left : Option LeftOperand) (right : Expr) : Expr :=
  match left with
  | none => right
  | some l => .binary l.op (l.value.span.join right.span) l.value right

/-- Whether a tree of the rule continues the chain of the waiting operator. -/
def LeftOperand.continues (left : Option LeftOperand) (rule : Grammar.Name) : Bool :=
  left.any fun l => l.rule == rule

namespace Expr

mutual

/-- The expression of a tree. What waits on the left takes the first operand of a tree with the same
rule, and the whole expression otherwise. -/
def ofTree (left : Option LeftOperand) : Tree → Except ShapeError Expr
  | .leaf .number index token => do
    return LeftOperand.join left (← ofLiteral ⟨index, index + 1⟩ token.text)
  | .leaf .ident index token => .ok (LeftOperand.join left (.var ⟨index, index + 1⟩ token.text))
  | .leaf rule index _ => .error (.unexpected ⟨index, index + 1⟩ rule)
  | .node .item span children _ =>
    match children with
    | inner :: _ => do return LeftOperand.join left (← ofTree none inner)
    | [] => .error (.unexpected span .item)
  | .node .call span children operator =>
    match children with
    | args :: rest => do
      let args ← ofArgs (args :: rest)
      return LeftOperand.join left (.call span (← nameOf .call span operator) args)
    | [] => .error (.unexpected span .call)
  | .node .unary span children operator =>
    match children, operator.bind fun t => UnaryOp.ofKind? t.kind with
    | .leaf .number _ token :: _, some .neg => do
      return LeftOperand.join left (← ofLiteral span ("-" ++ token.text))
    | operand :: _, some op => do
      return LeftOperand.join left (.unary op span (← ofTree none operand))
    | _, _ => .error (.unexpected span .unary)
  | .node rule span children operator =>
    match children, BinaryOp.ofOperator? rule operator with
    | a :: b :: _, some op => do
      let first ← ofTree none a
      if LeftOperand.continues left rule then
        ofTree (some ⟨rule, op, LeftOperand.join left first⟩) b
      else
        return LeftOperand.join left (← ofTree (some ⟨rule, op, first⟩) b)
    | _, _ => .error (.unexpected span rule)

/-- The arguments of a call; an argument list may hold another one. -/
def ofArgs : List Tree → Except ShapeError (List Expr)
  | [] => .ok []
  | .node .args _ children _ :: rest => do
    let args ← ofArgs children
    return args ++ (← ofArgs rest)
  | tree :: rest => do
    let arg ← ofTree none tree
    return arg :: (← ofArgs rest)

end

end Expr

namespace Stmt

/-- The names of a parameter list; a parameter list may hold another one. -/
def paramsOfTrees : List Tree → Except ShapeError (List String)
  | [] => .ok []
  | .leaf .ident _ token :: rest => do return token.text :: (← paramsOfTrees rest)
  | .node .params _ children _ :: rest => do
    let params ← paramsOfTrees children
    return params ++ (← paramsOfTrees rest)
  | tree :: _ => .error (.unexpected tree.span tree.rule)

/-- The statement of a tree for an assignment. -/
def ofAssign : Tree → Except ShapeError Stmt
  | .node .assign span (.leaf .ident _ target :: value :: _) _ => do
    return .assign span target.text (← Expr.ofTree none value)
  | tree => .error (.unexpected tree.span tree.rule)

/-- The statement of a tree in front of a semicolon. -/
def ofLine : Tree → Except ShapeError Stmt
  | .node .assign span children operator => ofAssign (.node .assign span children operator)
  | .node .print span (value :: _) _ => do return .print span (← Expr.ofTree none value)
  | .node .ret span [] _ => .ok (.ret span none)
  | .node .ret span (value :: _) _ => do return .ret span (some (← Expr.ofTree none value))
  | tree => do return .expr tree.span (← Expr.ofTree none tree)

mutual

/-- The statements of a tree for a block: its first statement and those of the block that follows. -/
def ofBlock : Tree → Except ShapeError (List Stmt)
  | .node .codeBlock _ [] _ => .ok []
  | .node .codeBlock _ (construct :: _) _ => ofConstruct construct
  | .node .lines _ (line :: rest) _ => do
    let first ← ofLine line
    return first :: (← ofRest rest)
  | tree => ofConstruct tree
termination_by tree => (sizeOf tree, 1)

/-- The statements of a tree for a compound statement: itself and those of the block that follows. -/
def ofConstruct : Tree → Except ShapeError (List Stmt)
  | .node .branch span (condition :: yes :: .node .otherwise _ (no :: rest) _ :: _) _ => do
    let condition ← Expr.ofTree none condition
    let yes ← ofBlock yes
    let no ← ofBlock no
    return .branch span condition yes no :: (← ofRest rest)
  | .node .branch span (condition :: yes :: rest) _ => do
    let condition ← Expr.ofTree none condition
    let yes ← ofBlock yes
    return .branch span condition yes [] :: (← ofRest rest)
  | .node .whileLoop span (condition :: body :: rest) _ => do
    let condition ← Expr.ofTree none condition
    let body ← ofBlock body
    return .whileLoop span condition body :: (← ofRest rest)
  | .node .forLoop span (init :: condition :: step :: body :: rest) _ => do
    let init ← ofAssign init
    let condition ← Expr.ofTree none condition
    let step ← ofAssign step
    let body ← ofBlock body
    return .forLoop span init condition step body :: (← ofRest rest)
  | .node .function span (params :: body :: rest) operator => do
    let params ← paramsOfTrees [params]
    let body ← ofBlock body
    let name ← nameOf .function span operator
    return .function span name params body :: (← ofRest rest)
  | tree => .error (.unexpected tree.span tree.rule)
termination_by tree => (sizeOf tree, 0)

/-- The statements of the block that may follow a statement. -/
def ofRest : List Tree → Except ShapeError (List Stmt)
  | [] => .ok []
  | block :: _ => ofBlock block
termination_by trees => (sizeOf trees, 0)

end

end Stmt

/-- The statements of a program's parse tree. -/
def Tree.statements (t : Tree) : Except ShapeError (List Stmt) := Stmt.ofBlock t

end Vee
