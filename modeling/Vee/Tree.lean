import Vee.Grammar
import Vee.Span

/-!
# Parse trees

A tree covers consecutive tokens. Leaves are tokens matched by terminal rules; an inner node has the
trees of the rule references of its pattern as children, and the operator token that its rule singles
out.
-/

namespace Vee

set_option autoImplicit false

inductive Tree where
  | leaf (rule : Grammar.Name) (index : Nat) (token : Token)
  | node (rule : Grammar.Name) (span : Span) (children : List Tree) (operator : Option Token)
  deriving Inhabited

namespace Tree

def rule : Tree → Grammar.Name
  | leaf r _ _ => r
  | node r _ _ _ => r

def span : Tree → Span
  | leaf _ i _ => ⟨i, i + 1⟩
  | node _ s _ _ => s

def operator : Tree → Option Token
  | leaf _ _ _ => none
  | node _ _ _ op => op

mutual

/-- Every subtree with its depth, parents first. -/
def preorder (depth : Nat) : Tree → List (Nat × Tree)
  | leaf r i t => [(depth, leaf r i t)]
  | node r s ts op => (depth, node r s ts op) :: preorderList (depth + 1) ts

def preorderList (depth : Nat) : List Tree → List (Nat × Tree)
  | [] => []
  | t :: ts => preorder depth t ++ preorderList depth ts

end

/-- The texts of the covered tokens. -/
def coveredText (tokens : Array Token) (s : Span) : String :=
  " ".intercalate ((tokens.extract s.start s.stop).toList.map Token.text)

/-- One subtree a line, indented by its depth: rule, operator and covered text. -/
def render (tokens : Array Token) (t : Tree) : String :=
  String.join ((t.preorder 0).map fun (depth, sub) =>
    String.join (List.replicate depth "  ") ++ sub.rule.text ++
      (match sub.operator with
        | some op => " [" ++ op.text ++ "]"
        | none => "") ++
      " " ++ coveredText tokens sub.span ++ "\n")

end Tree

end Vee
