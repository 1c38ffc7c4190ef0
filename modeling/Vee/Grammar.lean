import Vee.Token

/-!
# The grammar

A table of rules. The alternatives of a rule stand in the order in which they are tried. In a pattern
no two rule references are adjacent, so that each reference is bounded by the element behind it or by
the end of the tokens to be covered.
-/

namespace Vee.Grammar

set_option autoImplicit false

open Token (Kind)

inductive Name where
  | codeBlock
  | branch
  | otherwise
  | whileLoop
  | forLoop
  | function
  | lines
  | line
  | print
  | assign
  | params
  | args
  | ret
  | or
  | and
  | equality
  | comparison
  | sum
  | product
  | unary
  | item
  | call
  | number
  | ident
  deriving DecidableEq, Hashable, Repr, Inhabited

namespace Name

def all : List Name :=
  [codeBlock, branch, otherwise, whileLoop, forLoop, function, lines, line, print, assign, params,
    args, ret, or, and, equality, comparison, sum, product, unary, item, call, number, ident]

def text : Name → String
  | codeBlock => "code_block"
  | branch => "if"
  | otherwise => "else"
  | whileLoop => "while"
  | forLoop => "for"
  | function => "function"
  | lines => "lines"
  | line => "line"
  | print => "print"
  | assign => "assign"
  | params => "args_dec"
  | args => "args"
  | ret => "ret"
  | or => "or"
  | and => "and"
  | equality => "equality"
  | comparison => "comparison"
  | sum => "sum"
  | product => "product"
  | unary => "unary"
  | item => "item"
  | call => "func_call"
  | number => "const"
  | ident => "ref"

def ofText? (s : String) : Option Name := all.find? fun n => n.text == s

end Name

inductive Element where
  | literal (kind : Kind)
  | oneOf (kinds : List Kind)
  | rule (name : Name)
  deriving DecidableEq, Repr

namespace Element

/-- Whether one token of the kind satisfies the element; a rule reference accepts none itself. -/
def accepts : Element → Kind → Bool
  | literal k, kind => k == kind
  | oneOf ks, kind => ks.contains kind
  | rule _, _ => false

def text : Element → String
  | literal k => k.tag
  | oneOf ks => "(" ++ " | ".intercalate (ks.map Kind.tag) ++ ")"
  | rule n => "$" ++ n.text

end Element

abbrev Pattern := List Element

def Pattern.text (p : Pattern) : String :=
  if p.isEmpty then "<empty>" else " ".intercalate (p.map Element.text)

structure Rule where
  alternatives : List Pattern
  /-- The position in a pattern whose token becomes the operator of the tree. -/
  operator : Option Nat := none
  /-- A terminal rule covers one token. -/
  terminal : Bool := false
  deriving DecidableEq, Repr

open Element

/-- A condition in parentheses and a block in braces. -/
def guarded : Pattern :=
  [literal .openParen, rule .or, literal .closeParen, literal .openBrace, rule .codeBlock,
    literal .closeBrace]

def forHead : Pattern :=
  [literal .openParen, rule .assign, literal .semicolon, rule .or, literal .semicolon, rule .assign,
    literal .closeParen, literal .openBrace, rule .codeBlock, literal .closeBrace]

def functionHead : Pattern :=
  [literal .name, literal .openParen, rule .params, literal .openBrace, rule .codeBlock,
    literal .closeBrace]

def elseHead : Pattern :=
  [literal .elseWord, literal .openBrace, rule .codeBlock, literal .closeBrace]

/-- An operator of the given kinds between a tighter and an equally tight operand. -/
def chainRule (tighter self : Name) (operator : Element) : Rule :=
  { alternatives := [[rule tighter, operator, rule self], [rule tighter]], operator := some 1 }

def table : Name → Rule
  | .codeBlock =>
    { alternatives :=
        [[literal .func, rule .function], [literal .whileWord, rule .whileLoop],
          [literal .forWord, rule .forLoop], [literal .ifWord, rule .branch], [rule .lines], []] }
  | .branch => { alternatives := [guarded ++ [rule .otherwise], guarded ++ [rule .codeBlock], guarded] }
  | .otherwise => { alternatives := [elseHead ++ [rule .codeBlock], elseHead] }
  | .whileLoop => { alternatives := [guarded ++ [rule .codeBlock], guarded] }
  | .forLoop => { alternatives := [forHead ++ [rule .codeBlock], forHead] }
  | .function =>
    { alternatives := [functionHead ++ [rule .codeBlock], functionHead], operator := some 0 }
  | .lines =>
    { alternatives :=
        [[rule .line, literal .semicolon], [rule .line, literal .semicolon, rule .codeBlock]] }
  | .line => { alternatives := [[rule .assign], [rule .print], [rule .ret], [rule .or]] }
  | .print =>
    { alternatives := [[literal .print, literal .openParen, rule .or, literal .closeParen]] }
  | .assign =>
    { alternatives :=
        [[rule .ident, literal .assign, rule .or],
          [literal .var, rule .ident, literal .assign, rule .or]] }
  | .params =>
    { alternatives :=
        [[rule .ident, literal .comma, rule .params], [rule .ident, literal .closeParen],
          [literal .closeParen], []] }
  | .args => { alternatives := [[rule .or, literal .comma, rule .args], [rule .or], []] }
  | .ret => { alternatives := [[literal .ret, rule .or], [literal .ret]] }
  | .or => chainRule .and .or (literal .or)
  | .and => chainRule .equality .and (literal .and)
  | .equality => chainRule .comparison .equality (oneOf [.equal, .notEqual])
  | .comparison => chainRule .sum .comparison (oneOf [.greater, .greaterEq, .less, .lessEq])
  | .sum => chainRule .product .sum (oneOf [.minus, .plus])
  | .product => chainRule .unary .product (oneOf [.times, .divide, .modulo])
  | .unary =>
    { alternatives := [[oneOf [.minus, .not], rule .unary], [rule .item]], operator := some 0 }
  | .item =>
    { alternatives :=
        [[rule .call], [literal .openParen, rule .or, literal .closeParen], [rule .number],
          [rule .ident]] }
  | .call =>
    { alternatives := [[literal .name, literal .openParen, rule .args, literal .closeParen]],
      operator := some 0 }
  | .number => { alternatives := [[literal .number]], terminal := true }
  | .ident => { alternatives := [[literal .name]], terminal := true }

/-- The rule that a whole program is matched against. -/
def root : Name := .codeBlock

def Name.ruleText (n : Name) : String :=
  n.text ++ " := " ++ " | ".intercalate ((table n).alternatives.map Pattern.text)

/-- One rule a line. -/
def text : String := String.join (Name.all.map fun n => n.ruleText ++ "\n")

end Vee.Grammar
