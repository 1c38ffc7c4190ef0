import Vee.Span

/-!
# Diagnostics

What the stages report: a code, the place it refers to in the source or in a program, and a detail.
-/

namespace Vee

set_option autoImplicit false

namespace Diagnostic

inductive Code where
  | lexical
  | syntactic
  | undefinedVariable
  | undefinedFunction
  | overflow
  | stackOverflow
  | stackUnderflow
  | invalidAddress
  | illegalInstruction
  | divisionByZero
  | unknownMnemonic
  | interrupted
  | internal
  deriving DecidableEq, Repr, Inhabited

namespace Code

def title : Code → String
  | lexical => "LEXICAL ERROR"
  | syntactic => "SYNTAX ERROR"
  | undefinedVariable => "UNDEFINED VARIABLE"
  | undefinedFunction => "UNDEFINED FUNCTION"
  | overflow => "OVERFLOW"
  | stackOverflow => "STACK OVERFLOW"
  | stackUnderflow => "STACK UNDERFLOW"
  | invalidAddress => "INVALID ADDRESS"
  | illegalInstruction => "ILLEGAL INSTRUCTION"
  | divisionByZero => "DIVISION BY ZERO"
  | unknownMnemonic => "UNKNOWN MNEMONIC"
  | interrupted => "BREAK"
  | internal => "INTERNAL ERROR"

def number : Code → Nat
  | lexical => 1
  | syntactic => 2
  | undefinedVariable => 3
  | undefinedFunction => 4
  | overflow => 6
  | stackOverflow => 7
  | stackUnderflow => 8
  | invalidAddress => 9
  | illegalInstruction => 10
  | divisionByZero => 11
  | unknownMnemonic => 12
  | interrupted => 13
  | internal => 51

end Code

end Diagnostic

structure Diagnostic where
  code : Diagnostic.Code
  span : Span := Span.nowhere
  address : Option Nat := none
  detail : String := ""
  deriving DecidableEq, Repr, Inhabited

namespace Diagnostic

/-- Title, then address, span and detail as far as they are set. -/
def text (d : Diagnostic) : String :=
  d.code.title ++
    (match d.address with
      | some a => " AT " ++ a.repr
      | none => "") ++
    (if d.span = Span.nowhere then "" else " IN " ++ d.span.text) ++
    (if d.detail = "" then "" else "; " ++ d.detail)

/-- The form that shows a diagnostic as a value. -/
def quoted (d : Diagnostic) : String := "Error \x7b " ++ d.text ++ " \x7d"

end Diagnostic

end Vee
