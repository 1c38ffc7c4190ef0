import Vee.Diagnostic
import Vee.Relocations

/-!
# Errors of code generation
-/

namespace Vee

set_option autoImplicit false

inductive CompileError where
  | undefinedVariable (span : Span) (name : String)
  | undefinedFunction (span : Span) (name : String)
  | wrongArity (span : Span) (name : String) (arity : Nat)
  | returnOutsideFunction (span : Span)
  | duplicateFunction (span : Span) (name : String)
  | duplicateParameter (name : String)
  | programTooLarge
  | tooManyLocals (span : Span)
  | tooManyGlobals (span : Span)
  | numberTooLarge (span : Span) (name : String)
  | link (error : LinkError)
  deriving DecidableEq, Repr

def CompileError.diagnostic : CompileError → Diagnostic
  | undefinedVariable span name => { code := .undefinedVariable, span := span, detail := name }
  | undefinedFunction span name => { code := .undefinedFunction, span := span, detail := name }
  | wrongArity span name arity =>
    { code := .syntactic, span := span, detail := name ++ " EXPECTS " ++ arity.repr ++ " ARGUMENTS" }
  | returnOutsideFunction span =>
    { code := .syntactic, span := span, detail := "RETURN OUTSIDE FUNCTION" }
  | duplicateFunction span name =>
    { code := .syntactic, span := span, detail := "DUPLICATE FUNCTION " ++ name }
  | duplicateParameter name => { code := .syntactic, detail := "DUPLICATE PARAMETER " ++ name }
  | programTooLarge => { code := .overflow, detail := "PROGRAM TOO LARGE" }
  | tooManyLocals span => { code := .overflow, span := span, detail := "TOO MANY LOCALS" }
  | tooManyGlobals span => { code := .overflow, span := span, detail := "TOO MANY GLOBALS" }
  | numberTooLarge span name => { code := .overflow, span := span, detail := name }
  | link error => error.diagnostic

end Vee
