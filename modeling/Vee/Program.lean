import Vee.Diagnostic
import Vee.Opcode
import Vee.Text.Blank

/-!
# Programs

A program is a list of words: operations interleaved with their operands. It is written as decimal
words separated by blanks or by commas.
-/

namespace Vee

set_option autoImplicit false

structure Program where
  words : Array Word
  deriving DecidableEq, Repr, Inhabited

namespace Program

/-- The program that stops at once. -/
def halt : Program := ⟨#[Opcode.halt.word]⟩

inductive ReadError where
  | invalidWord (text : String)
  deriving DecidableEq, Repr

def ReadError.diagnostic : ReadError → Diagnostic
  | .invalidWord text => { code := .syntactic, detail := "INVALID PROGRAM WORD " ++ text }

def readWord (cs : List Char) : Except ReadError Word :=
  match Word.read? cs with
  | some w => .ok w
  | none => .error (.invalidWord (String.ofList cs))

def ofTexts (texts : List (List Char)) : Except ReadError Program := do
  return ⟨(← texts.mapM readWord).toArray⟩

/-- Words separated by blanks. -/
def ofText (text : String) : Except ReadError Program := ofTexts (Text.words text.toList)

/-- Words separated by commas, with blanks around them; empty places are skipped. -/
def ofCommaList (text : String) : Except ReadError Program :=
  ofTexts (((Text.fields (· == ',') text.toList).map Text.trim).filter fun f => !f.isEmpty)

/-- One line of words with single spaces between them. -/
def text (p : Program) : String := " ".intercalate (p.words.toList.map Word.text) ++ "\n"

end Program

end Vee
