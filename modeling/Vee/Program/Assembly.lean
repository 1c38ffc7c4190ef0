import Vee.Program
import Vee.Text.Lines

/-!
# Assembly text

Mnemonics and decimal words separated by blanks. A line whose first character behind blanks is a number
sign is a comment. Written back, each instruction has a line of its own, and a word that is no operation
stands as a number.
-/

namespace Vee.Program

set_option autoImplicit false

inductive AssemblyError where
  | unknownMnemonic (text : String) (line : Nat)
  deriving DecidableEq, Repr

def AssemblyError.diagnostic : AssemblyError → Diagnostic
  | .unknownMnemonic text line =>
    { code := .unknownMnemonic, detail := text ++ " ON LINE " ++ line.repr }

/-- The word that a mnemonic or a number stands for. -/
def assembleWord? (cs : List Char) : Option Word :=
  match Opcode.ofMnemonic? (String.ofList cs) with
  | some op => some op.word
  | none => Word.read? cs

/-- The texts of a line that stand for words. -/
def assemblyTexts (line : List Char) : List (List Char) :=
  let line := Text.trim line
  if line.head? = some '#' then [] else Text.words line

/-- The words of lines and the errors in them; the first line has the given number. -/
def assembleLines : Nat → List (List Char) → List Word × List AssemblyError
  | _, [] => ([], [])
  | number, line :: rest =>
    let texts := assemblyTexts line
    let (words, errors) := assembleLines (number + 1) rest
    (texts.filterMap assembleWord? ++ words,
      (texts.filter fun t => (assembleWord? t).isNone).map
        (fun t => .unknownMnemonic (String.ofList t) number) ++ errors)

/-- The program of an assembly text, or all errors in the text. -/
def assemble (text : String) : Except (List AssemblyError) Program :=
  match assembleLines 1 (Text.lines text.toList) with
  | (words, []) => .ok ⟨words.toArray⟩
  | (_, errors) => .error errors

/-- One text for each instruction. An operation at the end may lack operands. -/
def disassembleWords : List Word → List String
  | [] => []
  | word :: rest =>
    match Opcode.ofWord? word with
    | some op =>
      " ".intercalate (op.mnemonic :: (rest.take op.operands).map Word.text) ::
        disassembleWords (rest.drop op.operands)
    | none => word.text :: disassembleWords rest
termination_by words => words.length
decreasing_by
  all_goals simp only [List.length_drop, List.length_cons]; omega

def disassemble (p : Program) : String :=
  String.join ((disassembleWords p.words.toList).map fun line => line ++ "\n")

end Vee.Program
