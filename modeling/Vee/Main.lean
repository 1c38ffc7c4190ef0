import Vee.Command.Run

/-!
# The command line tool
-/

namespace Vee.Command

set_option autoImplicit false

/-- The system gives a code with either sign, by the call that failed. -/
def FileError.ofCode? (code : UInt32) : Option FileError :=
  match min code (0 - code) with
  | 2 => some notFound
  | 13 => some denied
  | 20 => some notDirectory
  | 21 => some isDirectory
  | 36 => some nameTooLong
  | _ => none

def systemCode : IO.Error → UInt32
  | .noFileOrDirectory _ code _ => code
  | .permissionDenied _ code _ => code
  | .inappropriateType _ code _ => code
  | .invalidArgument _ code _ => code
  | _ => 0

def failureText (e : IO.Error) : String :=
  match FileError.ofCode? (systemCode e) with
  | some cause => cause.text
  | none => toString e

def readTextFile (path : String) : IO (Except String String) := do
  try
    match String.fromUTF8? (← IO.FS.readBinFile path) with
    | some text => return .ok text
    | none => return .error (FileError.text .notText)
  catch e => return .error (failureText e)

def writeTextFile (path text : String) : IO (Except String Unit) := do
  try
    IO.FS.writeBinFile path text.toUTF8
    return .ok ()
  catch e => return .error (failureText e)

instance : Host IO where
  readText := readTextFile
  writeText := writeTextFile
  out text := do
    let stdout ← IO.getStdout
    stdout.putStr text
    stdout.flush
  err text := IO.eprint text

end Vee.Command

/-- So many slices last longer than any run. -/
def Vee.Command.endless : Nat := 18446744073709551616

def main (args : List String) : IO UInt32 := do
  return UInt32.ofNat (← Vee.Command.invoke Vee.Command.endless args)
