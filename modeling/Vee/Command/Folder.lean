import Std.Data.TreeMap
import Vee.Command.Host
import Vee.Command.Path
import Vee.Command.Run
import Vee.Text.Utf8

/-!
# Commands without a file system

Commands run on a working directory that holds files and no directories, and their output is collected. Of
what lies outside, only the directories that every system has are known, and what is written there is not
kept.
-/

namespace Vee.Command

set_option autoImplicit false

/-- The directories that a path can lead through. -/
inductive Directory where
  | working
  /-- Any directory above the working one. -/
  | above
  | root
  | devices
  | temporary
  deriving DecidableEq, Repr

def Directory.parent : Directory → Directory
  | working => above
  | above => above
  | root => root
  | devices => root
  | temporary => root

inductive Entry where
  | directory (d : Directory)
  | file (bytes : ByteArray)

structure Folder where
  files : Std.TreeMap String ByteArray := ∅
  stdout : String := ""
  stderr : String := ""

namespace Folder

/-- The longest name of a file, in bytes. -/
def maxName : Nat := 255

/-- The longest path, in bytes. -/
def maxPath : Nat := 4095

def lookup (s : Folder) : Directory → String → Option Entry
  | .working, name => s.files[name]?.map .file
  | .root, "dev" => some (.directory .devices)
  | .root, "tmp" => some (.directory .temporary)
  | .devices, "null" => some (.file .empty)
  | _, _ => none

/-- What a directory has under a name. -/
def find (s : Folder) (d : Directory) (name : String) : Except FileError (Option Entry) :=
  if name.utf8ByteSize ≤ maxName then .ok (s.lookup d name) else .error .nameTooLong

/-- The directory that steps lead to. -/
def walk (s : Folder) (d : Directory) : List Path.Step → Except FileError Directory
  | [] => .ok d
  | .here :: rest => s.walk d rest
  | .up :: rest => s.walk d.parent rest
  | .name name :: rest => do
    match ← s.find d name with
    | none => throw .notFound
    | some (.file _) => throw .notDirectory
    | some (.directory inner) => s.walk inner rest

/-- The directory and the name in it that a path ends in. A path that ends otherwise is one of a directory. -/
def locate (s : Folder) (path : String) : Except FileError (Directory × String) := do
  if path.utf8ByteSize > maxPath then throw .nameTooLong
  let start := if Path.isAbsolute path then Directory.root else .working
  let steps := Path.steps path
  match steps.getLast? with
  | some (.name name) => return (← s.walk start steps.dropLast, name)
  | _ => do
    let _ ← s.walk start steps
    throw .isDirectory

def readText (s : Folder) (path : String) : Except FileError String := do
  let (d, name) ← s.locate path
  match ← s.find d name with
  | none => throw .notFound
  | some (.directory _) => throw .isDirectory
  | some (.file bytes) =>
    if Path.isClosed path then throw .notDirectory
    match String.fromUTF8? bytes with
    | some text => return text
    | none => throw .notText

/-- The folder after a text was written under a name. -/
def keep (s : Folder) (text : String) : Directory → String → Folder
  | .working, name => { s with files := s.files.insert name text.toUTF8 }
  | .devices, "stdout" => { s with stdout := s.stdout ++ text }
  | .devices, "stderr" => { s with stderr := s.stderr ++ text }
  | _, _ => s

/-- A path with a separator at its end is refused before its name is looked up. -/
def writeText (s : Folder) (path text : String) : Except FileError Folder := do
  let (d, name) ← s.locate path
  if Path.isClosed path then throw .isDirectory
  match ← s.find d name with
  | some (.directory _) => throw .isDirectory
  | _ => return s.keep text d name

/-- The files in the order of their names, with their contents as text. -/
def listing (s : Folder) : List (String × String) :=
  s.files.toList.map fun (name, bytes) => (name, String.ofList (Text.decode bytes.toList))

end Folder

instance : Host (StateM Folder) where
  readText path := do return ((← get).readText path).mapError FileError.text
  writeText path text := do
    match (← get).writeText path text with
    | .ok s => do
      set s
      return .ok ()
    | .error e => return .error e.text
  out text := modify fun s => { s with stdout := s.stdout ++ text }
  err text := modify fun s => { s with stderr := s.stderr ++ text }

/-- The exit code of a command and the folder behind it. -/
def Folder.run (s : Folder) (slices : Nat) (args : List String) : Nat × Folder :=
  (invoke slices args : StateM Folder Nat).run s

end Vee.Command
