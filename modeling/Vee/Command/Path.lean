import Vee.Text.Blank

/-!
# Paths

A path is a row of steps with separators between them. The extension of a file name is what follows its
last dot, unless nothing comes before that dot.
-/

namespace Vee.Command.Path

set_option autoImplicit false

inductive Step where
  /-- To the same directory. -/
  | here
  /-- To the directory above. -/
  | up
  | name (name : String)
  deriving DecidableEq, Repr

def Step.ofField (field : List Char) : Step :=
  if field = ['.'] then here
  else if field = ['.', '.'] then up
  else name (String.ofList field)

/-- The steps of a path. Separators in a row count once. -/
def steps (path : String) : List Step :=
  ((Text.fields (· == '/') path.toList).filter fun field => !field.isEmpty).map Step.ofField

/-- Whether the path starts at the root. -/
def isAbsolute (path : String) : Bool := path.startsWith "/"

/-- Whether a separator stands at the end, so that the path is one of a directory. -/
def isClosed (path : String) : Bool := path.endsWith "/"

/-! ## Extensions -/

/-- A file name without its extension. -/
def stem (name : List Char) : List Char :=
  match (name.reverse.dropWhile (· ≠ '.')).tail.reverse with
  | [] => name
  | before => before

def extension (name : List Char) : List Char := name.drop ((stem name).length + 1)

/-- The fields of a path up to that of its file name, which comes first. Empty fields and single dots at the
end are not names, and a path that ends in two dots has none. -/
def fileFields? (path : List Char) : Option (List Char × List (List Char)) :=
  match (Text.fields (· == '/') path).reverse.dropWhile fun s => s.isEmpty || s == ['.'] with
  | [] => none
  | name :: before => if name = ['.', '.'] then none else some (name, before)

/-- The path of the file whose name has an extension in place of its own. A path without a file name is left
alone. -/
def setExtension (path : List Char) (extension : String) : String :=
  match fileFields? path with
  | none => String.ofList path
  | some (name, before) =>
    "/".intercalate ((stem name :: before).reverse.map String.ofList) ++ "." ++ extension

/-- Replaces the extension of the file that a path names. The extension is taken off before the other is set
and its dot stays, so that a name of two dots and an extension becomes two dots alone. -/
def withExtension (path extension : String) : String :=
  let cs := path.toList
  let old := ((fileFields? cs).map fun (name, _) => Path.extension name).getD []
  setExtension (cs.take (cs.length - old.length)) extension

end Vee.Command.Path
