/-!
# What a command needs of its surroundings

Reading and writing files may fail; the failure is a text for the user.
-/

namespace Vee.Command

set_option autoImplicit false

class Host (m : Type → Type) where
  readText (path : String) : m (Except String String)
  writeText (path text : String) : m (Except String Unit)
  out (text : String) : m Unit
  err (text : String) : m Unit

/-- The ways in which a file cannot be read or written. -/
inductive FileError where
  | notFound
  | denied
  | notDirectory
  | isDirectory
  | nameTooLong
  | notText
  deriving DecidableEq, Repr

def FileError.text : FileError → String
  | notFound => "No such file or directory (os error 2)"
  | denied => "Permission denied (os error 13)"
  | notDirectory => "Not a directory (os error 20)"
  | isDirectory => "Is a directory (os error 21)"
  | nameTooLong => "File name too long (os error 36)"
  | notText => "stream did not contain valid UTF-8"

end Vee.Command
