import Vee.Text.Blank

/-!
# Lines

A line ends at a line feed, and one carriage return before that line feed belongs to the ending.
Text after the last line feed is a line if there is any.
-/

namespace Vee.Text

set_option autoImplicit false

def dropReturn (cs : List Char) : List Char :=
  if cs.getLast? = some '\r' then cs.dropLast else cs

/-- The last field was not ended by a line feed. -/
def linesOfFields : List (List Char) → List (List Char)
  | [] => []
  | [last] => if last.isEmpty then [] else [last]
  | line :: rest => dropReturn line :: linesOfFields rest

def lines (cs : List Char) : List (List Char) :=
  linesOfFields (fields (· == '\n') cs)

end Vee.Text
