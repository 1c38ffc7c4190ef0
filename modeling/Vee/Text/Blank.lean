/-!
# Blank characters

The characters with the Unicode property White_Space, and trimming and splitting of text by them.
-/

namespace Vee.Text

set_option autoImplicit false

/-- Unicode White_Space: twenty-five characters. -/
def isBlank (c : Char) : Bool :=
  let n := c.toNat
  (0x09 ≤ n && n ≤ 0x0D) || n == 0x20 || n == 0x85 || n == 0xA0 || n == 0x1680 ||
    (0x2000 ≤ n && n ≤ 0x200A) || n == 0x2028 || n == 0x2029 || n == 0x202F || n == 0x205F ||
    n == 0x3000

/-- Removes blanks at both ends. -/
def trim (cs : List Char) : List Char :=
  ((cs.dropWhile isBlank).reverse.dropWhile isBlank).reverse

/-- Cuts at every character of the class; there is one field more than there are cuts. -/
def fields (sep : Char → Bool) : List Char → List (List Char)
  | [] => [[]]
  | c :: cs =>
    if sep c then [] :: fields sep cs
    else
      match fields sep cs with
      | [] => [[c]]
      | f :: fs => (c :: f) :: fs

/-- The maximal runs of characters that are not blank. -/
def words (cs : List Char) : List (List Char) :=
  (fields isBlank cs).filter (fun f => !f.isEmpty)

/-- The part before the first blank, and the part after it. -/
def cutAtBlank (cs : List Char) : List Char × List Char :=
  (cs.takeWhile (fun c => !isBlank c), (cs.dropWhile (fun c => !isBlank c)).tail)

end Vee.Text
