/-!
# Machine words

Signed 32-bit integers. Arithmetic is done exactly in the integers and fails where the result is no
word. Words are read and written in decimal.
-/

namespace Vee

set_option autoImplicit false

abbrev Word := Int32

namespace Word

/-- The word with this value, if it fits in 32 bits. -/
def ofInt? (n : Int) : Option Word :=
  if -2147483648 ≤ n ∧ n ≤ 2147483647 then some (Int32.ofInt n) else none

def ofNat? (n : Nat) : Option Word := ofInt? n

def ofBool (b : Bool) : Word := if b then 1 else 0

/-- The natural number with this value, if it is not negative. -/
def toNat? (w : Word) : Option Nat :=
  match w.toInt with
  | .ofNat n => some n
  | .negSucc _ => none

def add? (a b : Word) : Option Word := ofInt? (a.toInt + b.toInt)

def sub? (a b : Word) : Option Word := ofInt? (a.toInt - b.toInt)

def mul? (a b : Word) : Option Word := ofInt? (a.toInt * b.toInt)

def neg? (a : Word) : Option Word := ofInt? (-a.toInt)

/-- The quotient rounded toward zero, for a divisor that is not zero. -/
def div? (a b : Word) : Option Word := ofInt? (a.toInt.tdiv b.toInt)

/-- The remainder with the sign of the dividend. It is defined where the quotient is a word. -/
def mod? (a b : Word) : Option Word :=
  (div? a b).bind fun _ => ofInt? (a.toInt.tmod b.toInt)

/-- The value of a non-empty list of decimal digits. -/
def readDigits? (cs : List Char) : Option Nat :=
  if !cs.isEmpty && cs.all Char.isDigit then
    some (cs.foldl (fun n c => 10 * n + (c.toNat - '0'.toNat)) 0)
  else none

/-- Reads an optional sign and decimal digits, nothing else. -/
def read? : List Char → Option Word
  | '-' :: ds => (readDigits? ds).bind fun n => ofInt? (-n)
  | '+' :: ds => (readDigits? ds).bind ofNat?
  | ds => (readDigits? ds).bind ofNat?

def text (w : Word) : String := w.toInt.repr

theorem toInt_of_toNat? {w : Word} {n : Nat} (h : w.toNat? = some n) : w.toInt = n := by
  rw [toNat?] at h
  split at h
  · rename_i k hInt
    cases h
    exact hInt
  · cases h

theorem toInt_of_toNat?_none {w : Word} (h : w.toNat? = none) : w.toInt < 1 := by
  rw [toNat?] at h
  split at h
  · cases h
  · rename_i n hInt
    rw [hInt]
    omega

end Word

end Vee
