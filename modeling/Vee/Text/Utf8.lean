/-!
# Reading bytes as text

Bytes that are no UTF-8 show as replacement characters, one for each longest run of bytes that begins a
character but does not finish it, and one for each byte that begins none.
-/

namespace Vee.Text

set_option autoImplicit false

/-- The range of the second byte and the number of bytes behind it, given a first byte that begins a
character of more than one byte. -/
def leadByte? (b : UInt8) : Option (UInt8 × UInt8 × Nat) :=
  if 0xC2 ≤ b ∧ b ≤ 0xDF then some (0x80, 0xBF, 0)
  else if b = 0xE0 then some (0xA0, 0xBF, 1)
  else if b = 0xED then some (0x80, 0x9F, 1)
  else if 0xE1 ≤ b ∧ b ≤ 0xEF then some (0x80, 0xBF, 1)
  else if b = 0xF0 then some (0x90, 0xBF, 2)
  else if 0xF1 ≤ b ∧ b ≤ 0xF3 then some (0x80, 0xBF, 2)
  else if b = 0xF4 then some (0x80, 0x8F, 2)
  else none

/-- The bits that the first byte of a character carries, given the number of bytes behind the second. -/
def leadBits (b : UInt8) : Nat → Nat
  | 0 => b.toNat % 32
  | 1 => b.toNat % 16
  | _ => b.toNat % 8

/-- Takes continuation bytes, at most so many, and adds their bits to a code. The outcome is whether all
were there, the code, and the remaining bytes. -/
def takeContinuation : Nat → Nat → List UInt8 → Bool × Nat × List UInt8
  | 0, code, bytes => (true, code, bytes)
  | _ + 1, code, [] => (false, code, [])
  | n + 1, code, b :: rest =>
    if 0x80 ≤ b ∧ b ≤ 0xBF then takeContinuation n (code * 64 + b.toNat % 64) rest
    else (false, code, b :: rest)

theorem length_takeContinuation (n code : Nat) (bytes : List UInt8) :
    (takeContinuation n code bytes).2.2.length ≤ bytes.length := by
  fun_induction takeContinuation n code bytes with
  | case1 => exact Nat.le_refl _
  | case2 => exact Nat.le_refl _
  | case3 _ _ _ _ _ ih => exact Nat.le_succ_of_le ih
  | case4 => exact Nat.le_refl _

def replacement : Char := '�'

/-- The text of bytes, with replacement characters for what is no text. -/
def decode (bytes : List UInt8) : List Char :=
  match bytes with
  | [] => []
  | b :: rest =>
    if b < 0x80 then Char.ofNat b.toNat :: decode rest
    else
      match leadByte? b, rest with
      | some (low, high, more), second :: tail =>
        if low ≤ second ∧ second ≤ high then
          let taken := takeContinuation more
            (leadBits b more * 64 + second.toNat % 64) tail
          (if taken.1 then Char.ofNat taken.2.1 else replacement) :: decode taken.2.2
        else replacement :: decode (second :: tail)
      | _, rest => replacement :: decode rest
termination_by bytes.length
decreasing_by
  · simp
  · have hLength := length_takeContinuation more
      (leadBits b more * 64 + second.toNat % 64) tail
    simp only [List.length_cons]
    omega
  · simp
  · simp_all

end Vee.Text
