import Vee.Program
import Vee.Proofs.Text.Separation

/-! # Words in decimal

A word is read back from its text, which is one word of a text file.
-/

namespace Vee.Word

set_option autoImplicit false

theorem readDigits?_repr (n : Nat) : readDigits? n.repr.toList = some n := by
  have hDigits : (!(Nat.toDigits 10 n).isEmpty && (Nat.toDigits 10 n).all Char.isDigit) = true := by
    rw [Bool.and_eq_true, List.all_eq_true]
    refine ⟨?_, fun c hMem => Nat.isDigit_of_mem_toDigits (by decide) (by decide) hMem⟩
    simp [Nat.toDigits_ne_nil]
  rw [readDigits?, Nat.toList_repr, if_pos hDigits]
  exact congrArg some (Nat.ofDigitChars_ten_toDigits)

theorem ofInt?_toInt (w : Word) : ofInt? w.toInt = some w := by
  have hLower : -2147483648 ≤ w.toInt := w.minValue_le_toInt
  have hUpper : w.toInt ≤ 2147483647 := w.toInt_le
  rw [ofInt?, if_pos ⟨hLower, hUpper⟩, Int32.ofInt_toInt]

theorem read?_digits {cs : List Char} {n : Nat} (h : readDigits? cs = some n) : read? cs = ofNat? n := by
  unfold read?
  split
  · simp [readDigits?, show Char.isDigit '-' = false from rfl] at h
  · simp [readDigits?, show Char.isDigit '+' = false from rfl] at h
  · rw [h, Option.bind_some]

theorem read?_natAbs {w : Word} (h : ¬ w < 0) : read? w.toInt.natAbs.repr.toList = some w := by
  have hSign : 0 ≤ w.toInt := Int32.le_iff_toInt_le.mp (Int32.not_lt.mp h)
  rw [read?_digits (readDigits?_repr _), ofNat?, Int.natAbs_of_nonneg hSign, ofInt?_toInt]

theorem read?_neg_natAbs {w : Word} (h : w < 0) : read? ("-" ++ w.toInt.natAbs.repr).toList = some w := by
  have hSign : w.toInt < 0 := Int32.lt_iff_toInt_lt.mp h
  have hChars : ("-" ++ w.toInt.natAbs.repr).toList = '-' :: w.toInt.natAbs.repr.toList := String.toList_append
  rw [hChars, read?, readDigits?_repr, Option.bind_some, Int.ofNat_natAbs_of_nonpos (Int.le_of_lt hSign),
    Int.neg_neg, ofInt?_toInt]

theorem text_eq (w : Word) :
    w.text = if w < 0 then "-" ++ w.toInt.natAbs.repr else w.toInt.natAbs.repr := by
  simp only [text, Int32.lt_iff_toInt_lt, Int32.toInt_zero]
  cases w.toInt with
  | ofNat n => rfl
  | negSucc n => exact (if_pos (Int.negSucc_lt_zero n)).symm

theorem read?_text (w : Word) : read? w.text.toList = some w := by
  rw [text_eq]
  split
  · rename_i hSign
    exact read?_neg_natAbs hSign
  · rename_i hSign
    exact read?_natAbs hSign

theorem isDigit_of_mem_repr {n : Nat} {c : Char} (h : c ∈ n.repr.toList) : c.isDigit = true := by
  rw [Nat.toList_repr] at h
  exact Nat.isDigit_of_mem_toDigits (by decide) (by decide) h

theorem isAlpha_of_isDigit {c : Char} (h : c.isDigit = true) : c.isAlpha = false := by
  simp only [Char.isDigit, Bool.and_eq_true, decide_eq_true_eq, ge_iff_le, UInt32.le_iff_toNat_le] at h
  simp only [Char.isAlpha, Char.isUpper, Char.isLower, Bool.or_eq_false_iff, Bool.and_eq_false_iff,
    decide_eq_false_iff_not, ge_iff_le, UInt32.le_iff_toNat_le]
  change 48 ≤ c.toNat ∧ c.toNat ≤ 57 at h
  change ¬ (65 ≤ c.toNat ∧ c.toNat ≤ 90) ∧ (¬ 97 ≤ c.toNat ∨ ¬ c.toNat ≤ 122)
  omega

theorem mem_text {w : Word} {c : Char} (h : c ∈ w.text.toList) : c = '-' ∨ c.isDigit = true := by
  rw [text_eq] at h
  split at h
  · rw [String.toList_append, List.mem_append] at h
    exact h.imp List.mem_singleton.mp isDigit_of_mem_repr
  · exact .inr (isDigit_of_mem_repr h)

theorem solid_repr (n : Nat) : Text.Solid n.repr.toList := by
  constructor
  · rw [Nat.toList_repr]
    exact Nat.toDigits_ne_nil
  · intro c hMem
    exact Text.isBlank_of_isAlphanum (by rw [Char.isAlphanum, isDigit_of_mem_repr hMem, Bool.or_true])

theorem solid_text (w : Word) : Text.Solid w.text.toList := by
  rw [text_eq]
  split
  · rw [String.toList_append]
    exact Text.Solid.append (by decide) (solid_repr _)
  · exact solid_repr _

end Vee.Word
