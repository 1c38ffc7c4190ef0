import Vee.Proofs.Machine.Bounds

/-! # Arithmetic of the machine

An arithmetic instruction replaces its operands by the exact result, or fails since it divides by zero or since the
result is no word. A remainder is taken only where the quotient is a word: the remainder of -2147483648 by -1 is zero,
and still counts as an overflow.
-/

namespace Vee

set_option autoImplicit false

open Effect

/-! ## Exact results -/

namespace Word

/-- The integers that are words. -/
def InRange (n : Int) : Prop := -2147483648 ≤ n ∧ n ≤ 2147483647

variable {a b : Word}

theorem inRange_toInt (a : Word) : InRange a.toInt := by
  have hLow := a.le_toInt
  have hHigh := a.toInt_lt
  constructor <;> omega

theorem toInt_ne_zero (h : b ≠ 0) : b.toInt ≠ 0 := by
  intro hZero
  exact h (Int32.toInt_inj.mp hZero)

/-- Only the smallest word divided by -1 has a quotient that is no word. -/
theorem inRange_tdiv_iff (h : b ≠ 0) : InRange (a.toInt.tdiv b.toInt) ↔ ¬ (a = -2147483648 ∧ b = -1) := by
  constructor
  · rintro ⟨_, hHigh⟩ ⟨rfl, rfl⟩
    exact absurd hHigh (by decide)
  · intro hNot
    have hZero := toInt_ne_zero h
    obtain ⟨hLow, hHigh⟩ := inRange_toInt a
    have hSize : (a.toInt.tdiv b.toInt).natAbs = a.toInt.natAbs / b.toInt.natAbs := Int.natAbs_tdiv ..
    have hLe : a.toInt.natAbs / b.toInt.natAbs ≤ a.toInt.natAbs := Nat.div_le_self ..
    by_cases hOne : b.toInt = -1
    · have hOther : a.toInt ≠ -2147483648 := fun hEq => hNot ⟨Int32.toInt_inj.mp hEq, Int32.toInt_inj.mp hOne⟩
      constructor <;> omega
    · by_cases hUnit : b.toInt = 1
      · rw [hUnit, Int.tdiv_one]
        exact ⟨hLow, hHigh⟩
      · have hHalf : a.toInt.natAbs / b.toInt.natAbs ≤ a.toInt.natAbs / 2 := Nat.div_le_div_left (by omega) (by decide)
        constructor <;> omega

theorem inRange_tmod (h : b ≠ 0) : InRange (a.toInt.tmod b.toInt) := by
  have hZero := toInt_ne_zero h
  obtain ⟨hLow, hHigh⟩ := inRange_toInt b
  have hSize : (a.toInt.tmod b.toInt).natAbs = a.toInt.natAbs % b.toInt.natAbs := Int.natAbs_tmod ..
  have hLt : a.toInt.natAbs % b.toInt.natAbs < b.toInt.natAbs := Nat.mod_lt _ (by omega)
  constructor <;> omega

theorem ofInt?_of_inRange {n : Int} (h : InRange n) : ofInt? n = some (Int32.ofInt n) := if_pos h

theorem ofInt?_of_not_inRange {n : Int} (h : ¬ InRange n) : ofInt? n = none := if_neg h

theorem mod?_eq (h : b ≠ 0) :
    mod? a b = if a = -2147483648 ∧ b = -1 then none else some (Int32.ofInt (a.toInt.tmod b.toInt)) := by
  rw [mod?, div?]
  split
  · rename_i hSmallest
    rw [ofInt?_of_not_inRange ((inRange_tdiv_iff h).not.mpr (not_not_intro hSmallest))]
    rfl
  · rename_i hOther
    rw [ofInt?_of_inRange ((inRange_tdiv_iff h).mpr hOther), Option.bind_some, ofInt?_of_inRange (inRange_tmod h)]

end Word

namespace Opcode

/-- The exact result of an arithmetic operation on its operands, the topmost of which stands last. A quotient is
rounded toward zero, and a remainder has the sign of the dividend. -/
def ideal? : Opcode → List Word → Option Int
  | .add, [a, b] => some (a.toInt + b.toInt)
  | .sub, [a, b] => some (a.toInt - b.toInt)
  | .mul, [a, b] => some (a.toInt * b.toInt)
  | .div, [a, b] => some (a.toInt.tdiv b.toInt)
  | .mod, [a, b] => some (a.toInt.tmod b.toInt)
  | .neg, [a] => some (-a.toInt)
  | _, _ => none

def DividesByZero (op : Opcode) (operands : List Word) : Prop :=
  (op = .div ∨ op = .mod) ∧ operands.getLast? = some 0

/-- The exact result is no word, or it is a remainder whose quotient is none. -/
def Overflows (op : Opcode) (operands : List Word) (n : Int) : Prop :=
  ¬ Word.InRange n ∨ op = .mod ∧ operands = [-2147483648, -1]

instance (n : Int) : Decidable (Word.InRange n) := inferInstanceAs (Decidable (_ ∧ _))

instance (op : Opcode) (operands : List Word) : Decidable (op.DividesByZero operands) :=
  inferInstanceAs (Decidable (_ ∧ _))

instance (op : Opcode) (operands : List Word) (n : Int) : Decidable (op.Overflows operands n) :=
  inferInstanceAs (Decidable (_ ∨ _))

/-- What becomes of the operands of an operation with an exact result. -/
def outcome (op : Opcode) (operands : List Word) (n : Int) : Except Fault Word :=
  if op.DividesByZero operands then .error .divisionByZero
  else if op.Overflows operands n then .error .overflow
  else .ok (Int32.ofInt n)

variable {operands : List Word} {n : Int} {a b : Word}

theorem ne_nil_of_ideal? {op : Opcode} (h : op.ideal? operands = some n) : operands ≠ [] := by
  rintro rfl
  cases op <;> cases h

theorem outcome_eq_ofInt? (op : Opcode) (h : ¬ (op = .div ∨ op = .mod)) :
    op.outcome operands n = Eval.checked (Word.ofInt? n) := by
  have hZero : ¬ op.DividesByZero operands := fun hDivides => h hDivides.1
  have hOverflows : op.Overflows operands n ↔ ¬ Word.InRange n := by simp [Overflows, (not_or.mp h).2]
  rw [outcome, if_neg hZero]
  by_cases hRange : Word.InRange n
  · rw [if_neg (hOverflows.not.mpr (not_not_intro hRange)), Word.ofInt?_of_inRange hRange]
    rfl
  · rw [if_pos (hOverflows.mpr hRange), Word.ofInt?_of_not_inRange hRange]
    rfl

theorem outcome_div : outcome .div [a, b] (a.toInt.tdiv b.toInt) = Eval.binary .div a b := by
  by_cases hZero : b = 0
  · subst hZero
    rfl
  · have hDivisor : ¬ DividesByZero .div [a, b] := by simpa [DividesByZero] using hZero
    rw [outcome, if_neg hDivisor, Eval.binary, if_neg hZero, Word.div?]
    by_cases hRange : Word.InRange (a.toInt.tdiv b.toInt)
    · rw [if_neg (by simpa [Overflows] using hRange), Word.ofInt?_of_inRange hRange]
      rfl
    · rw [if_pos (.inl hRange), Word.ofInt?_of_not_inRange hRange]
      rfl

theorem outcome_mod : outcome .mod [a, b] (a.toInt.tmod b.toInt) = Eval.binary .mod a b := by
  by_cases hZero : b = 0
  · subst hZero
    rfl
  · have hDivisor : ¬ DividesByZero .mod [a, b] := by simpa [DividesByZero] using hZero
    have hOverflows : Overflows .mod [a, b] (a.toInt.tmod b.toInt) ↔ a = -2147483648 ∧ b = -1 := by
      simp [Overflows, Word.inRange_tmod hZero]
    rw [outcome, if_neg hDivisor, Eval.binary, if_neg hZero, Word.mod?_eq hZero]
    by_cases hSmallest : a = -2147483648 ∧ b = -1
    · rw [if_pos (hOverflows.mpr hSmallest), if_pos hSmallest]
      rfl
    · rw [if_neg (hOverflows.not.mpr hSmallest), if_neg hSmallest]
      rfl

end Opcode

/-! ## The top of the stack -/

namespace Machine

variable {m : Machine} {rest : List Word} {a b w : Word}

/-- The machine with other words on its stack. -/
def holding (m : Machine) (words : List Word) : Machine :=
  { m with stack := { m.stack with items := words.toArray } }

theorem pop_of_stack (h : m.stack.items.toList = rest ++ [w]) : pop m = .ok w (m.holding rest) := by
  have hItems : m.stack.items = (rest ++ [w]).toArray := Array.toList_inj.mp h
  have hPop := pop_eq m
  rw [hItems] at hPop
  simpa [holding] using hPop

theorem popTwo_of_stack (h : m.stack.items.toList = rest ++ [a, b]) : popTwo m = .ok (a, b) (m.holding rest) := by
  have hLower : pop (m.holding (rest ++ [a])) = .ok a (m.holding rest) := pop_of_stack rfl
  rw [List.append_cons] at h
  rw [popTwo_eq, bind_of_ok (pop_of_stack h), bind_of_ok hLower]
  rfl

theorem push_of_room (h : rest.length < m.stack.capacity) :
    push w (m.holding rest) = .ok () (m.holding (rest ++ [w])) := by
  simp [push, onStack, Stack.push, holding, h]

/-! ## Instructions -/

theorem binary_of_ok {f : Word → Word → Except Fault Word} (hStack : m.stack.items.toList = rest ++ [a, b])
    (hRoom : rest.length < m.stack.capacity) (h : f a b = .ok w) : binary f m = .ok () (m.holding (rest ++ [w])) := by
  rw [binary, bind_of_ok (popTwo_of_stack hStack)]
  simp only [h]
  exact push_of_room hRoom

theorem binary_of_error {f : Word → Word → Except Fault Word} {fault : Fault}
    (hStack : m.stack.items.toList = rest ++ [a, b]) (h : f a b = .error fault) :
    binary f m = .error fault (m.holding rest) := by
  rw [binary, bind_of_ok (popTwo_of_stack hStack)]
  simp only [h]
  rfl

theorem step_of_word {op : Opcode} (h : m.program.words[m.pc]? = some op.word) :
    step m = (perform (m.pc + 1 + op.operands) op >>= fun next => modify fun m => { m with pc := next }) m := by
  rcases step_cases m with ⟨hNone, _⟩ | ⟨w, hWord, hNone, _⟩ | ⟨w, other, hWord, hSome, hStep⟩
  · cases hNone.symm.trans h
  · cases hWord.symm.trans h
    cases hNone.symm.trans (Opcode.ofWord?_word op)
  · cases hWord.symm.trans h
    cases hSome.symm.trans (Opcode.ofWord?_word op)
    exact hStep

theorem step_of_perform_ok {op : Opcode} {next : Nat} {t : Machine} (hOp : m.program.words[m.pc]? = some op.word)
    (h : perform (m.pc + 1 + op.operands) op m = .ok next t) : step m = .ok () { t with pc := next } :=
  (step_of_word hOp).trans (bind_of_ok h)

theorem step_of_perform_error {op : Opcode} {fault : Fault} {t : Machine}
    (hOp : m.program.words[m.pc]? = some op.word) (h : perform (m.pc + 1 + op.operands) op m = .error fault t) :
    step m = .error fault t := (step_of_word hOp).trans (bind_of_error h)

/-- The step of an arithmetic instruction, given what becomes of its operands. -/
def StepsTo (m : Machine) (rest : List Word) : Except Fault Word → Prop
  | .ok w => step m = .ok () { m.holding (rest ++ [w]) with pc := m.pc + 1 }
  | .error fault => step m = .error fault (m.holding rest)

variable {op : Opcode} {operands : List Word} {n : Int}

theorem stepsTo_binary {f : Word → Word → Except Fault Word} (hOp : m.program.words[m.pc]? = some op.word)
    (hStack : m.stack.items.toList = rest ++ [a, b]) (hRoom : rest.length < m.stack.capacity)
    (hPerform : perform (m.pc + 1 + op.operands) op = do binary f; return m.pc + 1) : m.StepsTo rest (f a b) := by
  cases hValue : f a b with
  | ok w =>
    refine step_of_perform_ok hOp ?_
    rw [hPerform]
    exact bind_of_ok (binary_of_ok hStack hRoom hValue)
  | error fault =>
    refine step_of_perform_error hOp ?_
    rw [hPerform]
    exact bind_of_error (binary_of_error hStack hValue)

theorem stepsTo_neg (hOp : m.program.words[m.pc]? = some Opcode.neg.word)
    (hStack : m.stack.items.toList = rest ++ [a]) (hRoom : rest.length < m.stack.capacity) :
    m.StepsTo rest (Eval.checked (Word.neg? a)) := by
  cases hValue : Word.neg? a with
  | some w =>
    refine step_of_perform_ok hOp ((bind_of_ok (pop_of_stack hStack)).trans ?_)
    rw [hValue]
    exact bind_of_ok (push_of_room hRoom)
  | none =>
    refine step_of_perform_error hOp ((bind_of_ok (pop_of_stack hStack)).trans ?_)
    rw [hValue]
    rfl

theorem stepsTo_arithmetic (hOp : m.program.words[m.pc]? = some op.word)
    (hStack : m.stack.items.toList = rest ++ operands) (hFits : m.stack.items.size ≤ m.stack.capacity)
    (hExact : op.ideal? operands = some n) : m.StepsTo rest (op.outcome operands n) := by
  have hRoom : rest.length < m.stack.capacity := by
    have hLength : rest.length + operands.length ≤ m.stack.capacity := by
      rwa [← List.length_append, ← hStack, Array.length_toList]
    have hPos : 0 < operands.length := List.length_pos_iff.mpr (Opcode.ne_nil_of_ideal? hExact)
    omega
  unfold Opcode.ideal? at hExact
  split at hExact
  · cases hExact
    rw [Opcode.outcome_eq_ofInt? .add (by decide)]
    exact stepsTo_binary (f := Eval.binary .add) hOp hStack hRoom rfl
  · cases hExact
    rw [Opcode.outcome_eq_ofInt? .sub (by decide)]
    exact stepsTo_binary (f := Eval.binary .sub) hOp hStack hRoom rfl
  · cases hExact
    rw [Opcode.outcome_eq_ofInt? .mul (by decide)]
    exact stepsTo_binary (f := Eval.binary .mul) hOp hStack hRoom rfl
  · cases hExact
    rw [Opcode.outcome_div]
    exact stepsTo_binary hOp hStack hRoom rfl
  · cases hExact
    rw [Opcode.outcome_mod]
    exact stepsTo_binary hOp hStack hRoom rfl
  · cases hExact
    rw [Opcode.outcome_eq_ofInt? .neg (by decide)]
    exact stepsTo_neg hOp hStack hRoom
  · cases hExact

/-! ## Sessions -/

/-- A machine of some session, about to carry out an operation with these words on top of its stack. -/
structure Faces (s : Machine) (op : Opcode) (rest operands : List Word) : Prop where
  tried : ∃ program limits calls, s ∈ (start program limits).tried calls
  word : s.program.words[s.pc]? = some op.word
  stack : s.stack.items.toList = rest ++ operands

/-- The three ways in which an arithmetic instruction ends. -/
theorem Faces.cases {s : Machine} (h : s.Faces op rest operands) (hExact : op.ideal? operands = some n) :
    (op.DividesByZero operands ∧ step s = .error .divisionByZero (s.holding rest)) ∨
      (¬ op.DividesByZero operands ∧ op.Overflows operands n ∧ step s = .error .overflow (s.holding rest)) ∨
      (¬ op.DividesByZero operands ∧ ¬ op.Overflows operands n ∧
        step s = .ok () { s.holding (rest ++ [Int32.ofInt n]) with pc := s.pc + 1 }) := by
  obtain ⟨program, limits, calls, hTried⟩ := h.tried
  obtain ⟨_, hBounded, _⟩ := (settled_start program limits).session_invariant keptBetween_bounded
    (bounded_start program limits) calls (fun s _ hs t hStep => hs.step hStep)
    (fun s _ hs fault t hStep => hs.step_error hStep)
  have hSteps := stepsTo_arithmetic h.word h.stack (hBounded s hTried).fits hExact
  rw [Opcode.outcome] at hSteps
  split at hSteps
  · rename_i hZero
    exact .inl ⟨hZero, hSteps⟩
  · rename_i hZero
    split at hSteps
    · rename_i hOverflows
      exact .inr (.inl ⟨hZero, hOverflows, hSteps⟩)
    · rename_i hOverflows
      exact .inr (.inr ⟨hZero, hOverflows, hSteps⟩)

theorem toInt_of_not_overflows (h : ¬ op.Overflows operands n) : (Int32.ofInt n).toInt = n := by
  obtain ⟨hLow, hHigh⟩ : Word.InRange n := by
    by_contra hRange
    exact h (.inl hRange)
  exact Int32.toInt_ofInt_of_le (by omega) (by omega)

/-- An instruction with an exact result that succeeds has put it in place of its operands. -/
theorem Faces.exists_result {s t : Machine} (h : s.Faces op rest operands) (hExact : op.ideal? operands = some n)
    (hStep : step s = .ok () t) : ∃ w : Word, w.toInt = n ∧ t.stack.items.toList = rest ++ [w] := by
  rcases h.cases hExact with ⟨_, hError⟩ | ⟨_, _, hError⟩ | ⟨_, hOverflows, hOk⟩
  · cases hError.symm.trans hStep
  · cases hError.symm.trans hStep
  · cases hOk.symm.trans hStep
    exact ⟨_, toInt_of_not_overflows hOverflows, rfl⟩

/-- An arithmetic instruction divides by zero exactly if its divisor is zero. Otherwise it overflows exactly if its
result is no word, or is a remainder whose quotient is none, and if it does neither it replaces its operands by the
result. A quotient and a remainder that are both found give the dividend back. -/
theorem arithmetic_exact {s : Machine} (h : s.Faces op rest operands) (hExact : op.ideal? operands = some n) :
    ((∃ t, step s = .error .divisionByZero t) ↔ op.DividesByZero operands) ∧
      (¬ op.DividesByZero operands →
        ((∃ t, step s = .error .overflow t) ↔ op.Overflows operands n) ∧
          (¬ op.Overflows operands n →
            ∃ w : Word, w.toInt = n ∧ step s = .ok () { s.holding (rest ++ [w]) with pc := s.pc + 1 })) ∧
      ∀ (a b : Word) (other t u : Machine) (below : List Word), op = .div → operands = [a, b] →
        other.Faces .mod below [a, b] → step s = .ok () t → step other = .ok () u →
        ∃ q r : Word, t.stack.items.toList = rest ++ [q] ∧ u.stack.items.toList = below ++ [r] ∧
          a.toInt = q.toInt * b.toInt + r.toInt := by
  refine ⟨?_, ?_, ?_⟩
  · rcases h.cases hExact with ⟨hZero, hStep⟩ | ⟨hZero, _, hStep⟩ | ⟨hZero, _, hStep⟩
    · simp [hZero, hStep]
    · simp [hZero, hStep]
    · simp [hZero, hStep]
  · intro hNonzero
    rcases h.cases hExact with ⟨hZero, _⟩ | ⟨_, hOverflows, hStep⟩ | ⟨_, hOverflows, hStep⟩
    · exact absurd hZero hNonzero
    · simp [hOverflows, hStep]
    · refine ⟨by simp [hOverflows, hStep], fun _ => ⟨_, toInt_of_not_overflows hOverflows, hStep⟩⟩
  · rintro a b other t u below rfl rfl hOther hQuotient hRemainder
    obtain ⟨q, hq, hFirst⟩ := h.exists_result rfl hQuotient
    obtain ⟨r, hr, hSecond⟩ := hOther.exists_result rfl hRemainder
    refine ⟨q, r, hFirst, hSecond, ?_⟩
    rw [hq, hr]
    exact (Int.tdiv_mul_add_tmod a.toInt b.toInt).symm

/-- The machine in front of the third instruction of a program that starts with two constants. -/
theorem faces_of_constants {program : Program} {op : Opcode} {a b : Word}
    (hRunning : ((start program {}).advance 2).halted = false)
    (hWord : ((start program {}).advance 2).program.words[((start program {}).advance 2).pc]? = some op.word)
    (hStack : ((start program {}).advance 2).stack.items.toList = [a, b]) :
    ((start program {}).advance 2).Faces op [] [a, b] := by
  refine ⟨⟨program, {}, [.execute 3], ?_⟩, hWord, hStack⟩
  rw [tried_cons]
  apply List.mem_append_left
  exact List.mem_filter.mpr ⟨List.mem_map.mpr ⟨2, by decide, rfl⟩, by rw [hRunning]; rfl⟩

/-- -7 divided by 2 is -3, rounded toward zero. -/
theorem arithmetic_exact_negative :
    let s := (start ⟨#[16, -7, 16, 2, 4]⟩ {}).advance 2
    s.Faces .div [] [-7, 2] ∧ Opcode.ideal? .div [-7, 2] = some (-3) ∧
      ∃ w : Word, w.toInt = -3 ∧ step s = .ok () { s.holding [w] with pc := s.pc + 1 } := by
  intro s
  have hFaces : s.Faces .div [] [-7, 2] :=
    faces_of_constants (by decide +kernel) (by decide +kernel) (by decide +kernel)
  exact ⟨hFaces, rfl, ((arithmetic_exact hFaces rfl).2.1 (by decide)).2 (by decide)⟩

/-- The remainder of -2147483648 by -1 is zero, which is a word, but the machine reports an overflow. -/
theorem not_overflow_iff_of_remainder :
    ¬ ∀ (s : Machine) (op : Opcode) (rest operands : List Word) (n : Int), s.Faces op rest operands →
      op.ideal? operands = some n → ¬ op.DividesByZero operands →
      ((∃ t, step s = .error .overflow t) ↔ ¬ Word.InRange n) := by
  intro h
  let s := (start ⟨#[16, -2147483648, 16, -1, 26]⟩ {}).advance 2
  have hFaces : s.Faces .mod [] [-2147483648, -1] :=
    faces_of_constants (by decide +kernel) (by decide +kernel) (by decide +kernel)
  have hZero : ¬ Opcode.DividesByZero .mod [-2147483648, -1] := by decide
  have hIff := h s .mod [] _ 0 hFaces rfl hZero
  rcases hFaces.cases (n := 0) rfl with ⟨hDivides, _⟩ | ⟨_, _, hStep⟩ | ⟨_, hOverflows, _⟩
  · exact hZero hDivides
  · exact hIff.mp ⟨_, hStep⟩ (by decide)
  · exact hOverflows (by decide)

end Machine

end Vee
