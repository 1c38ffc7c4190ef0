import Mathlib
import Vee.Machine.Run

/-! # Outcomes of runs

A machine that stops has halted or faulted, and has then printed a text; a machine that halts also leaves the words
of its global slots behind. A run has at most one outcome, whatever number of instructions it is granted, and it has
the one that single instructions lead to.
-/

namespace Vee

set_option autoImplicit false

inductive Outcome where
  | halted (text : String) (globals : List Word)
  | faulted (fault : Fault) (text : String)
  deriving DecidableEq

def Outcome.text : Outcome → String
  | halted text _ => text
  | faulted _ text => text

/-- All words by index. -/
def Memory.toList (m : Memory) : List Word := (List.range m.size).map fun i => m.written.getD i 0

theorem Memory.toList_eq {m : Memory} {f : Nat → Word} (h : ∀ i < m.size, m.get? i = some (f i)) :
    m.toList = (List.range m.size).map f := by
  refine List.map_congr_left fun i hMem => ?_
  have hLt := List.mem_range.mp hMem
  have hGet := h i hLt
  rw [Memory.get?, if_pos hLt] at hGet
  exact Option.some.inj hGet

namespace Machine

def outcome? (m : Machine) : Option Outcome :=
  if m.halted then
    match m.fault with
    | none => some (.halted m.output m.globals.toList)
    | some report => some (.faulted report.fault m.output)
  else none

def EndsWith (m : Machine) (o : Outcome) : Prop := ∃ n, (m.advance n).outcome? = some o

/-- The states that a machine passes through until it halts or faults. -/
inductive Reachable (first : Machine) : Machine → Prop
  | refl : Reachable first first
  | step {m next : Machine} (h : Reachable first m) (hRunning : m.halted = false)
      (hStep : Machine.step m = .ok () next) : Reachable first next

variable {m : Machine} {n k : Nat}

theorem advance_of_ok {next : Machine} (hStep : step m = .ok () next) (hRunning : next.halted = false) :
    m.advance (n + 1) = next.advance n := by
  simp [advance, hStep, hRunning]

theorem advance_add (hRunning : m.halted = false) (hHalted : (m.advance n).halted = true) :
    m.advance (n + k) = m.advance n := by
  induction n generalizing m with
  | zero => cases hRunning.symm.trans hHalted
  | succ n ih =>
    rw [Nat.add_right_comm]
    simp only [advance] at hHalted ⊢
    cases hStep : step m with
    | error fault next => rfl
    | ok _ next =>
      simp only [hStep] at hHalted ⊢
      split
      · rfl
      · rename_i hNext
        rw [if_neg hNext] at hHalted
        exact ih (by simpa using hNext) hHalted

theorem EndsWith.unique {first second : Outcome} (hRunning : m.halted = false) (hFirst : m.EndsWith first)
    (hSecond : m.EndsWith second) : first = second := by
  obtain ⟨n, hn⟩ := hFirst
  obtain ⟨k, hk⟩ := hSecond
  have hStops : ∀ {i : Nat} {o : Outcome}, (m.advance i).outcome? = some o → (m.advance i).halted = true := by
    intro i o h
    rw [outcome?] at h
    split at h
    · assumption
    · cases h
  have hLong : m.advance (n + k) = m.advance n := advance_add hRunning (hStops hn)
  have hOther : m.advance (k + n) = m.advance k := advance_add hRunning (hStops hk)
  rw [Nat.add_comm] at hOther
  rw [← hLong, hOther, hk] at hn
  exact (Option.some.inj hn).symm

theorem Reachable.advance {next : Machine} (h : Reachable m next) (hRunning : next.halted = false) :
    ∃ n, ∀ k, m.advance (n + k) = next.advance k := by
  induction h with
  | refl => exact ⟨0, fun k => by rw [Nat.zero_add]⟩
  | step h hBefore hStep ih =>
    obtain ⟨n, hn⟩ := ih hBefore
    refine ⟨n + 1, fun k => ?_⟩
    rw [Nat.add_assoc, Nat.add_comm 1 k, hn, advance_of_ok hStep hRunning]

theorem Reachable.endsWith {current : Machine} {o : Outcome} (h : Reachable m current)
    (hRunning : current.halted = false) (hEnds : current.EndsWith o) : m.EndsWith o := by
  obtain ⟨n, hn⟩ := h.advance hRunning
  obtain ⟨k, hk⟩ := hEnds
  exact ⟨n + k, by rw [hn, hk]⟩

theorem endsWith_of_ok {next : Machine} {o : Outcome} (hStep : step m = .ok () next) (hEnd : next.outcome? = some o) :
    m.EndsWith o := by
  refine ⟨1, ?_⟩
  simp only [advance, hStep, ite_self, hEnd]

theorem endsWith_of_halt {next : Machine} (hStep : step m = .ok () next) (hHalted : next.halted = true)
    (hFault : next.fault = none) : m.EndsWith (.halted next.output next.globals.toList) := by
  apply endsWith_of_ok hStep
  simp [outcome?, hHalted, hFault]

theorem endsWith_of_error {fault : Fault} {next : Machine} (hStep : step m = .error fault next) :
    m.EndsWith (.faulted fault next.output) := by
  refine ⟨1, ?_⟩
  simp [Machine.advance, hStep, outcome?]

/-! ## Runs by single instructions -/

theorem Reachable.head {next last : Machine} (hRunning : m.halted = false) (hStep : Machine.step m = .ok () next)
    (h : Reachable next last) : Reachable m last := by
  induction h with
  | refl => exact .step .refl hRunning hStep
  | step _ hBefore hNext ih => exact .step ih hBefore hNext

/-- A run ends in an outcome if single instructions lead to one that halts or faults with it. -/
theorem endsWith_iff_reachable {o : Outcome} (hRunning : m.halted = false) :
    m.EndsWith o ↔ ∃ last, m.Reachable last ∧ last.halted = false ∧
      ((∃ next, step last = .ok () next ∧ next.outcome? = some o) ∨
        ∃ fault next, step last = .error fault next ∧ o = .faulted fault next.output) := by
  constructor
  · rintro ⟨n, hEnd⟩
    induction n generalizing m with
    | zero => simp [advance, outcome?, hRunning] at hEnd
    | succ n ih =>
      cases hStep : step m with
      | error fault next =>
        simp only [advance, hStep, outcome?, if_true, Option.some.injEq] at hEnd
        exact ⟨m, .refl, hRunning, .inr ⟨fault, next, hStep, hEnd.symm⟩⟩
      | ok _ next =>
        simp only [advance, hStep] at hEnd
        split at hEnd
        · exact ⟨m, .refl, hRunning, .inl ⟨next, hStep, hEnd⟩⟩
        · rename_i hNext
          obtain ⟨last, hReachable, hLast⟩ := ih (by simpa using hNext) hEnd
          exact ⟨last, hReachable.head hRunning hStep, hLast⟩
  · rintro ⟨last, hReachable, hLast, ⟨next, hStep, hEnd⟩ | ⟨fault, next, hStep, rfl⟩⟩
    · exact hReachable.endsWith hLast (endsWith_of_ok hStep hEnd)
    · exact hReachable.endsWith hLast (endsWith_of_error hStep)

theorem exists_step_of_advance (hRunning : (m.advance (n + 1)).halted = false) : ∃ next, step m = .ok () next := by
  cases hStep : step m with
  | error fault next =>
    simp only [advance, hStep] at hRunning
    cases hRunning
  | ok _ next => exact ⟨next, rfl⟩

theorem step_advance (hRunning : (m.advance (n + 1)).halted = false) :
    step (m.advance n) = .ok () (m.advance (n + 1)) := by
  induction n generalizing m with
  | zero =>
    obtain ⟨next, hStep⟩ := exists_step_of_advance hRunning
    simp only [advance, hStep, ite_self]
  | succ n ih =>
    obtain ⟨next, hStep⟩ := exists_step_of_advance hRunning
    cases hNext : next.halted with
    | true =>
      simp only [advance, hStep, hNext, if_true] at hRunning
      cases hRunning
    | false =>
      rw [advance_of_ok hStep hNext] at hRunning
      rw [advance_of_ok hStep hNext, advance_of_ok hStep hNext]
      exact ih hRunning

theorem reachable_advance (hRunning : m.halted = false) (hLast : (m.advance n).halted = false) :
    m.Reachable (m.advance n) := by
  induction n with
  | zero => exact .refl
  | succ n ih =>
    cases hBefore : (m.advance n).halted with
    | true =>
      rw [advance_add hRunning hBefore, hBefore] at hLast
      cases hLast
    | false => exact .step (ih hBefore) hBefore (step_advance hLast)

end Machine

end Vee
