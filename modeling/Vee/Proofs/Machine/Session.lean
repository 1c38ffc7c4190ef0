import Vee.Proofs.Machine.Outcome
import Vee.Proofs.Machine.Steady

/-! # Sessions

A session is a sequence of calls on one machine, slices and interrupts in any order. Between calls no output waits,
and a fault waits only in a machine that has halted. So the events of a session hold all that was printed, an error
is reported once and behind the output, and a machine that has reported it or has stopped does not change any more.
-/

namespace Vee

set_option autoImplicit false

open Effect

/-! ## Events -/

namespace Event

def text : Event → String
  | printed text => text
  | _ => ""

def report? : Event → Option Report
  | failed report => some report
  | _ => none

/-- All that was printed. -/
def output (events : List Event) : String := String.join (events.map text)

def reports (events : List Event) : List Report := events.filterMap report?

theorem output_append (first second : List Event) : output (first ++ second) = output first ++ output second := by
  rw [output, List.map_append, String.join_append]
  rfl

theorem reports_append (first second : List Event) : reports (first ++ second) = reports first ++ reports second :=
  List.filterMap_append

end Event

theorem Eval.text_append (first second : List Word) : text (first ++ second) = text first ++ text second := by
  rw [text, List.map_append, String.join_append]
  rfl

namespace Machine

variable {m : Machine} {n k : Nat}

/-! ## Instructions of a slice -/

/-- The machine in front of each of so many instructions, fewer if it halts or faults. -/
def attempts (m : Machine) (cycles : Nat) : List Machine :=
  ((List.range cycles).map fun k => m.advance k).filter fun s => !s.halted

theorem attempts_succ (m : Machine) (n : Nat) :
    m.attempts (n + 1) = m.attempts n ++ if (m.advance n).halted then [] else [m.advance n] := by
  rw [attempts, List.range_succ, List.map_append, List.filter_append]
  cases hHalted : (m.advance n).halted <;> simp [attempts, hHalted]

theorem running_of_mem_attempts {s : Machine} (h : s ∈ m.attempts n) : s.halted = false := by
  simpa using (List.mem_filter.mp h).2

theorem advance_of_running (hRunning : (m.advance n).halted = false) : m.advance (n + k) = (m.advance n).advance k := by
  induction n generalizing m with
  | zero => rw [Nat.zero_add, advance]
  | succ n ih =>
    rw [Nat.add_right_comm]
    simp only [advance] at hRunning ⊢
    cases hStep : step m with
    | error fault t =>
      rw [hStep] at hRunning
      cases hRunning
    | ok _ t =>
      simp only [hStep] at hRunning ⊢
      split at hRunning
      · rename_i hHalted
        cases hHalted.symm.trans hRunning
      · rename_i hNext
        rw [if_neg hNext, if_neg hNext]
        exact ih hRunning

theorem advance_one (m : Machine) :
    m.advance 1 = match step m with
      | .ok _ t => t
      | .error fault t => { t with halted := true, fault := some ⟨fault, t.pc⟩ } := by
  cases hStep : step m with
  | ok _ t => simp only [advance, hStep, ite_self]
  | error fault t => simp only [advance, hStep]

theorem attempts_of_ok {next : Machine} (hRunning : m.halted = false) (hStep : step m = .ok () next) :
    m.attempts (n + 1) = m :: if next.halted then [] else next.attempts n := by
  rw [attempts, List.range_succ_eq_map, List.map_cons, List.map_map, List.filter_cons_of_pos (by simpa [advance])]
  refine congrArg (m :: ·) ?_
  cases hNext : next.halted with
  | true => simp [advance, hStep, hNext]
  | false =>
    have hShift : (fun k => m.advance k) ∘ Nat.succ = fun k => next.advance k :=
      funext fun k => advance_of_ok hStep hNext
    rw [hShift]
    rfl

theorem attempts_of_error {fault : Fault} {next : Machine} (hRunning : m.halted = false)
    (hStep : step m = .error fault next) : m.attempts (n + 1) = [m] := by
  rw [attempts, List.range_succ_eq_map, List.map_cons, List.map_map, List.filter_cons_of_pos (by simpa [advance])]
  simp [advance, hStep]

/-- The machines in front of instructions are those that single instructions lead to. -/
theorem exists_mem_attempts_iff {s : Machine} (hRunning : m.halted = false) :
    (∃ n, s ∈ m.attempts n) ↔ m.Reachable s ∧ s.halted = false := by
  constructor
  · rintro ⟨n, hMem⟩
    have hLast := running_of_mem_attempts hMem
    obtain ⟨k, _, rfl⟩ := List.mem_map.mp (List.mem_filter.mp hMem).1
    exact ⟨reachable_advance hRunning hLast, hLast⟩
  · rintro ⟨hReachable, hLast⟩
    obtain ⟨n, hn⟩ := hReachable.advance hLast
    have hHere : m.advance n = s := hn 0
    refine ⟨n + 1, ?_⟩
    rw [attempts_succ, hHere, hLast]
    simp

/-- What holds of a machine holds along its run if each instruction keeps it. -/
theorem advance_invariant {P : Machine → Prop} (hFirst : P m) (hRunning : m.halted = false) (n : Nat)
    (hOk : ∀ s ∈ m.attempts n, P s → ∀ t, step s = .ok () t → P t)
    (hError : ∀ s ∈ m.attempts n, P s → ∀ fault t, step s = .error fault t →
      P { t with halted := true, fault := some ⟨fault, t.pc⟩ }) :
    P (m.advance n) ∧ ∀ s ∈ m.attempts n, P s := by
  induction n with
  | zero => exact ⟨hFirst, fun _ hMem => absurd hMem List.not_mem_nil⟩
  | succ n ih =>
    rw [attempts_succ] at hOk hError ⊢
    obtain ⟨hLast, hBefore⟩ := ih (fun s hMem => hOk s (List.mem_append_left _ hMem))
      (fun s hMem => hError s (List.mem_append_left _ hMem))
    cases hHalted : (m.advance n).halted with
    | true =>
      rw [advance_add hRunning hHalted, if_pos rfl, List.append_nil]
      exact ⟨hLast, hBefore⟩
    | false =>
      rw [hHalted] at hOk hError
      have hHere : m.advance n ∈ m.attempts n ++ [m.advance n] := by simp
      constructor
      · rw [advance_of_running hHalted, advance_one]
        split
        · rename_i t hStep
          exact hOk _ hHere hLast t hStep
        · rename_i fault t hStep
          exact hError _ hHere hLast fault t hStep
      · intro s hMem
        rcases List.mem_append.mp hMem with hMem | hMem
        · exact hBefore s hMem
        · rw [List.mem_singleton.mp hMem]
          exact hLast

theorem output_advance (hRunning : m.halted = false) (n : Nat) :
    (m.advance n).output = m.output ++ Eval.text ((m.attempts n).filterMap printing?) := by
  induction n with
  | zero => simp [advance, attempts, Eval.text, String.join]
  | succ n ih =>
    rw [attempts_succ]
    cases hHalted : (m.advance n).halted with
    | true =>
      rw [advance_add hRunning hHalted, ih]
      simp
    | false =>
      rw [advance_of_running hHalted, advance_one, List.filterMap_append, Eval.text_append, ← String.append_assoc, ← ih]
      generalize m.advance n = s
      split
      · rename_i t hStep
        rw [(steady_of_step hStep).2]
        cases hPrinting : s.printing? <;> simp [hPrinting]
      · rename_i fault t hStep
        have hNothing : s.printing? = none := by
          rw [printing?, hStep]
        simp [hNothing, (steady_of_step_error hStep).output, Eval.text, String.join]

/-! ## Calls -/

inductive Call where
  | execute (cycles : Nat)
  | interrupt
  deriving DecidableEq

namespace Call

/-- The machine behind a call. -/
def after (m : Machine) : Call → Machine
  | execute cycles => (m.execute cycles).2
  | interrupt => m.interrupt

def event? (m : Machine) : Call → Option Event
  | execute cycles => some (m.execute cycles).1
  | interrupt => none

/-- The machine in front of each instruction that a call tries. -/
def tried (m : Machine) : Call → List Machine
  | execute cycles => if m.ready then m.attempts cycles else []
  | interrupt => []

end Call

/-- The machine behind a session. -/
def after (m : Machine) (calls : List Call) : Machine := calls.foldl Call.after m

/-- The calls of a session, each with the machine in front of it. -/
def history (m : Machine) : List Call → List (Call × Machine)
  | [] => []
  | c :: rest => (c, m) :: history (c.after m) rest

def events (m : Machine) (calls : List Call) : List Event := (m.history calls).filterMap fun x => x.1.event? x.2

/-- The machine in front of each instruction that is tried in a session. -/
def tried (m : Machine) (calls : List Call) : List Machine := (m.history calls).flatMap fun x => x.1.tried x.2

/-- The values printed in a session. -/
def values (m : Machine) (calls : List Call) : List Word := (m.tried calls).filterMap printing?

section

variable (m : Machine) (c : Call) (calls more : List Call)

theorem history_append : m.history (calls ++ more) = m.history calls ++ (m.after calls).history more := by
  induction calls generalizing m with
  | nil => rfl
  | cons c rest ih =>
    rw [List.cons_append, history, history, ih]
    rfl

theorem events_append : m.events (calls ++ more) = m.events calls ++ (m.after calls).events more := by
  rw [events, history_append, List.filterMap_append]
  rfl

theorem tried_append : m.tried (calls ++ more) = m.tried calls ++ (m.after calls).tried more := by
  rw [tried, history_append, List.flatMap_append]
  rfl

theorem events_cons : m.events (c :: calls) = (c.event? m).toList ++ (c.after m).events calls := by
  rw [events, history, List.filterMap_cons]
  cases c.event? m <;> rfl

theorem tried_cons : m.tried (c :: calls) = c.tried m ++ (c.after m).tried calls := by
  rw [tried, history, List.flatMap_cons]
  rfl

end

theorem running_of_mem_tried {calls : List Call} {s : Machine} (h : s ∈ m.tried calls) : s.halted = false := by
  obtain ⟨⟨c, before⟩, _, hMem⟩ := List.mem_flatMap.mp h
  cases c with
  | interrupt => cases hMem
  | execute n =>
    simp only [Call.tried] at hMem
    split at hMem
    · exact running_of_mem_attempts hMem
    · cases hMem

/-! ## One call -/

/-- What is reported of a machine behind a slice, and the machine then. -/
def report (m : Machine) : Event × Machine :=
  match m.pending? with
  | some reported => reported
  | none => (if m.halted then .stopped else .running, m)

/-- Between calls no output waits, and a fault waits only behind a halt. -/
structure Settled (m : Machine) : Prop where
  output : m.output = ""
  fault : ∀ r, m.fault = some r → m.halted = true ∧ r.address = m.pc

/-- Nothing is left to report or to run. -/
structure Finished (m : Machine) : Prop where
  output : m.output = ""
  fault : m.fault = none
  halted : m.halted = true

theorem settled_start (program : Program) (limits : Limits) : (start program limits).Settled := ⟨rfl, nofun⟩

theorem pending?_of_output (h : m.output = "") :
    m.pending? = m.fault.map fun report => (.failed report, { m with fault := none }) := by
  rw [pending?, if_neg fun hNot => hNot h]

theorem execute_of_fault {r : Report} (h : m.output = "") (hFault : m.fault = some r) :
    m.execute n = (.failed r, { m with fault := none }) := by
  rw [execute, pending?_of_output h, hFault]
  rfl

theorem ready_iff : m.ready = true ↔ m.pending? = none ∧ m.halted = false ∧ m.interrupted = false := by
  simp [ready, and_assoc]

theorem execute_of_ready (h : m.ready = true) : m.execute n = (m.advance n).report := by
  obtain ⟨hPending, hHalted, hInterrupted⟩ := ready_iff.mp h
  simp only [execute, hPending, hHalted, hInterrupted]
  rfl

theorem Finished.execute (h : m.Finished) (n : Nat) : m.execute n = (.stopped, m) := by
  rw [Machine.execute, pending?_of_output h.output, h.fault, h.halted]
  rfl

theorem Finished.interrupt (h : m.Finished) : m.interrupt = m := by
  rw [Machine.interrupt, if_pos h.halted]

theorem Settled.execute_interrupted (h : m.Settled) (hHalted : m.halted = false) (hInterrupted : m.interrupted = true) :
    m.execute n = (.failed ⟨.interrupted, m.pc⟩, { m with interrupted := false, halted := true }) := by
  have hFault : m.fault = none := by
    cases hFault : m.fault with
    | none => rfl
    | some r => cases hHalted.symm.trans (h.fault r hFault).1
  simp only [execute, pending?_of_output h.output, hFault, hHalted, hInterrupted]
  rfl

/-- The ways in which a call of a slice goes. -/
theorem Settled.execute_cases (h : m.Settled) (n : Nat) :
    (∃ r, m.fault = some r ∧ m.ready = false ∧ m.execute n = (.failed r, { m with fault := none })) ∨
      (m.Finished ∧ m.ready = false ∧ m.execute n = (.stopped, m)) ∨
      (m.fault = none ∧ m.halted = false ∧ m.ready = false ∧
        m.execute n = (.failed ⟨.interrupted, m.pc⟩, { m with interrupted := false, halted := true })) ∨
      (m.fault = none ∧ m.halted = false ∧ m.ready = true ∧ m.execute n = (m.advance n).report) := by
  have hReady : m.ready = (m.fault.isNone && !m.halted && !m.interrupted) := by
    rw [ready, pending?_of_output h.output]
    cases m.fault <;> rfl
  cases hFault : m.fault with
  | some r => exact .inl ⟨r, rfl, by rw [hReady, hFault]; rfl, execute_of_fault h.output hFault⟩
  | none =>
    right
    cases hHalted : m.halted with
    | true =>
      have hFinished : m.Finished := ⟨h.output, hFault, hHalted⟩
      exact .inl ⟨hFinished, by rw [hReady, hFault, hHalted]; rfl, hFinished.execute n⟩
    | false =>
      right
      cases hInterrupted : m.interrupted with
      | true =>
        have hWaits : m.ready = false := by
          rw [hReady, hInterrupted, Bool.not_true, Bool.and_false]
        exact .inl ⟨rfl, rfl, hWaits, by rw [h.execute_interrupted hHalted hInterrupted, hFault]⟩
      | false =>
        have hRuns : m.ready = true := by
          rw [hReady, hFault, hHalted, hInterrupted]
          rfl
        exact .inr ⟨rfl, rfl, hRuns, execute_of_ready hRuns⟩

theorem report_cases (m : Machine) :
    m.report = (.printed m.output, { m with output := "" }) ∨
      (m.output = "" ∧ ∃ r, m.fault = some r ∧ m.report = (.failed r, { m with fault := none })) ∨
      (m.output = "" ∧ m.fault = none ∧ m.report = (if m.halted then .stopped else .running, m)) := by
  by_cases hOutput : m.output = ""
  · right
    rw [report, pending?_of_output hOutput]
    cases hFault : m.fault with
    | some r => exact .inl ⟨hOutput, r, rfl, rfl⟩
    | none => exact .inr ⟨hOutput, rfl, rfl⟩
  · left
    rw [report, pending?, if_pos hOutput]

theorem fault_advance (hFault : m.fault = none) (hRunning : m.halted = false) (n : Nat) :
    ∀ r, (m.advance n).fault = some r → (m.advance n).halted = true ∧ r.address = (m.advance n).pc := by
  apply (advance_invariant (P := fun s => ∀ r, s.fault = some r → s.halted = true ∧ r.address = s.pc) ?_ hRunning n
    ?_ ?_).1
  · intro r hSome
    cases hFault.symm.trans hSome
  · intro s hMem hBefore t hStep r hSome
    rw [(steady_of_step hStep).1.fault] at hSome
    cases (running_of_mem_attempts hMem).symm.trans (hBefore r hSome).1
  · rintro s hMem hBefore fault t hStep r hSome
    cases hSome
    exact ⟨rfl, rfl⟩

/-- What a slice leaves behind, and that its event holds what it has printed. -/
theorem Settled.execute_spec (h : m.Settled) (n : Nat) :
    (m.execute n).2.Settled ∧ (m.execute n).1.text = Eval.text (((Call.execute n).tried m).filterMap printing?) ∧
      ((m.execute n).1 = .stopped → (m.execute n).2.Finished) ∧
      ∀ r, (m.execute n).1 = .failed r → (m.execute n).2.Finished ∧ r.address = (m.execute n).2.pc := by
  rw [Call.tried]
  rcases h.execute_cases n with ⟨r, hFault, hReady, hEq⟩ | ⟨hFinished, hReady, hEq⟩ | ⟨hFault, hHalted, hReady, hEq⟩ |
    ⟨hFault, hHalted, hReady, hEq⟩
  · obtain ⟨hHalted, hAddress⟩ := h.fault r hFault
    rw [hEq, hReady]
    refine ⟨⟨h.output, nofun⟩, rfl, nofun, ?_⟩
    rintro r' hEvent
    cases hEvent
    exact ⟨⟨h.output, rfl, hHalted⟩, hAddress⟩
  · rw [hEq, hReady]
    exact ⟨h, rfl, fun _ => hFinished, nofun⟩
  · rw [hEq, hReady]
    refine ⟨⟨h.output, fun r hSome => nomatch hFault.symm.trans hSome⟩, rfl, nofun, ?_⟩
    rintro r' hEvent
    cases hEvent
    exact ⟨⟨h.output, hFault, rfl⟩, rfl⟩
  · have hText := output_advance hHalted n
    have hLater := fault_advance hFault hHalted n
    rw [h.output, String.empty_append] at hText
    rw [hEq, hReady, if_pos rfl, ← hText]
    rcases (m.advance n).report_cases with hReport | ⟨hOutput, r, hSome, hReport⟩ | ⟨hOutput, hNone, hReport⟩
    · rw [hReport]
      exact ⟨⟨rfl, hLater⟩, rfl, nofun, nofun⟩
    · obtain ⟨hStopped, hAddress⟩ := hLater r hSome
      rw [hReport]
      refine ⟨⟨hOutput, nofun⟩, hOutput.symm, nofun, ?_⟩
      rintro r' hEvent
      cases hEvent
      exact ⟨⟨hOutput, rfl, hStopped⟩, hAddress⟩
    · rw [hReport]
      refine ⟨⟨hOutput, hLater⟩, ?_, ?_, ?_⟩
      · rw [hOutput]
        cases (m.advance n).halted <;> rfl
      · cases hStopped : (m.advance n).halted with
        | true => exact fun _ => ⟨hOutput, hNone, hStopped⟩
        | false => nofun
      · cases (m.advance n).halted <;> nofun

theorem Settled.interrupt (h : m.Settled) : m.interrupt.Settled := by
  rw [Machine.interrupt]
  split
  · exact h
  · exact ⟨h.output, h.fault⟩

theorem Settled.call (h : m.Settled) (c : Call) : (c.after m).Settled := by
  cases c with
  | execute n => exact (h.execute_spec n).1
  | interrupt => exact h.interrupt

theorem Settled.after (h : m.Settled) (calls : List Call) : (m.after calls).Settled := by
  induction calls generalizing m with
  | nil => exact h
  | cons c rest ih => exact ih (h.call c)

/-! ## Whole sessions -/

theorem Finished.session (h : m.Finished) (calls : List Call) :
    m.after calls = m ∧ ∀ event ∈ m.events calls, event = .stopped := by
  induction calls with
  | nil => exact ⟨rfl, nofun⟩
  | cons c rest ih =>
    have hSame : c.after m = m := by
      cases c with
      | execute n => exact congrArg Prod.snd (h.execute n)
      | interrupt => exact h.interrupt
    constructor
    · change (c.after m).after rest = m
      rw [hSame]
      exact ih.1
    · rw [events_cons, hSame]
      intro event hMem
      rcases List.mem_append.mp hMem with hHere | hLater
      · cases c with
        | execute n =>
          rw [Call.event?, h.execute n] at hHere
          simpa using hHere
        | interrupt => cases hHere
      · exact ih.2 event hLater

theorem Finished.reports (h : m.Finished) (calls : List Call) : Event.reports (m.events calls) = [] := by
  rw [Event.reports, List.filterMap_eq_nil_iff]
  intro event hMem
  rw [(h.session calls).2 event hMem]
  rfl

theorem Settled.output_events (h : m.Settled) (calls : List Call) :
    Event.output (m.events calls) = Eval.text (m.values calls) := by
  induction calls generalizing m with
  | nil => rfl
  | cons c rest ih =>
    rw [events_cons, Event.output_append, values, tried_cons, List.filterMap_append, Eval.text_append, ih (h.call c)]
    congr 1
    cases c with
    | execute n =>
      rw [← (h.execute_spec n).2.1]
      simp [Call.event?, Event.output, String.join]
    | interrupt => rfl

theorem Settled.length_reports (h : m.Settled) (calls : List Call) :
    (Event.reports (m.events calls)).length ≤ 1 := by
  induction calls generalizing m with
  | nil => exact Nat.zero_le 1
  | cons c rest ih =>
    rw [events_cons, Event.reports_append, List.length_append]
    have hRest := ih (h.call c)
    cases c with
    | interrupt => simpa [Call.event?, Event.reports] using hRest
    | execute n =>
      obtain ⟨_, _, _, hFailed⟩ := h.execute_spec n
      cases hEvent : (m.execute n).1 with
      | failed r =>
        rw [Call.after, (hFailed r hEvent).1.reports rest]
        simp [Call.event?, hEvent, Event.reports, Event.report?]
      | _ => simpa [Call.event?, hEvent, Event.reports, Event.report?, List.filterMap_cons] using hRest

/-! ## Invariants of sessions -/

/-- Reports and interrupts make no difference to a property. -/
structure KeptBetween (P : Machine → Prop) : Prop where
  output : ∀ s, P s → P { s with output := "" }
  fault : ∀ s, P s → P { s with fault := none }
  interrupted : ∀ s b, P s → P { s with interrupted := b }
  halted : ∀ s, P s → P { s with halted := true }

/-- What holds of a machine holds behind a call if each instruction keeps it, and an error that is reported is an
interrupt or was the fault of such a machine. -/
theorem Settled.call_invariant {P : Machine → Prop} (hBetween : KeptBetween P) (h : m.Settled) (hFirst : P m) (c : Call)
    (hOk : ∀ s ∈ c.tried m, P s → ∀ t, step s = .ok () t → P t)
    (hError : ∀ s ∈ c.tried m, P s → ∀ fault t, step s = .error fault t →
      P { t with halted := true, fault := some ⟨fault, t.pc⟩ }) :
    P (c.after m) ∧ (∀ s ∈ c.tried m, P s) ∧
      ∀ r, c.event? m = some (.failed r) → r.fault = .interrupted ∨ ∃ s, P s ∧ s.fault = some r := by
  cases c with
  | interrupt =>
    refine ⟨?_, fun _ hMem => absurd hMem List.not_mem_nil, nofun⟩
    rw [Call.after, Machine.interrupt]
    split
    · exact hFirst
    · exact hBetween.interrupted m true hFirst
  | execute n =>
    rw [Call.tried] at hOk hError ⊢
    rw [Call.after, Call.event?]
    rcases h.execute_cases n with ⟨r, hFault, hReady, hEq⟩ | ⟨hFinished, hReady, hEq⟩ |
      ⟨hFault, hHalted, hReady, hEq⟩ | ⟨hFault, hHalted, hReady, hEq⟩
    · rw [hEq, hReady, if_neg Bool.false_ne_true]
      refine ⟨hBetween.fault m hFirst, fun _ hMem => absurd hMem List.not_mem_nil, ?_⟩
      rintro r' hEvent
      cases hEvent
      exact .inr ⟨m, hFirst, hFault⟩
    · rw [hEq, hReady, if_neg Bool.false_ne_true]
      exact ⟨hFirst, fun _ hMem => absurd hMem List.not_mem_nil, nofun⟩
    · rw [hEq, hReady, if_neg Bool.false_ne_true]
      refine ⟨hBetween.halted _ (hBetween.interrupted m false hFirst), fun _ hMem => absurd hMem List.not_mem_nil, ?_⟩
      rintro r' hEvent
      cases hEvent
      exact .inl rfl
    · rw [hReady, if_pos rfl] at hOk hError
      obtain ⟨hLast, hTried⟩ := advance_invariant hFirst hHalted n hOk hError
      rw [hEq, hReady, if_pos rfl]
      rcases (m.advance n).report_cases with hReport | ⟨_, r, hSome, hReport⟩ | ⟨_, _, hReport⟩
      · rw [hReport]
        exact ⟨hBetween.output _ hLast, hTried, nofun⟩
      · rw [hReport]
        refine ⟨hBetween.fault _ hLast, hTried, ?_⟩
        rintro r' hEvent
        cases hEvent
        exact .inr ⟨_, hLast, hSome⟩
      · rw [hReport]
        refine ⟨hLast, hTried, ?_⟩
        cases (m.advance n).halted <;> nofun

theorem Settled.session_invariant {P : Machine → Prop} (hBetween : KeptBetween P) (h : m.Settled) (hFirst : P m)
    (calls : List Call) (hOk : ∀ s ∈ m.tried calls, P s → ∀ t, step s = .ok () t → P t)
    (hError : ∀ s ∈ m.tried calls, P s → ∀ fault t, step s = .error fault t →
      P { t with halted := true, fault := some ⟨fault, t.pc⟩ }) :
    P (m.after calls) ∧ (∀ s ∈ m.tried calls, P s) ∧
      ∀ r ∈ Event.reports (m.events calls), r.fault = .interrupted ∨ ∃ s, P s ∧ s.fault = some r := by
  induction calls generalizing m with
  | nil => exact ⟨hFirst, fun _ hMem => absurd hMem List.not_mem_nil, nofun⟩
  | cons c rest ih =>
    rw [tried_cons] at hOk hError ⊢
    obtain ⟨hNext, hHere, hEvent⟩ := h.call_invariant hBetween hFirst c
      (fun s hMem => hOk s (List.mem_append_left _ hMem)) (fun s hMem => hError s (List.mem_append_left _ hMem))
    obtain ⟨hLast, hLater, hReports⟩ := ih (h.call c) hNext (fun s hMem => hOk s (List.mem_append_right _ hMem))
      (fun s hMem => hError s (List.mem_append_right _ hMem))
    refine ⟨hLast, ?_, ?_⟩
    · intro s hMem
      exact (List.mem_append.mp hMem).elim (hHere s) (hLater s)
    · intro r hMem
      rw [events_cons, Event.reports_append] at hMem
      rcases List.mem_append.mp hMem with hMem | hMem
      · obtain ⟨event, hIn, hReport⟩ := List.mem_filterMap.mp hMem
        have hFailed : event = .failed r := by
          cases event <;> cases hReport
          rfl
        rw [hFailed] at hIn
        exact hEvent r (Option.mem_toList.mp hIn)
      · exact hReports r hMem

/-! ## The protocol -/

theorem after_interrupts (hRunning : m.halted = false) (k : Nat) :
    m.after (List.replicate (k + 1) .interrupt) = { m with interrupted := true } ∧
      m.tried (List.replicate (k + 1) .interrupt) = [] := by
  have hHere : m.interrupt = { m with interrupted := true } := by
    rw [interrupt, if_neg (by rw [hRunning]; exact Bool.false_ne_true)]
  rw [List.replicate_succ, tried_cons]
  change m.interrupt.after _ = _ ∧ m.interrupt.tried _ = []
  rw [hHere]
  induction k with
  | zero => exact ⟨rfl, rfl⟩
  | succ k ih =>
    have hAgain : ({ m with interrupted := true } : Machine).interrupt = { m with interrupted := true } := by
      rw [interrupt, if_neg (by rw [hRunning]; exact Bool.false_ne_true)]
    rw [List.replicate_succ, tried_cons]
    change Machine.after (Machine.interrupt _) _ = _ ∧ Machine.tried (Machine.interrupt _) _ = []
    rw [hAgain]
    exact ih

/-- The protocol of events. Behind any calls all values printed so far have been reported, once and in their order,
and there is at most one error. It stands behind all output and at `pc`. A machine that has reported it, or has said
that it has stopped, says nothing else and does not change. An interrupt of a running machine is reported by the next
slice in place of instructions, and does nothing to one that has halted. -/
theorem session_protocol (program : Program) (limits : Limits) (calls : List Call) :
    let first := start program limits
    let m := first.after calls
    Event.output (first.events calls) = Eval.text (first.values calls) ∧
      (Event.reports (first.events calls)).length ≤ 1 ∧
      (∀ n r, (m.execute n).1 = .failed r → r.address = (m.execute n).2.pc ∧
        Event.output (first.events calls) = Eval.text (first.values (calls ++ [.execute n]))) ∧
      (∀ n, ((m.execute n).1 = .stopped ∨ ∃ r, (m.execute n).1 = .failed r) → ∀ later,
        (m.execute n).2.after later = (m.execute n).2 ∧
          ∀ event ∈ (m.execute n).2.events later, event = .stopped) ∧
      (m.halted = false → ∀ k n,
        (m.after (List.replicate (k + 1) .interrupt)).execute n =
            (.failed ⟨.interrupted, m.pc⟩, { m with interrupted := false, halted := true }) ∧
          m.tried (List.replicate (k + 1) .interrupt ++ [.execute n]) = []) ∧
      (m.halted = true → m.interrupt = m) := by
  intro first m
  have hFirst : first.Settled := settled_start program limits
  have hSettled : m.Settled := hFirst.after calls
  refine ⟨hFirst.output_events calls, hFirst.length_reports calls, ?_, ?_, ?_, ?_⟩
  · intro n r hEvent
    refine ⟨((hSettled.execute_spec n).2.2.2 r hEvent).2, ?_⟩
    rw [← hFirst.output_events, events_append, Event.output_append, events_cons, Call.event?]
    change _ = _ ++ Event.output ([(m.execute n).1] ++ [])
    rw [hEvent]
    exact String.append_empty.symm
  · intro n hEvent later
    apply Finished.session
    rcases hEvent with hStopped | ⟨r, hFailed⟩
    · exact (hSettled.execute_spec n).2.2.1 hStopped
    · exact ((hSettled.execute_spec n).2.2.2 r hFailed).1
  · intro hRunning k n
    obtain ⟨hAfter, hTried⟩ := after_interrupts hRunning k
    have hWaits : ({ m with interrupted := true } : Machine).Settled := ⟨hSettled.output, hSettled.fault⟩
    have hEq := hWaits.execute_interrupted (n := n) hRunning rfl
    rw [tried_append, hTried, hAfter]
    refine ⟨hEq, ?_⟩
    have hReady : ({ m with interrupted := true } : Machine).ready = false := by
      simp [ready]
    change Call.tried _ (.execute n) ++ [] = []
    rw [Call.tried, hReady]
    rfl
  · intro hHalted
    rw [interrupt, if_pos hHalted]

example : (start ⟨#[16, 5, 21, 1]⟩ {}).events [.execute 2, .interrupt, .interrupt, .execute 1, .interrupt, .execute 1] =
    [.printed "5\n", .failed ⟨.interrupted, 3⟩, .stopped] := by
  decide +kernel

end Machine

end Vee
