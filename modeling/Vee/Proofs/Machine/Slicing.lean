import Vee.Proofs.Machine.Surplus

/-! # Slices of a run

However a run is cut into slices, putting what its events have reported back into the machine gives the machine of
the run in one piece. Two ways to cut a run that stops therefore report the same output and the same error, and leave
the same machine behind.
-/

namespace Vee

set_option autoImplicit false

open Effect

/-- What a caller makes of the events: the error if there is one, all output otherwise. -/
def Event.result (events : List Event) : Except Report String :=
  match reports events with
  | [] => .ok (output events)
  | r :: _ => .error r

theorem Event.output_eq_empty {events : List Event} (h : ∀ event ∈ events, event.text = "") : output events = "" := by
  induction events with
  | nil => rfl
  | cons event rest ih =>
    rw [← List.singleton_append, output_append, ih fun event hMem => h event (List.mem_cons_of_mem _ hMem)]
    simp [output, String.join, h event List.mem_cons_self]

namespace Machine

def slices (counts : List Nat) : List Call := counts.map .execute

variable {m : Machine} {n : Nat}

/-- The machine as it would be if nothing had been reported. -/
def restored (events : List Event) (m : Machine) : Machine :=
  { m with output := Event.output events ++ m.output, fault := (Event.reports events).head?.or m.fault }

theorem restored_nil (m : Machine) : restored [] m = m := by
  cases m
  simp [restored, Event.output, Event.reports, String.join]

theorem restored_append (first second : List Event) (m : Machine) :
    restored (first ++ second) m = restored first (restored second m) := by
  simp only [restored, Event.output_append, Event.reports_append, List.head?_append, String.append_assoc,
    Option.or_assoc]

/-- A machine that has printed a text before. -/
def prepend (text : String) (m : Machine) : Machine := { m with output := text ++ m.output }

theorem restored_of_reports {events : List Event} (h : Event.reports events = []) :
    restored events m = prepend (Event.output events) m := by
  rw [restored, h]
  rfl

theorem Finished.clear_restored (h : m.Finished) (events : List Event) :
    { restored events m with output := "", fault := none } = m := by
  obtain ⟨hOutput, hFault, _⟩ := h
  cases m
  cases hOutput
  cases hFault
  rfl

theorem restored_singleton (event : Event) (m : Machine) :
    restored [event] m = { m with output := event.text ++ m.output, fault := event.report?.or m.fault } := by
  cases event <;> simp [restored, Event.output, Event.reports, Event.report?, String.join]

theorem restored_quiet {event : Event} (hText : event.text = "") (hReport : event.report? = none) :
    restored [event] m = m := by
  rw [restored_singleton, hText, hReport, String.empty_append]
  rfl

theorem restored_report (m : Machine) : restored [m.report.1] m.report.2 = m := by
  rcases m.report_cases with hReport | ⟨hOutput, r, hFault, hReport⟩ | ⟨hOutput, hFault, hReport⟩
  · rw [hReport, restored_singleton]
    simp [Event.text, Event.report?]
  · rw [hReport, restored_singleton]
    simp [Event.text, Event.report?, ← hFault]
  · rw [hReport]
    split
    · exact restored_quiet rfl rfl
    · exact restored_quiet rfl rfl

/-- A slice of a machine that has halted only reports, and one of a running machine runs on. -/
theorem Settled.restored_execute (h : m.Settled) (hCalm : m.interrupted = false) (n : Nat) :
    restored [(m.execute n).1] (m.execute n).2 = if m.halted then m else m.advance n := by
  rcases h.execute_cases n with ⟨r, hFault, hReady, hEq⟩ | ⟨hFinished, hReady, hEq⟩ | ⟨hFault, hHalted, hReady, hEq⟩ |
    ⟨hFault, hHalted, hReady, hEq⟩
  · rw [hEq, if_pos (h.fault r hFault).1, restored_singleton]
    simp [Event.text, Event.report?, ← hFault]
  · rw [hEq, if_pos hFinished.halted]
    exact restored_quiet rfl rfl
  · rw [ready, pending?_of_output h.output, hFault, hHalted, hCalm] at hReady
    cases hReady
  · rw [hEq, hHalted, restored_report]
    rfl

theorem extend_text (text : String) (m : Machine) : extend { text := text } m = prepend text m := by
  simp [extend, prepend]

theorem advance_prepend (text : String) (m : Machine) (n : Nat) :
    (prepend text m).advance n = prepend text (m.advance n) := by
  rw [← extend_text, ← extend_text]
  apply advance_extend
  intro r _
  exact r.fault.not_lacks_text text

theorem interrupted_advance (hCalm : m.interrupted = false) (hRunning : m.halted = false) (n : Nat) :
    (m.advance n).interrupted = false := by
  apply (advance_invariant (P := fun s => s.interrupted = false) hCalm hRunning n ?_ ?_).1
  · intro s _ hBefore t hStep
    exact (steady_of_step hStep).1.interrupted.trans hBefore
  · intro s _ hBefore fault t hStep
    exact (steady_of_step_error hStep).interrupted.trans hBefore

/-- The slices of a run, with what they have reported put back, are the run in one piece. -/
theorem Settled.restored_after (h : m.Settled) (hCalm : m.interrupted = false) (hRunning : m.halted = false)
    (counts : List Nat) :
    restored (m.events (slices counts)) (m.after (slices counts)) = m.advance counts.sum := by
  -- Slices are added at the end, so that the invariant speaks of one machine at both ends of the slice.
  induction counts using List.reverseRecOn with
  | nil => exact restored_nil m
  | append_singleton counts n ih =>
    have hLater : (m.after (slices counts)).Settled := h.after _
    have hEvents : m.events (slices (counts ++ [n])) =
        m.events (slices counts) ++ [((m.after (slices counts)).execute n).1] := by
      rw [slices, List.map_append, events_append]
      rfl
    have hAfter : m.after (slices (counts ++ [n])) = ((m.after (slices counts)).execute n).2 := by
      rw [slices, List.map_append, Machine.after, List.foldl_append]
      rfl
    have hLaterCalm : (m.after (slices counts)).interrupted = false := by
      rw [← interrupted_advance hCalm hRunning counts.sum, ← ih]
      rfl
    have hSame : (m.after (slices counts)).halted = (m.advance counts.sum).halted := by
      rw [← ih]
      rfl
    rw [hEvents, hAfter, restored_append, hLater.restored_execute hLaterCalm, hSame, List.sum_append,
      List.sum_singleton]
    cases hHalted : (m.advance counts.sum).halted with
    | true => rw [if_pos rfl, ih, advance_add hRunning hHalted]
    | false =>
      have hFault : (m.advance counts.sum).fault = none := by
        cases hSome : (m.advance counts.sum).fault with
        | none => rfl
        | some r =>
          have hNone : m.fault = none := by
            cases hFirst : m.fault with
            | none => rfl
            | some r => cases hRunning.symm.trans (h.fault r hFirst).1
          cases hHalted.symm.trans (fault_advance hNone hRunning _ r hSome).1
      have hReports : Event.reports (m.events (slices counts)) = [] := by
        rw [← ih, restored, Option.or_eq_none_iff] at hFault
        exact List.head?_eq_none_iff.mp hFault.1
      rw [if_neg Bool.false_ne_true, advance_of_running hHalted, ← ih, restored_of_reports hReports,
        restored_of_reports hReports, advance_prepend]

/-! ## Sessions that stop -/

theorem Settled.finished_of_stopped (h : m.Settled) {calls : List Call} (hStopped : .stopped ∈ m.events calls) :
    (m.after calls).Finished := by
  induction calls generalizing m with
  | nil => cases hStopped
  | cons c rest ih =>
    rw [events_cons] at hStopped
    rcases List.mem_append.mp hStopped with hHere | hLater
    · cases c with
      | interrupt => cases hHere
      | execute n =>
        have hEvent : (m.execute n).1 = .stopped := by
          simpa [Call.event?, eq_comm] using hHere
        have hFinished := (h.execute_spec n).2.2.1 hEvent
        change ((m.execute n).2.after rest).Finished
        rw [(hFinished.session rest).1]
        exact hFinished
    · exact ih (h.call c) hLater

/-- A machine that has halted has at most its fault left to report. -/
theorem Settled.stopped_of_halted (h : m.Settled) (hHalted : m.halted = true) {counts : List Nat}
    (hTwo : 2 ≤ counts.length) : .stopped ∈ m.events (slices counts) := by
  obtain ⟨a, b, rest, rfl⟩ : ∃ a b rest, counts = a :: b :: rest := by
    match counts, hTwo with
    | a :: b :: rest, _ => exact ⟨a, b, rest, rfl⟩
  have hEvents : m.events (slices (a :: b :: rest)) = (m.execute a).1 :: ((m.execute a).2.execute b).1 ::
      ((m.execute a).2.execute b).2.events (slices rest) := rfl
  rw [hEvents]
  rcases h.execute_cases a with ⟨r, hFault, _, hEq⟩ | ⟨hFinished, _, hEq⟩ | ⟨_, hRunning, _⟩ | ⟨_, hRunning, _⟩
  · have hFinished : ({ m with fault := none } : Machine).Finished := ⟨h.output, rfl, hHalted⟩
    rw [hEq, hFinished.execute b]
    simp
  · rw [hEq]
    simp
  · cases hRunning.symm.trans hHalted
  · cases hRunning.symm.trans hHalted

theorem exists_endsWith_iff : (∃ o, m.EndsWith o) ↔ ∃ n, (m.advance n).halted = true := by
  simp only [EndsWith]
  rw [exists_comm]
  apply exists_congr
  intro n
  rw [outcome?]
  cases (m.advance n).halted with
  | false => simp
  | true => cases (m.advance n).fault <;> simp

/-- A loop over slices of one length reads its result off their events. -/
theorem Settled.runFrom_cases (h : m.Settled) (cycles n : Nat) (output : String) :
    let events := m.events (slices (List.replicate n cycles))
    (.stopped ∈ events ∧ Event.reports events = [] ∧
        (runFrom cycles n output m).1 = some (.ok (output ++ Event.output events))) ∨
      (∃ r, Event.reports events = [r] ∧ (runFrom cycles n output m).1 = some (.error r)) ∨
      (.stopped ∉ events ∧ Event.reports events = [] ∧ (runFrom cycles n output m).1 = none) := by
  induction n generalizing m output with
  | zero => exact .inr (.inr ⟨nofun, rfl, rfl⟩)
  | succ n ih =>
    obtain ⟨hNext, _, hStopped, hFailed⟩ := h.execute_spec cycles
    have hEvents : m.events (slices (List.replicate (n + 1) cycles)) =
        (m.execute cycles).1 :: (m.execute cycles).2.events (slices (List.replicate n cycles)) := rfl
    rw [hEvents, runFrom]
    rcases hEq : m.execute cycles with ⟨event, next⟩
    rw [hEq] at hNext hStopped hFailed
    have hTail : Event.output (event :: next.events (slices (List.replicate n cycles))) =
        event.text ++ Event.output (next.events (slices (List.replicate n cycles))) := by
      rw [← List.singleton_append, Event.output_append]
      simp [Event.output, String.join]
    cases event with
    | stopped =>
      have hFinished := hStopped rfl
      have hReports := hFinished.reports (slices (List.replicate n cycles))
      have hText : Event.output (next.events (slices (List.replicate n cycles))) = "" := by
        apply Event.output_eq_empty
        intro event hMem
        rw [(hFinished.session _).2 event hMem]
        rfl
      refine .inl ⟨List.mem_cons_self, hReports, ?_⟩
      simp only [hTail, hText, Event.text, String.append_empty]
    | failed r =>
      have hReports := (hFailed r rfl).1.reports (slices (List.replicate n cycles))
      refine .inr (.inl ⟨r, ?_, rfl⟩)
      change r :: Event.reports _ = [r]
      rw [hReports]
    | running =>
      simpa [hTail, Event.text, Event.reports, Event.report?, List.filterMap_cons] using ih hNext output
    | printed text =>
      simpa [hTail, Event.text, Event.reports, Event.report?, List.filterMap_cons, String.append_assoc] using
        ih hNext (output ++ text)

theorem Settled.halted_of_stopped (h : m.Settled) (hCalm : m.interrupted = false) (hRunning : m.halted = false)
    {counts : List Nat} (hStopped : .stopped ∈ m.events (slices counts)) : (m.advance counts.sum).halted = true := by
  rw [← h.restored_after hCalm hRunning]
  exact (h.finished_of_stopped hStopped).halted

theorem Settled.stopped_of_positive (h : m.Settled) (hCalm : m.interrupted = false) (hRunning : m.halted = false)
    (hHalted : (m.advance n).halted = true) {counts : List Nat} (hLong : n + 2 ≤ counts.length)
    (hPositive : ∀ c ∈ counts, 0 < c) : .stopped ∈ m.events (slices counts) := by
  -- The first `n` slices run at least `n` instructions, and two more get everything reported.
  have hSum : n ≤ (counts.take n).sum := by
    have hLength := List.length_le_sum_of_one_le (counts.take n) fun c hMem => hPositive c (List.mem_of_mem_take hMem)
    rw [List.length_take, Nat.min_eq_left (by omega)] at hLength
    exact hLength
  have hFront : (m.after (slices (counts.take n))).halted = true := by
    have hAll : (m.advance (counts.take n).sum).halted = true := by
      rw [← Nat.add_sub_of_le hSum, advance_add hRunning hHalted]
      exact hHalted
    rw [← h.restored_after hCalm hRunning] at hAll
    exact hAll
  have hSplit : slices counts = slices (counts.take n) ++ slices (counts.drop n) := by
    rw [slices, slices, slices, ← List.map_append, List.take_append_drop]
  rw [hSplit, events_append]
  apply List.mem_append_right
  apply (h.after _).stopped_of_halted hFront
  rw [List.length_drop]
  omega

theorem Settled.slices_agree (h : m.Settled) (hCalm : m.interrupted = false) (hRunning : m.halted = false)
    {counts others : List Nat} (hStopped : .stopped ∈ m.events (slices counts))
    (hOther : .stopped ∈ m.events (slices others)) :
    Event.output (m.events (slices counts)) = Event.output (m.events (slices others)) ∧
      Event.reports (m.events (slices counts)) = Event.reports (m.events (slices others)) ∧
      m.after (slices counts) = m.after (slices others) := by
  have hSame : m.advance counts.sum = m.advance others.sum := by
    rw [← advance_add (k := others.sum) hRunning (h.halted_of_stopped hCalm hRunning hStopped), Nat.add_comm,
      advance_add hRunning (h.halted_of_stopped hCalm hRunning hOther)]
  rw [← h.restored_after hCalm hRunning, ← h.restored_after hCalm hRunning] at hSame
  have hDone := h.finished_of_stopped hStopped
  have hDoneOther := h.finished_of_stopped hOther
  refine ⟨?_, ?_, ?_⟩
  · have hOutput := congrArg Machine.output hSame
    simp only [restored, hDone.output, hDoneOther.output, String.append_empty] at hOutput
    exact hOutput
  · have hFault := congrArg Machine.fault hSame
    simp only [restored, hDone.fault, hDoneOther.fault, Option.or_none] at hFault
    have hSingle : ∀ reports : List Report, reports.length ≤ 1 → reports = reports.head?.toList := by
      rintro (_ | ⟨r, _ | ⟨s, rest⟩⟩) hLength
      · rfl
      · rfl
      · simp at hLength
    rw [hSingle _ (h.length_reports _), hFault, ← hSingle _ (h.length_reports _)]
  · rw [← hDone.clear_restored (m.events (slices counts)), hSame, hDoneOther.clear_restored]

/-- Any two ways to cut a run into slices that get to the end report the same output and the same errors and leave the
same machine behind. The end is reached exactly if the run ends, and a loop over slices then gives what they report. -/
theorem slicing_independence (program : Program) (limits : Limits) :
    let first := start program limits
    (∀ counts others, .stopped ∈ first.events (slices counts) → .stopped ∈ first.events (slices others) →
        Event.output (first.events (slices counts)) = Event.output (first.events (slices others)) ∧
          Event.reports (first.events (slices counts)) = Event.reports (first.events (slices others)) ∧
          first.after (slices counts) = first.after (slices others)) ∧
      ((∃ o, first.EndsWith o) ↔ ∃ length, ∀ counts : List Nat, length ≤ counts.length → (∀ c ∈ counts, 0 < c) →
        .stopped ∈ first.events (slices counts)) ∧
      ∀ counts, .stopped ∈ first.events (slices counts) → (∃ o, first.EndsWith o) ∧
        ∀ cycles, 0 < cycles → ∃ enough, ∀ n ≥ enough,
          (run cycles n first).1 = some (Event.result (first.events (slices counts))) := by
  intro first
  have hFirst : first.Settled := settled_start program limits
  refine ⟨fun _ _ => hFirst.slices_agree rfl rfl, ?_, ?_⟩
  · rw [exists_endsWith_iff]
    constructor
    · rintro ⟨n, hHalted⟩
      exact ⟨n + 2, fun _ hLong hPositive => hFirst.stopped_of_positive rfl rfl hHalted hLong hPositive⟩
    · rintro ⟨length, hAll⟩
      have hStopped := hAll (List.replicate length 1) (by simp) (by simp)
      exact ⟨_, hFirst.halted_of_stopped rfl rfl hStopped⟩
  · intro counts hStopped
    have hHalted := hFirst.halted_of_stopped rfl rfl hStopped
    refine ⟨exists_endsWith_iff.mpr ⟨_, hHalted⟩, ?_⟩
    intro cycles hCycles
    refine ⟨counts.sum + 2, fun n hLong => ?_⟩
    have hReached : .stopped ∈ first.events (slices (List.replicate n cycles)) :=
      hFirst.stopped_of_positive rfl rfl hHalted (by simpa using hLong) (by simp [hCycles])
    obtain ⟨hOutput, hReports, _⟩ := hFirst.slices_agree rfl rfl hStopped hReached
    rw [Event.result, hOutput, hReports, run]
    rcases hFirst.runFrom_cases cycles n "" with ⟨_, hNone, hRun⟩ | ⟨r, hSome, hRun⟩ | ⟨hNever, _⟩
    · rw [hRun, hNone, String.empty_append]
    · rw [hRun, hSome]
    · exact absurd hReached hNever

example : (start ⟨#[16, 5, 21, 1]⟩ {}).events (slices [1, 0, 5, 1, 1]) =
    [.running, .running, .printed "5\n", .failed ⟨.stack .underflow, 3⟩, .stopped] := by
  decide +kernel

end Machine

end Vee
