import Mathlib
import Vee.Tree.Plain

/-! # Unfinished patterns and remembered failures

The search with a stack of unfinished patterns and with remembered failures gives what plain matching gives, from
any failures on which plain matching fails, and it remembers only such failures. One statement for each function
of the matcher, in the order in which they call each other.
-/

namespace Vee.Tree.Match

set_option autoImplicit false

open Grammar

/-- Plain matching of spans that are shorter than the given one. -/
def plainInner (tokens : Array Token) (span : Span) (name : Name) (s : Span) : Option Tree :=
  if s.length < span.length then plain tokens name s else none

/-- Plain matching of one alternative. -/
def plainPattern (tokens : Array Token) (n : Name) (span : Span) : Pattern → Option Tree
  | [] => if span.length = 0 then some (.node n span [] none) else none
  | [.rule name] => if rank name < rank n then plain tokens name span else none
  | p => plainScan (plainInner tokens span) tokens n span p 0 span.start [] none

theorem plain_eq (tokens : Array Token) (n : Name) (span : Span) (hTerminal : (table n).terminal = false) :
    plain tokens n span = (table n).alternatives.findSome? (plainPattern tokens n span) := by
  rw [plain, if_neg (by simp [hTerminal])]
  rfl

/-- Plain matching fails wherever a failure is remembered. -/
def Sound (tokens : Array Token) (failures : Failures) : Prop :=
  ∀ r s, failures.contains (r, s) = true → plain tokens r s = none

theorem sound_empty (tokens : Array Token) : Sound tokens ∅ := by
  intro r s hMem
  rw [Std.HashSet.contains_empty] at hMem
  cases hMem

theorem Sound.insert {tokens : Array Token} {failures : Failures} {r : Name} {s : Span} (h : Sound tokens failures)
    (hFails : plain tokens r s = none) : Sound tokens (failures.insert (r, s)) := by
  intro r' s' hMem
  rw [Std.HashSet.contains_insert, Bool.or_eq_true, beq_iff_eq] at hMem
  rcases hMem with hEq | hMem
  · cases hEq
    exact hFails
  · exact h r' s' hMem

/-- A result is the expected one, and the failures behind it are sound. -/
def Agrees {α : Type} (tokens : Array Token) (result : α × Failures) (expected : α) : Prop :=
  result.1 = expected ∧ Sound tokens result.2

/-- References are matched as by plain matching where the span is shorter than a bound. -/
def Faithful (tokens : Array Token) (inner : Inner) (bound : Nat) : Prop :=
  ∀ r s failures, s.length < bound → Sound tokens failures → Agrees tokens (inner r s failures) (plain tokens r s)

variable {tokens : Array Token} {inner : Inner} {failures : Failures}

theorem boundary_agrees {inner : Span → Failures → Option Tree × Failures} {expected : Span → Option Tree}
    {stop : Element} {start count index : Nat}
    (hInner : ∀ cut, index ≤ cut → cut < index + count → ∀ failures, Sound tokens failures →
      Agrees tokens (inner ⟨start, cut⟩ failures) (expected ⟨start, cut⟩))
    (hSound : Sound tokens failures) :
    Agrees tokens (boundary inner stop tokens start count index failures)
      (plainBoundary expected stop tokens start count index) := by
  fun_induction boundary inner stop tokens start count index failures with
  | case1 => exact ⟨rfl, hSound⟩
  | case2 count index failures hAccepts tree failures' hTree =>
    obtain ⟨hEq, hSound'⟩ := hInner index (Nat.le_refl _) (by omega) failures hSound
    rw [hTree] at hEq hSound'
    simp only [plainBoundary, hAccepts, if_true, ← hEq]
    exact ⟨rfl, hSound'⟩
  | case3 count index failures hAccepts failures' hTree ih =>
    obtain ⟨hEq, hSound'⟩ := hInner index (Nat.le_refl _) (by omega) failures hSound
    rw [hTree] at hEq hSound'
    simp only [plainBoundary, hAccepts, if_true, ← hEq]
    exact ih (fun cut hLower hUpper => hInner cut (by omega) (by omega)) hSound'
  | case4 count index failures hAccepts ih =>
    simp only [plainBoundary, hAccepts]
    exact ih (fun cut hLower hUpper => hInner cut (by omega) (by omega)) hSound

theorem boundary_agrees_inside {span : Span} {name : Name} {stop : Element} {index : Nat}
    (hInner : Faithful tokens inner span.length) (hStart : span.start ≤ index) (hLt : index < span.stop)
    (hSound : Sound tokens failures) :
    Agrees tokens (boundary (inner name) stop tokens index (span.stop - index) index failures)
      (plainBoundary (plainInner tokens span name) stop tokens index (span.stop - index) index) := by
  refine boundary_agrees ?_ hSound
  intro cut hLower hUpper failures hSound
  have hLength : (Span.mk index cut).length < span.length := by
    simp only [Span.length]
    omega
  rw [plainInner, if_pos hLength]
  exact hInner name _ failures hLength hSound

/-- What a step says about the result of plain matching. -/
def Step.Gives (tokens : Array Token) (expected : Option Tree) : Step → Prop
  | .matched tree => expected = some tree
  | .tail p r s => expected = (plain tokens r s).map p.complete
  | .failed => expected = none

theorem scan_agrees {rule : Name} {span : Span} {alternative : Nat} {pattern : Pattern} {position index : Nat}
    {children : List Tree} {operator : Option Token} (hInner : Faithful tokens inner span.length)
    (hSound : Sound tokens failures) (hStart : span.start ≤ index)
    (hPattern : span.start < index ∨ ∀ name, pattern ≠ [.rule name]) :
    Step.Gives tokens (plainScan (plainInner tokens span) tokens rule span pattern position index children operator)
        (scan inner tokens rule span alternative pattern position index children operator failures).1 ∧
      Sound tokens
        (scan inner tokens rule span alternative pattern position index children operator failures).2 := by
  fun_induction scan inner tokens rule span alternative pattern position index children operator failures with
  | case1 position index children operator failures hLt =>
    rw [plainScan, if_pos hLt]
    exact ⟨rfl, hSound⟩
  | case2 position index children operator failures hLt name =>
    have hLength : (Span.mk index span.stop).length < span.length := by
      have hLt' := hPattern.resolve_right fun hNot => hNot name rfl
      simp only [Span.length]
      omega
    rw [plainScan, if_pos hLt]
    refine ⟨?_, hSound⟩
    simp only [plainInner, if_pos hLength]
    rfl
  | case3 position index children operator failures hLt name stop rest failures' hNone =>
    obtain ⟨hEq, hSound'⟩ := boundary_agrees_inside hInner hStart hLt hSound
    rw [hNone] at hEq hSound'
    rw [plainScan, if_pos hLt]
    simp only [← hEq]
    exact ⟨rfl, hSound'⟩
  | case4 position index children operator failures hLt name stop rest cut tree failures' hSome ih =>
    obtain ⟨hEq, hSound'⟩ := boundary_agrees_inside hInner hStart hLt hSound
    rw [hSome] at hEq hSound'
    have hLe := le_of_boundary hSome
    rw [plainScan, if_pos hLt]
    simp only [← hEq]
    exact ih hSound' (by omega) (.inl (by omega))
  | case5 position index children operator failures hLt e rest hSingle hPair hAccepts ih =>
    rw [plainScan, if_pos hLt, if_pos hAccepts]
    · exact ih hSound (by omega) (.inl (by omega))
    · exact hSingle
    · exact hPair
  | case6 position index children operator failures hLt e rest hSingle hPair hAccepts =>
    rw [plainScan, if_pos hLt, if_neg hAccepts]
    · exact ⟨rfl, hSound⟩
    · exact hSingle
    · exact hPair
  | case7 pattern position index children operator failures hGe hEmpty =>
    rw [plainScan.eq_def, if_neg hGe, if_pos hEmpty]
    exact ⟨rfl, hSound⟩
  | case8 pattern position index children operator failures hGe hEmpty =>
    rw [plainScan.eq_def, if_neg hGe, if_neg hEmpty]
    exact ⟨rfl, hSound⟩

theorem tryPattern_agrees {rule : Name} {span : Span} {alternative : Nat} {pattern : Pattern}
    (hInner : Faithful tokens inner span.length) (hSound : Sound tokens failures)
    (hMem : pattern ∈ (table rule).alternatives) :
    Step.Gives tokens (plainPattern tokens rule span pattern)
        (tryPattern inner tokens rule span alternative failures pattern).1 ∧
      Sound tokens (tryPattern inner tokens rule span alternative failures pattern).2 := by
  fun_cases tryPattern inner tokens rule span alternative failures pattern with
  | case1 =>
    refine ⟨?_, hSound⟩
    rw [plainPattern]
    split
    · rfl
    · rfl
  | case2 name =>
    refine ⟨?_, hSound⟩
    rw [plainPattern, if_pos (rank_lt_of_mem hMem)]
    exact Option.map_id'.symm
  | case3 pattern hNil hSingle =>
    have hScan : plainPattern tokens rule span pattern =
        plainScan (plainInner tokens span) tokens rule span pattern 0 span.start [] none := by
      rw [plainPattern]
      · exact hNil
      · exact hSingle
    rw [hScan]
    exact scan_agrees hInner hSound (Nat.le_refl _) (.inr hSingle)

/-! ## Alternatives -/

/-- Plain matching by the alternatives from one on. -/
def plainFrom (tokens : Array Token) (rule : Name) (span : Span) (first : Nat) : Option Tree :=
  if (table rule).terminal then plain tokens rule span
  else ((table rule).alternatives.drop first).findSome? (plainPattern tokens rule span)

/-- Plain matching fails for the alternatives in front of one. -/
def FailsBefore (tokens : Array Token) (rule : Name) (span : Span) (first : Nat) : Prop :=
  ∀ p ∈ (table rule).alternatives.take first, plainPattern tokens rule span p = none

theorem failsBefore_zero (rule : Name) (span : Span) : FailsBefore tokens rule span 0 := by
  intro p hMem
  rw [List.take_zero] at hMem
  cases hMem

theorem plainFrom_zero (tokens : Array Token) (rule : Name) (span : Span) :
    plainFrom tokens rule span 0 = plain tokens rule span := by
  rw [plainFrom]
  split
  · rfl
  · rename_i hTerminal
    rw [List.drop_zero, plain_eq tokens rule span (Bool.not_eq_true _ ▸ hTerminal)]

theorem plain_eq_plainFrom {rule : Name} {span : Span} {first : Nat} (hBefore : FailsBefore tokens rule span first) :
    plain tokens rule span = plainFrom tokens rule span first := by
  rw [← plainFrom_zero, plainFrom, plainFrom]
  split
  · rfl
  · rw [List.drop_zero]
    have hSplit := (List.take_append_drop first (table rule).alternatives).symm
    rw [hSplit, List.findSome?_append, List.findSome?_eq_none_iff.mpr hBefore, Option.none_or, ← hSplit]

theorem plainFrom_of_getElem? {rule : Name} {span : Span} {first : Nat} {p : Pattern}
    (hTerminal : (table rule).terminal = false) (hGet : (table rule).alternatives[first]? = some p) :
    plainFrom tokens rule span first =
      (plainPattern tokens rule span p).or (plainFrom tokens rule span (first + 1)) := by
  obtain ⟨hLt, rfl⟩ := List.getElem?_eq_some_iff.mp hGet
  simp only [plainFrom, hTerminal, Bool.false_eq_true, if_false]
  rw [List.drop_eq_getElem_cons hLt, List.findSome?_cons]
  cases plainPattern tokens rule span (table rule).alternatives[first] <;> rfl

theorem FailsBefore.succ {rule : Name} {span : Span} {first : Nat} (h : FailsBefore tokens rule span first)
    (hHere : ∀ p, (table rule).alternatives[first]? = some p → plainPattern tokens rule span p = none) :
    FailsBefore tokens rule span (first + 1) := by
  intro p hMem
  rw [List.take_add_one, List.mem_append, Option.mem_toList] at hMem
  exact hMem.elim (h p) (hHere p)

/-- A pattern gives what the reference at its end gives, and the alternatives in front of it fail. -/
structure Pending.Waits (tokens : Array Token) (p : Pending) (r : Name) (s : Span) : Prop where
  before : FailsBefore tokens p.rule p.span p.alternative
  here : ∀ q, (table p.rule).alternatives[p.alternative]? = some q →
    plainPattern tokens p.rule p.span q = (plain tokens r s).map p.complete
  shorter : s.length ≤ p.span.length

theorem Pending.Waits.failsBefore {p : Pending} {r : Name} {s : Span} (h : p.Waits tokens r s)
    (hFails : plain tokens r s = none) : FailsBefore tokens p.rule p.span (p.alternative + 1) := by
  refine h.before.succ fun q hGet => ?_
  rw [h.here q hGet, hFails, Option.map_none]

/-- What a step says about plain matching by the alternatives from one on. -/
def Step.Continues (tokens : Array Token) (rule : Name) (span : Span) (first : Nat) : Step → Prop
  | .matched tree => plainFrom tokens rule span first = some tree
  | .tail p r s => p.rule = rule ∧ p.span = span ∧ p.Waits tokens r s ∧
      plainFrom tokens rule span first =
        ((plain tokens r s).map p.complete).or (plainFrom tokens rule span (p.alternative + 1))
  | .failed => plainFrom tokens rule span first = none

theorem Step.Continues.of_eq {rule : Name} {span : Span} {first later : Nat} {step : Step}
    (hEq : plainFrom tokens rule span first = plainFrom tokens rule span later)
    (h : step.Continues tokens rule span later) : step.Continues tokens rule span first := by
  cases step <;> simpa only [Step.Continues, hEq] using h

theorem alternative_of_tryPattern {rule : Name} {span : Span} {alternative : Nat} {pattern : Pattern}
    {rest : Failures} {p : Pending} {r : Name} {s : Span}
    (h : tryPattern inner tokens rule span alternative failures pattern = (.tail p r s, rest)) :
    p.alternative = alternative := by
  fun_cases tryPattern inner tokens rule span alternative failures pattern with
  | case1 =>
    rw [tryPattern] at h
    split at h <;> cases h
  | case2 =>
    cases h
    rfl
  | case3 pattern hNil hSingle =>
    rw [tryPattern] at h
    · exact (scan_tail (Nat.le_refl _) (.inr hSingle) h).2.2.1
    · exact hNil
    · exact hSingle

theorem waits_of_tryPattern {rule : Name} {span : Span} {first : Nat} {pattern : Pattern} {rest : Failures}
    {p : Pending} {r : Name} {s : Span} (hBefore : FailsBefore tokens rule span first)
    (hGet : (table rule).alternatives[first]? = some pattern)
    (hTry : tryPattern inner tokens rule span first failures pattern = (.tail p r s, rest))
    (hMap : plainPattern tokens rule span pattern = (plain tokens r s).map p.complete) : p.Waits tokens r s := by
  have hFalls := tryPattern_tail hGet hTry
  refine ⟨?_, ?_, ?_⟩
  · rw [hFalls.rule_eq, hFalls.span_eq, alternative_of_tryPattern hTry]
    exact hBefore
  · intro q hq
    rw [hFalls.rule_eq, alternative_of_tryPattern hTry, hGet] at hq
    cases hq
    rw [hFalls.rule_eq, hFalls.span_eq, hMap]
  · rw [hFalls.span_eq]
    rcases hFalls.smaller with hLt | ⟨rfl, -⟩
    · exact Nat.le_of_lt hLt
    · exact Nat.le_refl _

theorem tryPatterns_agrees {rule : Name} {span : Span} {first : Nat} {patterns : List Pattern}
    (hTerminal : (table rule).terminal = false) (hInner : Faithful tokens inner span.length)
    (hSound : Sound tokens failures) (hBefore : FailsBefore tokens rule span first)
    (hPatterns : patterns = (table rule).alternatives.drop first) :
    Step.Continues tokens rule span first (tryPatterns inner tokens rule span first patterns failures).1 ∧
      Sound tokens (tryPatterns inner tokens rule span first patterns failures).2 := by
  induction patterns generalizing first failures with
  | nil =>
    have hNone : plainFrom tokens rule span first = none := by
      rw [plainFrom, hTerminal, ← hPatterns]
      rfl
    exact ⟨hNone, hSound.insert ((plain_eq_plainFrom hBefore).trans hNone)⟩
  | cons pattern patterns ih =>
    have hGet : (table rule).alternatives[first]? = some pattern := by
      rw [← List.head?_drop, ← hPatterns]
      rfl
    have hFrom : plainFrom tokens rule span first =
        (plainPattern tokens rule span pattern).or (plainFrom tokens rule span (first + 1)) :=
      plainFrom_of_getElem? hTerminal hGet
    have hTried : Step.Gives tokens (plainPattern tokens rule span pattern)
          (tryPattern inner tokens rule span first failures pattern).1 ∧
        Sound tokens (tryPattern inner tokens rule span first failures pattern).2 :=
      tryPattern_agrees hInner hSound (List.mem_of_getElem? hGet)
    rw [tryPatterns]
    cases hTry : tryPattern inner tokens rule span first failures pattern with
    | mk step failures' =>
    rw [hTry] at hTried
    obtain ⟨hGives, hSound'⟩ := hTried
    cases step with
    | failed =>
      have hNone : plainPattern tokens rule span pattern = none := hGives
      rw [hNone, Option.none_or] at hFrom
      have hRest : patterns = (table rule).alternatives.drop (first + 1) := by
        rw [← List.tail_drop, ← hPatterns]
        rfl
      have hFails : FailsBefore tokens rule span (first + 1) := by
        refine hBefore.succ fun p hp => ?_
        cases hGet.symm.trans hp
        exact hNone
      obtain ⟨hLater, hLaterSound⟩ := ih hSound' hFails hRest
      exact ⟨hLater.of_eq hFrom, hLaterSound⟩
    | matched tree =>
      have hSome : plainPattern tokens rule span pattern = some tree := hGives
      rw [hSome, Option.some_or] at hFrom
      exact ⟨hFrom, hSound'⟩
    | tail p r s =>
      have hMap : plainPattern tokens rule span pattern = (plain tokens r s).map p.complete := hGives
      have hWaits := waits_of_tryPattern hBefore hGet hTry hMap
      have hFalls := tryPattern_tail hGet hTry
      have hAlternative := alternative_of_tryPattern hTry
      rw [hMap, ← hAlternative] at hFrom
      rw [← hAlternative]
      exact ⟨⟨hFalls.rule_eq, hFalls.span_eq, hWaits, hFrom⟩, hSound'⟩

theorem attempt_agrees {rule : Name} {span : Span} {first : Nat} (hInner : Faithful tokens inner span.length)
    (hSound : Sound tokens failures) (hBefore : FailsBefore tokens rule span first) :
    Step.Continues tokens rule span first (attempt inner tokens rule span first failures).1 ∧
      Sound tokens (attempt inner tokens rule span first failures).2 := by
  rw [attempt]
  split
  · rename_i hTerminal
    have hFrom : plainFrom tokens rule span first = plain tokens rule span := by
      rw [plainFrom, if_pos hTerminal]
    rw [plain, if_pos hTerminal] at hFrom
    refine ⟨?_, hSound⟩
    cases hStep : terminal tokens rule span with
    | matched tree | failed =>
      rw [hStep] at hFrom
      exact hFrom
    | tail p r s =>
      rw [terminal] at hStep
      split at hStep
      · split at hStep <;> cases hStep
      · cases hStep
  · rename_i hTerminal
    split
    · rename_i hKnown
      obtain ⟨hFirst, hContains⟩ := Bool.and_eq_true_iff.mp hKnown
      rw [of_decide_eq_true hFirst]
      exact ⟨(plainFrom_zero tokens rule span).trans (hSound rule span hContains), hSound⟩
    · exact tryPatterns_agrees (Bool.not_eq_true _ ▸ hTerminal) hInner hSound hBefore rfl

/-! ## The search -/

/-- The result for patterns that wait for an outcome. A failure goes on with the next alternatives of the innermost. -/
def resume (tokens : Array Token) : List Pending → Option Tree → Option Tree
  | pending, some tree => some (pending.foldl (fun t p => p.complete t) tree)
  | [], none => none
  | p :: pending, none => resume tokens pending (plainFrom tokens p.rule p.span (p.alternative + 1))

/-- Every pattern of a stack waits for the one above it, the topmost for a rule and a span. -/
def Chain (tokens : Array Token) (bound : Nat) : List Pending → Name → Span → Prop
  | [], _, s => s.length ≤ bound
  | p :: pending, r, s => p.Waits tokens r s ∧ Chain tokens bound pending p.rule p.span

theorem Chain.length_le {bound : Nat} {pending : List Pending} {r : Name} {s : Span}
    (h : Chain tokens bound pending r s) : s.length ≤ bound := by
  induction pending generalizing r s with
  | nil => exact h
  | cons p pending ih => exact Nat.le_trans h.1.shorter (ih h.2)

theorem search_agrees {bound : Nat} {pending : List Pending} {rule : Name} {span : Span} {first : Nat}
    (hInner : Faithful tokens inner bound) (hSound : Sound tokens failures)
    (hChain : Chain tokens bound pending rule span) (hBefore : FailsBefore tokens rule span first) :
    Agrees tokens (search inner tokens pending rule span first failures)
      (resume tokens pending (plainFrom tokens rule span first)) := by
  have hShorter : ∀ pending rule span, Chain tokens bound pending rule span → Faithful tokens inner span.length :=
    fun pending rule span hChain r s failures hLt => hInner r s failures (Nat.lt_of_lt_of_le hLt hChain.length_le)
  fun_induction search inner tokens pending rule span first failures with
  | case1 pending rule span first failures tree failures' hStep =>
    obtain ⟨hFrom, hSound'⟩ := attempt_agrees (hShorter _ _ _ hChain) hSound hBefore
    rw [hStep] at hFrom hSound'
    have hFrom : plainFrom tokens rule span first = some tree := hFrom
    rw [hFrom]
    exact ⟨by rw [resume], hSound'⟩
  | case2 pending rule span first failures p name rest failures' hStep ih =>
    obtain ⟨hContinues, hSound'⟩ := attempt_agrees (hShorter _ _ _ hChain) hSound hBefore
    rw [hStep] at hContinues hSound'
    obtain ⟨hRule, hSpan, hWaits, hFrom⟩ := hContinues
    have hLater := ih hSound' ⟨hWaits, hRule ▸ hSpan ▸ hChain⟩ (failsBefore_zero name rest)
    have hResume : resume tokens (p :: pending) (plainFrom tokens name rest 0) =
        resume tokens pending (plainFrom tokens rule span first) := by
      rw [plainFrom_zero, hFrom]
      cases plain tokens name rest with
      | none =>
        rw [resume, Option.map_none, Option.none_or, hRule, hSpan]
      | some tree =>
        rw [resume, Option.map_some, Option.some_or, resume]
        rfl
    rwa [← hResume]
  | case3 rule span first failures failures' hStep =>
    obtain ⟨hFrom, hSound'⟩ := attempt_agrees (hShorter _ _ _ hChain) hSound hBefore
    rw [hStep] at hFrom hSound'
    have hFrom : plainFrom tokens rule span first = none := hFrom
    rw [hFrom]
    exact ⟨by rw [resume], hSound'⟩
  | case4 rule span first failures failures' hStep p pending ih =>
    obtain ⟨hFrom, hSound'⟩ := attempt_agrees (hShorter _ _ _ hChain) hSound hBefore
    rw [hStep] at hFrom hSound'
    have hFrom : plainFrom tokens rule span first = none := hFrom
    rw [hFrom, resume]
    exact ih hSound' hChain.2 (hChain.1.failsBefore ((plain_eq_plainFrom hBefore).trans hFrom))

theorem nested_faithful (tokens : Array Token) (depth : Nat) : Faithful tokens (nested tokens depth) depth := by
  induction depth with
  | zero => exact fun r s failures hLt => absurd hLt (Nat.not_lt_zero _)
  | succ depth ih =>
    intro r s failures hLt hSound
    have hSearch : Agrees tokens (search (nested tokens depth) tokens [] r s 0 failures)
        (resume tokens [] (plainFrom tokens r s 0)) :=
      search_agrees ih hSound (Nat.le_of_lt_succ hLt) (failsBefore_zero r s)
    have hResume : resume tokens [] (plain tokens r s) = plain tokens r s := by
      cases plain tokens r s with
      | none => rw [resume]
      | some tree =>
        rw [resume]
        rfl
    rwa [plainFrom_zero, hResume] at hSearch

/-- Matching gives what plain matching gives, from all sound failures, and keeps them sound. -/
theorem run_agrees (rule : Name) (span : Span) (hSound : Sound tokens failures) :
    Agrees tokens (run tokens rule span failures) (plain tokens rule span) :=
  nested_faithful tokens (span.length + 1) rule span failures (Nat.lt_succ_self _) hSound

end Vee.Tree.Match
