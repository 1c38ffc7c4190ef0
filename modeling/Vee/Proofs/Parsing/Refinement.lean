import Vee.Proofs.Parsing.Recognition

/-! # The search refines plain recursion

Plain matching is the only solution of the equation that says how a rule is matched by its alternatives. The search
solves the same equation with a stack and a memory: the bound on its nesting never shows, so that references are
matched as rules are, it only ever adds to the failures it knows, and from failures of earlier runs it gives the tree
of plain matching.
-/

namespace Vee.Tree.Match

set_option autoImplicit false

open Grammar

/-! ## Plain recursion -/

/-- The tree of one alternative, given those of rule references. -/
def plainAlternative (matched : Name → Span → Option Tree) (tokens : Array Token) (rule : Name) (span : Span) :
    Pattern → Option Tree
  | [] => if span.length = 0 then some (.node rule span [] none) else none
  | [.rule name] => matched name span
  | pattern => plainScan matched tokens rule span pattern 0 span.start [] none

/-- The tree of the first alternative that has one. -/
def plainRule (matched : Name → Span → Option Tree) (tokens : Array Token) (rule : Name) (span : Span) : Option Tree :=
  if (table rule).terminal then
    match terminal tokens rule span with
    | .matched tree => some tree
    | _ => none
  else (table rule).alternatives.findSome? (plainAlternative matched tokens rule span)

section

variable {tokens : Array Token} {rule : Name} {span : Span} {f g : Name → Span → Option Tree}

theorem plainBoundary_congr {f g : Span → Option Tree} {stop : Element} {start count index : Nat}
    (h : ∀ cut, index ≤ cut → cut < index + count → f ⟨start, cut⟩ = g ⟨start, cut⟩) :
    plainBoundary f stop tokens start count index = plainBoundary g stop tokens start count index := by
  induction count generalizing index with
  | zero => rfl
  | succ count ih =>
    rw [plainBoundary, plainBoundary, h index (Nat.le_refl _) (by omega),
      ih fun cut hLower hUpper => h cut (by omega) (by omega)]

theorem plainScan_congr {pattern : Pattern} {position index : Nat} {children : List Tree} {operator : Option Token}
    (h : ∀ name s, s.length < span.length → f name s = g name s) (hStart : span.start ≤ index)
    (hPattern : span.start < index ∨ ∀ name, pattern ≠ [.rule name]) :
    plainScan f tokens rule span pattern position index children operator =
      plainScan g tokens rule span pattern position index children operator := by
  have hBoundary : ∀ name stop index, span.start ≤ index → index < span.stop →
      plainBoundary (f name) stop tokens index (span.stop - index) index =
        plainBoundary (g name) stop tokens index (span.stop - index) index := by
    intro name stop index hStart hLt
    apply plainBoundary_congr
    intro cut hLower hUpper
    apply h
    simp only [Span.length]
    omega
  fun_induction plainScan f tokens rule span pattern position index children operator with
  | case1 position index children operator hLt => rw [plainScan, if_pos hLt]
  | case2 position index children operator hLt name =>
    have hLt' := hPattern.resolve_right fun hNot => hNot name rfl
    rw [plainScan, if_pos hLt, h name _ (by simp only [Span.length]; omega)]
  | case3 position index children operator hLt name stop rest hNone =>
    rw [hBoundary name stop index hStart hLt] at hNone
    rw [plainScan, if_pos hLt, hNone]
  | case4 position index children operator hLt name stop rest cut tree hSome ih =>
    have hLe := (hits_of_boundary hSome).1
    rw [hBoundary name stop index hStart hLt] at hSome
    rw [plainScan, if_pos hLt, hSome]
    exact ih (by omega) (.inl (by omega))
  | case5 position index children operator hLt e rest hSingle hPair hAccepts ih =>
    rw [plainScan, if_pos hLt, if_pos hAccepts]
    · exact ih (by omega) (.inl (by omega))
    · exact hSingle
    · exact hPair
  | case6 position index children operator hLt e rest hSingle hPair hAccepts =>
    rw [plainScan, if_pos hLt, if_neg hAccepts]
    · exact hSingle
    · exact hPair
  | case7 pattern position index children operator hGe hEmpty => rw [plainScan.eq_def, if_neg hGe, if_pos hEmpty]
  | case8 pattern position index children operator hGe hEmpty => rw [plainScan.eq_def, if_neg hGe, if_neg hEmpty]

theorem findSome?_congr {patterns : List Pattern} {first second : Pattern → Option Tree}
    (h : ∀ p ∈ patterns, first p = second p) : patterns.findSome? first = patterns.findSome? second := by
  induction patterns with
  | nil => rfl
  | cons p patterns ih =>
    rw [List.findSome?_cons, List.findSome?_cons, h p (List.mem_cons_self ..),
      ih fun q hMem => h q (List.mem_cons_of_mem _ hMem)]

/-- A rule is matched by references to shorter spans, and over the same span to rules of smaller rank. -/
theorem plainRule_congr
    (h : ∀ r s, s.length < span.length ∨ s = span ∧ rank r < rank rule → f r s = g r s) :
    plainRule f tokens rule span = plainRule g tokens rule span := by
  rw [plainRule, plainRule]
  split
  · rfl
  · apply findSome?_congr
    intro pattern hMem
    fun_cases plainAlternative f tokens rule span pattern with
    | case1 hEmpty => rw [plainAlternative, if_pos hEmpty]
    | case2 hEmpty => rw [plainAlternative, if_neg hEmpty]
    | case3 name =>
      rw [plainAlternative]
      exact h name span (.inr ⟨rfl, rank_lt_of_mem hMem⟩)
    | case4 pattern hNil hSingle =>
      rw [plainAlternative]
      · exact plainScan_congr (fun name s hLt => h name s (.inl hLt)) (Nat.le_refl _) (.inr hSingle)
      · exact hNil
      · exact hSingle

theorem plain_eq_plainRule (tokens : Array Token) (rule : Name) (span : Span) :
    plain tokens rule span = plainRule (plain tokens) tokens rule span := by
  rw [plainRule]
  split
  · rename_i hTerminal
    rw [plain]
    exact if_pos hTerminal
  · rename_i hTerminal
    rw [plain_eq tokens rule span (Bool.not_eq_true _ ▸ hTerminal)]
    apply findSome?_congr
    intro pattern hMem
    fun_cases plainAlternative (plain tokens) tokens rule span pattern with
    | case1 hEmpty => rw [plainPattern, if_pos hEmpty]
    | case2 hEmpty => rw [plainPattern, if_neg hEmpty]
    | case3 name => rw [plainPattern, if_pos (rank_lt_of_mem hMem)]
    | case4 pattern hNil hSingle =>
      rw [plainPattern]
      · apply plainScan_congr _ (Nat.le_refl _) (.inr hSingle)
        intro name s hLt
        rw [plainInner, if_pos hLt]
      · exact hNil
      · exact hSingle

theorem eq_plain_of_plainRule (h : ∀ r s, f r s = plainRule f tokens r s) (rule : Name) (span : Span) :
    f rule span = plain tokens rule span := by
  rw [h, plain_eq_plainRule]
  apply plainRule_congr
  intro r s hSmaller
  exact eq_plain_of_plainRule h r s
termination_by (span.length, rank rule)
decreasing_by
  rcases hSmaller with hLt | ⟨rfl, hLt⟩
  · exact .left _ _ hLt
  · exact .right _ hLt

end

/-! ## References are matched as rules are -/

section

variable {tokens : Array Token} {rule : Name} {span : Span} {first other : Inner}

theorem boundary_congr {first other : Span → Failures → Option Tree × Failures} {stop : Element}
    {start count index : Nat} {failures : Failures}
    (h : ∀ cut failures, index ≤ cut → cut < index + count →
      first ⟨start, cut⟩ failures = other ⟨start, cut⟩ failures) :
    boundary first stop tokens start count index failures = boundary other stop tokens start count index failures := by
  induction count generalizing index failures with
  | zero => rfl
  | succ count ih =>
    rw [boundary, boundary, h index failures (Nat.le_refl _) (by omega)]
    have hLater : ∀ failures, boundary first stop tokens start count (index + 1) failures =
        boundary other stop tokens start count (index + 1) failures :=
      fun failures => ih fun cut failures hLower hUpper => h cut failures (by omega) (by omega)
    simp only [hLater]

theorem scan_congr {alternative : Nat} {pattern : Pattern} {position index : Nat} {children : List Tree}
    {operator : Option Token} {failures : Failures}
    (h : ∀ r s failures, s.length < span.length → first r s failures = other r s failures)
    (hStart : span.start ≤ index) :
    scan first tokens rule span alternative pattern position index children operator failures =
      scan other tokens rule span alternative pattern position index children operator failures := by
  have hBoundary : ∀ name stop index failures, span.start ≤ index → index < span.stop →
      boundary (first name) stop tokens index (span.stop - index) index failures =
        boundary (other name) stop tokens index (span.stop - index) index failures := by
    intro name stop index failures hStart hLt
    apply boundary_congr
    intro cut failures hLower hUpper
    apply h
    simp only [Span.length]
    omega
  fun_induction scan first tokens rule span alternative pattern position index children operator failures with
  | case1 position index children operator failures hLt => rw [scan, if_pos hLt]
  | case2 position index children operator failures hLt name => rw [scan, if_pos hLt]
  | case3 position index children operator failures hLt name stop rest failures' hNone =>
    rw [hBoundary name stop index failures hStart hLt] at hNone
    rw [scan, if_pos hLt, hNone]
  | case4 position index children operator failures hLt name stop rest cut tree failures' hSome ih =>
    have hLe := le_of_boundary hSome
    rw [hBoundary name stop index failures hStart hLt] at hSome
    rw [scan, if_pos hLt, hSome]
    exact ih (by omega)
  | case5 position index children operator failures hLt e rest hSingle hPair hAccepts ih =>
    rw [scan, if_pos hLt, if_pos hAccepts]
    · exact ih (by omega)
    · exact hSingle
    · exact hPair
  | case6 position index children operator failures hLt e rest hSingle hPair hAccepts =>
    rw [scan, if_pos hLt, if_neg hAccepts]
    · exact hSingle
    · exact hPair
  | case7 pattern position index children operator failures hGe hEmpty =>
    rw [scan.eq_def, if_neg hGe, if_pos hEmpty]
  | case8 pattern position index children operator failures hGe hEmpty =>
    rw [scan.eq_def, if_neg hGe, if_neg hEmpty]

theorem tryPattern_congr {alternative : Nat} {pattern : Pattern} {failures : Failures}
    (h : ∀ r s failures, s.length < span.length → first r s failures = other r s failures) :
    tryPattern first tokens rule span alternative failures pattern =
      tryPattern other tokens rule span alternative failures pattern := by
  fun_cases tryPattern first tokens rule span alternative failures pattern with
  | case1 => rfl
  | case2 name => rfl
  | case3 pattern hNil hSingle =>
    rw [tryPattern]
    · exact scan_congr h (Nat.le_refl _)
    · exact hNil
    · exact hSingle

theorem tryPatterns_congr {alternative : Nat} {patterns : List Pattern} {failures : Failures}
    (h : ∀ r s failures, s.length < span.length → first r s failures = other r s failures) :
    tryPatterns first tokens rule span alternative patterns failures =
      tryPatterns other tokens rule span alternative patterns failures := by
  induction patterns generalizing alternative failures with
  | nil => rfl
  | cons pattern patterns ih => simp only [tryPatterns, tryPattern_congr h, ih]

theorem attempt_congr {alternative : Nat} {failures : Failures}
    (h : ∀ r s failures, s.length < span.length → first r s failures = other r s failures) :
    attempt first tokens rule span alternative failures = attempt other tokens rule span alternative failures := by
  simp only [attempt, tryPatterns_congr h]

theorem search_eq (inner : Inner) (tokens : Array Token) (pending : List Pending) (rule : Name) (span : Span)
    (first : Nat) (failures : Failures) :
    search inner tokens pending rule span first failures =
      match attempt inner tokens rule span first failures, pending with
      | (.matched tree, failures), pending => (some (pending.foldl (fun t p => p.complete t) tree), failures)
      | (.tail p name rest, failures), pending => search inner tokens (p :: pending) name rest 0 failures
      | (.failed, failures), [] => (none, failures)
      | (.failed, failures), p :: pending =>
        search inner tokens pending p.rule p.span (p.alternative + 1) failures := by
  rw [search]
  split
  · rename_i hStep
    rw [hStep]
  · rename_i hStep
    rw [hStep]
  · rename_i hStep
    rw [hStep]
    cases pending <;> rfl

/-- The search matches references to spans that are shorter than all it has begun with. -/
theorem search_congr {bound : Nat} {pending : List Pending} {alternative : Nat} {failures : Failures}
    (h : ∀ r s failures, s.length < bound → first r s failures = other r s failures)
    (hSpan : span.length ≤ bound) (hPending : ∀ p ∈ pending, p.span.length ≤ bound) :
    search first tokens pending rule span alternative failures =
      search other tokens pending rule span alternative failures := by
  have hAttempt : ∀ rule span alternative failures, span.length ≤ bound →
      attempt other tokens rule span alternative failures = attempt first tokens rule span alternative failures := by
    intro rule span alternative failures hLe
    apply Eq.symm
    apply attempt_congr
    intro r s failures hLt
    exact h r s failures (Nat.lt_of_lt_of_le hLt hLe)
  fun_induction search first tokens pending rule span alternative failures with
  | case1 pending rule span alternative failures tree failures' hStep =>
    rw [search_eq other, hAttempt rule span alternative failures hSpan, hStep]
  | case2 pending rule span alternative failures p name rest failures' hStep ih =>
    have hFalls := attempt_tail hStep
    rw [search_eq other, hAttempt rule span alternative failures hSpan, hStep]
    apply ih
    · rcases hFalls.smaller with hLt | ⟨rfl, -⟩
      · omega
      · exact hSpan
    · intro q hMem
      rcases List.mem_cons.mp hMem with rfl | hMem
      · rw [hFalls.span_eq]
        exact hSpan
      · exact hPending q hMem
  | case3 rule span alternative failures failures' hStep =>
    rw [search_eq other, hAttempt rule span alternative failures hSpan, hStep]
  | case4 rule span alternative failures failures' hStep p pending ih =>
    rw [search_eq other, hAttempt rule span alternative failures hSpan, hStep]
    apply ih
    · exact hPending p List.mem_cons_self
    · intro q hMem
      exact hPending q (List.mem_cons_of_mem _ hMem)

end

/-- The depth to which references nest does not matter, as long as it exceeds the length of the span. -/
theorem nested_eq {tokens : Array Token} {rule : Name} {span : Span} {depth other : Nat} {failures : Failures}
    (hDepth : span.length < depth) (hOther : span.length < other) :
    nested tokens depth rule span failures = nested tokens other rule span failures := by
  induction depth generalizing rule span other failures with
  | zero => omega
  | succ depth ih =>
    cases other with
    | zero => omega
    | succ other =>
      have hInner : ∀ r s failures, s.length < span.length →
          nested tokens depth r s failures = nested tokens other r s failures := by
        intro r s failures hLt
        exact ih (by omega) (by omega)
      exact search_congr hInner (Nat.le_refl _) (List.forall_mem_nil _)

/-- The search of a rule matches references to shorter spans by searches of the same kind. -/
theorem run_eq_search (tokens : Array Token) (rule : Name) (span : Span) (failures : Failures) :
    run tokens rule span failures = search (run tokens) tokens [] rule span 0 failures := by
  have hInner : ∀ r s failures, s.length < span.length →
      nested tokens span.length r s failures = run tokens r s failures := by
    intro r s failures hLt
    exact nested_eq hLt (Nat.lt_succ_self _)
  exact search_congr hInner (Nat.le_refl _) (List.forall_mem_nil _)

/-! ## Failures are never forgotten -/

section

variable {tokens : Array Token} {inner : Inner} {rule : Name} {span : Span} {failures after : Failures}
  {P : Failures → Prop}

theorem kept_of_boundary {inner : Span → Failures → Option Tree × Failures} {stop : Element}
    {start count index : Nat} {result : Option (Nat × Tree)}
    (hInner : ∀ s failures, P failures → P (inner s failures).2) (h : P failures)
    (hRun : boundary inner stop tokens start count index failures = (result, after)) : P after := by
  fun_induction boundary inner stop tokens start count index failures with
  | case1 =>
    cases hRun
    exact h
  | case2 count index failures hAccepts tree failures' hTree =>
    have hAfter := hInner ⟨start, index⟩ failures h
    rw [hTree] at hAfter
    cases hRun
    exact hAfter
  | case3 count index failures hAccepts failures' hTree ih =>
    have hAfter := hInner ⟨start, index⟩ failures h
    rw [hTree] at hAfter
    exact ih hAfter hRun
  | case4 count index failures hAccepts ih => exact ih h hRun

variable (hInner : ∀ r s failures, P failures → P (inner r s failures).2)
include hInner

theorem kept_scan {alternative : Nat} {pattern : Pattern} {position index : Nat} {children : List Tree}
    {operator : Option Token} (h : P failures) :
    P (scan inner tokens rule span alternative pattern position index children operator failures).2 := by
  fun_induction scan inner tokens rule span alternative pattern position index children operator failures with
  | case1 | case2 | case6 | case7 | case8 => exact h
  | case3 position index children operator failures hLt name stop rest failures' hNone =>
    exact kept_of_boundary (hInner name) h hNone
  | case4 position index children operator failures hLt name stop rest cut tree failures' hSome ih =>
    exact ih (kept_of_boundary (hInner name) h hSome)
  | case5 position index children operator failures hLt e rest hSingle hPair hAccepts ih => exact ih h

theorem kept_tryPattern {alternative : Nat} {pattern : Pattern} (h : P failures) :
    P (tryPattern inner tokens rule span alternative failures pattern).2 := by
  fun_cases tryPattern inner tokens rule span alternative failures pattern with
  | case1 | case2 => exact h
  | case3 => exact kept_scan hInner h

variable (hInsert : ∀ failures key, P failures → P (failures.insert key))
include hInsert

theorem kept_tryPatterns {alternative : Nat} {patterns : List Pattern} (h : P failures) :
    P (tryPatterns inner tokens rule span alternative patterns failures).2 := by
  induction patterns generalizing alternative failures with
  | nil => exact hInsert failures (rule, span) h
  | cons pattern patterns ih =>
    have hTried : P (tryPattern inner tokens rule span alternative failures pattern).2 :=
      kept_tryPattern hInner h
    rw [tryPatterns]
    split
    · rename_i failures' hTry
      rw [hTry] at hTried
      exact ih hTried
    · exact hTried

theorem kept_attempt {first : Nat} (h : P failures) :
    P (attempt inner tokens rule span first failures).2 := by
  rw [attempt]
  split
  · exact h
  · split
    · exact h
    · exact kept_tryPatterns hInner hInsert h

/-- What references keep of the known failures, and what more failures cannot break, the search keeps. -/
theorem kept_search {pending : List Pending} {first : Nat} (h : P failures) :
    P (search inner tokens pending rule span first failures).2 := by
  fun_induction search inner tokens pending rule span first failures with
  | case1 pending rule span first failures tree failures' hStep
  | case3 rule span first failures failures' hStep =>
    have hAfter : P (attempt inner tokens rule span first failures).2 := kept_attempt hInner hInsert h
    rwa [hStep] at hAfter
  | case2 pending rule span first failures p name rest failures' hStep ih
  | case4 rule span first failures failures' hStep p pending ih =>
    have hAfter : P (attempt inner tokens rule span first failures).2 := kept_attempt hInner hInsert h
    rw [hStep] at hAfter
    exact ih hAfter

end

theorem contains_nested {tokens : Array Token} {depth : Nat} {rule : Name} {span : Span} {failures : Failures}
    {key : Name × Span} (h : failures.contains key = true) :
    (nested tokens depth rule span failures).2.contains key = true := by
  induction depth generalizing rule span failures with
  | zero => exact h
  | succ depth ih =>
    apply kept_search (P := fun failures => failures.contains key = true)
    · intro r s failures h
      exact ih h
    · intro failures other h
      rw [Std.HashSet.contains_insert, h, Bool.or_true]
    · exact h

/-! ## Runs -/

/-- The failures that one run after another leaves behind. -/
inductive Accumulated (tokens : Array Token) : Failures → Prop where
  | empty : Accumulated tokens ∅
  | run {failures : Failures} (rule : Name) (span : Span) (h : Accumulated tokens failures) :
    Accumulated tokens (run tokens rule span failures).2

theorem Accumulated.sound {tokens : Array Token} {failures : Failures} (h : Accumulated tokens failures) :
    Sound tokens failures := by
  induction h with
  | empty => exact sound_empty tokens
  | run rule span _ ih => exact (run_agrees rule span ih).2

/-- Matching with a stack and a memory refines matching by plain recursion. From the failures of any earlier runs it
returns the tree of plain matching, and remembers only rules and spans on which plain matching fails, those it knew
before among them. The matcher here is the one without a bound on nesting, which matches references by further runs,
and plain matching is the one function that matches each rule by its first alternative that has a tree. -/
theorem run_refines_plain {tokens : Array Token} {failures : Failures} (hFailures : Accumulated tokens failures)
    (rule : Name) (span : Span) :
    (run tokens rule span failures).1 = plain tokens rule span ∧
      (∀ r s, (run tokens rule span failures).2.contains (r, s) = true → plain tokens r s = none) ∧
      (∀ key, failures.contains key = true → (run tokens rule span failures).2.contains key = true) ∧
      run tokens rule span failures = search (run tokens) tokens [] rule span 0 failures ∧
      ∀ matched : Name → Span → Option Tree,
        (∀ r s, matched r s = plainRule matched tokens r s) ↔ matched = plain tokens := by
  obtain ⟨hTree, hSound⟩ := run_agrees rule span hFailures.sound
  refine ⟨hTree, hSound, fun key => contains_nested, run_eq_search tokens rule span failures, ?_⟩
  intro matched
  constructor
  · intro h
    funext r s
    exact eq_plain_of_plainRule h r s
  · rintro rfl r s
    exact plain_eq_plainRule tokens r s

/-- A number is found as an operand although it was searched for a call before. -/
theorem run_refines_plain_operand :
    (run #[⟨.number, "7"⟩] .unary ⟨0, 1⟩ (run #[⟨.number, "7"⟩] .call ⟨0, 1⟩ ∅).2).1 =
      some (.leaf .number 0 ⟨.number, "7"⟩) := by
  rw [(run_refines_plain (.run .call ⟨0, 1⟩ .empty) .unary ⟨0, 1⟩).1]
  simp [plain_eq_plainRule, plainRule, plainAlternative, plainScan, terminal, acceptsToken, table, Element.accepts]

end Vee.Tree.Match
