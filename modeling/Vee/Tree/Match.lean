import Std.Data.HashSet
import Vee.Diagnostic
import Vee.Tree

/-!
# Matching tokens against the grammar

A rule is matched against a span of tokens that it has to cover exactly. Its alternatives are tried in
order, and a pattern is scanned from left to right: a rule reference in front of another element takes
the tokens up to the first token which that element accepts and for which the reference matches, and
the choice is final. A reference at the end of a pattern takes the rest.

References at the end of a pattern are followed in a loop with a stack of unfinished patterns, and
failed pairs of rule and span are remembered. Main statement: the loop ends, since the weight of the
unfinished patterns together with the current one falls in every round.
-/

namespace Vee.Tree

set_option autoImplicit false

namespace Match

open Grammar

/-- The rules and spans that are known not to match. -/
abbrev Failures := Std.HashSet (Name × Span)

/-- How a rule reference in front of another element is matched. -/
abbrev Inner := Name → Span → Failures → Option Tree × Failures

/-- A pattern that is matched up to the reference at its end. -/
structure Pending where
  rule : Name
  span : Span
  alternative : Nat
  /-- What was matched in front of the reference, or nothing if the pattern is the reference alone. -/
  front : Option (List Tree × Option Token)

/-- The tree of a pattern whose last reference has matched. -/
def Pending.complete (p : Pending) (t : Tree) : Tree :=
  match p.front with
  | none => t
  | some (children, operator) => .node p.rule p.span (children ++ [t]) operator

inductive Step where
  | matched (tree : Tree)
  | tail (pending : Pending) (rule : Name) (span : Span)
  | failed

/-- Looks for the first token, among `count` tokens from `index` on, that the element accepts and up to which
the inner rule matches. -/
def boundary (inner : Span → Failures → Option Tree × Failures) (stop : Element)
    (tokens : Array Token) (start : Nat) :
    (count index : Nat) → Failures → Option (Nat × Tree) × Failures
  | 0, _, failures => (none, failures)
  | count + 1, index, failures =>
    if tokens[index]?.any fun t => stop.accepts t.kind then
      match inner ⟨start, index⟩ failures with
      | (some tree, failures) => (some (index, tree), failures)
      | (none, failures) => boundary inner stop tokens start count (index + 1) failures
    else boundary inner stop tokens start count (index + 1) failures

/-- The operator after the token at `index` was taken at a position of the pattern. -/
def pick (tokens : Array Token) (rule : Name) (position index : Nat) (operator : Option Token) :
    Option Token :=
  if (table rule).operator = some position then tokens[index]? else operator

/-- Matches what is left of a pattern against the tokens from `index` on. -/
def scan (inner : Inner) (tokens : Array Token) (rule : Name) (span : Span) (alternative : Nat)
    (pattern : Pattern) (position index : Nat) (children : List Tree) (operator : Option Token)
    (failures : Failures) : Step × Failures :=
  if index < span.stop then
    match pattern with
    | [] => (.failed, failures)
    | [.rule name] =>
      (.tail ⟨rule, span, alternative, some (children, operator)⟩ name ⟨index, span.stop⟩, failures)
    | .rule name :: stop :: rest =>
      match boundary (inner name) stop tokens index (span.stop - index) index failures with
      | (none, failures) => (.failed, failures)
      | (some (cut, tree), failures) =>
        scan inner tokens rule span alternative rest (position + 2) (cut + 1) (children ++ [tree])
          (pick tokens rule (position + 1) cut operator) failures
    | element :: rest =>
      if tokens[index]?.any fun t => element.accepts t.kind then
        scan inner tokens rule span alternative rest (position + 1) (index + 1) children
          (pick tokens rule position index operator) failures
      else (.failed, failures)
  else if pattern.isEmpty then (.matched (.node rule span children operator), failures)
  else (.failed, failures)

def tryPattern (inner : Inner) (tokens : Array Token) (rule : Name) (span : Span)
    (alternative : Nat) (failures : Failures) : Pattern → Step × Failures
  | [] => (if span.length = 0 then .matched (.node rule span [] none) else .failed, failures)
  | [.rule name] => (.tail ⟨rule, span, alternative, none⟩ name span, failures)
  | pattern => scan inner tokens rule span alternative pattern 0 span.start [] none failures

/-- Tries patterns in order and remembers if none is left. -/
def tryPatterns (inner : Inner) (tokens : Array Token) (rule : Name) (span : Span) :
    (alternative : Nat) → List Pattern → Failures → Step × Failures
  | _, [], failures => (.failed, failures.insert (rule, span))
  | alternative, pattern :: rest, failures =>
    match tryPattern inner tokens rule span alternative failures pattern with
    | (.failed, failures) => tryPatterns inner tokens rule span (alternative + 1) rest failures
    | result => result

def acceptsToken (rule : Name) (t : Token) : Bool :=
  match (table rule).alternatives with
  | (element :: _) :: _ => element.accepts t.kind
  | _ => false

def terminal (tokens : Array Token) (rule : Name) (span : Span) : Step :=
  match tokens[span.start]? with
  | some t =>
    if span.stop = span.start + 1 ∧ acceptsToken rule t then .matched (.leaf rule span.start t)
    else .failed
  | none => .failed

/-- Tries the alternatives of a rule from one on. -/
def attempt (inner : Inner) (tokens : Array Token) (rule : Name) (span : Span) (first : Nat)
    (failures : Failures) : Step × Failures :=
  if (table rule).terminal then (terminal tokens rule span, failures)
  else if first = 0 && failures.contains (rule, span) then (.failed, failures)
  else tryPatterns inner tokens rule span first ((table rule).alternatives.drop first) failures

/-! ## Termination -/

/-- A rule that is a whole pattern of another has the smaller rank. -/
def rank : Name → Nat
  | .codeBlock => 1
  | .line => 9
  | .args => 9
  | .or => 8
  | .and => 7
  | .equality => 6
  | .comparison => 5
  | .sum => 4
  | .product => 3
  | .unary => 2
  | .item => 1
  | _ => 0

/-- The work left at a rule and span whose alternatives are tried from one on. -/
def level (rule : Name) (span : Span) (first : Nat) : Nat :=
  (span.length * 10 + rank rule) * 7 + ((table rule).alternatives.length - first)

/-- Powers of three: one exceeds the sum of any two smaller ones. -/
def triple : Nat → Nat
  | 0 => 1
  | n + 1 => 3 * triple n

def pendingWeight : List Pending → Nat
  | [] => 0
  | p :: rest => triple (level p.rule p.span (p.alternative + 1)) + pendingWeight rest

def weight (pending : List Pending) (rule : Name) (span : Span) (first : Nat) : Nat :=
  triple (level rule span first) + pendingWeight pending

theorem rank_le (n : Name) : rank n ≤ 9 := by
  cases n <;> decide

theorem alternatives_length_le (n : Name) : (table n).alternatives.length ≤ 6 := by
  cases n <;> decide

theorem rank_lt_of_mem {n r : Name} (h : [.rule r] ∈ (table n).alternatives) : rank r < rank n := by
  cases n <;> cases r <;> revert h <;> decide

/-- What holds of a pattern and the reference at its end when matching goes on with the reference. -/
structure Step.Falls (rule : Name) (span : Span) (first : Nat) (p : Pending) (r : Name) (s : Span) :
    Prop where
  rule_eq : p.rule = rule
  span_eq : p.span = span
  first_le : first ≤ p.alternative
  alternative_lt : p.alternative < (table rule).alternatives.length
  smaller : s.length < span.length ∨ s = span ∧ rank r < rank rule

theorem le_of_boundary {inner : Span → Failures → Option Tree × Failures} {stop : Element}
    {tokens : Array Token} {start count index cut : Nat} {failures rest : Failures} {tree : Tree}
    (h : boundary inner stop tokens start count index failures = (some (cut, tree), rest)) :
    index ≤ cut := by
  fun_induction boundary inner stop tokens start count index failures with
  | case1 => cases h
  | case2 => cases h; exact Nat.le_refl _
  | case3 _ _ _ _ _ _ ih => exact Nat.le_of_succ_le (ih h)
  | case4 _ _ _ _ ih => exact Nat.le_of_succ_le (ih h)

theorem scan_tail {inner : Inner} {tokens : Array Token} {rule : Name} {span : Span}
    {alternative : Nat} {pattern : Pattern} {position index : Nat} {children : List Tree}
    {operator : Option Token} {failures rest : Failures} {p : Pending} {r : Name} {s : Span}
    (hStart : span.start ≤ index)
    (hPattern : span.start < index ∨ ∀ name, pattern ≠ [.rule name])
    (h : scan inner tokens rule span alternative pattern position index children operator failures =
      (.tail p r s, rest)) :
    p.rule = rule ∧ p.span = span ∧ p.alternative = alternative ∧ s.length < span.length := by
  fun_induction scan inner tokens rule span alternative pattern position index children operator
      failures with
  | case1 => cases h
  | case2 =>
    cases h
    refine ⟨rfl, rfl, rfl, ?_⟩
    have hIndex := hPattern.resolve_right (fun hNot => hNot _ rfl)
    simp only [Span.length]
    omega
  | case3 => cases h
  | case4 _ _ _ _ _ _ _ _ _ _ _ _ hCut ih =>
    have hLe := le_of_boundary hCut
    exact ih (by omega) (.inl (by omega)) h
  | case5 _ _ _ _ _ _ _ _ _ _ _ ih => exact ih (by omega) (.inl (by omega)) h
  | case6 => cases h
  | case7 => cases h
  | case8 => cases h

theorem tryPattern_tail {inner : Inner} {tokens : Array Token} {rule : Name} {span : Span}
    {alternative : Nat} {pattern : Pattern} {failures rest : Failures} {p : Pending} {r : Name}
    {s : Span} (hPattern : (table rule).alternatives[alternative]? = some pattern)
    (h : tryPattern inner tokens rule span alternative failures pattern = (.tail p r s, rest)) :
    Step.Falls rule span alternative p r s := by
  obtain ⟨hLt, hGet⟩ := List.getElem?_eq_some_iff.mp hPattern
  fun_cases tryPattern inner tokens rule span alternative failures pattern with
  | case1 =>
    rw [tryPattern] at h
    split at h <;> cases h
  | case2 name =>
    cases h
    exact ⟨rfl, rfl, Nat.le_refl _, hLt,
      .inr ⟨rfl, rank_lt_of_mem (hGet ▸ List.getElem_mem hLt)⟩⟩
  | case3 _ hEmpty hSingle =>
    rw [tryPattern] at h
    · obtain ⟨hRule, hSpan, hAlternative, hLength⟩ :=
        scan_tail (Nat.le_refl _) (.inr hSingle) h
      exact ⟨hRule, hSpan, Nat.le_of_eq hAlternative.symm, hAlternative ▸ hLt, .inl hLength⟩
    · exact hEmpty
    · exact hSingle

theorem tryPatterns_tail {inner : Inner} {tokens : Array Token} {rule : Name} {span : Span}
    {alternative : Nat} {patterns : List Pattern} {failures rest : Failures} {p : Pending} {r : Name}
    {s : Span} (hPatterns : patterns = (table rule).alternatives.drop alternative)
    (h : tryPatterns inner tokens rule span alternative patterns failures = (.tail p r s, rest)) :
    Step.Falls rule span alternative p r s := by
  induction patterns generalizing alternative failures with
  | nil => cases h
  | cons pattern patterns ih =>
    have hGet : (table rule).alternatives[alternative]? = some pattern := by
      have hHead := congrArg List.head? hPatterns
      simpa using hHead.symm
    have hRest : patterns = (table rule).alternatives.drop (alternative + 1) := by
      have hTail := congrArg List.tail hPatterns
      simpa using hTail
    rw [tryPatterns] at h
    split at h
    · have hFalls := ih hRest h
      exact { hFalls with first_le := Nat.le_of_succ_le hFalls.first_le }
    · exact tryPattern_tail hGet h

theorem attempt_tail {inner : Inner} {tokens : Array Token} {rule : Name} {span : Span}
    {first : Nat} {failures rest : Failures} {p : Pending} {r : Name} {s : Span}
    (h : attempt inner tokens rule span first failures = (.tail p r s, rest)) :
    Step.Falls rule span first p r s := by
  rw [attempt] at h
  split at h
  · rw [terminal] at h
    split at h
    · split at h <;> cases h
    · cases h
  split at h
  · cases h
  · exact tryPatterns_tail rfl h

theorem triple_pos (n : Nat) : 0 < triple n := by
  induction n with
  | zero => decide
  | succ n ih => rw [triple]; omega

theorem triple_le {a b : Nat} (h : a ≤ b) : triple a ≤ triple b := by
  induction h with
  | refl => exact Nat.le_refl _
  | step _ ih => rw [triple]; omega

theorem triple_add_lt {a b c : Nat} (ha : a < c) (hb : b < c) :
    triple a + triple b < triple c := by
  obtain ⟨d, rfl⟩ : ∃ d, c = d + 1 := ⟨c - 1, by omega⟩
  have hA : triple a ≤ triple d := triple_le (by omega)
  have hB : triple b ≤ triple d := triple_le (by omega)
  have hD := triple_pos d
  rw [triple]
  omega

theorem weight_tail_lt {rule : Name} {span : Span} {first : Nat} {p : Pending} {r : Name} {s : Span}
    (h : Step.Falls rule span first p r s) (pending : List Pending) :
    weight (p :: pending) r s 0 < weight pending rule span first := by
  have hFirst := h.first_le
  have hLt := h.alternative_lt
  have hInner : level r s 0 < level rule span first := by
    have hCount := alternatives_length_le r
    have hRank := rank_le r
    simp only [level]
    rcases h.smaller with hSmaller | ⟨rfl, hSmaller⟩ <;> omega
  have hOuter : level p.rule p.span (p.alternative + 1) < level rule span first := by
    rw [h.rule_eq, h.span_eq]
    simp only [level]
    omega
  have hSum := triple_add_lt hInner hOuter
  simp only [weight, pendingWeight]
  omega

theorem weight_failed_lt (p : Pending) (pending : List Pending) (rule : Name) (span : Span)
    (first : Nat) :
    weight pending p.rule p.span (p.alternative + 1) < weight (p :: pending) rule span first := by
  have hPos := triple_pos (level rule span first)
  simp only [weight, pendingWeight]
  omega

/-! ## The search -/

/-- Matches a rule against a span, given the patterns that wait for the outcome. A failure resumes the
innermost of them at its next alternative. -/
def search (inner : Inner) (tokens : Array Token) (pending : List Pending) (rule : Name)
    (span : Span) (first : Nat) (failures : Failures) : Option Tree × Failures :=
  match _hStep : attempt inner tokens rule span first failures with
  | (.matched tree, failures) => (some (pending.foldl (fun t p => p.complete t) tree), failures)
  | (.tail p name rest, failures) => search inner tokens (p :: pending) name rest 0 failures
  | (.failed, failures) =>
    match pending with
    | [] => (none, failures)
    | p :: pending => search inner tokens pending p.rule p.span (p.alternative + 1) failures
termination_by weight pending rule span first
decreasing_by
  · exact weight_tail_lt (attempt_tail _hStep) pending
  · exact weight_failed_lt p pending rule span first

/-- References in front of another element cover shorter spans, so that their nesting is bounded by
the length of the span. -/
def nested (tokens : Array Token) : Nat → Inner
  | 0 => fun _ _ failures => (none, failures)
  | depth + 1 => fun rule span failures => search (nested tokens depth) tokens [] rule span 0 failures

/-- The tree of a rule over a span, and the failures known afterwards. -/
def run (tokens : Array Token) (rule : Name) (span : Span) (failures : Failures) :
    Option Tree × Failures :=
  nested tokens (span.length + 1) rule span failures

end Match

/-- No tree of the root rule covers the tokens. -/
structure NoMatch where
  texts : List String
  deriving DecidableEq, Repr

def NoMatch.diagnostic (e : NoMatch) : Diagnostic :=
  { code := .syntactic
    span := ⟨0, e.texts.length⟩
    detail := "NO PATTERN OF " ++ Grammar.root.text ++ " MATCHES " ++ " ".intercalate e.texts }

/-- The parse tree of a token list. -/
def parse (tokens : List Token) : Except NoMatch Tree :=
  match (Match.run tokens.toArray Grammar.root ⟨0, tokens.length⟩ ∅).1 with
  | some tree => .ok tree
  | none => .error ⟨tokens.map Token.text⟩

end Vee.Tree
