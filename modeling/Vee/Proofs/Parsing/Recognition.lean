import Vee.Proofs.Parsing.Boundary
import Vee.Proofs.Parsing.Memo

/-! # Matching gives the derivation trees

Matching by plain recursion gives a tree exactly if it is a derivation tree over the tokens of the span. Soundness
and completeness go together, by induction on the length of the span and the rank of the rule: that the first
boundary is the right one uses that shorter matches are sound. So parsing accepts what the grammar derives.
-/

namespace Vee.Tree

set_option autoImplicit false

open Grammar

/-! ## Segments of the tokens -/

/-- The tokens from one index up to another. -/
def segment (tokens : Array Token) (i j : Nat) : List Token := (tokens.toList.drop i).take (j - i)

variable {tokens : Array Token} {i j : Nat}

theorem segment_self (tokens : Array Token) (i : Nat) : segment tokens i i = [] := by
  simp [segment]

theorem segment_all (tokens : List Token) : segment tokens.toArray 0 tokens.length = tokens := by
  simp [segment]

theorem length_segment (hOrder : i ≤ j) (hSize : j ≤ tokens.size) : (segment tokens i j).length = j - i := by
  rw [segment, List.length_take, List.length_drop, Array.length_toList]
  omega

theorem segment_cons {t : Token} (hToken : tokens[i]? = some t) (hLt : i < j) :
    segment tokens i j = t :: segment tokens (i + 1) j := by
  obtain ⟨hSize, rfl⟩ := Array.getElem?_eq_some_iff.mp hToken
  obtain ⟨d, rfl⟩ : ∃ d, j = i + 1 + d := ⟨j - (i + 1), by omega⟩
  rw [segment, segment, List.drop_eq_getElem_cons (by simpa using hSize), Nat.add_sub_cancel_left, Nat.add_assoc,
    Nat.add_sub_cancel_left, Nat.add_comm 1 d, List.take_succ_cons, Array.getElem_toList]

theorem segment_append {k : Nat} (hLeft : i ≤ k) (hRight : k ≤ j) :
    segment tokens i j = segment tokens i k ++ segment tokens k j := by
  obtain ⟨a, rfl⟩ := Nat.exists_eq_add_of_le hLeft
  obtain ⟨b, rfl⟩ := Nat.exists_eq_add_of_le hRight
  have hBoth : i + a + b - i = a + b := by omega
  rw [segment, segment, segment, hBoth, Nat.add_sub_cancel_left, Nat.add_sub_cancel_left, List.take_add,
    List.drop_drop]

theorem segment_ne_nil (hLt : i < j) (hSize : j ≤ tokens.size) : segment tokens i j ≠ [] := by
  intro hNil
  have hLength := length_segment (Nat.le_of_lt hLt) hSize
  rw [hNil, List.length_nil] at hLength
  omega

theorem segment_split {us vs : List Token} (hOrder : i ≤ j) (hSize : j ≤ tokens.size)
    (h : segment tokens i j = us ++ vs) :
    i + us.length ≤ j ∧ segment tokens i (i + us.length) = us ∧ segment tokens (i + us.length) j = vs := by
  have hLength := length_segment hOrder hSize
  rw [h, List.length_append] at hLength
  have hLe : i + us.length ≤ j := by omega
  rw [segment_append (Nat.le_add_right i us.length) hLe] at h
  have hFirst : (segment tokens i (i + us.length)).length = us.length := by
    rw [length_segment (Nat.le_add_right ..) (by omega)]
    omega
  exact ⟨hLe, List.append_inj h hFirst⟩

theorem segment_head {t : Token} {rest : List Token} (h : segment tokens i j = t :: rest) :
    tokens[i]? = some t ∧ i < j ∧ segment tokens (i + 1) j = rest := by
  have hLt : i < j := by
    by_cases hLt : i < j
    · exact hLt
    · rw [segment, Nat.sub_eq_zero_of_le (Nat.le_of_not_lt hLt), List.take_zero] at h
      cases h
  cases hToken : tokens[i]? with
  | none =>
    rw [Array.getElem?_eq_none_iff] at hToken
    rw [segment, List.drop_eq_nil_of_le (by simpa using hToken), List.take_nil] at h
    cases h
  | some t' =>
    rw [segment_cons hToken hLt] at h
    cases h
    exact ⟨rfl, hLt, rfl⟩

/-! ## Operators and patterns -/

/-- The operator behind the parts of a pattern from a position on. -/
def picked (n : Name) : Nat → List Part → Option Token → Option Token
  | _, [], operator => operator
  | position, .inl t :: parts, operator =>
    picked n (position + 1) parts (if (table n).operator = some position then some t else operator)
  | position, .inr _ :: parts, operator => picked n (position + 1) parts operator

theorem picked_eq (n : Name) (position : Nat) (parts : List Part) (operator : Option Token) :
    picked n position parts operator =
      ((table n).operator.bind fun k => if position ≤ k then parts[k - position]?.bind Sum.getLeft? else none).or
        operator := by
  induction parts generalizing position operator with
  | nil => simp [picked]
  | cons part parts ih =>
    cases hOperator : (table n).operator with
    | none => cases part <;> simp [picked, ih, hOperator]
    | some k =>
      have hLater (rest : Option Token) : picked n (position + 1) parts rest =
          (if position + 1 ≤ k then parts[k - (position + 1)]?.bind Sum.getLeft? else none).or rest := by
        rw [ih, hOperator, Option.bind_some]
      rw [Option.bind_some]
      rcases Nat.lt_trichotomy position k with hLt | rfl | hGt
      · obtain ⟨d, rfl⟩ : ∃ d, k = position + 1 + d := ⟨k - (position + 1), by omega⟩
        have hHere : (table n).operator ≠ some position := by
          rw [hOperator, ne_eq, Option.some.injEq]
          omega
        rw [show position + 1 + d - position = d + 1 by omega, List.getElem?_cons_succ, if_pos (by omega)]
        rw [if_pos (by omega), Nat.add_sub_cancel_left] at hLater
        cases part with
        | inl t => rw [picked, if_neg hHere, hLater]
        | inr tree => rw [picked, hLater]
      · rw [if_neg (by omega)] at hLater
        rw [if_pos (Nat.le_refl _), Nat.sub_self, List.getElem?_cons_zero, Option.bind_some]
        cases part with
        | inl t =>
          rw [picked, if_pos hOperator, hLater]
          rfl
        | inr tree => rw [picked, hLater, Sum.getLeft?_inr]
      · have hHere : (table n).operator ≠ some position := by
          rw [hOperator, ne_eq, Option.some.injEq]
          omega
        rw [if_neg (by omega)] at hLater
        rw [if_neg (by omega)]
        cases part with
        | inl t => rw [picked, if_neg hHere, hLater]
        | inr tree => rw [picked, hLater]

theorem operatorOf_eq_picked (n : Name) (parts : List Part) : operatorOf n parts = picked n 0 parts none := by
  simp [picked_eq, operatorOf]

theorem covers_whole_iff {p : Pattern} {ts : List Token} {parts : List Part} (hPattern : ∀ r, p ≠ [.rule r]) :
    Covers true p i ts parts ↔ Covers false p i ts parts := by
  constructor
  · intro h
    cases h with
    | nil => exact .nil false i
    | token hAccepts hRest => exact .token hAccepts hRest
    | rule hMem hFirst _ hRest =>
      refine .rule hMem hFirst (.inr (.inl ?_)) hRest
      rintro rfl
      exact hPattern _ rfl
  · intro h
    cases h with
    | nil => exact .nil true i
    | token hAccepts hRest => exact .token hAccepts hRest
    | rule hMem hFirst _ hRest => exact .rule hMem hFirst (.inr (.inr rfl)) hRest

theorem covers_bounded_iff {whole : Bool} {r : Name} {e : Element} {p : Pattern} {ts : List Token}
    {parts : List Part} (hEnds : r.endsAt e = true) :
    Covers whole (.rule r :: e :: p) i ts parts ↔ ∃ us t vs tree more, ts = us ++ t :: vs ∧
      parts = .inr tree :: .inl t :: more ∧ Derivation r i us tree ∧ e.accepts t.kind = true ∧
      Covers false p (i + us.length + 1) vs more := by
  rw [covers_rule_iff]
  constructor
  · rintro ⟨us, vs, tree, more, rfl, rfl, hFirst, -, hRest⟩
    obtain ⟨t, rest, more, rfl, rfl, hAccepts, hRest⟩ :=
      (covers_token_iff fun _ => Name.endsAt_token hEnds).mp hRest
    exact ⟨us, t, rest, tree, more, rfl, rfl, hFirst, hAccepts, hRest⟩
  · rintro ⟨us, t, vs, tree, more, rfl, rfl, hFirst, hAccepts, hRest⟩
    exact ⟨us, t :: vs, tree, .inl t :: more, rfl, rfl, hFirst, .inr (.inl (List.cons_ne_nil _ _)),
      .token hAccepts hRest⟩

theorem Covers.eq_single {whole : Bool} {p : Pattern} {ts : List Token} {tree : Tree}
    (h : Covers whole p i ts [.inr tree]) : ∃ r, p = [.rule r] := by
  cases h with
  | rule _ _ _ hRest =>
    cases hRest
    exact ⟨_, rfl⟩

theorem assemble_node {n : Name} {span : Span} {parts : List Part} (hTerminal : (table n).terminal = false)
    (hParts : ∀ tree, parts ≠ [.inr tree]) :
    assemble n span parts = .node n span (parts.filterMap Sum.getRight?) (operatorOf n parts) := by
  rcases assemble_cases n span parts with ⟨tree, hTree, -⟩ | ⟨t, -, hLeaf, -⟩ | hNode
  · exact absurd hTree (hParts tree)
  · rw [hTerminal] at hLeaf
    cases hLeaf
  · exact hNode

/-! ## Scanning -/

/-- Up to a token that the element accepts, the inner rule matches. -/
def Hits (inner : Span → Option Tree) (stop : Element) (tokens : Array Token) (start cut : Nat) (tree : Tree) :
    Prop :=
  (∃ t, tokens[cut]? = some t ∧ stop.accepts t.kind = true) ∧ inner ⟨start, cut⟩ = some tree

theorem hits_of_boundary {inner : Span → Option Tree} {stop : Element} {start count index cut : Nat} {tree : Tree}
    (h : Match.plainBoundary inner stop tokens start count index = some (cut, tree)) :
    index ≤ cut ∧ cut < index + count ∧ Hits inner stop tokens start cut tree := by
  fun_induction Match.plainBoundary inner stop tokens start count index with
  | case1 => cases h
  | case2 count index here tree' hHere =>
    cases h
    obtain ⟨hAccepts, hInner⟩ := Option.ite_none_right_eq_some.mp hHere
    exact ⟨Nat.le_refl _, by omega, (Option.any_eq_true _ _).mp hAccepts, hInner⟩
  | case3 count index here hHere ih =>
    obtain ⟨hLower, hUpper, hHits⟩ := ih h
    exact ⟨by omega, by omega, hHits⟩

theorem not_hits_of_boundary {inner : Span → Option Tree} {stop : Element} {start count index cut : Nat}
    {tree : Tree} (h : Match.plainBoundary inner stop tokens start count index = none) (hLower : index ≤ cut)
    (hUpper : cut < index + count) : ¬ Hits inner stop tokens start cut tree := by
  fun_induction Match.plainBoundary inner stop tokens start count index with
  | case1 => omega
  | case2 => cases h
  | case3 count index here hHere ih =>
    rcases Nat.eq_or_lt_of_le hLower with rfl | hLt
    · rintro ⟨hToken, hInner⟩
      have hSome : here = some tree := (if_pos ((Option.any_eq_true _ _).mpr hToken)).trans hInner
      rw [hHere] at hSome
      cases hSome
    · exact ih h hLt (by omega)

/-- What the references of a pattern match, as far as they are shorter than the span. -/
def InnerDerives (tokens : Array Token) (span : Span) (inner : Name → Span → Option Tree) : Prop :=
  ∀ name a b tree, span.start ≤ a → a ≤ b → b ≤ span.stop → b - a < span.length →
    (inner name ⟨a, b⟩ = some tree ↔ Derivation name a (segment tokens a b) tree)

/-- A reference in front of another element covers the tokens up to a boundary. -/
theorem covers_boundary_iff {span : Span} {inner : Name → Span → Option Tree} {r : Name} {e : Element} {p : Pattern}
    {index : Nat} {parts : List Part} (hInner : InnerDerives tokens span inner) (hEnds : r.endsAt e = true)
    (hStart : span.start ≤ index) (hStop : index ≤ span.stop) (hSize : span.stop ≤ tokens.size) :
    Covers false (.rule r :: e :: p) index (segment tokens index span.stop) parts ↔
      ∃ cut t first more, index ≤ cut ∧ cut < span.stop ∧ tokens[cut]? = some t ∧ e.accepts t.kind = true ∧
        inner r ⟨index, cut⟩ = some first ∧ parts = .inr first :: .inl t :: more ∧
        Covers false p (cut + 1) (segment tokens (cut + 1) span.stop) more := by
  rw [covers_bounded_iff hEnds]
  constructor
  · rintro ⟨us, t, vs, first, more, hSplit, rfl, hFirst, hAccepts, hRest⟩
    obtain ⟨hLe, hUs, hTail⟩ := segment_split hStop hSize hSplit
    obtain ⟨hToken, hCut, hVs⟩ := segment_head hTail
    refine ⟨index + us.length, t, first, more, Nat.le_add_right .., hCut, hToken, hAccepts, ?_, rfl, hVs ▸ hRest⟩
    refine (hInner r index _ first hStart (Nat.le_add_right ..) hLe ?_).mpr (hUs.symm ▸ hFirst)
    rw [Span.length]
    omega
  · rintro ⟨cut, t, first, more, hLower, hUpper, hToken, hAccepts, hFirst, rfl, hRest⟩
    have hLength := length_segment hLower (Nat.le_trans (Nat.le_of_lt hUpper) hSize)
    have hSplit : segment tokens index span.stop =
        segment tokens index cut ++ t :: segment tokens (cut + 1) span.stop := by
      rw [segment_append hLower (Nat.le_of_lt hUpper), segment_cons hToken hUpper]
    refine ⟨_, t, _, first, more, hSplit, rfl, ?_, hAccepts, ?_⟩
    · refine (hInner r index cut first hStart hLower (Nat.le_of_lt hUpper) ?_).mp hFirst
      rw [Span.length]
      omega
    · rwa [hLength, Nat.add_sub_cancel' hLower]

/-- Behind a boundary there is no other. -/
theorem not_hits_of_lt {span : Span} {inner : Name → Span → Option Tree} {r : Name} {e : Element}
    {index cut cut' : Nat} {tree tree' : Tree} (hInner : InnerDerives tokens span inner) (hEnds : r.endsAt e = true)
    (hStart : span.start ≤ index) (hLower : index ≤ cut) (hLt : cut < cut')
    (hUpper : cut' < span.stop) (h : Hits (inner r) e tokens index cut tree) :
    ¬ Hits (inner r) e tokens index cut' tree' := by
  intro h'
  obtain ⟨⟨t, hToken, hAccepts⟩, hFirst⟩ := h
  have hShort : Derivation r index (segment tokens index cut) tree := by
    refine (hInner r index cut tree hStart hLower (by omega) ?_).mp hFirst
    rw [Span.length]
    omega
  have hLong : Derivation r index (segment tokens index cut') tree' := by
    refine (hInner r index cut' tree' hStart (by omega) (by omega) ?_).mp h'.2
    rw [Span.length]
    omega
  have hKinds := hLong.derives
  rw [segment_append hLower (Nat.le_of_lt hLt), segment_cons hToken hLt, List.map_append, List.map_cons] at hKinds
  exact not_derives_of_endsAt hEnds hAccepts hShort.derives hKinds

theorem boundary_unique {span : Span} {inner : Name → Span → Option Tree} {r : Name} {e : Element}
    {index cut cut' : Nat} {tree tree' : Tree} (hInner : InnerDerives tokens span inner) (hEnds : r.endsAt e = true)
    (hStart : span.start ≤ index) (hLower : index ≤ cut) (hUpper : cut < span.stop) (hLower' : index ≤ cut')
    (hUpper' : cut' < span.stop) (h : Hits (inner r) e tokens index cut tree)
    (h' : Hits (inner r) e tokens index cut' tree') : cut = cut' := by
  rcases Nat.lt_trichotomy cut cut' with hLt | hEq | hGt
  · exact absurd h' (not_hits_of_lt hInner hEnds hStart hLower hLt hUpper' h)
  · exact hEq
  · exact absurd h (not_hits_of_lt hInner hEnds hStart hLower' hGt hUpper h')

theorem pick_of_token {n : Name} {position index : Nat} {t : Token} {operator : Option Token}
    (hToken : tokens[index]? = some t) :
    Match.pick tokens n position index operator =
      if (table n).operator = some position then some t else operator := by
  rw [Match.pick, hToken]

theorem plainScan_eq_some_iff {inner : Name → Span → Option Tree} {n : Name} {span : Span} {p : Pattern}
    {position index : Nat} {children : List Tree} {operator : Option Token} {tree : Tree}
    (hInner : InnerDerives tokens span inner) (hBounded : p.bounded true = true) (hStart : span.start ≤ index)
    (hStop : index ≤ span.stop) (hSize : span.stop ≤ tokens.size)
    (hShorter : span.start < index ∨ ∀ r, p ≠ [.rule r]) :
    Match.plainScan inner tokens n span p position index children operator = some tree ↔
      ∃ parts, Covers false p index (segment tokens index span.stop) parts ∧
        tree = .node n span (children ++ parts.filterMap Sum.getRight?) (picked n position parts operator) := by
  fun_induction Match.plainScan inner tokens n span p position index children operator with
  | case1 position index children operator hLt =>
    simp [covers_nil_iff, segment_ne_nil hLt hSize]
  | case2 position index children operator hLt name =>
    have hLength : span.stop - index < span.length := by
      have hLt' := hShorter.resolve_right fun hNot => hNot name rfl
      rw [Span.length]
      omega
    rw [Option.map_eq_some_iff]
    constructor
    · rintro ⟨last, hLast, rfl⟩
      have hLast := (hInner name index span.stop last hStart hStop (Nat.le_refl _) hLength).mp hLast
      refine ⟨[.inr last], ?_, rfl⟩
      exact covers_rule_iff.mpr ⟨_, [], last, [], (List.append_nil _).symm, rfl, hLast,
        .inl (segment_ne_nil hLt hSize), .nil false _⟩
    · rintro ⟨parts, hCovers, rfl⟩
      obtain ⟨us, vs, last, more, hSplit, rfl, hLast, -, hRest⟩ := covers_rule_iff.mp hCovers
      obtain ⟨rfl, rfl⟩ := covers_nil_iff.mp hRest
      rw [List.append_nil] at hSplit
      exact ⟨last, (hInner name index span.stop last hStart hStop (Nat.le_refl _) hLength).mpr (hSplit ▸ hLast), rfl⟩
  | case3 position index children operator hLt name stop rest hNone =>
    obtain ⟨hEnds, -⟩ := Bool.and_eq_true_iff.mp hBounded
    refine iff_of_false (Option.some_ne_none tree).symm ?_
    rintro ⟨parts, hCovers, -⟩
    obtain ⟨cut, t, first, more, hLower, hUpper, hToken, hAccepts, hFirst, -⟩ :=
      (covers_boundary_iff hInner hEnds hStart hStop hSize).mp hCovers
    exact not_hits_of_boundary hNone hLower (by omega) ⟨⟨t, hToken, hAccepts⟩, hFirst⟩
  | case4 position index children operator hLt name stop rest cut first hSome ih =>
    obtain ⟨hEnds, hBounded⟩ := Bool.and_eq_true_iff.mp hBounded
    obtain ⟨hLower, hUpper, hHits⟩ := hits_of_boundary hSome
    have hUpper : cut < span.stop := by omega
    rw [ih hBounded (by omega) (by omega) (.inl (by omega))]
    obtain ⟨⟨t, hToken, hAccepts⟩, hFirst⟩ := hHits
    constructor
    · rintro ⟨parts, hRest, rfl⟩
      refine ⟨.inr first :: .inl t :: parts, ?_, ?_⟩
      · exact (covers_boundary_iff hInner hEnds hStart hStop hSize).mpr
          ⟨cut, t, first, parts, hLower, hUpper, hToken, hAccepts, hFirst, rfl, hRest⟩
      · simp [picked, pick_of_token hToken, List.filterMap_cons]
    · rintro ⟨parts, hCovers, rfl⟩
      obtain ⟨cut', t', first', more, hLower', hUpper', hToken', hAccepts', hFirst', rfl, hRest⟩ :=
        (covers_boundary_iff hInner hEnds hStart hStop hSize).mp hCovers
      cases boundary_unique hInner hEnds hStart hLower hUpper hLower' hUpper' ⟨⟨t, hToken, hAccepts⟩, hFirst⟩
        ⟨⟨t', hToken', hAccepts'⟩, hFirst'⟩
      cases hToken.symm.trans hToken'
      cases hFirst.symm.trans hFirst'
      exact ⟨more, hRest, by simp [picked, pick_of_token hToken, List.filterMap_cons]⟩
  | case5 position index children operator hLt e rest hSingle hPair hAccepts ih =>
    have hElement := Element.ne_rule hSingle hPair
    obtain ⟨t, hToken, hAccepts⟩ := (Option.any_eq_true _ _).mp hAccepts
    rw [bounded_token hElement] at hBounded
    rw [ih hBounded (by omega) (by omega) (.inl (by omega)), segment_cons hToken hLt]
    constructor
    · rintro ⟨parts, hRest, rfl⟩
      exact ⟨.inl t :: parts, .token hAccepts hRest, by simp [picked, pick_of_token hToken, List.filterMap_cons]⟩
    · rintro ⟨parts, hCovers, rfl⟩
      obtain ⟨t', rest', more, hEq, rfl, -, hRest⟩ := (covers_token_iff hElement).mp hCovers
      cases hEq
      exact ⟨more, hRest, by simp [picked, pick_of_token hToken, List.filterMap_cons]⟩
  | case6 position index children operator hLt e rest hSingle hPair hAccepts =>
    refine iff_of_false (Option.some_ne_none tree).symm ?_
    rintro ⟨parts, hCovers, -⟩
    obtain ⟨t, more, parts, hSplit, -, hAccepts', -⟩ :=
      (covers_token_iff (Element.ne_rule hSingle hPair)).mp hCovers
    exact hAccepts ((Option.any_eq_true _ _).mpr ⟨t, (segment_head hSplit).1, hAccepts'⟩)
  | case7 p position index children operator hGe hEmpty =>
    have hEnd : index = span.stop := by omega
    rw [List.isEmpty_iff.mp hEmpty, hEnd, segment_self]
    simp [covers_nil_iff, picked, eq_comm]
  | case8 p position index children operator hGe hEmpty =>
    have hEnd : index = span.stop := by omega
    refine iff_of_false (Option.some_ne_none tree).symm ?_
    rintro ⟨parts, hCovers, -⟩
    rw [hEnd, segment_self] at hCovers
    exact hEmpty (List.isEmpty_iff.mpr hCovers.eq_nil)

/-! ## Rules -/

theorem derivation_terminal_iff {n : Name} {ts : List Token} {tree : Tree} (hTerminal : (table n).terminal = true) :
    Derivation n i ts tree ↔ ∃ t, ts = [t] ∧ Match.acceptsToken n t = true ∧ tree = .leaf n i t := by
  obtain ⟨k, hTable⟩ : ∃ k, (table n).alternatives = [[.literal k]] := by
    cases n <;> first | exact ⟨_, rfl⟩ | cases hTerminal
  have hAccepts : ∀ t, Match.acceptsToken n t = (Element.literal k).accepts t.kind := by
    intro t
    rw [Match.acceptsToken, hTable]
  simp only [Derivation, hTable, List.mem_singleton, exists_eq_left, hAccepts]
  constructor
  · rintro ⟨parts, hCovers, rfl⟩
    obtain ⟨t, rest, more, rfl, rfl, hToken, hRest⟩ :=
      (covers_token_iff fun _ h => Element.noConfusion h).mp hCovers
    obtain ⟨rfl, rfl⟩ := covers_nil_iff.mp hRest
    exact ⟨t, rfl, hToken, if_pos hTerminal⟩
  · rintro ⟨t, rfl, hToken, rfl⟩
    exact ⟨[.inl t], .token hToken (.nil false _), (if_pos hTerminal).symm⟩

theorem plain_terminal_iff {n : Name} {tree : Tree} (hTerminal : (table n).terminal = true) (hOrder : i ≤ j)
    (hSize : j ≤ tokens.size) :
    Match.plain tokens n ⟨i, j⟩ = some tree ↔ Derivation n i (segment tokens i j) tree := by
  rw [Match.plain, if_pos hTerminal, derivation_terminal_iff hTerminal, Match.terminal]
  constructor
  · intro h
    cases hToken : tokens[i]? with
    | none =>
      simp only [hToken] at h
      cases h
    | some t =>
      simp only [hToken] at h
      by_cases hHere : j = i + 1 ∧ Match.acceptsToken n t = true
      · rw [if_pos hHere] at h
        cases h
        rw [hHere.1, segment_cons hToken (Nat.lt_succ_self i), segment_self]
        exact ⟨t, rfl, hHere.2, rfl⟩
      · rw [if_neg hHere] at h
        cases h
  · rintro ⟨t, hSegment, hAccepts, rfl⟩
    obtain ⟨hToken, hLt, hRest⟩ := segment_head hSegment
    have hLength := length_segment hOrder hSize
    rw [hSegment, List.length_singleton] at hLength
    have hEnd : j = i + 1 := by omega
    simp only [hToken, hEnd, hAccepts, and_self, if_true]

theorem plainPattern_eq_some_iff {n : Name} {p : Pattern} {tree : Tree} (hTerminal : (table n).terminal = false)
    (hMem : p ∈ (table n).alternatives) (hOrder : i ≤ j) (hSize : j ≤ tokens.size)
    (hSame : ∀ r, Match.rank r < Match.rank n → ∀ tree,
      Match.plain tokens r ⟨i, j⟩ = some tree ↔ Derivation r i (segment tokens i j) tree)
    (hShorter : ∀ r a b, a ≤ b → b ≤ tokens.size → b - a < j - i → ∀ tree,
      Match.plain tokens r ⟨a, b⟩ = some tree ↔ Derivation r a (segment tokens a b) tree) :
    Match.plainPattern tokens n ⟨i, j⟩ p = some tree ↔
      ∃ parts, Covers true p i (segment tokens i j) parts ∧ tree = assemble n ⟨i, j⟩ parts := by
  fun_cases Match.plainPattern tokens n ⟨i, j⟩ p with
  | case1 hZero =>
    have hEnd : i = j := Nat.le_antisymm hOrder (Nat.le_of_sub_eq_zero hZero)
    have hNode : assemble n ⟨j, j⟩ [] = .node n ⟨j, j⟩ [] none := by
      simp [assemble, operatorOf]
    rw [hEnd, segment_self, ← hNode]
    constructor
    · rintro ⟨⟩
      exact ⟨[], .nil true j, rfl⟩
    · rintro ⟨parts, hCovers, rfl⟩
      rw [(covers_nil_iff.mp hCovers).2]
  | case2 hPos =>
    have hLt : i < j := Nat.lt_of_sub_pos (Nat.pos_of_ne_zero hPos)
    simp [covers_nil_iff, segment_ne_nil hLt hSize]
  | case3 name hRank =>
    rw [hSame name hRank]
    constructor
    · intro h
      exact ⟨[.inr tree], covers_rule_iff.mpr ⟨_, [], tree, [], (List.append_nil _).symm, rfl, h,
        .inr (.inr rfl), .nil false _⟩, rfl⟩
    · rintro ⟨parts, hCovers, rfl⟩
      obtain ⟨us, vs, first, more, hSplit, rfl, hFirst, -, hRest⟩ := covers_rule_iff.mp hCovers
      obtain ⟨rfl, rfl⟩ := covers_nil_iff.mp hRest
      rw [List.append_nil] at hSplit
      exact hSplit ▸ hFirst
  | case4 name hRank => exact absurd (Match.rank_lt_of_mem hMem) hRank
  | case5 p hNil hSingle =>
    have hInner : InnerDerives tokens ⟨i, j⟩ (Match.plainInner tokens ⟨i, j⟩) := by
      intro name a b tree _ hOrder hUpper hLength
      have hLength : (Span.mk a b).length < (Span.mk i j).length := hLength
      rw [Match.plainInner, if_pos hLength]
      exact hShorter name a b hOrder (Nat.le_trans hUpper hSize) hLength tree
    rw [plainScan_eq_some_iff hInner (bounded_table hMem) (Nat.le_refl i) hOrder hSize (.inr hSingle)]
    simp only [covers_whole_iff hSingle, List.nil_append, ← operatorOf_eq_picked]
    refine exists_congr fun parts => and_congr_right fun hCovers => ?_
    rw [assemble_node hTerminal]
    rintro first rfl
    obtain ⟨r, hRule⟩ := hCovers.eq_single
    exact hSingle r hRule

theorem findSome?_eq_some_iff {α β : Type} {f : α → Option β} {l : List α} {b : β}
    (hUnique : ∀ a ∈ l, ∀ a' ∈ l, ∀ c c', f a = some c → f a' = some c' → a = a') :
    l.findSome? f = some b ↔ ∃ a ∈ l, f a = some b := by
  constructor
  · exact List.exists_of_findSome?_eq_some
  · rintro ⟨a, hMem, hGives⟩
    cases hFind : l.findSome? f with
    | none =>
      rw [List.findSome?_eq_none_iff.mp hFind a hMem] at hGives
      cases hGives
    | some c =>
      obtain ⟨a', hMem', hGives'⟩ := List.exists_of_findSome?_eq_some hFind
      rw [hUnique a hMem a' hMem' b c hGives hGives', hGives'] at hGives
      exact hGives

/-- Plain matching finds the derivation trees. -/
theorem plain_eq_some_iff (n : Name) (i j : Nat) (tree : Tree) (hOrder : i ≤ j) (hSize : j ≤ tokens.size) :
    Match.plain tokens n ⟨i, j⟩ = some tree ↔ Derivation n i (segment tokens i j) tree := by
  -- references in front of other elements and at the end of longer patterns have shorter spans, and a pattern
  -- that is one reference leads to a rule of smaller rank
  induction hMeasure : (j - i) * 10 + Match.rank n using Nat.strongRecOn generalizing n i j tree with
  | _ measure ih =>
    have hSame : ∀ r, Match.rank r < Match.rank n → ∀ tree,
        Match.plain tokens r ⟨i, j⟩ = some tree ↔ Derivation r i (segment tokens i j) tree :=
      fun r hRank tree => ih _ (by omega) r i j tree hOrder hSize rfl
    have hShorter : ∀ r a b, a ≤ b → b ≤ tokens.size → b - a < j - i → ∀ tree,
        Match.plain tokens r ⟨a, b⟩ = some tree ↔ Derivation r a (segment tokens a b) tree := by
      intro r a b hOrder hSize hLength tree
      have hRank := Match.rank_le r
      exact ih _ (by omega) r a b tree hOrder hSize rfl
    cases hTerminal : (table n).terminal with
    | true => exact plain_terminal_iff hTerminal hOrder hSize
    | false =>
      have hPattern : ∀ p ∈ (table n).alternatives, ∀ tree, Match.plainPattern tokens n ⟨i, j⟩ p = some tree ↔
          ∃ parts, Covers true p i (segment tokens i j) parts ∧ tree = assemble n ⟨i, j⟩ parts :=
        fun p hMem tree => plainPattern_eq_some_iff hTerminal hMem hOrder hSize hSame hShorter
      have hEnd : i + (segment tokens i j).length = j := by
        rw [length_segment hOrder hSize]
        omega
      rw [Match.plain_eq tokens n _ hTerminal, findSome?_eq_some_iff, Derivation, hEnd]
      · exact exists_congr fun p => and_congr_right fun hMem => hPattern p hMem tree
      · intro p hp q hq c c' hGives hGives'
        obtain ⟨parts, hCovers, -⟩ := (hPattern p hp c).mp hGives
        obtain ⟨parts', hCovers', -⟩ := (hPattern q hq c').mp hGives'
        exact eq_of_spells hp hq hCovers.spells hCovers'.spells

/-! ## Parsing -/

/-- Matching a rule against all tokens finds the derivation trees of the rule. -/
theorem run_eq_some_iff (n : Name) (tokens : List Token) (tree : Tree) :
    (Match.run tokens.toArray n ⟨0, tokens.length⟩ ∅).1 = some tree ↔ Derivation n 0 tokens tree := by
  have hRun : (Match.run tokens.toArray n ⟨0, tokens.length⟩ ∅).1 = Match.plain tokens.toArray n ⟨0, tokens.length⟩ :=
    (Match.run_agrees _ _ (Match.sound_empty _)).1
  have hPlain : Match.plain tokens.toArray n ⟨0, tokens.length⟩ = some tree ↔
      Derivation n 0 (segment tokens.toArray 0 tokens.length) tree :=
    plain_eq_some_iff n 0 tokens.length tree (Nat.zero_le _) (Nat.le_of_eq List.size_toArray.symm)
  rw [hRun, hPlain, segment_all]

theorem parse_eq_ok_iff (tokens : List Token) (tree : Tree) :
    parse tokens = .ok tree ↔ Derivation root 0 tokens tree := by
  rw [parse, ← run_eq_some_iff]
  cases (Match.run tokens.toArray root ⟨0, tokens.length⟩ ∅).1 with
  | none => exact ⟨nofun, nofun⟩
  | some found => simp

/-- Parsing accepts exactly the sequences that the grammar derives, with their derivation trees. -/
theorem parse_recognizes (tokens : List Token) :
    ((∃ tree, parse tokens = .ok tree) ↔ Derives root (tokens.map Token.kind)) ∧
      ∀ tree, parse tokens = .ok tree ↔ Derivation root 0 tokens tree := by
  refine ⟨?_, parse_eq_ok_iff tokens⟩
  rw [derives_iff_exists_derivation root 0]
  exact exists_congr (parse_eq_ok_iff tokens)

end Vee.Tree
