import Vee.Proofs.Parsing.Nesting

/-! # Where references end

In front of another element a reference ends at the first token that this element accepts and up to which the
rule derives something: the rule derives nothing that goes on across such a token. Hence a pattern splits a
sequence in one way only, and no two alternatives of a rule spell the same sequence.
-/

namespace Vee.Grammar

set_option autoImplicit false

open Token (Kind)

/-- Whether nothing that the rule derives goes on with a token of the element behind something that it derives.
Outside of parentheses the kinds bind too loosely, or they close what the rule did not open. -/
def Name.endsAt (r : Name) (e : Element) : Bool :=
  !e.kinds.isEmpty && match r.floor? with
    | some floor => e.kinds.all fun k =>
        (Spot.operator.next floor k).isNone && (floor != 0 || (Spot.operand.next floor k).isNone)
    | none => r == .codeBlock && e == .literal .closeBrace || r == .params && e == .literal .openBrace

theorem not_derives_of_endsAt {r : Name} {e : Element} {us vs : List Kind} {k : Kind} (hEnds : r.endsAt e = true)
    (hAccepts : e.accepts k = true) (h : Derives r us) : ¬ Derives r (us ++ k :: vs) := by
  intro hLonger
  have hEnds := (Bool.and_eq_true_iff.mp hEnds).2
  cases hFloor : r.floor? with
  | some floor =>
    simp only [hFloor] at hEnds
    have hNone := List.all_eq_true.mp hEnds k (Element.mem_kinds hAccepts)
    obtain ⟨hOperator, hOperand⟩ := Bool.and_eq_true_iff.mp hNone
    obtain ⟨s, hRun, hRests⟩ := h.read hFloor
    obtain ⟨t, hLonger, -⟩ := hLonger.read hFloor
    rw [Spot.run_append, hRun, Option.bind_some] at hLonger
    obtain ⟨mid, hNext, -⟩ := Option.bind_eq_some_iff.mp hLonger
    rcases Spot.rests_cases hRests with rfl | ⟨rfl, rfl⟩
    · rw [hNext] at hOperator
      cases hOperator
    · rw [hNext] at hOperand
      cases hOperand
  | none =>
    simp only [hFloor, Bool.or_eq_true, Bool.and_eq_true, beq_iff_eq] at hEnds
    rcases hEnds with ⟨rfl, rfl⟩ | ⟨rfl, rfl⟩
    · cases beq_iff_eq.mp hAccepts
      have hBraces := hLonger.braces 0
      rw [braces_append, h.braces 0] at hBraces
      cases hBraces
    · cases beq_iff_eq.mp hAccepts
      obtain ⟨p, hMem, hSpells⟩ := hLonger
      exact not_mem_of_flat hSpells (flat_table (r := .params) rfl hMem) (by simp)

/-- Whether every reference ends at the element behind it. The flag says whether the pattern may end with one. -/
def Pattern.bounded (last : Bool) : Pattern → Bool
  | [] => true
  | [.rule _] => last
  | .rule r :: e :: p => r.endsAt e && Pattern.bounded last p
  | _ :: p => Pattern.bounded last p

theorem Element.ne_rule {e : Element} {p : Pattern} (hSingle : ∀ r, e = .rule r → p = [] → False)
    (hPair : ∀ r e' p', e = .rule r → p = e' :: p' → False) (r : Name) : e ≠ .rule r := by
  rintro rfl
  cases p with
  | nil => exact hSingle r rfl rfl
  | cons e p => exact hPair r e p rfl rfl

theorem bounded_token {last : Bool} {e : Element} {p : Pattern} (hToken : ∀ r, e ≠ .rule r) :
    Pattern.bounded last (e :: p) = p.bounded last := by
  cases e with
  | literal | oneOf => rfl
  | rule r => exact absurd rfl (hToken r)

theorem bounded_table {n : Name} {p : Pattern} (hMem : p ∈ (table n).alternatives) : p.bounded true = true := by
  revert p
  cases n <;> decide

theorem Name.endsAt_token {r r' : Name} {e : Element} (h : r.endsAt e = true) : e ≠ .rule r' := by
  rintro rfl
  cases h

theorem spells_bounded_iff {whole : Bool} {r : Name} {e : Element} {p : Pattern} {ks : List Kind}
    (hEnds : r.endsAt e = true) : Spells whole (.rule r :: e :: p) ks ↔
      ∃ us k vs, ks = us ++ k :: vs ∧ Derives r us ∧ e.accepts k = true ∧ Spells false p vs := by
  rw [spells_rule_iff]
  constructor
  · rintro ⟨us, vs, rfl, hFirst, -, hRest⟩
    obtain ⟨k, rest, rfl, hAccepts, hRest⟩ := (spells_token_iff fun _ => Name.endsAt_token hEnds).mp hRest
    exact ⟨us, k, rest, rfl, hFirst, hAccepts, hRest⟩
  · rintro ⟨us, k, vs, rfl, hFirst, hAccepts, hRest⟩
    exact ⟨us, k :: vs, rfl, hFirst, .inr (.inl (List.cons_ne_nil _ _)), .token hAccepts hRest⟩

/-- Of two sequences that a rule derives, in front of tokens that end it, none goes on behind the other. -/
theorem eq_of_endsAt {r : Name} {e : Element} {us us' vs vs' : List Kind} {k k' : Kind} (hEnds : r.endsAt e = true)
    (h : Derives r us) (h' : Derives r us') (hAccepts : e.accepts k = true) (hAccepts' : e.accepts k' = true)
    (hEq : us ++ k :: vs = us' ++ k' :: vs') : us = us' := by
  rcases List.append_eq_append_iff.mp hEq with ⟨mid, rfl, hMid⟩ | ⟨mid, rfl, hMid⟩
  · cases mid with
    | nil => exact (List.append_nil us).symm
    | cons c mid =>
      cases hMid
      exact absurd h' (not_derives_of_endsAt hEnds hAccepts h)
  · cases mid with
    | nil => exact List.append_nil us'
    | cons c mid =>
      cases hMid
      exact absurd h (not_derives_of_endsAt hEnds hAccepts' h')

/-- A pattern whose references all end at elements of it splits a sequence in one way. -/
theorem Spells.split {q : Pattern} (hBounded : q.bounded false = true) {whole whole' : Bool}
    {ks ks' vs vs' : List Kind} (h : Spells whole q ks) (h' : Spells whole' q ks') (hEq : ks ++ vs = ks' ++ vs') :
    ks = ks' := by
  fun_induction Pattern.bounded false q generalizing whole whole' ks ks' with
  | case1 => rw [spells_nil_iff.mp h, spells_nil_iff.mp h']
  | case2 => cases hBounded
  | case3 r e p ih =>
    obtain ⟨hEnds, hBounded⟩ := Bool.and_eq_true_iff.mp hBounded
    obtain ⟨us, k, rest, rfl, hFirst, hAccepts, hRest⟩ := (spells_bounded_iff hEnds).mp h
    obtain ⟨us', k', rest', rfl, hFirst', hAccepts', hRest'⟩ := (spells_bounded_iff hEnds).mp h'
    simp only [List.append_assoc, List.cons_append] at hEq
    obtain rfl := eq_of_endsAt hEnds hFirst hFirst' hAccepts hAccepts' hEq
    obtain ⟨rfl, hTail⟩ := List.cons.inj (List.append_cancel_left hEq)
    rw [ih hBounded hRest hRest' hTail]
  | case4 e p hSingle hPair ih =>
    have hToken := Element.ne_rule hSingle hPair
    obtain ⟨k, rest, rfl, -, hRest⟩ := (spells_token_iff hToken).mp h
    obtain ⟨k', rest', rfl, -, hRest'⟩ := (spells_token_iff hToken).mp h'
    obtain ⟨rfl, hTail⟩ := List.cons.inj hEq
    rw [ih hBounded hRest hRest' hTail]

/-! ## Alternatives -/

theorem Spells.split_last {q : Pattern} {r : Name} {whole : Bool} {ks : List Kind}
    (hBounded : q.bounded false = true) (hFront : q ≠ [] ∨ whole = false) (h : Spells whole (q ++ [.rule r]) ks) :
    ∃ us vs, ks = us ++ vs ∧ Spells whole q us ∧ Derives r vs ∧ vs ≠ [] := by
  fun_induction Pattern.bounded false q generalizing whole ks with
  | case1 =>
    obtain ⟨us, vs, rfl, hFirst, hTakes, hRest⟩ := spells_rule_iff.mp h
    cases spells_nil_iff.mp hRest
    refine ⟨[], us, List.append_nil us, .nil whole, hFirst, ?_⟩
    simpa [hFront.resolve_left (fun hNe => hNe rfl)] using hTakes
  | case2 => cases hBounded
  | case3 r' e p ih =>
    obtain ⟨hEnds, hBounded⟩ := Bool.and_eq_true_iff.mp hBounded
    obtain ⟨us, k, rest, rfl, hFirst, hAccepts, hRest⟩ := (spells_bounded_iff hEnds).mp h
    obtain ⟨mid, vs, rfl, hMid, hLast, hTakes⟩ := ih hBounded (.inr rfl) hRest
    refine ⟨us ++ k :: mid, vs, by simp, ?_, hLast, hTakes⟩
    exact (spells_bounded_iff hEnds).mpr ⟨us, k, mid, rfl, hFirst, hAccepts, hMid⟩
  | case4 e p hSingle hPair ih =>
    have hToken := Element.ne_rule hSingle hPair
    obtain ⟨k, rest, rfl, hAccepts, hRest⟩ := (spells_token_iff hToken).mp h
    obtain ⟨us, vs, rfl, hMid, hLast, hTakes⟩ := ih hBounded (.inr rfl) hRest
    exact ⟨k :: us, vs, rfl, .token hAccepts hMid, hLast, hTakes⟩

theorem not_spells_front {q : Pattern} {r : Name} {ks : List Kind} (hBounded : q.bounded false = true)
    (hFront : q ≠ []) (h : Spells true (q ++ [.rule r]) ks) : ¬ Spells true q ks := by
  intro hShort
  obtain ⟨us, vs, rfl, hMid, -, hTakes⟩ := h.split_last hBounded (.inl hFront)
  have hEq := hMid.split hBounded hShort (List.append_nil (us ++ vs)).symm
  exact hTakes (List.append_right_eq_self.mp hEq.symm)

theorem not_spells_operand {r : Name} {e : Element} {p : Pattern} {ks : List Kind} (hEnds : r.endsAt e = true)
    (h : Spells true (.rule r :: e :: p) ks) : ¬ Spells true [.rule r] ks := by
  intro hShort
  obtain ⟨us, k, vs, rfl, hFirst, hAccepts, -⟩ := (spells_bounded_iff hEnds).mp h
  exact not_derives_of_endsAt hEnds hAccepts hFirst (spells_single_iff.mp hShort)

theorem spells_literal_iff {whole : Bool} {k : Kind} {p : Pattern} {ks : List Kind} :
    Spells whole (.literal k :: p) ks ↔ ∃ rest, ks = k :: rest ∧ Spells false p rest := by
  rw [spells_token_iff fun _ h => Element.noConfusion h]
  constructor
  · rintro ⟨k', rest, rfl, hAccepts, hRest⟩
    cases beq_iff_eq.mp hAccepts
    exact ⟨rest, rfl, hRest⟩
  · rintro ⟨rest, rfl, hRest⟩
    exact ⟨k, rest, rfl, beq_self_eq_true k, hRest⟩

theorem derives_number_iff {ks : List Kind} : Derives .number ks ↔ ks = [.number] := by
  simp [Derives, table, spells_literal_iff, spells_nil_iff]

theorem derives_ident_iff {ks : List Kind} : Derives .ident ks ↔ ks = [.name] := by
  simp [Derives, table, spells_literal_iff, spells_nil_iff]

/-- The only alternative that may spell a sequence, where its first kinds tell. -/
def choice : Name → List Kind → Pattern
  | .codeBlock, [] => []
  | .codeBlock, .func :: _ => [.literal .func, .rule .function]
  | .codeBlock, .whileWord :: _ => [.literal .whileWord, .rule .whileLoop]
  | .codeBlock, .forWord :: _ => [.literal .forWord, .rule .forLoop]
  | .codeBlock, .ifWord :: _ => [.literal .ifWord, .rule .branch]
  | .codeBlock, _ => [.rule .lines]
  | .line, .print :: _ => [.rule .print]
  | .line, .ret :: _ => [.rule .ret]
  | .line, .var :: _ => [.rule .assign]
  | .line, .name :: .assign :: _ => [.rule .assign]
  | .line, _ => [.rule .or]
  | .assign, .var :: _ => [.literal .var, .rule .ident, .literal .assign, .rule .or]
  | .assign, _ => [.rule .ident, .literal .assign, .rule .or]
  | .params, [] => []
  | .params, .closeParen :: _ => [.literal .closeParen]
  | .params, .name :: .comma :: _ => [.rule .ident, .literal .comma, .rule .params]
  | .params, _ => [.rule .ident, .literal .closeParen]
  | .unary, .minus :: _ => [.oneOf [.minus, .not], .rule .unary]
  | .unary, .not :: _ => [.oneOf [.minus, .not], .rule .unary]
  | .unary, _ => [.rule .item]
  | .item, .openParen :: _ => [.literal .openParen, .rule .or, .literal .closeParen]
  | .item, [.number] => [.rule .number]
  | .item, [.name] => [.rule .ident]
  | .item, _ => [.rule .call]
  | _, _ => []

theorem Derives.lead {n : Name} {floor : Nat} {ks : List Kind} (hFloor : n.floor? = some floor) (h : Derives n ks) :
    ks = [] ∧ floor = 0 ∨ ∃ k rest, ks = k :: rest ∧ (leads? k).any (floor ≤ ·) = true := by
  obtain ⟨t, hRun, hRests⟩ := h.read hFloor
  cases ks with
  | nil =>
    cases hRun
    exact .inl ⟨rfl, beq_iff_eq.mp hRests⟩
  | cons k rest =>
    obtain ⟨mid, hNext, -⟩ := Option.bind_eq_some_iff.mp hRun
    exact .inr ⟨k, rest, rfl, (Option.ite_none_right_eq_some.mp hNext).1⟩

theorem Derives.lead_lines {ks : List Kind} (h : Derives .lines ks) :
    ∃ k rest, ks = k :: rest ∧ (k = .semicolon ∨ (leads? k).isSome = true) := by
  obtain ⟨p, hMem, hSpells⟩ := h
  have hFirst : ∃ us rest, ks = us ++ .semicolon :: rest ∧ Derives .line us := by
    simp only [table, List.mem_cons, List.not_mem_nil, or_false] at hMem
    rcases hMem with rfl | rfl
    all_goals
      obtain ⟨us, k, rest, rfl, hLine, hAccepts, -⟩ := (spells_bounded_iff rfl).mp hSpells
      cases beq_iff_eq.mp hAccepts
      exact ⟨us, rest, rfl, hLine⟩
  obtain ⟨us, rest, rfl, hLine⟩ := hFirst
  rcases hLine.lead (show Name.floor? .line = some 0 from rfl) with ⟨rfl, -⟩ | ⟨k, more, rfl, hLead⟩
  · exact ⟨.semicolon, rest, rfl, .inl rfl⟩
  · refine ⟨k, more ++ .semicolon :: rest, rfl, .inr ?_⟩
    obtain ⟨n, hSome, -⟩ := (Option.any_eq_true _ _).mp hLead
    exact Option.isSome_of_eq_some hSome

theorem choice_codeBlock {p : Pattern} {ks : List Kind} (hMem : p ∈ (table .codeBlock).alternatives)
    (h : Spells true p ks) : p = choice .codeBlock ks := by
  simp only [table, List.mem_cons, List.not_mem_nil, or_false] at hMem
  rcases hMem with rfl | rfl | rfl | rfl | rfl | rfl
  case inr.inr.inr.inr.inl =>
    obtain ⟨k, rest, rfl, hLead⟩ := (spells_single_iff.mp h).lead_lines
    cases k <;> first | rfl | (rcases hLead with hLead | hLead <;> cases hLead)
  case inr.inr.inr.inr.inr =>
    cases spells_nil_iff.mp h
    rfl
  all_goals
    obtain ⟨rest, rfl, -⟩ := spells_literal_iff.mp h
    rfl

theorem choice_assign {p : Pattern} {ks : List Kind} (hMem : p ∈ (table .assign).alternatives)
    (h : Spells true p ks) : p = choice .assign ks ∧ choice .line ks = [.rule .assign] := by
  simp only [table, List.mem_cons, List.not_mem_nil, or_false] at hMem
  rcases hMem with rfl | rfl
  · obtain ⟨us, k, rest, rfl, hName, hAccepts, -⟩ := (spells_bounded_iff rfl).mp h
    cases beq_iff_eq.mp hAccepts
    rw [derives_ident_iff.mp hName]
    exact ⟨rfl, rfl⟩
  · obtain ⟨rest, rfl, -⟩ := spells_literal_iff.mp h
    exact ⟨rfl, rfl⟩

theorem choice_line {p : Pattern} {ks : List Kind} (hMem : p ∈ (table .line).alternatives)
    (h : Spells true p ks) : p = choice .line ks := by
  simp only [table, List.mem_cons, List.not_mem_nil, or_false] at hMem
  rcases hMem with rfl | rfl | rfl | rfl
  · obtain ⟨q, hMem, hAssign⟩ := spells_single_iff.mp h
    exact (choice_assign hMem hAssign).2.symm
  · obtain ⟨q, hMem, hPrint⟩ := spells_single_iff.mp h
    cases List.mem_singleton.mp hMem
    obtain ⟨rest, rfl, -⟩ := spells_literal_iff.mp hPrint
    rfl
  · obtain ⟨q, hMem, hRet⟩ := spells_single_iff.mp h
    simp only [table, List.mem_cons, List.not_mem_nil, or_false] at hMem
    rcases hMem with rfl | rfl
    all_goals
      obtain ⟨rest, rfl, -⟩ := spells_literal_iff.mp hRet
      rfl
  · obtain ⟨t, hRun, hRests⟩ := (spells_single_iff.mp h).read (show Name.floor? .or = some 1 from rfl)
    rcases ks with - | ⟨k, - | ⟨k', rest⟩⟩
    · rfl
    · cases k <;> first | rfl | cases hRun
    · cases k <;> first | rfl | cases hRun | (cases k' <;> first | rfl | cases hRun)

theorem choice_params {p : Pattern} {ks : List Kind} (hMem : p ∈ (table .params).alternatives)
    (h : Spells true p ks) : p = choice .params ks := by
  simp only [table, List.mem_cons, List.not_mem_nil, or_false] at hMem
  rcases hMem with rfl | rfl | rfl | rfl
  · obtain ⟨us, k, rest, rfl, hName, hAccepts, -⟩ := (spells_bounded_iff rfl).mp h
    cases beq_iff_eq.mp hAccepts
    rw [derives_ident_iff.mp hName]
    rfl
  · obtain ⟨us, k, rest, rfl, hName, hAccepts, -⟩ := (spells_bounded_iff rfl).mp h
    cases beq_iff_eq.mp hAccepts
    rw [derives_ident_iff.mp hName]
    rfl
  · obtain ⟨rest, rfl, -⟩ := spells_literal_iff.mp h
    rfl
  · cases spells_nil_iff.mp h
    rfl

theorem choice_unary {p : Pattern} {ks : List Kind} (hMem : p ∈ (table .unary).alternatives)
    (h : Spells true p ks) : p = choice .unary ks := by
  simp only [table, List.mem_cons, List.not_mem_nil, or_false] at hMem
  rcases hMem with rfl | rfl
  · obtain ⟨k, rest, rfl, hAccepts, -⟩ := (spells_token_iff fun _ h => Element.noConfusion h).mp h
    cases k <;> first | rfl | cases hAccepts
  · rcases (spells_single_iff.mp h).lead (show Name.floor? .item = some 8 from rfl) with
      ⟨rfl, -⟩ | ⟨k, rest, rfl, hLead⟩
    · rfl
    · cases k <;> first | rfl | cases hLead

theorem choice_item {p : Pattern} {ks : List Kind} (hMem : p ∈ (table .item).alternatives)
    (h : Spells true p ks) : p = choice .item ks := by
  simp only [table, List.mem_cons, List.not_mem_nil, or_false] at hMem
  rcases hMem with rfl | rfl | rfl | rfl
  · obtain ⟨q, hMem, hCall⟩ := spells_single_iff.mp h
    cases List.mem_singleton.mp hMem
    obtain ⟨rest, rfl, hRest⟩ := spells_literal_iff.mp hCall
    obtain ⟨more, rfl, -⟩ := spells_literal_iff.mp hRest
    rfl
  · obtain ⟨rest, rfl, -⟩ := spells_literal_iff.mp h
    rfl
  · rw [derives_number_iff.mp (spells_single_iff.mp h)]
    rfl
  · rw [derives_ident_iff.mp (spells_single_iff.mp h)]
    rfl

theorem eq_of_front {q p p' : Pattern} {r : Name} {ks : List Kind} (hBounded : q.bounded false = true)
    (hFront : q ≠ []) (hp : p ∈ [q ++ [.rule r], q]) (hp' : p' ∈ [q ++ [.rule r], q])
    (h : Spells true p ks) (h' : Spells true p' ks) : p = p' := by
  simp only [List.mem_cons, List.not_mem_nil, or_false] at hp hp'
  rcases hp with rfl | rfl <;> rcases hp' with rfl | rfl
  · rfl
  · exact absurd h' (not_spells_front hBounded hFront h)
  · exact absurd h (not_spells_front hBounded hFront h')
  · rfl

theorem eq_of_operand {p p' rest : Pattern} {r : Name} {e : Element} {ks : List Kind} (hEnds : r.endsAt e = true)
    (hp : p ∈ [.rule r :: e :: rest, [.rule r]]) (hp' : p' ∈ [.rule r :: e :: rest, [.rule r]])
    (h : Spells true p ks) (h' : Spells true p' ks) : p = p' := by
  simp only [List.mem_cons, List.not_mem_nil, or_false] at hp hp'
  rcases hp with rfl | rfl <;> rcases hp' with rfl | rfl
  · rfl
  · exact absurd h' (not_spells_operand hEnds h)
  · exact absurd h (not_spells_operand hEnds h')
  · rfl

theorem not_derives_codeBlock {ks : List Kind} (h : Derives .otherwise ks) : ¬ Derives .codeBlock ks := by
  obtain ⟨p, hMem, hSpells⟩ := h
  have hHead : ∃ rest, ks = .elseWord :: rest := by
    simp only [table, List.mem_cons, List.not_mem_nil, or_false] at hMem
    rcases hMem with rfl | rfl
    all_goals
      obtain ⟨rest, rfl, -⟩ := spells_literal_iff.mp hSpells
      exact ⟨rest, rfl⟩
  obtain ⟨rest, rfl⟩ := hHead
  rintro ⟨q, hMem, hBlock⟩
  cases choice_codeBlock hMem hBlock
  obtain ⟨k, more, hEq, hLead⟩ := (spells_single_iff.mp hBlock).lead_lines
  cases hEq
  rcases hLead with hLead | hLead <;> cases hLead

theorem eq_of_branch {p q : Pattern} {ks : List Kind} (hp : p ∈ (table .branch).alternatives)
    (hq : q ∈ (table .branch).alternatives) (h : Spells true p ks) (h' : Spells true q ks) : p = q := by
  have hBounded : Pattern.bounded false guarded = true := by decide
  have hFront : guarded ≠ [] := List.cons_ne_nil _ _
  have hApart : Spells true (guarded ++ [.rule .otherwise]) ks → ¬ Spells true (guarded ++ [.rule .codeBlock]) ks := by
    intro hElse hBlock
    obtain ⟨us, vs, rfl, hHead, hElse, -⟩ := hElse.split_last hBounded (.inl hFront)
    obtain ⟨us', vs', hEq, hHead', hBlock, -⟩ := hBlock.split_last hBounded (.inl hFront)
    obtain rfl := hHead.split hBounded hHead' hEq
    obtain rfl := List.append_cancel_left hEq
    exact not_derives_codeBlock hElse hBlock
  rcases List.mem_cons.mp hp with rfl | hp
  · rcases List.mem_cons.mp hq with rfl | hq
    · rfl
    rcases List.mem_cons.mp hq with rfl | hq
    · exact absurd h' (hApart h)
    · exact eq_of_front hBounded hFront (List.mem_cons_self ..) (List.mem_cons_of_mem _ hq) h h'
  · rcases List.mem_cons.mp hq with rfl | hq
    · rcases List.mem_cons.mp hp with rfl | hp
      · exact absurd h (hApart h')
      · exact eq_of_front hBounded hFront (List.mem_cons_of_mem _ hp) (List.mem_cons_self ..) h h'
    · exact eq_of_front hBounded hFront hp hq h h'

theorem eq_of_args {p q : Pattern} {ks : List Kind} (hp : p ∈ (table .args).alternatives)
    (hq : q ∈ (table .args).alternatives) (h : Spells true p ks) (h' : Spells true q ks) : p = q := by
  have hEnds : Name.endsAt .or (.literal .comma) = true := by decide
  have hOr : Name.floor? .or = some 1 := rfl
  have hSome : ∀ p ∈ [[.rule .or, .literal .comma, .rule .args], [.rule .or]], Spells true p ks → ks ≠ [] := by
    intro p hMem h
    simp only [List.mem_cons, List.not_mem_nil, or_false] at hMem
    rcases hMem with rfl | rfl
    · obtain ⟨us, k, rest, rfl, -⟩ := (spells_bounded_iff hEnds).mp h
      exact List.append_ne_nil_of_right_ne_nil _ (List.cons_ne_nil _ _)
    · exact (spells_single_iff.mp h).ne_nil hOr
  have hSplit : ∀ p ∈ (table .args).alternatives,
      p ∈ [[.rule .or, .literal .comma, .rule .args], [.rule .or]] ∨ p = [] := by decide
  rcases hSplit p hp with hp | rfl <;> rcases hSplit q hq with hq | rfl
  · exact eq_of_operand hEnds hp hq h h'
  · exact absurd (spells_nil_iff.mp h') (hSome p hp h)
  · exact absurd (spells_nil_iff.mp h) (hSome q hq h')
  · rfl

/-- No two alternatives of a rule spell the same sequence. -/
theorem eq_of_spells {n : Name} {p q : Pattern} {ks : List Kind} (hp : p ∈ (table n).alternatives)
    (hq : q ∈ (table n).alternatives) (h : Spells true p ks) (h' : Spells true q ks) : p = q := by
  cases n with
  | codeBlock => exact (choice_codeBlock hp h).trans (choice_codeBlock hq h').symm
  | line => exact (choice_line hp h).trans (choice_line hq h').symm
  | assign => exact (choice_assign hp h).1.trans (choice_assign hq h').1.symm
  | params => exact (choice_params hp h).trans (choice_params hq h').symm
  | unary => exact (choice_unary hp h).trans (choice_unary hq h').symm
  | item => exact (choice_item hp h).trans (choice_item hq h').symm
  | branch => exact eq_of_branch hp hq h h'
  | args => exact eq_of_args hp hq h h'
  | otherwise =>
    have hBounded : Pattern.bounded false elseHead = true := by decide
    exact eq_of_front hBounded (List.cons_ne_nil _ _) hp hq h h'
  | whileLoop =>
    have hBounded : Pattern.bounded false guarded = true := by decide
    exact eq_of_front hBounded (List.cons_ne_nil _ _) hp hq h h'
  | forLoop =>
    have hBounded : Pattern.bounded false forHead = true := by decide
    exact eq_of_front hBounded (List.cons_ne_nil _ _) hp hq h h'
  | function =>
    have hBounded : Pattern.bounded false functionHead = true := by decide
    exact eq_of_front hBounded (List.cons_ne_nil _ _) hp hq h h'
  | ret =>
    have hBounded : Pattern.bounded false [.literal .ret] = true := by decide
    exact eq_of_front hBounded (List.cons_ne_nil _ _) hp hq h h'
  | lines =>
    have hBounded : Pattern.bounded false [.rule .line, .literal .semicolon] = true := by decide
    have hSwap := List.Perm.swap [.rule .line, .literal .semicolon, .rule .codeBlock]
      [.rule .line, .literal .semicolon] ([] : List Pattern)
    exact eq_of_front hBounded (List.cons_ne_nil _ _) (hSwap.mem_iff.mp hp) (hSwap.mem_iff.mp hq) h h'
  | or | and | equality | comparison | sum | product =>
    refine eq_of_operand ?_ hp hq h h'
    decide
  | print | call | number | ident => exact (List.mem_singleton.mp hp).trans (List.mem_singleton.mp hq).symm

end Vee.Grammar
