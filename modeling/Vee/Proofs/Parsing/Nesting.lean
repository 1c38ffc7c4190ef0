import Vee.Proofs.Parsing.Derivation

/-! # Nesting of derived sequences

Two readers of sequences of kinds. The first follows expressions: it knows whether an operand or an operator is
due, and outside of parentheses it takes only operators that bind at least as tightly as the rule that is read.
The second counts braces. Both have a counterpart on patterns, by which the table of rules is checked once; what
a rule derives is then read to its end.
-/

namespace Vee.Grammar

set_option autoImplicit false

open Token (Kind)

/-- The kinds that an element accepts. -/
def Element.kinds : Element → List Kind
  | literal k => [k]
  | oneOf ks => ks
  | rule _ => []

theorem Element.mem_kinds {e : Element} {k : Kind} (h : e.accepts k = true) : k ∈ e.kinds := by
  cases e with
  | literal kind => exact List.mem_singleton.mpr (beq_iff_eq.mp h).symm
  | oneOf ks => exact List.contains_iff_mem.mp h
  | rule r => cases h

/-! ## Expressions -/

/-- In front of an operand, behind one, or within parentheses. -/
inductive Spot where
  | operand
  | operator
  | inside (depth : Nat)

/-- How tightly a kind binds where an operand is due. -/
def leads? : Kind → Option Nat
  | .var | .print | .ret => some 0
  | .minus | .not => some 7
  | .openParen | .number | .name => some 9
  | _ => none

/-- How tightly a kind binds behind an operand. A parenthesis there opens the arguments of a call. -/
def joins? : Kind → Option Nat
  | .comma | .assign => some 0
  | .or => some 1
  | .and => some 2
  | .equal | .notEqual => some 3
  | .greater | .greaterEq | .less | .lessEq => some 4
  | .minus | .plus => some 5
  | .times | .divide | .modulo => some 6
  | .openParen => some 8
  | _ => none

/-- How tightly the operators of an expression or a line bind at least. -/
def Name.floor? : Name → Option Nat
  | .line | .print | .assign | .args | .ret => some 0
  | .or => some 1
  | .and => some 2
  | .equality => some 3
  | .comparison => some 4
  | .sum => some 5
  | .product => some 6
  | .unary => some 7
  | .item | .call => some 8
  | .number | .ident => some 9
  | _ => none

namespace Spot

/-- Behind a kind outside of parentheses. -/
def turn : Kind → Spot
  | .openParen => inside 0
  | .number | .name => operator
  | _ => operand

/-- Behind a kind within parentheses. -/
def deeper (depth : Nat) : Kind → Spot
  | .openParen => inside (depth + 1)
  | .closeParen => if depth = 0 then operator else inside (depth - 1)
  | _ => inside depth

/-- Behind one more kind, unless it binds too loosely. -/
def next (floor : Nat) : Spot → Kind → Option Spot
  | operand, k => if (leads? k).any (floor ≤ ·) then some (turn k) else none
  | operator, k => if (joins? k).any (floor ≤ ·) then some (turn k) else none
  | inside depth, k => some (deeper depth k)

def run (floor : Nat) : Spot → List Kind → Option Spot
  | s, [] => some s
  | s, k :: ks => (s.next floor k).bind fun t => t.run floor ks

/-- The same spot within parentheses. -/
def within (depth : Nat) : Spot → Spot
  | operand => inside depth
  | operator => inside depth
  | inside inner => inside (depth + inner + 1)

/-- Where what a rule derives may end. Only lines and arguments may be empty. -/
def rests (floor : Nat) : Spot → Bool
  | operand => floor == 0
  | operator => true
  | inside _ => false

variable {floor : Nat} {s t : Spot} {k : Kind} {ks : List Kind}

theorem next_mono {higher : Nat} (hLe : floor ≤ higher) (h : s.next higher k = some t) :
    s.next floor k = some t := by
  have hAny : ∀ o : Option Nat, o.any (higher ≤ ·) = true → o.any (floor ≤ ·) = true := by
    intro o
    cases o with
    | none => exact id
    | some n => simpa using Nat.le_trans hLe
  cases s with
  | operand | operator =>
    obtain ⟨hBinds, hTurn⟩ := Option.ite_none_right_eq_some.mp h
    rw [← hTurn]
    exact if_pos (hAny _ hBinds)
  | inside depth => exact h

theorem deeper_eq_within (depth : Nat) (h : k ≠ .closeParen) : deeper depth k = (turn k).within depth := by
  cases k with
  | closeParen => exact absurd rfl h
  | _ => rfl

theorem next_within (depth other : Nat) (h : s.next floor k = some t) :
    (s.within depth).next other k = some (t.within depth) := by
  cases s with
  | operand | operator =>
    obtain ⟨hBinds, hTurn⟩ := Option.ite_none_right_eq_some.mp h
    cases hTurn
    refine congrArg some (deeper_eq_within depth ?_)
    rintro rfl
    cases hBinds
  | inside inner =>
    cases h
    refine congrArg some ?_
    cases k with
    | closeParen => cases inner <;> rfl
    | _ => rfl

theorem run_append (vs : List Kind) : s.run floor (ks ++ vs) = (s.run floor ks).bind fun t => t.run floor vs := by
  induction ks generalizing s with
  | nil => rfl
  | cons k ks ih =>
    simp only [List.cons_append, run]
    cases s.next floor k with
    | none => rfl
    | some t => exact ih

theorem run_mono {higher : Nat} (hLe : floor ≤ higher) (h : s.run higher ks = some t) :
    s.run floor ks = some t := by
  induction ks generalizing s with
  | nil => exact h
  | cons k ks ih =>
    obtain ⟨mid, hNext, hRest⟩ := Option.bind_eq_some_iff.mp h
    exact Option.bind_eq_some_iff.mpr ⟨mid, next_mono hLe hNext, ih hRest⟩

theorem run_within (depth other : Nat) (h : s.run floor ks = some t) :
    (s.within depth).run other ks = some (t.within depth) := by
  induction ks generalizing s with
  | nil =>
    cases h
    rfl
  | cons k ks ih =>
    obtain ⟨mid, hNext, hRest⟩ := Option.bind_eq_some_iff.mp h
    exact Option.bind_eq_some_iff.mpr ⟨mid.within depth, next_within depth other hNext, ih hRest⟩

/-- Whether whatever a pattern spells is read to its end. -/
def fits (floor : Nat) : Spot → Pattern → Bool
  | s, [] => s.rests floor
  | inside depth, .rule r :: p => r.floor?.isSome && (inside depth).fits floor p
  | operand, .rule r :: p =>
    r.floor?.any fun inner => floor ≤ inner && if inner = 0 then p.isEmpty else operator.fits floor p
  | operator, .rule _ :: _ => false
  | s, e :: p => e.kinds.all fun k => (s.next floor k).any fun t => t.fits floor p

theorem fits_table {n : Name} {floor : Nat} {p : Pattern} (hFloor : n.floor? = some floor)
    (hMem : p ∈ (table n).alternatives) : operand.fits floor p = true := by
  revert p
  cases n <;> cases hFloor <;> decide

theorem exists_next {e : Element} {p : Pattern} (hFits : s.fits floor (e :: p) = true) (hAccepts : e.accepts k = true) :
    ∃ t, s.next floor k = some t ∧ t.fits floor p = true := by
  have hMem := Element.mem_kinds hAccepts
  have hAll : (e.kinds.all fun k => (s.next floor k).any fun t => t.fits floor p) = true := by
    cases e with
    | literal | oneOf => cases s <;> exact hFits
    | rule => cases hAccepts
  exact (Option.any_eq_true _ _).mp (List.all_eq_true.mp hAll k hMem)

theorem run_of_spells {whole : Bool} {p : Pattern} (h : Spells whole p ks) :
    ∀ {floor : Nat} {s : Spot}, s.fits floor p = true → ∃ t, s.run floor ks = some t ∧ t.rests floor = true := by
  induction h with
  | nil => exact fun {_ s} hFits => ⟨s, rfl, hFits⟩
  | token hAccepts _ ih =>
    intro floor s hFits
    obtain ⟨mid, hNext, hMid⟩ := exists_next hFits hAccepts
    obtain ⟨t, hRun, hRests⟩ := ih hMid
    exact ⟨t, Option.bind_eq_some_iff.mpr ⟨mid, hNext, hRun⟩, hRests⟩
  | @rule _ r q p us vs hMem _ _ hRest ihFirst ihRest =>
    intro floor s hFits
    simp only [run_append]
    cases s with
    | operator => cases hFits
    | inside depth =>
      obtain ⟨hSome, hFits⟩ := Bool.and_eq_true_iff.mp hFits
      obtain ⟨inner, hInner⟩ := Option.isSome_iff_exists.mp hSome
      obtain ⟨mid, hRun, hRests⟩ := ihFirst (fits_table hInner hMem)
      have hWithin : mid.within depth = inside depth := by
        cases mid with
        | operand | operator => rfl
        | inside => cases hRests
      have hFirst := run_within depth floor hRun
      rw [hWithin] at hFirst
      have hFirst : (inside depth).run floor us = some (inside depth) := hFirst
      rw [hFirst]
      exact ihRest hFits
    | operand =>
      obtain ⟨inner, hInner, hFits⟩ := (Option.any_eq_true _ _).mp hFits
      obtain ⟨hLe, hFits⟩ := Bool.and_eq_true_iff.mp hFits
      obtain ⟨mid, hRun, hRests⟩ := ihFirst (fits_table hInner hMem)
      have hLe := of_decide_eq_true hLe
      rw [run_mono hLe hRun]
      split at hFits
      · -- a reference that may end in front of an operand stands at the end of its pattern
        rename_i hZero
        have hLast := List.isEmpty_iff.mp hFits
        subst hLast
        have hNil := spells_nil_iff.mp hRest
        have hFloor : floor = inner := by omega
        subst hNil hFloor
        exact ⟨mid, rfl, hRests⟩
      · rename_i hPos
        have hMid : mid = operator := by
          cases mid with
          | operand => exact absurd (beq_iff_eq.mp hRests) hPos
          | operator => rfl
          | inside => cases hRests
        rw [hMid]
        exact ihRest hFits

theorem rests_cases (h : s.rests floor = true) : s = operator ∨ s = operand ∧ floor = 0 := by
  cases s with
  | operand => exact .inr ⟨rfl, beq_iff_eq.mp h⟩
  | operator => exact .inl rfl
  | inside => cases h

end Spot

theorem Derives.read {n : Name} {floor : Nat} {ks : List Kind} (hFloor : n.floor? = some floor)
    (h : Derives n ks) : ∃ t, Spot.operand.run floor ks = some t ∧ t.rests floor = true := by
  obtain ⟨p, hMem, hSpells⟩ := h
  exact Spot.run_of_spells hSpells (Spot.fits_table hFloor hMem)

theorem Derives.ne_nil {n : Name} {floor : Nat} {ks : List Kind} (hFloor : n.floor? = some (floor + 1))
    (h : Derives n ks) : ks ≠ [] := by
  rintro rfl
  obtain ⟨t, hRun, hRests⟩ := h.read hFloor
  cases hRun
  cases hRests

/-! ## Braces -/

/-- The number of open braces behind a kind, unless it closes one that was not opened. -/
def brace (depth : Nat) : Kind → Option Nat
  | .openBrace => some (depth + 1)
  | .closeBrace => if depth = 0 then none else some (depth - 1)
  | _ => some depth

def braces : Nat → List Kind → Option Nat
  | depth, [] => some depth
  | depth, k :: ks => (brace depth k).bind fun d => braces d ks

/-- Whether a pattern closes the braces that are open and those that it opens. -/
def nests : Nat → Pattern → Bool
  | depth, [] => depth == 0
  | depth, .rule _ :: p => nests depth p
  | depth, e :: p => e.kinds.all fun k => (brace depth k).any fun d => nests d p

theorem nests_table {n : Name} {p : Pattern} (hMem : p ∈ (table n).alternatives) : nests 0 p = true := by
  revert p
  cases n <;> decide

theorem brace_add {outer depth d : Nat} {k : Kind} (h : brace depth k = some d) :
    brace (outer + depth) k = some (outer + d) := by
  cases k with
  | openBrace =>
    cases h
    rfl
  | closeBrace =>
    simp only [brace] at h ⊢
    split at h
    · cases h
    · cases h
      rw [if_neg (by omega), Nat.add_sub_assoc (by omega)]
  | _ =>
    cases h
    rfl

theorem braces_append (depth : Nat) (ks vs : List Kind) :
    braces depth (ks ++ vs) = (braces depth ks).bind fun d => braces d vs := by
  induction ks generalizing depth with
  | nil => rfl
  | cons k ks ih =>
    simp only [List.cons_append, braces]
    cases brace depth k with
    | none => rfl
    | some d => exact ih d

theorem braces_of_spells {whole : Bool} {p : Pattern} {ks : List Kind} (h : Spells whole p ks) :
    ∀ {outer depth : Nat}, nests depth p = true → braces (outer + depth) ks = some outer := by
  induction h with
  | nil =>
    intro outer depth hNests
    rw [beq_iff_eq.mp hNests]
    rfl
  | @token _ e p k ks hAccepts _ ih =>
    intro outer depth hNests
    have hAll : (e.kinds.all fun k => (brace depth k).any fun d => nests d p) = true := by
      cases e with
      | literal | oneOf => exact hNests
      | rule => cases hAccepts
    obtain ⟨d, hBrace, hNests⟩ :=
      (Option.any_eq_true _ _).mp (List.all_eq_true.mp hAll k (Element.mem_kinds hAccepts))
    exact Option.bind_eq_some_iff.mpr ⟨outer + d, brace_add hBrace, ih hNests⟩
  | rule hMem _ _ _ ihFirst ihRest =>
    intro outer depth hNests
    rw [braces_append]
    exact Option.bind_eq_some_iff.mpr ⟨outer + depth, ihFirst (nests_table hMem), ihRest hNests⟩

theorem Derives.braces {n : Name} {ks : List Kind} (h : Derives n ks) (depth : Nat) :
    braces depth ks = some depth := by
  obtain ⟨p, hMem, hSpells⟩ := h
  exact braces_of_spells hSpells (nests_table hMem)

/-- Whether an element of a parameter list has no brace. -/
def Element.flat : Element → Bool
  | .rule r => r == .params || r == .ident
  | e => !e.kinds.contains .openBrace

theorem flat_table {r : Name} {p : Pattern} (hFlat : (Element.rule r).flat = true)
    (hMem : p ∈ (table r).alternatives) : p.all Element.flat = true := by
  revert p
  cases r <;> cases hFlat <;> decide

theorem not_mem_of_flat {whole : Bool} {p : Pattern} {ks : List Kind} (h : Spells whole p ks)
    (hFlat : p.all Element.flat = true) : Kind.openBrace ∉ ks := by
  induction h with
  | nil => exact List.not_mem_nil
  | @token _ e _ k _ hAccepts _ ih =>
    obtain ⟨hElement, hRest⟩ := Bool.and_eq_true_iff.mp hFlat
    have hKinds : Kind.openBrace ∉ e.kinds := by
      cases e with
      | literal | oneOf => simpa [Element.flat] using hElement
      | rule => cases hAccepts
    intro hMem
    rcases List.mem_cons.mp hMem with rfl | hMem
    · exact hKinds (Element.mem_kinds hAccepts)
    · exact ih hRest hMem
  | rule hMem _ _ _ ihFirst ihRest =>
    obtain ⟨hElement, hRest⟩ := Bool.and_eq_true_iff.mp hFlat
    rw [List.mem_append]
    exact not_or.mpr ⟨ihFirst (flat_table hElement hMem), ihRest hRest⟩

end Vee.Grammar
