import Mathlib
import Vee.Tree

/-! # Derivations

What the grammar derives, apart from any way of matching. A pattern spells a sequence of token kinds if its
elements do so one after the other. A reference at the end of a pattern of two or more elements has to take a
token; every other reference may be empty. Over tokens the same rules give derivation trees, in which a pattern
that is one reference leaves no node of its own.
-/

namespace Vee

set_option autoImplicit false

namespace Grammar

open Token (Kind)

/-- A pattern spells a sequence of kinds. The flag says that nothing of the pattern stands in front. -/
inductive Spells : Bool → Pattern → List Kind → Prop where
  | nil (whole : Bool) : Spells whole [] []
  | token {whole : Bool} {e : Element} {p : Pattern} {k : Kind} {ks : List Kind} (hAccepts : e.accepts k = true)
      (hRest : Spells false p ks) : Spells whole (e :: p) (k :: ks)
  | rule {whole : Bool} {r : Name} {q p : Pattern} {us vs : List Kind} (hMem : q ∈ (table r).alternatives)
      (hFirst : Spells true q us) (hTakes : us ≠ [] ∨ p ≠ [] ∨ whole = true) (hRest : Spells false p vs) :
      Spells whole (.rule r :: p) (us ++ vs)

/-- A rule derives what one of its alternatives spells. -/
def Derives (n : Name) (ks : List Kind) : Prop :=
  ∃ p ∈ (table n).alternatives, Spells true p ks

theorem spells_nil_iff {whole : Bool} {ks : List Kind} : Spells whole [] ks ↔ ks = [] := by
  constructor
  · intro h
    cases h
    rfl
  · rintro rfl
    exact .nil whole

theorem Spells.eq_nil {p : Pattern} (h : Spells false p []) : p = [] := by
  generalize hFlag : false = whole at h
  generalize hKinds : ([] : List Kind) = ks at h
  induction h with
  | nil => rfl
  | token => cases hKinds
  | rule hMem hFirst hTakes hRest ihFirst ihRest =>
    obtain ⟨rfl, rfl⟩ := List.append_eq_nil_iff.mp hKinds.symm
    subst hFlag
    simp [ihRest rfl rfl] at hTakes

theorem spells_token_iff {whole : Bool} {e : Element} {p : Pattern} {ks : List Kind}
    (hToken : ∀ r, e ≠ .rule r) :
    Spells whole (e :: p) ks ↔ ∃ k rest, ks = k :: rest ∧ e.accepts k = true ∧ Spells false p rest := by
  constructor
  · intro h
    cases h with
    | token hAccepts hRest => exact ⟨_, _, rfl, hAccepts, hRest⟩
    | rule => exact absurd rfl (hToken _)
  · rintro ⟨k, rest, rfl, hAccepts, hRest⟩
    exact .token hAccepts hRest

theorem spells_rule_iff {whole : Bool} {r : Name} {p : Pattern} {ks : List Kind} :
    Spells whole (.rule r :: p) ks ↔ ∃ us vs, ks = us ++ vs ∧ Derives r us ∧
      (us ≠ [] ∨ p ≠ [] ∨ whole = true) ∧ Spells false p vs := by
  constructor
  · intro h
    cases h with
    | token hAccepts => cases hAccepts
    | rule hMem hFirst hTakes hRest => exact ⟨_, _, rfl, ⟨_, hMem, hFirst⟩, hTakes, hRest⟩
  · rintro ⟨us, vs, rfl, ⟨q, hMem, hFirst⟩, hTakes, hRest⟩
    exact .rule hMem hFirst hTakes hRest

theorem spells_single_iff {r : Name} {ks : List Kind} : Spells true [.rule r] ks ↔ Derives r ks := by
  rw [spells_rule_iff]
  constructor
  · rintro ⟨us, vs, rfl, hFirst, -, hRest⟩
    rwa [spells_nil_iff.mp hRest, List.append_nil]
  · intro h
    exact ⟨ks, [], (List.append_nil ks).symm, h, .inr (.inr rfl), .nil false⟩

end Grammar

namespace Tree

open Grammar

/-- What stands for an element of a pattern: a token, or the tree of a reference. -/
abbrev Part := Token ⊕ Tree

/-- The token at the place that the rule singles out. -/
def operatorOf (n : Name) (parts : List Part) : Option Token :=
  (table n).operator.bind fun i => parts[i]?.bind Sum.getLeft?

/-- The tree of a rule over a span, given what stands for the elements of a pattern. -/
def assemble (n : Name) (span : Span) : List Part → Tree
  | [.inr tree] => tree
  | [.inl token] =>
    if (table n).terminal then .leaf n span.start token else .node n span [] (operatorOf n [.inl token])
  | parts => .node n span (parts.filterMap Sum.getRight?) (operatorOf n parts)

/-- A tree that is alone stays as it is, a token that is alone is a leaf if the rule is terminal, and everything else
makes a node. -/
theorem assemble_cases (n : Name) (span : Span) (parts : List Part) :
    (∃ tree, parts = [.inr tree] ∧ assemble n span parts = tree) ∨
      (∃ t, parts = [.inl t] ∧ (table n).terminal = true ∧ assemble n span parts = .leaf n span.start t) ∨
      assemble n span parts = .node n span (parts.filterMap Sum.getRight?) (operatorOf n parts) := by
  fun_cases assemble n span parts with
  | case1 tree => exact .inl ⟨tree, rfl, rfl⟩
  | case2 t hTerminal => exact .inr (.inl ⟨t, rfl, hTerminal, rfl⟩)
  | case3 => exact .inr (.inr rfl)
  | case4 => exact .inr (.inr rfl)

theorem mem_of_getRight {parts : List Part} {tree : Tree} (h : tree ∈ parts.filterMap Sum.getRight?) :
    .inr tree ∈ parts := by
  obtain ⟨part, hPart, hRight⟩ := List.mem_filterMap.mp h
  cases part with
  | inl t => cases hRight
  | inr other =>
    cases hRight
    exact hPart

/-- A pattern covers tokens, the first of which has the given index. -/
inductive Covers : Bool → Pattern → Nat → List Token → List Part → Prop where
  | nil (whole : Bool) (i : Nat) : Covers whole [] i [] []
  | token {whole : Bool} {e : Element} {p : Pattern} {i : Nat} {t : Token} {ts : List Token} {parts : List Part}
      (hAccepts : e.accepts t.kind = true) (hRest : Covers false p (i + 1) ts parts) :
      Covers whole (e :: p) i (t :: ts) (.inl t :: parts)
  | rule {whole : Bool} {r : Name} {q p : Pattern} {i : Nat} {us vs : List Token} {inner parts : List Part}
      (hMem : q ∈ (table r).alternatives) (hFirst : Covers true q i us inner)
      (hTakes : us ≠ [] ∨ p ≠ [] ∨ whole = true) (hRest : Covers false p (i + us.length) vs parts) :
      Covers whole (.rule r :: p) i (us ++ vs) (.inr (assemble r ⟨i, i + us.length⟩ inner) :: parts)

/-- The derivation trees of a rule over tokens, the first of which has the given index. -/
def Derivation (n : Name) (i : Nat) (ts : List Token) (tree : Tree) : Prop :=
  ∃ p ∈ (table n).alternatives, ∃ parts, Covers true p i ts parts ∧ tree = assemble n ⟨i, i + ts.length⟩ parts

theorem Covers.spells {whole : Bool} {p : Pattern} {i : Nat} {ts : List Token} {parts : List Part}
    (h : Covers whole p i ts parts) : Spells whole p (ts.map Token.kind) := by
  induction h with
  | nil whole => exact .nil whole
  | token hAccepts _ ih => exact .token hAccepts ih
  | rule hMem _ hTakes _ ihFirst ihRest =>
    rw [List.map_append]
    exact .rule hMem ihFirst (by simpa using hTakes) ihRest

theorem exists_covers {whole : Bool} {p : Pattern} {ks : List Token.Kind} (h : Spells whole p ks) :
    ∀ (i : Nat) (ts : List Token), ts.map Token.kind = ks → ∃ parts, Covers whole p i ts parts := by
  induction h with
  | nil whole =>
    intro i ts hKinds
    rw [List.map_eq_nil_iff] at hKinds
    exact hKinds ▸ ⟨[], .nil whole i⟩
  | token hAccepts _ ih =>
    intro i ts hKinds
    obtain ⟨t, rest, rfl, rfl, hRest⟩ := List.map_eq_cons_iff.mp hKinds
    obtain ⟨parts, hParts⟩ := ih (i + 1) rest hRest
    exact ⟨_, .token hAccepts hParts⟩
  | rule hMem _ hTakes _ ihFirst ihRest =>
    intro i ts hKinds
    obtain ⟨us, vs, rfl, rfl, rfl⟩ := List.map_eq_append_iff.mp hKinds
    obtain ⟨inner, hInner⟩ := ihFirst i us rfl
    obtain ⟨parts, hParts⟩ := ihRest (i + us.length) vs rfl
    exact ⟨_, .rule hMem hInner (by simpa using hTakes) hParts⟩

/-- A sequence of kinds is derived exactly if tokens of these kinds have a derivation tree. -/
theorem derives_iff_exists_derivation (n : Name) (i : Nat) (ts : List Token) :
    Derives n (ts.map Token.kind) ↔ ∃ tree, Derivation n i ts tree := by
  constructor
  · rintro ⟨p, hMem, hSpells⟩
    obtain ⟨parts, hParts⟩ := exists_covers hSpells i ts rfl
    exact ⟨_, p, hMem, parts, hParts, rfl⟩
  · rintro ⟨tree, p, hMem, parts, hParts, -⟩
    exact ⟨p, hMem, hParts.spells⟩

theorem Derivation.derives {n : Name} {i : Nat} {ts : List Token} {tree : Tree} (h : Derivation n i ts tree) :
    Derives n (ts.map Token.kind) := (derives_iff_exists_derivation n i ts).mpr ⟨tree, h⟩

theorem covers_nil_iff {whole : Bool} {i : Nat} {ts : List Token} {parts : List Part} :
    Covers whole [] i ts parts ↔ ts = [] ∧ parts = [] := by
  constructor
  · intro h
    cases h
    exact ⟨rfl, rfl⟩
  · rintro ⟨rfl, rfl⟩
    exact .nil whole i

theorem covers_token_iff {whole : Bool} {e : Element} {p : Pattern} {i : Nat} {ts : List Token}
    {parts : List Part} (hToken : ∀ r, e ≠ .rule r) :
    Covers whole (e :: p) i ts parts ↔ ∃ t rest more, ts = t :: rest ∧ parts = .inl t :: more ∧
      e.accepts t.kind = true ∧ Covers false p (i + 1) rest more := by
  constructor
  · intro h
    cases h with
    | token hAccepts hRest => exact ⟨_, _, _, rfl, rfl, hAccepts, hRest⟩
    | rule => exact absurd rfl (hToken _)
  · rintro ⟨t, rest, more, rfl, rfl, hAccepts, hRest⟩
    exact .token hAccepts hRest

theorem covers_rule_iff {whole : Bool} {r : Name} {p : Pattern} {i : Nat} {ts : List Token}
    {parts : List Part} :
    Covers whole (.rule r :: p) i ts parts ↔ ∃ us vs tree more, ts = us ++ vs ∧ parts = .inr tree :: more ∧
      Derivation r i us tree ∧ (us ≠ [] ∨ p ≠ [] ∨ whole = true) ∧ Covers false p (i + us.length) vs more := by
  constructor
  · intro h
    cases h with
    | token hAccepts => cases hAccepts
    | rule hMem hFirst hTakes hRest => exact ⟨_, _, _, _, rfl, rfl, ⟨_, hMem, _, hFirst, rfl⟩, hTakes, hRest⟩
  · rintro ⟨us, vs, tree, more, rfl, rfl, ⟨q, hMem, inner, hFirst, rfl⟩, hTakes, hRest⟩
    exact .rule hMem hFirst hTakes hRest

/-- A reference in front of the rest of a pattern. -/
theorem Derivation.covers {whole : Bool} {r : Name} {p : Pattern} {i : Nat} {us vs : List Token} {tree : Tree}
    {parts : List Part} (h : Derivation r i us tree) (hTakes : us ≠ [] ∨ p ≠ [] ∨ whole = true)
    (hRest : Covers false p (i + us.length) vs parts) :
    Covers whole (.rule r :: p) i (us ++ vs) (.inr tree :: parts) :=
  covers_rule_iff.mpr ⟨us, vs, tree, parts, rfl, rfl, h, hTakes, hRest⟩

/-- A reference at the end of a pattern. -/
theorem Derivation.covers_last {whole : Bool} {r : Name} {i : Nat} {us : List Token} {tree : Tree}
    (h : Derivation r i us tree) (hTakes : us ≠ [] ∨ whole = true) :
    Covers whole [.rule r] i us [.inr tree] := by
  have hCovers := h.covers (hTakes.imp_right .inr) (.nil false _)
  rwa [List.append_nil] at hCovers

/-- The tree over a pattern of two or more elements is a node. -/
theorem Covers.derivation {n : Name} {p : Pattern} {i : Nat} {ts : List Token} {a b : Part} {parts : List Part}
    (h : Covers true p i ts (a :: b :: parts)) (hMem : p ∈ (table n).alternatives) :
    Derivation n i ts (.node n ⟨i, i + ts.length⟩ ((a :: b :: parts).filterMap Sum.getRight?)
      (operatorOf n (a :: b :: parts))) := by
  refine ⟨p, hMem, _, h, ?_⟩
  cases a <;> rfl

theorem Covers.append {whole : Bool} {p q : Pattern} {i : Nat} {us vs : List Token} {parts more : List Part}
    (hFirst : Covers whole p i us parts) (hRest : Covers false q (i + us.length) vs more) :
    Covers whole (p ++ q) i (us ++ vs) (parts ++ more) := by
  induction hFirst with
  | nil whole i =>
    cases hRest with
    | nil => exact .nil whole i
    | token hAccepts hRest => exact .token hAccepts hRest
    | rule hMem hFirst hTakes hRest => exact .rule hMem hFirst (hTakes.imp_right (.imp_right nofun)) hRest
  | token hAccepts _ ih =>
    refine .token hAccepts (ih ?_)
    rwa [Nat.add_assoc, Nat.add_comm 1]
  | rule hMem hInner hTakes _ _ ih =>
    rw [List.append_assoc]
    refine .rule hMem hInner ?_ (ih ?_)
    · exact hTakes.imp_right (.imp_left fun hNe => List.append_ne_nil_of_left_ne_nil hNe _)
    · rwa [List.length_append, ← Nat.add_assoc] at hRest

theorem Covers.eq_nil {p : Pattern} {i : Nat} {parts : List Part} (h : Covers false p i [] parts) : p = [] :=
  h.spells.eq_nil

end Tree

end Vee
