import Vee.Proofs.Parsing.Precedence

/-! # Shapes of parse trees

A parse tree has all the parts that reading its statements asks for. The trees of each rule are read without a
surprise if the trees of the references in its patterns are, so the only thing left to complain about is a number
that is no word.
-/

namespace Vee

set_option autoImplicit false

open Grammar

/-- A number among the tokens that stands for no word, with the minus sign in front of it if that belongs to it. -/
inductive ShapeError.OutOfRange (tokens : List Token) : ShapeError → Prop where
  | plain {k : Nat} {t : Token} (hToken : tokens[k]? = some t) (hKind : t.kind = .number)
      (hRead : Word.read? t.text.toList = none) : OutOfRange tokens (.literalOutOfRange ⟨k, k + 1⟩ t.text)
  | negative {k : Nat} {sign t : Token} (hSign : tokens[k]? = some sign) (hMinus : sign.kind = .minus)
      (hToken : tokens[k + 1]? = some t) (hKind : t.kind = .number)
      (hRead : Word.read? ("-" ++ t.text).toList = none) :
      OutOfRange tokens (.literalOutOfRange ⟨k, k + 2⟩ ("-" ++ t.text))

/-! ## Results without a surprise -/

/-- A result whose error can only be a number out of range. -/
def Regular (tokens : List Token) {α : Type} (x : Except ShapeError α) : Prop :=
  ∀ e, x = .error e → e.OutOfRange tokens

section

variable {tokens : List Token} {α β : Type}

theorem Regular.bind {x : Except ShapeError α} {f : α → Except ShapeError β} (h : Regular tokens x)
    (hRest : ∀ a, Regular tokens (f a)) : Regular tokens (x >>= f) := by
  cases x with
  | error e =>
    rintro _ ⟨⟩
    exact h e rfl
  | ok a => exact hRest a

end

namespace Tree

/-- A tree over the tokens between two indices that is read as an expression. A number is the only token there. -/
structure Value (tokens : List Token) (i j : Nat) (tree : Tree) : Prop where
  regular : ∀ left, Regular tokens (Expr.ofTree left tree)
  number : ∀ k t, tree = .leaf .number k t → k = i ∧ j = i + 1 ∧ tokens[i]? = some t ∧ t.kind = .number

/-- What reading asks of the trees of a rule. -/
def Shaped (tokens : List Token) (n : Name) (i j : Nat) (tree : Tree) : Prop :=
  match n with
  | .codeBlock | .lines => Regular tokens (Stmt.ofBlock tree)
  | .branch | .whileLoop | .forLoop | .function => Regular tokens (Stmt.ofConstruct tree)
  | .otherwise => ∃ span no rest operator, tree = .node .otherwise span (no :: rest) operator ∧
      Regular tokens (Stmt.ofBlock no) ∧ Regular tokens (Stmt.ofRest rest)
  | .line | .print | .ret => Regular tokens (Stmt.ofLine tree)
  | .assign => ∃ span children operator, tree = .node .assign span children operator ∧
      Regular tokens (Stmt.ofAssign tree)
  | .params => ∃ span children operator, tree = .node .params span children operator ∧
      Regular tokens (Stmt.paramsOfTrees children)
  | .args => Regular tokens (Expr.ofArgs [tree])
  | .ident => ∃ k t, tree = .leaf .ident k t
  | .or | .and | .equality | .comparison | .sum | .product | .unary | .item | .call | .number => Value tokens i j tree

/-- Parts for a pattern over the tokens between two indices, with trees in the shapes of their rules. -/
def Suits (tokens : List Token) : Pattern → Nat → Nat → List Part → Prop
  | [], i, j, parts => i = j ∧ parts = []
  | .rule r :: p, i, j, parts =>
    ∃ m tree more, parts = .inr tree :: more ∧ Shaped tokens r i m tree ∧ Suits tokens p m j more
  | e :: p, i, j, parts =>
    ∃ t more, parts = .inl t :: more ∧ e.accepts t.kind = true ∧ tokens[i]? = some t ∧ Suits tokens p (i + 1) j more

variable {tokens : List Token} {i j : Nat} {p : Pattern} {parts : List Part}

/-! ## Expressions -/

theorem Suits.split {q : Pattern} (h : Suits tokens (p ++ q) i j parts) :
    ∃ m front back, parts = front ++ back ∧ Suits tokens p i m front ∧ Suits tokens q m j back := by
  induction p generalizing i parts with
  | nil => exact ⟨i, [], parts, rfl, ⟨rfl, rfl⟩, h⟩
  | cons e p ih =>
    cases e with
    | rule r =>
      obtain ⟨l, tree, more, rfl, hTree, h⟩ := h
      obtain ⟨m, front, back, rfl, hFront, hBack⟩ := ih h
      exact ⟨m, .inr tree :: front, back, rfl, ⟨l, tree, front, rfl, hTree, hFront⟩, hBack⟩
    | literal | oneOf =>
      obtain ⟨t, more, rfl, hAccepts, hToken, h⟩ := h
      obtain ⟨m, front, back, rfl, hFront, hBack⟩ := ih h
      exact ⟨m, .inl t :: front, back, rfl, ⟨t, front, rfl, hAccepts, hToken, hFront⟩, hBack⟩

theorem prefix_drop (us : List Token) {vs : List Token} (h : us ++ vs <+: tokens.drop i) : vs <+: tokens.drop (i + us.length) := by
  obtain ⟨more, hMore⟩ := h
  rw [← List.drop_drop, ← hMore, List.append_assoc, List.drop_left]
  exact List.prefix_append vs more

end Tree

end Vee
