import Vee.Proofs.Parsing.Recognition
import Vee.Proofs.Text.Numeral
import Vee.Stmt.OfTree
import Vee.Stmt.Tokens

/-! # Expressions come back from their tokens

The tokens of an expression have a derivation tree of the rule for its precedence, and of every looser rule, and
the tree stands for the expression. Trees of operators of one precedence lean to the right, expressions to the
left: an expression in front of an operator has a tree that hands it over to the tree behind the operator.
-/

namespace Vee

set_option autoImplicit false

open Grammar

/-! ## Expressions without spans -/

mutual

def Expr.bare : Expr → Expr
  | .int _ n => .int .nowhere n
  | .var _ name => .var .nowhere name
  | .call _ name args => .call .nowhere name (Expr.allBare args)
  | .unary op _ e => .unary op .nowhere e.bare
  | .binary op _ l r => .binary op .nowhere l.bare r.bare

def Expr.allBare : List Expr → List Expr
  | [] => []
  | e :: rest => e.bare :: Expr.allBare rest

end

namespace Expr

/-! ## Rules by precedence -/

/-- The rule whose operators have a precedence. -/
def ruleAt : Nat → Name
  | 0 => .or
  | 1 => .or
  | 2 => .and
  | 3 => .equality
  | 4 => .comparison
  | 5 => .sum
  | 6 => .product
  | 7 => .unary
  | _ => .item

theorem derivation_single {n r : Name} {i : Nat} {ts : List Token} {tree : Tree}
    (hMem : [.rule r] ∈ (table n).alternatives) (h : Tree.Derivation r i ts tree) : Tree.Derivation n i ts tree :=
  ⟨[.rule r], hMem, [.inr tree], h.covers_last (.inr rfl), rfl⟩

theorem derivation_ruleAt_succ {q i : Nat} {ts : List Token} {tree : Tree}
    (h : Tree.Derivation (ruleAt (q + 1)) i ts tree) : Tree.Derivation (ruleAt q) i ts tree := by
  match q with
  | 0 => exact h
  | 1 | 2 | 3 | 4 | 5 | 6 | 7 =>
    refine derivation_single ?_ h
    decide
  | q + 8 => exact h

theorem derivation_ruleAt_mono {p q i : Nat} {ts : List Token} {tree : Tree} (hLe : q ≤ p)
    (h : Tree.Derivation (ruleAt p) i ts tree) : Tree.Derivation (ruleAt q) i ts tree := by
  induction hLe with
  | refl => exact h
  | step _ ih => exact ih (derivation_ruleAt_succ h)

theorem ne_nil_of_ruleAt {q i : Nat} {ts : List Token} {tree : Tree} (h : Tree.Derivation (ruleAt q) i ts tree) :
    ts ≠ [] := by
  have hFloor : ∃ k, (ruleAt q).floor? = some (k + 1) := by
    match q with
    | 0 | 1 | 2 | 3 | 4 | 5 | 6 | 7 => exact ⟨_, rfl⟩
    | q + 8 => exact ⟨7, rfl⟩
  obtain ⟨k, hFloor⟩ := hFloor
  have hKinds := h.derives.ne_nil hFloor
  rintro rfl
  exact hKinds rfl

/-- A tree of the rule for a precedence over tokens, which stands for an expression. Behind what waits for an
operand the expression is taken as a whole, unless the tree goes on with operators of the same precedence. -/
structure Reads (q i : Nat) (ts : List Token) (e : Expr) (tree : Tree) : Prop where
  derivation : Tree.Derivation (ruleAt q) i ts tree
  denotes : ∃ e', e'.bare = e.bare ∧ ∀ left, LeftOperand.continues left tree.rule = false →
    ofTree left tree = .ok (LeftOperand.join left e')
  floor : ∃ m, tree.rule.floor? = some m ∧ 1 ≤ m ∧ q ≤ m
  literal : tree.rule = .number → ∃ s n, e = .int s n ∧ ¬ n < 0

theorem Reads.mono {p q i : Nat} {ts : List Token} {e : Expr} {tree : Tree} (hLe : q ≤ p)
    (h : Reads p i ts e tree) : Reads q i ts e tree := by
  obtain ⟨m, hFloor, hPos, hUpper⟩ := h.floor
  exact ⟨derivation_ruleAt_mono hLe h.derivation, h.denotes, ⟨m, hFloor, hPos, Nat.le_trans hLe hUpper⟩, h.literal⟩

theorem Reads.exists_ofTree {q i : Nat} {ts : List Token} {e : Expr} {tree : Tree} (h : Reads q i ts e tree) :
    ∃ e', e'.bare = e.bare ∧ ofTree none tree = .ok e' := by
  obtain ⟨e', hBare, hTree⟩ := h.denotes
  exact ⟨e', hBare, hTree none rfl⟩

theorem Reads.rule_ne {q i : Nat} {ts : List Token} {e : Expr} {tree : Tree} {n : Name} (h : Reads q i ts e tree)
    (hFloor : ∀ m, n.floor? = some m → 1 ≤ m → m < q) : tree.rule ≠ n := by
  rintro rfl
  obtain ⟨m, hRule, hPos, hUpper⟩ := h.floor
  exact absurd (hFloor m hRule hPos) (Nat.not_lt.mpr hUpper)

/-! ## Operators -/

theorem floor_operator (op : BinaryOp) : (ruleAt op.precedence).floor? = some op.precedence := by
  cases op <;> rfl

theorem precedence_lt (op : BinaryOp) : op.precedence < 7 := by
  cases op <;> decide

theorem ofTree_operation (left : Option LeftOperand) {rule : Name} {span : Span} {operator : Option Token} {a b : Tree}
    {op : BinaryOp} (h : BinaryOp.ofOperator? rule operator = some op) :
    ofTree left (.node rule span [a, b] operator) = (do
      let first ← ofTree none a
      if LeftOperand.continues left rule then ofTree (some ⟨rule, op, LeftOperand.join left first⟩) b
      else return LeftOperand.join left (← ofTree (some ⟨rule, op, first⟩) b)) := by
  apply ofTree.eq_11 left rule span operator a b [] op _ _ _ h
  all_goals
    rintro rfl
    cases h

theorem ofTree_binary (left : Option LeftOperand) (op : BinaryOp) (span : Span) (a b : Tree) {first : Expr}
    (h : ofTree none a = .ok first) :
    ofTree left (.node (ruleAt op.precedence) span [a, b] (some (.fixed op.kind))) =
      if LeftOperand.continues left (ruleAt op.precedence) then
        ofTree (some ⟨ruleAt op.precedence, op, LeftOperand.join left first⟩) b
      else (ofTree (some ⟨ruleAt op.precedence, op, first⟩) b).map (LeftOperand.join left) := by
  have hKind : BinaryOp.ofOperator? (ruleAt op.precedence) (some (Token.fixed op.kind)) = some op := by
    cases op <;> rfl
  rw [ofTree_operation left hKind, h]
  change (if _ then _ else _) = _
  split
  · rfl
  · change (ofTree (some ⟨ruleAt op.precedence, op, first⟩) b >>= fun e => .ok (LeftOperand.join left e)) = _
    cases ofTree (some ⟨ruleAt op.precedence, op, first⟩) b <;> rfl

theorem derivation_binary (op : BinaryOp) {i : Nat} {us vs : List Token} {a b : Tree}
    (hFirst : Tree.Derivation (ruleAt (op.precedence + 1)) i us a)
    (hRest : Tree.Derivation (ruleAt op.precedence) (i + us.length + 1) vs b) :
    ∃ span, Tree.Derivation (ruleAt op.precedence) i (us ++ .fixed op.kind :: vs)
      (.node (ruleAt op.precedence) span [a, b] (some (.fixed op.kind))) := by
  have hTable : ∃ e : Element, [.rule (ruleAt (op.precedence + 1)), e, .rule (ruleAt op.precedence)] ∈
      (table (ruleAt op.precedence)).alternatives ∧ e.accepts op.kind = true := by
    cases op <;> exact ⟨_, List.mem_cons_self .., by decide⟩
  have hOperator : (table (ruleAt op.precedence)).operator = some 1 := by
    cases op <;> rfl
  obtain ⟨e, hMem, hAccepts⟩ := hTable
  have hCovers : Tree.Covers true [.rule (ruleAt (op.precedence + 1)), e, .rule (ruleAt op.precedence)] i
      (us ++ .fixed op.kind :: vs) [.inr a, .inl (.fixed op.kind), .inr b] :=
    hFirst.covers (.inr (.inr rfl)) (.token hAccepts (hRest.covers_last (.inl (ne_nil_of_ruleAt hRest))))
  have hNode := hCovers.derivation hMem
  rw [Tree.operatorOf, hOperator] at hNode
  exact ⟨_, hNode⟩

/-- Tokens of an expression in front of an operator. Whatever follows the operator takes the expression as its
left operand. -/
def Hands (op : BinaryOp) (i : Nat) (ts : List Token) (e : Expr) : Prop :=
  ∀ vs later, Tree.Derivation (ruleAt op.precedence) (i + ts.length + 1) vs later →
    ∃ tree e', Tree.Derivation (ruleAt op.precedence) i (ts ++ .fixed op.kind :: vs) tree ∧
      tree.rule = ruleAt op.precedence ∧ e'.bare = e.bare ∧
      ∀ left, LeftOperand.continues left tree.rule = false →
        ofTree left tree = (ofTree (some ⟨ruleAt op.precedence, op, e'⟩) later).map (LeftOperand.join left)

theorem Reads.hands {op : BinaryOp} {i : Nat} {ts : List Token} {e : Expr} {tree : Tree}
    (h : Reads (op.precedence + 1) i ts e tree) : Hands op i ts e := by
  intro vs later hLater
  obtain ⟨e', hBare, hTree⟩ := h.exists_ofTree
  obtain ⟨span, hDerivation⟩ := derivation_binary op h.derivation hLater
  refine ⟨_, e', hDerivation, rfl, hBare, fun left hContinues => ?_⟩
  rw [ofTree_binary left op span tree later hTree]
  exact if_neg (Bool.eq_false_iff.mp hContinues)

theorem Reads.takes {op : BinaryOp} {i : Nat} {ts : List Token} {e : Expr} {tree : Tree}
    (h : Reads (op.precedence + 1) i ts e tree) :
    ∃ e', e'.bare = e.bare ∧ ∀ op' value, ofTree (some ⟨ruleAt op.precedence, op', value⟩) tree =
      .ok (LeftOperand.join (some ⟨ruleAt op.precedence, op', value⟩) e') := by
  obtain ⟨e', hBare, hTree⟩ := h.denotes
  refine ⟨e', hBare, fun op' value => hTree _ ?_⟩
  have hNe : tree.rule ≠ ruleAt op.precedence := by
    refine h.rule_ne fun m hFloor _ => ?_
    rw [floor_operator] at hFloor
    cases hFloor
    exact Nat.lt_succ_self _
  exact beq_false_of_ne hNe.symm

/-- An operator between its operands. -/
theorem Hands.reads {op : BinaryOp} {i : Nat} {us vs : List Token} {l r : Expr} {tree : Tree} (span : Span)
    (hLeft : Hands op i us l) (hRight : Reads (op.precedence + 1) (i + us.length + 1) vs r tree) :
    ∃ t, Reads op.precedence i (us ++ .fixed op.kind :: vs) (.binary op span l r) t := by
  obtain ⟨t, l', hDerivation, hRule, hLeftBare, hTree⟩ :=
    hLeft vs tree (derivation_ruleAt_succ hRight.derivation)
  obtain ⟨r', hRightBare, hTakes⟩ := hRight.takes
  refine ⟨t, hDerivation, ⟨LeftOperand.join (some ⟨ruleAt op.precedence, op, l'⟩) r', ?_, ?_⟩, ?_, ?_⟩
  · rw [LeftOperand.join, bare, bare, hLeftBare, hRightBare]
  · intro left hContinues
    rw [hTree left hContinues, hTakes]
    rfl
  · exact ⟨op.precedence, hRule ▸ floor_operator op, by cases op <;> decide, Nat.le_refl _⟩
  · intro hNumber
    have hFloor := floor_operator op
    rw [← hRule, hNumber] at hFloor
    cases op <;> cases hFloor

/-- An operation in front of another operator of its precedence. -/
theorem Hands.binary {op next : BinaryOp} {i : Nat} {us vs : List Token} {l r : Expr} {tree : Tree} (span : Span)
    (hSame : next.precedence = op.precedence) (hLeft : Hands op i us l)
    (hRight : Reads (op.precedence + 1) (i + us.length + 1) vs r tree) :
    Hands next i (us ++ .fixed op.kind :: vs) (.binary op span l r) := by
  intro ws later hLater
  have hIndex : i + (us ++ .fixed op.kind :: vs).length + 1 = i + us.length + 1 + vs.length + 1 := by
    rw [List.length_append, List.length_cons]
    omega
  rw [hIndex] at hLater
  rw [← hSame] at hRight
  obtain ⟨r', hRightBare, hRightTree⟩ := hRight.exists_ofTree
  -- The right operand and what follows make one tree, which continues the chain of the first operator.
  obtain ⟨inner, hInner⟩ := derivation_binary next hRight.derivation hLater
  obtain ⟨t, l', hDerivation, hRule, hLeftBare, hTree⟩ := hLeft _ _ (hSame ▸ hInner)
  refine ⟨t, LeftOperand.join (some ⟨ruleAt op.precedence, op, l'⟩) r', ?_, ?_, ?_, ?_⟩
  · rw [List.append_assoc, List.cons_append, hSame]
    exact hDerivation
  · rw [hRule, hSame]
  · rw [LeftOperand.join, bare, bare, hLeftBare, hRightBare]
  · intro left hContinues
    rw [hTree left hContinues, ← hSame, ofTree_binary _ next inner tree later hRightTree]
    refine congrArg _ (if_pos ?_)
    exact beq_self_eq_true (ruleAt next.precedence)

/-! ## Atoms -/

theorem derivation_terminal {n : Name} {k : Token.Kind} (hMem : [.literal k] ∈ (table n).alternatives)
    (hTerminal : (table n).terminal = true) (i : Nat) (text : String) :
    Tree.Derivation n i [⟨k, text⟩] (.leaf n i ⟨k, text⟩) := by
  refine ⟨_, hMem, [.inl ⟨k, text⟩], .token (beq_self_eq_true k) (.nil false _), ?_⟩
  rw [Tree.assemble, if_pos hTerminal]

theorem derivation_number (i : Nat) (text : String) :
    Tree.Derivation .item i [⟨.number, text⟩] (.leaf .number i ⟨.number, text⟩) :=
  derivation_single (by decide) (derivation_terminal (by decide) rfl i text)

theorem derivation_name (i : Nat) (text : String) :
    Tree.Derivation .ident i [⟨.name, text⟩] (.leaf .ident i ⟨.name, text⟩) :=
  derivation_terminal (by decide) rfl i text

theorem reads_int (i : Nat) (span : Span) {n : Word} (h : ¬ n < 0) :
    Reads 8 i [⟨.number, n.toInt.natAbs.repr⟩] (.int span n) (.leaf .number i ⟨.number, n.toInt.natAbs.repr⟩) where
  derivation := derivation_number i _
  denotes := by
    refine ⟨.int ⟨i, i + 1⟩ n, rfl, fun left _ => ?_⟩
    rw [ofTree, ofLiteral, Word.read?_natAbs h]
    rfl
  floor := ⟨9, rfl, by decide, by decide⟩
  literal := fun _ => ⟨span, n, rfl, h⟩

theorem reads_var (i : Nat) (span : Span) (name : String) :
    Reads 8 i [⟨.name, name⟩] (.var span name) (.leaf .ident i ⟨.name, name⟩) where
  derivation := derivation_single (by decide) (derivation_name i name)
  denotes := ⟨.var ⟨i, i + 1⟩ name, rfl, fun left _ => by rw [ofTree]⟩
  floor := ⟨9, rfl, by decide, by decide⟩
  literal := nofun

/-- An expression in parentheses. -/
theorem Reads.enclose {q i : Nat} {ts : List Token} {e : Expr} {tree : Tree} (h : Reads q (i + 1) ts e tree) :
    ∃ t, Reads 8 i (.fixed .openParen :: ts ++ [.fixed .closeParen]) e t ∧ t.rule = .item := by
  obtain ⟨e', hBare, hTree⟩ := h.exists_ofTree
  have hInner : Tree.Derivation .or (i + 1) ts tree := derivation_ruleAt_mono (Nat.zero_le q) h.derivation
  have hCovers : Tree.Covers true [.literal .openParen, .rule .or, .literal .closeParen] i
      (.fixed .openParen :: ts ++ [.fixed .closeParen])
      [.inl (.fixed .openParen), .inr tree, .inl (.fixed .closeParen)] :=
    .token rfl (hInner.covers (.inr (.inl (List.cons_ne_nil _ _))) (.token rfl (.nil false _)))
  obtain ⟨span, hItem⟩ : ∃ span, Tree.Derivation .item i _ (.node .item span [tree] none) :=
    ⟨_, hCovers.derivation (by decide)⟩
  refine ⟨_, ⟨hItem, ⟨e', hBare, fun left _ => ?_⟩, ⟨8, rfl, by decide, by decide⟩, nofun⟩, rfl⟩
  rw [ofTree, hTree]
  rfl

theorem derivation_unary (op : UnaryOp) {i : Nat} {ts : List Token} {tree : Tree}
    (h : Tree.Derivation (ruleAt 7) (i + 1) ts tree) :
    ∃ span, Tree.Derivation .unary i (.fixed op.kind :: ts) (.node .unary span [tree] (some (.fixed op.kind))) := by
  have hAccepts : (Element.oneOf [.minus, .not]).accepts op.kind = true := by
    cases op <;> decide
  have hCovers : Tree.Covers true [.oneOf [.minus, .not], .rule .unary] i (.fixed op.kind :: ts)
      [.inl (.fixed op.kind), .inr tree] :=
    .token hAccepts (h.covers_last (.inl (ne_nil_of_ruleAt h)))
  exact ⟨_, hCovers.derivation (by decide)⟩

theorem ofTree_negative (left : Option LeftOperand) (span : Span) (k : Nat) (t : Token) {sign : Token}
    (h : UnaryOp.ofKind? sign.kind = some .neg) :
    ofTree left (.node .unary span [.leaf .number k t] (some sign)) = (do
      return LeftOperand.join left (← ofLiteral span ("-" ++ t.text))) :=
  ofTree.eq_8 left span (some sign) k t [] h

theorem ofTree_unary (left : Option LeftOperand) (span : Span) (tree : Tree) {sign : Token} {op : UnaryOp}
    (h : UnaryOp.ofKind? sign.kind = some op) (hOperand : ∀ k t, tree = .leaf .number k t → op ≠ .neg) :
    ofTree left (.node .unary span [tree] (some sign)) = (do
      return LeftOperand.join left (.unary op span (← ofTree none tree))) :=
  ofTree.eq_9 left span (some sign) tree [] op hOperand h

theorem reads_negative (i : Nat) (span : Span) {n : Word} (h : n < 0) :
    ∃ tree, Reads 7 i [.fixed .minus, ⟨.number, n.toInt.natAbs.repr⟩] (.int span n) tree := by
  obtain ⟨inner, hDerivation⟩ :=
    derivation_unary .neg (derivation_ruleAt_succ (derivation_number (i + 1) n.toInt.natAbs.repr))
  refine ⟨_, hDerivation, ⟨.int inner n, rfl, fun left _ => ?_⟩, ⟨7, rfl, by decide, by decide⟩, nofun⟩
  rw [ofTree_negative _ _ _ _ rfl, ofLiteral, Word.read?_neg_natAbs h]
  rfl

theorem Reads.unary {i : Nat} {ts : List Token} {e : Expr} {tree : Tree} (op : UnaryOp) (span : Span)
    (h : Reads 7 (i + 1) ts e tree) (hLiteral : tree.rule = .number → op = .not) :
    ∃ t, Reads 7 i (.fixed op.kind :: ts) (.unary op span e) t := by
  obtain ⟨e', hBare, hTree⟩ := h.exists_ofTree
  obtain ⟨inner, hDerivation⟩ := derivation_unary op h.derivation
  have hKind : UnaryOp.ofKind? (Token.fixed op.kind).kind = some op := by
    cases op <;> rfl
  refine ⟨_, hDerivation, ⟨.unary op inner e', ?_, fun left _ => ?_⟩, ⟨7, rfl, by decide, by decide⟩, nofun⟩
  · rw [bare, bare, hBare]
  · rw [ofTree_unary _ _ _ hKind, hTree]
    · rfl
    · rintro index token rfl rfl
      cases hLiteral rfl

/-! ## Expressions -/

/-- Tokens of an expression in every place where its precedence lets them stand. -/
def Stands (q i : Nat) (ts : List Token) (e : Expr) : Prop :=
  (∃ tree, Reads q i ts e tree) ∧ ∀ op : BinaryOp, op.precedence ≤ q → Hands op i ts e

theorem Reads.stands {q i : Nat} {ts : List Token} {e : Expr} {tree : Tree} (hTight : 7 ≤ q)
    (h : Reads q i ts e tree) : Stands q i ts e :=
  ⟨⟨tree, h⟩, fun op _ => (h.mono (Nat.le_trans (precedence_lt op) hTight)).hands⟩

theorem precedence_of_not_enclosedUnder {op : UnaryOp} {e : Expr} (h : e.enclosedUnder op = false) :
    7 ≤ e.precedence := by
  cases e with
  | int s n =>
    rw [precedence]
    split <;> decide
  | binary => cases h
  | _ => simp [precedence]

section

variable {e : Expr} (hStands : ∀ i, Stands e.precedence i e.tokens e)

include hStands

theorem hands_left (op : BinaryOp) (i : Nat) :
    Hands op i (enclose (e.precedence < op.precedence) e.tokens) e := by
  by_cases hLoose : e.precedence < op.precedence
  · obtain ⟨tree, hTree⟩ := (hStands (i + 1)).1
    obtain ⟨t, hReads, -⟩ := hTree.enclose
    rw [enclose, if_pos (decide_eq_true hLoose)]
    exact (hReads.mono (Nat.le_succ_of_le (precedence_lt op))).hands
  · rw [enclose, if_neg (by simpa using hLoose)]
    exact (hStands i).2 op (Nat.not_lt.mp hLoose)

theorem reads_right (op : BinaryOp) (i : Nat) :
    ∃ tree, Reads (op.precedence + 1) i (enclose (e.precedence ≤ op.precedence) e.tokens) e tree := by
  by_cases hLoose : e.precedence ≤ op.precedence
  · obtain ⟨tree, hTree⟩ := (hStands (i + 1)).1
    obtain ⟨t, hReads, -⟩ := hTree.enclose
    rw [enclose, if_pos (decide_eq_true hLoose)]
    exact ⟨t, hReads.mono (Nat.le_succ_of_le (precedence_lt op))⟩
  · obtain ⟨tree, hReads⟩ := (hStands i).1
    rw [enclose, if_neg (by simpa using hLoose)]
    exact ⟨tree, hReads.mono (Nat.not_le.mp hLoose)⟩

theorem reads_operand (op : UnaryOp) (i : Nat) :
    ∃ tree, Reads 7 i (enclose (e.enclosedUnder op) e.tokens) e tree ∧ (tree.rule = .number → op = .not) := by
  cases hEnclosed : e.enclosedUnder op with
  | true =>
    obtain ⟨tree, hTree⟩ := (hStands (i + 1)).1
    obtain ⟨t, hReads, hItem⟩ := hTree.enclose
    exact ⟨t, hReads.mono (by decide), fun hNumber => nomatch hItem.symm.trans hNumber⟩
  | false =>
    obtain ⟨tree, hReads⟩ := (hStands i).1
    refine ⟨tree, hReads.mono (precedence_of_not_enclosedUnder hEnclosed), fun hNumber => ?_⟩
    -- A number that is not enclosed cannot stand behind a minus sign.
    obtain ⟨s, n, rfl, hSign⟩ := hReads.literal hNumber
    cases op with
    | neg =>
      refine absurd (Int32.not_lt.mp hSign) ?_
      simpa [enclosedUnder] using hEnclosed
    | not => rfl

end

/-- A tree of an argument list. -/
def ReadsArgs (i : Nat) (ts : List Token) (es : List Expr) : Prop :=
  (es ≠ [] → ts ≠ []) ∧ ∃ tree es', Tree.Derivation .args i ts tree ∧ ofArgs [tree] = .ok es' ∧
    allBare es' = allBare es

theorem Reads.ofArgs {i : Nat} {ts : List Token} {e : Expr} {tree : Tree} (h : Reads 0 i ts e tree)
    {rest : List Tree} {es : List Expr} (hRest : Expr.ofArgs rest = .ok es) :
    ∃ e', e'.bare = e.bare ∧ Expr.ofArgs (tree :: rest) = .ok (e' :: es) := by
  obtain ⟨e', hBare, hTree⟩ := h.exists_ofTree
  have hRule : tree.rule ≠ .args := by
    intro hArgs
    obtain ⟨m, hFloor, hPos, -⟩ := h.floor
    rw [hArgs] at hFloor
    cases hFloor
    cases hPos
  refine ⟨e', hBare, ?_⟩
  rw [Expr.ofArgs, hTree, hRest]
  · rfl
  · rintro span children operator rfl
    exact hRule rfl

theorem readsArgs_nil (i : Nat) : ReadsArgs i [] [] := by
  refine ⟨fun h => absurd rfl h, .node .args ⟨i, i⟩ [] none, [], ⟨[], by decide, [], .nil true i, rfl⟩, ?_, rfl⟩
  rw [Expr.ofArgs, Expr.ofArgs]
  rfl

theorem Reads.args_single {q i : Nat} {ts : List Token} {e : Expr} {tree : Tree} (h : Reads q i ts e tree) :
    ReadsArgs i ts [e] := by
  have h := h.mono (Nat.zero_le q)
  obtain ⟨e', hBare, hArgs⟩ := h.ofArgs ofArgs.eq_1
  refine ⟨fun _ => ne_nil_of_ruleAt h.derivation, tree, [e'], derivation_single (by decide) h.derivation, hArgs, ?_⟩
  exact congrArg (fun b => [b]) hBare

theorem Reads.args_cons {q i : Nat} {us vs : List Token} {e : Expr} {es : List Expr} {tree : Tree}
    (h : Reads q i us e tree) (hLater : ReadsArgs (i + us.length + 1) vs es) (hMore : es ≠ []) :
    ReadsArgs i (us ++ .fixed .comma :: vs) (e :: es) := by
  have h := h.mono (Nat.zero_le q)
  obtain ⟨hTakes, later, es', hDerivation, hArgs, hBareLater⟩ := hLater
  obtain ⟨e', hBare, hAll⟩ := h.ofArgs hArgs
  have hCovers : Tree.Covers true [.rule .or, .literal .comma, .rule .args] i (us ++ .fixed .comma :: vs)
      [.inr tree, .inl (.fixed .comma), .inr later] :=
    h.derivation.covers (.inr (.inr rfl)) (.token rfl (hDerivation.covers_last (.inl (hTakes hMore))))
  obtain ⟨span, hNode⟩ : ∃ span, Tree.Derivation .args i _ (.node .args span [tree, later] none) :=
    ⟨_, hCovers.derivation (by decide)⟩
  refine ⟨fun _ => by simp, _, e' :: es', hNode, ?_, ?_⟩
  · rw [Expr.ofArgs, hAll, Expr.ofArgs]
    exact congrArg Except.ok (List.append_nil _)
  · rw [allBare, allBare, hBare, hBareLater]

theorem ReadsArgs.call {i : Nat} {ts : List Token} {es : List Expr} (name : String) (span : Span)
    (h : ReadsArgs (i + 2) ts es) :
    ∃ tree, Reads 8 i (⟨.name, name⟩ :: .fixed .openParen :: ts ++ [.fixed .closeParen]) (.call span name es)
      tree := by
  obtain ⟨-, inner, es', hDerivation, hArgs, hBare⟩ := h
  have hCovers : Tree.Covers true [.literal .name, .literal .openParen, .rule .args, .literal .closeParen] i
      (⟨.name, name⟩ :: .fixed .openParen :: ts ++ [.fixed .closeParen])
      [.inl ⟨.name, name⟩, .inl (.fixed .openParen), .inr inner, .inl (.fixed .closeParen)] :=
    .token rfl (.token rfl (hDerivation.covers (.inr (.inl (List.cons_ne_nil _ _))) (.token rfl (.nil false _))))
  obtain ⟨place, hCall⟩ : ∃ place, Tree.Derivation .call i _ (.node .call place [inner] (some ⟨.name, name⟩)) :=
    ⟨_, hCovers.derivation (by decide)⟩
  refine ⟨_, derivation_single (by decide) hCall, ⟨.call place name es', ?_, fun left _ => ?_⟩,
    ⟨8, rfl, by decide, by decide⟩, nofun⟩
  · rw [bare, bare, hBare]
  · rw [ofTree, hArgs]
    rfl

mutual

theorem stands (i : Nat) : ∀ e : Expr, Stands e.precedence i e.tokens e
  | .int span n => by
    rw [tokens, precedence]
    split
    · rename_i hNegative
      obtain ⟨tree, hReads⟩ := reads_negative i span hNegative
      exact hReads.stands (by decide)
    · rename_i hSign
      exact (reads_int i span hSign).stands (by decide)
  | .var span name => by
    rw [tokens]
    exact (reads_var i span name).stands (Nat.le_succ 7)
  | .call span name args => by
    obtain ⟨tree, hReads⟩ := (readsArgs (i + 2) args).call name span
    rw [tokens]
    exact hReads.stands (Nat.le_succ 7)
  | .unary op span e => by
    obtain ⟨operand, hOperand, hLiteral⟩ := reads_operand (fun i => stands i e) op (i + 1)
    obtain ⟨tree, hReads⟩ := hOperand.unary op span hLiteral
    rw [tokens]
    exact hReads.stands (Nat.le_refl 7)
  | .binary op span l r => by
    have hLeft := hands_left (fun i => stands i l) op i
    obtain ⟨right, hRight⟩ := reads_right (fun i => stands i r) op
      (i + (enclose (l.precedence < op.precedence) l.tokens).length + 1)
    refine ⟨?_, fun next hLoose => ?_⟩
    · rw [tokens]
      exact hLeft.reads span hRight
    · rw [tokens]
      rcases Nat.lt_or_eq_of_le hLoose with hLoose | hSame
      · obtain ⟨tree, hReads⟩ := hLeft.reads span hRight
        exact (hReads.mono hLoose).hands
      · exact hLeft.binary span hSame hRight

theorem readsArgs (i : Nat) : ∀ es : List Expr, ReadsArgs i (argTokens es) es
  | [] => by
    rw [argTokens]
    exact readsArgs_nil i
  | [e] => by
    obtain ⟨tree, hReads⟩ := (stands i e).1
    rw [argTokens]
    exact hReads.args_single
  | e :: e' :: rest => by
    obtain ⟨tree, hReads⟩ := (stands i e).1
    rw [argTokens]
    · exact hReads.args_cons (readsArgs _ (e' :: rest)) (List.cons_ne_nil _ _)
    · exact List.cons_ne_nil _ _

end

end Expr

end Vee
