import Vee.Proofs.Effect
import Vee.Proofs.Parsing.Derivation
import Vee.Stmt.OfTree

/-! # Trees at another place

Whether tokens have a derivation tree does not depend on the tokens in front of them. If the first token gets another
index, the tree, and the expression or the statement that it stands for, only has all its spans moved.
-/

namespace Vee

set_option autoImplicit false

open Grammar Effect

/-! ## Moved spans -/

def Span.moved (k : Nat) (s : Span) : Span := ⟨s.start + k, s.stop + k⟩

namespace Tree

mutual

/-- The tree over the same tokens, so many places further behind. -/
def moved (k : Nat) : Tree → Tree
  | .leaf rule index token => .leaf rule (index + k) token
  | .node rule span children operator => .node rule (span.moved k) (allMoved k children) operator

def allMoved (k : Nat) : List Tree → List Tree
  | [] => []
  | t :: rest => t.moved k :: allMoved k rest

end

theorem allMoved_eq_map (k : Nat) (trees : List Tree) : allMoved k trees = trees.map (moved k) := by
  induction trees with
  | nil => rfl
  | cons t rest ih => rw [allMoved, List.map_cons, ih]

theorem span_moved (k : Nat) (tree : Tree) : (tree.moved k).span = tree.span.moved k := by
  cases tree with
  | leaf rule index token => exact congrArg (Span.mk _) (Nat.add_right_comm ..)
  | node rule span children operator => rfl

end Tree

namespace Expr

mutual

def moved (k : Nat) : Expr → Expr
  | .int span n => .int (span.moved k) n
  | .var span name => .var (span.moved k) name
  | .call span name args => .call (span.moved k) name (allMoved k args)
  | .unary op span e => .unary op (span.moved k) (moved k e)
  | .binary op span l r => .binary op (span.moved k) (moved k l) (moved k r)

def allMoved (k : Nat) : List Expr → List Expr
  | [] => []
  | e :: rest => moved k e :: allMoved k rest

end

theorem span_moved (k : Nat) (e : Expr) : (e.moved k).span = e.span.moved k := by
  cases e <;> rfl

theorem allMoved_append (k : Nat) (first second : List Expr) :
    allMoved k (first ++ second) = allMoved k first ++ allMoved k second := by
  induction first with
  | nil => rfl
  | cons e rest ih => rw [List.cons_append, allMoved, allMoved, ih, List.cons_append]

end Expr

def LeftOperand.moved (k : Nat) (l : LeftOperand) : LeftOperand := { l with value := l.value.moved k }

namespace Stmt

mutual

def moved (k : Nat) : Stmt → Stmt
  | .assign span name e => .assign (span.moved k) name (e.moved k)
  | .expr span e => .expr (span.moved k) (e.moved k)
  | .forLoop span init c step body =>
    .forLoop (span.moved k) (moved k init) (c.moved k) (moved k step) (blockMoved k body)
  | .function span name params body => .function (span.moved k) name params (blockMoved k body)
  | .branch span c yes no => .branch (span.moved k) (c.moved k) (blockMoved k yes) (blockMoved k no)
  | .print span e => .print (span.moved k) (e.moved k)
  | .ret span value => .ret (span.moved k) (value.map (Expr.moved k))
  | .whileLoop span c body => .whileLoop (span.moved k) (c.moved k) (blockMoved k body)

def blockMoved (k : Nat) : List Stmt → List Stmt
  | [] => []
  | s :: rest => moved k s :: blockMoved k rest

end

end Stmt

/-! ## Derivations -/

namespace Tree

/-- What stands for an element of a pattern, so many places further behind. -/
def Part.moved (k : Nat) : Part → Part := Sum.map id (Tree.moved k)

theorem operatorOf_moved (n : Name) (k : Nat) (parts : List Part) :
    operatorOf n (parts.map (Part.moved k)) = operatorOf n parts := by
  have hLeft : ∀ part : Part, (Part.moved k part).getLeft? = part.getLeft? := by
    intro part
    cases part <;> rfl
  simp only [operatorOf, List.getElem?_map, Option.bind_map, Function.comp_def, hLeft]

theorem trees_moved (k : Nat) (parts : List Part) :
    (parts.map (Part.moved k)).filterMap Sum.getRight? = allMoved k (parts.filterMap Sum.getRight?) := by
  rw [allMoved_eq_map, List.filterMap_map, List.map_filterMap]
  congr
  funext part
  cases part <;> rfl

theorem assemble_moved (n : Name) (span : Span) (k : Nat) (parts : List Part) :
    assemble n (span.moved k) (parts.map (Part.moved k)) = (assemble n span parts).moved k := by
  have hNode : Tree.node n (span.moved k) ((parts.map (Part.moved k)).filterMap Sum.getRight?)
      (operatorOf n (parts.map (Part.moved k))) =
        (Tree.node n span (parts.filterMap Sum.getRight?) (operatorOf n parts)).moved k := by
    rw [operatorOf_moved, trees_moved, moved]
  rcases parts with _ | ⟨first, _ | ⟨second, rest⟩⟩
  · exact hNode
  · cases first with
    | inr tree => rfl
    | inl t =>
      change assemble n (span.moved k) [.inl t] = _
      rw [assemble, assemble]
      split
      · rfl
      · exact hNode
  · cases first <;> exact hNode

theorem Covers.exists_moved {whole : Bool} {p : Pattern} {i k : Nat} {ts : List Token} {parts : List Part}
    (h : Covers whole p (i + k) ts parts) : ∃ own, Covers whole p i ts own ∧ own.map (Part.moved k) = parts := by
  generalize hIndex : i + k = j at h
  induction h generalizing i with
  | nil whole j => exact ⟨[], .nil whole i, rfl⟩
  | @token whole e p j t ts parts hAccepts _ ih =>
    obtain ⟨own, hOwn, rfl⟩ := ih (i := i + 1) (by omega)
    exact ⟨.inl t :: own, .token hAccepts hOwn, rfl⟩
  | @rule whole r q p j us vs inner parts hMem _ hTakes _ ihFirst ihRest =>
    obtain ⟨ownInner, hInner, rfl⟩ := ihFirst hIndex
    obtain ⟨own, hOwn, rfl⟩ := ihRest (i := i + us.length) (by omega)
    refine ⟨.inr (assemble r ⟨i, i + us.length⟩ ownInner) :: own, .rule hMem hInner hTakes hOwn, ?_⟩
    have hSpan : (⟨i, i + us.length⟩ : Span).moved k = ⟨j, j + us.length⟩ := by
      rw [Span.moved, ← hIndex, Nat.add_right_comm]
    rw [List.map_cons, ← hSpan, assemble_moved]
    rfl

/-- A derivation tree over tokens at any place is one over these tokens alone, moved. -/
theorem Derivation.exists_moved {n : Name} {i : Nat} {ts : List Token} {tree : Tree} (h : Derivation n i ts tree) :
    ∃ own, Derivation n 0 ts own ∧ own.moved i = tree := by
  obtain ⟨p, hMem, parts, hCovers, rfl⟩ := h
  rw [← Nat.zero_add i] at hCovers
  obtain ⟨own, hOwn, rfl⟩ := hCovers.exists_moved
  refine ⟨_, ⟨p, hMem, own, hOwn, rfl⟩, ?_⟩
  rw [← assemble_moved, Span.moved, Nat.zero_add, Nat.zero_add, Nat.add_comm]

theorem exists_cons_of_allMoved {k : Nat} {trees rest : List Tree} {t : Tree} (h : allMoved k trees = t :: rest) :
    ∃ own more, trees = own :: more ∧ own.moved k = t ∧ allMoved k more = rest := by
  rw [allMoved_eq_map] at h
  obtain ⟨own, more, rfl, hFirst, hRest⟩ := List.map_eq_cons_iff.mp h
  exact ⟨own, more, rfl, hFirst, (allMoved_eq_map k more).trans hRest⟩

theorem exists_leaf_of_moved {k index : Nat} {tree : Tree} {rule : Name} {token : Token}
    (h : tree.moved k = .leaf rule index token) : ∃ own, tree = .leaf rule own token := by
  cases tree with
  | leaf other own t =>
    cases h
    exact ⟨own, rfl⟩
  | node other span children operator => cases h

theorem exists_node_of_moved {k : Nat} {tree : Tree} {rule : Name} {span : Span} {children : List Tree}
    {operator : Option Token} (h : tree.moved k = .node rule span children operator) :
    ∃ ownSpan own, tree = .node rule ownSpan own operator ∧ allMoved k own = children := by
  cases tree with
  | leaf other index t => cases h
  | node other ownSpan own op =>
    cases h
    exact ⟨ownSpan, own, rfl, rfl⟩

end Tree

/-! ## Lowering -/

theorem LeftOperand.join_moved (k : Nat) (left : Option LeftOperand) (x : Expr) :
    (LeftOperand.join left x).moved k = LeftOperand.join (left.map (LeftOperand.moved k)) (x.moved k) := by
  cases left with
  | none => rfl
  | some l =>
    rw [Option.map_some, LeftOperand.join, LeftOperand.join, LeftOperand.moved, Expr.moved, Expr.span_moved,
      Expr.span_moved]
    rfl

theorem LeftOperand.continues_moved (k : Nat) (left : Option LeftOperand) (rule : Name) :
    LeftOperand.continues (left.map (LeftOperand.moved k)) rule = LeftOperand.continues left rule := by
  cases left <;> rfl

theorem carries_nameOf (rule : Name) (span other : Span) (operator : Option Token) :
    Carries id (nameOf rule span operator) (nameOf rule other operator) := by
  cases operator with
  | none => exact .error _ _
  | some token =>
    rw [nameOf, nameOf]
    split
    · exact .ok _
    · exact .error _ _

namespace Expr

theorem carries_ofLiteral (k : Nat) (span : Span) (literal : String) :
    Carries (moved k) (ofLiteral span literal) (ofLiteral (span.moved k) literal) := by
  rw [ofLiteral, ofLiteral]
  split
  · exact .ok _
  · exact .error _ _

/-- Joined with what waits on the left, a moved expression is a moved one. -/
theorem carries_join {x y : Except ShapeError Expr} (k : Nat) (left : Option LeftOperand)
    (h : Carries (moved k) x y) :
    Carries (moved k) (do return LeftOperand.join left (← x))
      (do return LeftOperand.join (left.map (LeftOperand.moved k)) (← y)) := by
  refine h.bind fun e => ?_
  rw [← LeftOperand.join_moved]
  exact .ok _

theorem span_leaf_moved (k index : Nat) : (⟨index + k, index + k + 1⟩ : Span) = Span.moved k ⟨index, index + 1⟩ := by
  rw [Span.moved, Nat.add_right_comm]

mutual

/-- A moved tree stands for the moved expression, and for none where the tree stands for none. -/
theorem carries_ofTree (k : Nat) (left : Option LeftOperand) (tree : Tree) :
    Carries (moved k) (ofTree left tree) (ofTree (left.map (LeftOperand.moved k)) (tree.moved k)) := by
  fun_cases ofTree left tree with
  | case1 index token =>
    rw [Tree.moved, ofTree, span_leaf_moved]
    exact carries_join k left (carries_ofLiteral k _ _)
  | case2 index token =>
    rw [Tree.moved, ofTree, span_leaf_moved]
    exact carries_join k left (.ok _)
  | case3 rule index token hNumber hIdent =>
    rw [Tree.moved, ofTree.eq_3 _ _ _ _ hNumber hIdent]
    exact .error _ _
  | case4 span operator inner tail =>
    rw [Tree.moved, Tree.allMoved, ofTree]
    exact carries_join k left (carries_ofTree k none inner)
  | case5 span operator =>
    rw [Tree.moved, Tree.allMoved, ofTree]
    exact .error _ _
  | case6 span operator args rest =>
    rw [Tree.moved, Tree.allMoved, ofTree, ← Tree.allMoved]
    refine (carries_ofArgs k (args :: rest)).bind fun args => ?_
    refine (carries_nameOf .call span (span.moved k) operator).bind fun name => ?_
    exact carries_join k left (.ok (.call span name args))
  | case7 span operator =>
    rw [Tree.moved, Tree.allMoved, ofTree]
    exact .error _ _
  | case8 span operator index token tail hMinus =>
    rw [Tree.moved, Tree.allMoved, Tree.moved, ofTree.eq_8 _ _ _ _ _ _ hMinus]
    exact carries_join k left (carries_ofLiteral k span _)
  | case9 span operator operand tail op hLiteral hOperator =>
    rw [Tree.moved, Tree.allMoved, ofTree.eq_9 _ _ _ _ _ _ ?_ hOperator]
    · refine (carries_ofTree k none operand).bind fun e => ?_
      exact carries_join k left (.ok (.unary op span e))
    · intro index token hLeaf
      obtain ⟨own, hOwn⟩ := Tree.exists_leaf_of_moved hLeaf
      exact hLiteral own token hOwn
  | case10 span children operator hNumber hOther =>
    rw [Tree.moved, ofTree.eq_10]
    · exact .error _ _
    · intro index token tail hChildren hMinus
      obtain ⟨own, more, hOwn, -, -⟩ := Tree.exists_cons_of_allMoved hChildren
      exact hOther own more _ hOwn hMinus
    · intro operand tail op hChildren hOperator
      obtain ⟨own, more, hOwn, -, -⟩ := Tree.exists_cons_of_allMoved hChildren
      exact hOther own more op hOwn hOperator
  | case11 rule span operator hItem hCall hUnary a b tail op hOperator =>
    rw [Tree.moved, Tree.allMoved, Tree.allMoved, ofTree.eq_11 _ _ _ _ _ _ _ _ hItem hCall hUnary hOperator,
      LeftOperand.continues_moved]
    refine (carries_ofTree k none a).bind fun first => ?_
    split
    · rw [← LeftOperand.join_moved]
      exact carries_ofTree k (some ⟨rule, op, LeftOperand.join left first⟩) b
    · exact carries_join k left (carries_ofTree k (some ⟨rule, op, first⟩) b)
  | case12 rule span children operator hItem hCall hUnary hOther =>
    rw [Tree.moved, ofTree.eq_12 _ _ _ _ _ hItem hCall hUnary]
    · exact .error _ _
    · intro a b tail op hChildren hOperator
      obtain ⟨own, more, rfl, -, hMore⟩ := Tree.exists_cons_of_allMoved hChildren
      obtain ⟨next, rest, rfl, -, -⟩ := Tree.exists_cons_of_allMoved hMore
      exact hOther own next rest op rfl hOperator
termination_by sizeOf tree
decreasing_by
  all_goals
    subst_vars
    simp only [Tree.node.sizeOf_spec, List.cons.sizeOf_spec]
    omega

theorem carries_ofArgs (k : Nat) (trees : List Tree) :
    Carries (allMoved k) (ofArgs trees) (ofArgs (Tree.allMoved k trees)) := by
  fun_cases ofArgs trees with
  | case1 => exact .ok []
  | case2 span children operator rest =>
    rw [Tree.allMoved, Tree.moved, ofArgs]
    refine (carries_ofArgs k children).bind fun args => (carries_ofArgs k rest).bind fun more => ?_
    rw [← allMoved_append]
    exact .ok _
  | case3 tree rest hArgs =>
    rw [Tree.allMoved, ofArgs.eq_3]
    · exact (carries_ofTree k none tree).bind fun arg => (carries_ofArgs k rest).bind fun more => .ok (arg :: more)
    · intro span children operator hNode
      obtain ⟨ownSpan, own, hOwn, -⟩ := Tree.exists_node_of_moved hNode
      exact hArgs ownSpan own operator hOwn
termination_by sizeOf trees
decreasing_by
  all_goals
    subst_vars
    simp only [Tree.node.sizeOf_spec, List.cons.sizeOf_spec]
    omega

end

end Expr

namespace Stmt

theorem carries_ofAssign (k : Nat) (tree : Tree) :
    Carries (moved k) (ofAssign tree) (ofAssign (tree.moved k)) := by
  fun_cases ofAssign tree with
  | case1 span index target value tail operator =>
    rw [Tree.moved, Tree.allMoved, Tree.allMoved, Tree.moved, ofAssign]
    exact (Expr.carries_ofTree k none value).bind fun e => .ok (Stmt.assign span target.text e)
  | case2 tree hAssign =>
    rw [ofAssign.eq_2]
    · exact .error _ _
    · intro span index target value tail operator hNode
      obtain ⟨ownSpan, own, rfl, hOwn⟩ := Tree.exists_node_of_moved hNode
      obtain ⟨first, more, rfl, hFirst, hMore⟩ := Tree.exists_cons_of_allMoved hOwn
      obtain ⟨second, rest, rfl, -, -⟩ := Tree.exists_cons_of_allMoved hMore
      obtain ⟨ownIndex, rfl⟩ := Tree.exists_leaf_of_moved hFirst
      exact hAssign ownSpan ownIndex target second rest operator rfl

theorem carries_ofLine (k : Nat) (tree : Tree) : Carries (moved k) (ofLine tree) (ofLine (tree.moved k)) := by
  fun_cases ofLine tree with
  | case1 span children operator =>
    rw [Tree.moved, ofLine, ← Tree.moved]
    exact carries_ofAssign k (.node .assign span children operator)
  | case2 span value tail operator =>
    rw [Tree.moved, Tree.allMoved, ofLine]
    exact (Expr.carries_ofTree k none value).bind fun e => .ok (Stmt.print span e)
  | case3 span operator => exact .ok (Stmt.ret span none)
  | case4 span value tail operator =>
    rw [Tree.moved, Tree.allMoved, ofLine]
    exact (Expr.carries_ofTree k none value).bind fun e => .ok (Stmt.ret span (some e))
  | case5 tree hAssign hPrint hRet hRetValue =>
    rw [ofLine.eq_5, Tree.span_moved]
    · exact (Expr.carries_ofTree k none tree).bind fun e => .ok (Stmt.expr tree.span e)
    · intro span children operator hNode
      obtain ⟨ownSpan, own, rfl, -⟩ := Tree.exists_node_of_moved hNode
      exact hAssign ownSpan own operator rfl
    · intro span value tail operator hNode
      obtain ⟨ownSpan, own, rfl, hOwn⟩ := Tree.exists_node_of_moved hNode
      obtain ⟨first, more, rfl, -, -⟩ := Tree.exists_cons_of_allMoved hOwn
      exact hPrint ownSpan first more operator rfl
    · intro span operator hNode
      obtain ⟨ownSpan, own, rfl, hOwn⟩ := Tree.exists_node_of_moved hNode
      rw [Tree.allMoved_eq_map, List.map_eq_nil_iff] at hOwn
      subst hOwn
      exact hRet ownSpan operator rfl
    · intro span value tail operator hNode
      obtain ⟨ownSpan, own, rfl, hOwn⟩ := Tree.exists_node_of_moved hNode
      obtain ⟨first, more, rfl, -, -⟩ := Tree.exists_cons_of_allMoved hOwn
      exact hRetValue ownSpan first more operator rfl

end Stmt

end Vee
