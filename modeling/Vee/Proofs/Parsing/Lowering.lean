import Vee.Proofs.Effect
import Vee.Stmt.OfTree

/-! # The statements of a tree

Reading a block goes down its tree. The descent is made once here, for any relation of trees to the statements they
stand for. A property of statements alone follows: if the trees below a tree have a property again, its lines and
conditions have what is wanted, and compound statements have what their parts have, then so do all statements of the
block.
-/

namespace Vee.Stmt

set_option autoImplicit false

open Effect

theorem ofLine_of_ofAssign {tree : Tree} {s : Stmt} (h : ofAssign tree = .ok s) : ofLine tree = .ok s := by
  have hAssign := h
  unfold ofAssign at h
  split at h
  · rwa [ofLine]
  · cases h

/-- The statements of the block that may follow a statement. -/
def Behind (B : Tree → List Stmt → Prop) : List Tree → List Stmt → Prop
  | [], later => later = []
  | tree :: _, later => B tree later

/-- A property that passes to the trees below, and a relation of such trees to their statements that holds of a block if
it holds of the blocks in it. -/
structure Descent (I : Tree → Prop) (B : Tree → List Stmt → Prop) : Prop where
  child {rule : Grammar.Name} {span : Span} {children : List Tree} {operator : Option Token} {tree : Tree} :
    I (.node rule span children operator) → tree ∈ children → I tree
  empty (span : Span) (operator : Option Token) : B (.node .codeBlock span [] operator) []
  codeBlock {span : Span} {tree : Tree} {tail : List Tree} {operator : Option Token} {statements : List Stmt} :
    I (.node .codeBlock span (tree :: tail) operator) → B tree statements →
      B (.node .codeBlock span (tree :: tail) operator) statements
  lines {span : Span} {line : Tree} {rest : List Tree} {operator : Option Token} {s : Stmt} {later : List Stmt} :
    I (.node .lines span (line :: rest) operator) → ofLine line = .ok s → Behind B rest later →
      B (.node .lines span (line :: rest) operator) (s :: later)
  otherwise {span inner : Span} {condition yes no : Tree} {rest tail : List Tree} {operator outer : Option Token}
    {c : Expr} {first second later : List Stmt} :
    I (.node .branch span (condition :: yes :: .node .otherwise inner (no :: rest) operator :: tail) outer) →
      Expr.ofTree none condition = .ok c → B yes first → B no second → Behind B rest later →
      B (.node .branch span (condition :: yes :: .node .otherwise inner (no :: rest) operator :: tail) outer)
        (.branch span c first second :: later)
  branch {span : Span} {condition yes : Tree} {rest : List Tree} {operator : Option Token} {c : Expr}
    {first later : List Stmt} :
    I (.node .branch span (condition :: yes :: rest) operator) → Expr.ofTree none condition = .ok c → B yes first →
      Behind B rest later →
      B (.node .branch span (condition :: yes :: rest) operator) (.branch span c first [] :: later)
  whileLoop {span : Span} {condition body : Tree} {rest : List Tree} {operator : Option Token} {c : Expr}
    {first later : List Stmt} :
    I (.node .whileLoop span (condition :: body :: rest) operator) → Expr.ofTree none condition = .ok c →
      B body first → Behind B rest later →
      B (.node .whileLoop span (condition :: body :: rest) operator) (.whileLoop span c first :: later)
  forLoop {span : Span} {init condition step body : Tree} {rest : List Tree} {operator : Option Token}
    {start next : Stmt} {c : Expr} {first later : List Stmt} :
    I (.node .forLoop span (init :: condition :: step :: body :: rest) operator) → ofAssign init = .ok start →
      Expr.ofTree none condition = .ok c → ofAssign step = .ok next → B body first → Behind B rest later →
      B (.node .forLoop span (init :: condition :: step :: body :: rest) operator)
        (.forLoop span start c next first :: later)
  function {span : Span} {params body : Tree} {rest : List Tree} {operator : Option Token} {name : String}
    (names : List String) {first later : List Stmt} :
    I (.node .function span (params :: body :: rest) operator) → nameOf .function span operator = .ok name →
      B body first → Behind B rest later →
      B (.node .function span (params :: body :: rest) operator) (.function span name names first :: later)

namespace Descent

variable {I : Tree → Prop} {B : Tree → List Stmt → Prop}

mutual

theorem block (h : Descent I B) (tree : Tree) (statements : List Stmt) (hTree : I tree) :
    ofBlock tree = .ok statements → B tree statements := by
  fun_cases ofBlock tree with
  | case1 span operator =>
    intro hResult
    cases hResult
    exact h.empty span operator
  | case2 span tree tail operator =>
    intro hConstruct
    exact h.codeBlock hTree (construct h tree statements (h.child hTree List.mem_cons_self) hConstruct)
  | case3 span line rest operator =>
    intro hBlock
    obtain ⟨first, hFirst, hBlock⟩ := exists_of_except_bind hBlock
    obtain ⟨later, hLater, hResult⟩ := exists_of_except_bind hBlock
    cases hResult
    exact h.lines hTree hFirst (behind h rest later (fun _ hMem => h.child hTree (by simp [hMem])) hLater)
  | case4 => exact construct h tree statements hTree
termination_by 2 * sizeOf tree + 1
decreasing_by
  · subst_vars
    simp only [Tree.node.sizeOf_spec, List.cons.sizeOf_spec]
    omega
  · subst_vars
    simp only [Tree.node.sizeOf_spec, List.cons.sizeOf_spec]
    omega
  · omega

theorem construct (h : Descent I B) (tree : Tree) (statements : List Stmt) (hTree : I tree) :
    ofConstruct tree = .ok statements → B tree statements := by
  fun_cases ofConstruct tree with
  | case1 span condition yes inner no rest operator tail outer =>
    intro hConstruct
    obtain ⟨c, hCondition, hConstruct⟩ := exists_of_except_bind hConstruct
    obtain ⟨first, hFirst, hConstruct⟩ := exists_of_except_bind hConstruct
    obtain ⟨second, hSecond, hConstruct⟩ := exists_of_except_bind hConstruct
    obtain ⟨later, hLater, hResult⟩ := exists_of_except_bind hConstruct
    cases hResult
    have hElse : I (.node .otherwise inner (no :: rest) operator) := h.child hTree (by simp)
    have hYes := block h yes first (h.child hTree (by simp)) hFirst
    have hNo := block h no second (h.child hElse (by simp)) hSecond
    refine h.otherwise hTree hCondition hYes hNo ?_
    exact behind h rest later (fun _ hMem => h.child hElse (List.mem_cons_of_mem _ hMem)) hLater
  | case2 span condition yes rest operator hElse =>
    intro hConstruct
    obtain ⟨c, hCondition, hConstruct⟩ := exists_of_except_bind hConstruct
    obtain ⟨first, hFirst, hConstruct⟩ := exists_of_except_bind hConstruct
    obtain ⟨later, hLater, hResult⟩ := exists_of_except_bind hConstruct
    cases hResult
    have hYes := block h yes first (h.child hTree (by simp)) hFirst
    refine h.branch hTree hCondition hYes ?_
    exact behind h rest later (fun _ hMem => h.child hTree (by simp [hMem])) hLater
  | case3 span condition body rest operator =>
    intro hConstruct
    obtain ⟨c, hCondition, hConstruct⟩ := exists_of_except_bind hConstruct
    obtain ⟨first, hFirst, hConstruct⟩ := exists_of_except_bind hConstruct
    obtain ⟨later, hLater, hResult⟩ := exists_of_except_bind hConstruct
    cases hResult
    have hBody := block h body first (h.child hTree (by simp)) hFirst
    refine h.whileLoop hTree hCondition hBody ?_
    exact behind h rest later (fun _ hMem => h.child hTree (by simp [hMem])) hLater
  | case4 span init condition step body rest operator =>
    intro hConstruct
    obtain ⟨start, hInit, hConstruct⟩ := exists_of_except_bind hConstruct
    obtain ⟨c, hCondition, hConstruct⟩ := exists_of_except_bind hConstruct
    obtain ⟨next, hStep, hConstruct⟩ := exists_of_except_bind hConstruct
    obtain ⟨first, hFirst, hConstruct⟩ := exists_of_except_bind hConstruct
    obtain ⟨later, hLater, hResult⟩ := exists_of_except_bind hConstruct
    cases hResult
    have hBody := block h body first (h.child hTree (by simp)) hFirst
    refine h.forLoop hTree hInit hCondition hStep hBody ?_
    exact behind h rest later (fun _ hMem => h.child hTree (by simp [hMem])) hLater
  | case5 span params body rest operator =>
    intro hConstruct
    obtain ⟨names, -, hConstruct⟩ := exists_of_except_bind hConstruct
    obtain ⟨first, hFirst, hConstruct⟩ := exists_of_except_bind hConstruct
    obtain ⟨name, hName, hConstruct⟩ := exists_of_except_bind hConstruct
    obtain ⟨later, hLater, hResult⟩ := exists_of_except_bind hConstruct
    cases hResult
    have hBody := block h body first (h.child hTree (by simp)) hFirst
    refine h.function names hTree hName hBody ?_
    exact behind h rest later (fun _ hMem => h.child hTree (by simp [hMem])) hLater
  | case6 =>
    intro hConstruct
    cases hConstruct
termination_by 2 * sizeOf tree
decreasing_by
  all_goals
    subst_vars
    simp only [Tree.node.sizeOf_spec, List.cons.sizeOf_spec]
    omega

theorem behind (h : Descent I B) (trees : List Tree) (statements : List Stmt) (hTrees : ∀ t ∈ trees, I t) :
    ofRest trees = .ok statements → Behind B trees statements := by
  cases trees with
  | nil =>
    rw [ofRest]
    intro hResult
    cases hResult
    exact rfl
  | cons tree rest =>
    rw [ofRest]
    exact block h tree statements (hTrees tree List.mem_cons_self)
termination_by 2 * sizeOf trees
decreasing_by
  subst_vars
  simp only [List.cons.sizeOf_spec]
  omega

end

end Descent

/-- Properties of trees, expressions and statements. The first passes to the trees below; an expression or a line of a
tree with it has the second or the third, and a compound statement has the third if its parts do. -/
structure Traversal (I : Tree → Prop) (E : Expr → Prop) (P : Stmt → Prop) : Prop where
  child {rule : Grammar.Name} {span : Span} {children : List Tree} {operator : Option Token} {tree : Tree} :
    I (.node rule span children operator) → tree ∈ children → I tree
  expr {tree : Tree} {e : Expr} : I tree → Expr.ofTree none tree = .ok e → E e
  line {tree : Tree} {s : Stmt} : I tree → ofLine tree = .ok s → P s
  branch (span : Span) {c : Expr} {yes no : List Stmt} :
    E c → (∀ s ∈ yes, P s) → (∀ s ∈ no, P s) → P (.branch span c yes no)
  whileLoop (span : Span) {c : Expr} {body : List Stmt} : E c → (∀ s ∈ body, P s) → P (.whileLoop span c body)
  forLoop (span : Span) {init step : Stmt} {c : Expr} {body : List Stmt} :
    P init → E c → P step → (∀ s ∈ body, P s) → P (.forLoop span init c step body)
  function {span : Span} {children : List Tree} {operator : Option Token} {name : String} (params : List String)
    {body : List Stmt} : I (.node .function span children operator) → nameOf .function span operator = .ok name →
      (∀ s ∈ body, P s) → P (.function span name params body)

namespace Traversal

variable {I : Tree → Prop} {E : Expr → Prop} {P : Stmt → Prop}

theorem assign (h : Traversal I E P) {tree : Tree} {s : Stmt} (hTree : I tree) (hAssign : ofAssign tree = .ok s) :
    P s := h.line hTree (ofLine_of_ofAssign hAssign)

theorem forall_behind {trees : List Tree} {later : List Stmt}
    (h : Behind (fun _ statements => ∀ s ∈ statements, P s) trees later) : ∀ s ∈ later, P s := by
  cases trees with
  | nil =>
    cases h
    exact List.forall_mem_nil _
  | cons => exact h

theorem descent (h : Traversal I E P) : Descent I fun _ statements => ∀ s ∈ statements, P s where
  child := h.child
  empty := fun _ _ => List.forall_mem_nil _
  codeBlock := fun _ hStatements => hStatements
  lines := by
    intro span line rest operator s later hTree hLine hLater
    exact List.forall_mem_cons.mpr ⟨h.line (h.child hTree (by simp)) hLine, forall_behind hLater⟩
  otherwise := by
    intro span inner condition yes no rest tail operator outer c first second later hTree hCondition hYes hNo hLater
    have hExpr := h.expr (h.child hTree (by simp)) hCondition
    exact List.forall_mem_cons.mpr ⟨h.branch span hExpr hYes hNo, forall_behind hLater⟩
  branch := by
    intro span condition yes rest operator c first later hTree hCondition hYes hLater
    have hExpr := h.expr (h.child hTree (by simp)) hCondition
    exact List.forall_mem_cons.mpr ⟨h.branch span hExpr hYes (List.forall_mem_nil _), forall_behind hLater⟩
  whileLoop := by
    intro span condition body rest operator c first later hTree hCondition hBody hLater
    have hExpr := h.expr (h.child hTree (by simp)) hCondition
    exact List.forall_mem_cons.mpr ⟨h.whileLoop span hExpr hBody, forall_behind hLater⟩
  forLoop := by
    intro span init condition step body rest operator start next c first later hTree hInit hCondition hStep hBody hLater
    have hHead := h.assign (h.child hTree (by simp)) hInit
    have hExpr := h.expr (h.child hTree (by simp)) hCondition
    have hNext := h.assign (h.child hTree (by simp)) hStep
    exact List.forall_mem_cons.mpr ⟨h.forLoop span hHead hExpr hNext hBody, forall_behind hLater⟩
  function := by
    intro span params body rest operator name names first later hTree hName hBody hLater
    exact List.forall_mem_cons.mpr ⟨h.function names hTree hName hBody, forall_behind hLater⟩

theorem block (h : Traversal I E P) (tree : Tree) (statements : List Stmt) (hTree : I tree)
    (hBlock : ofBlock tree = .ok statements) : ∀ s ∈ statements, P s :=
  h.descent.block tree statements hTree hBlock

end Traversal

end Vee.Stmt
