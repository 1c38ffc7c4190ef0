import Vee.Proofs.Parsing.Lowering
import Vee.Proofs.Parsing.Precedence
import Vee.Toolchain

/-! # Statements come back from their tokens

The tokens of statements have a derivation tree that stands for them. In a tree the rest of a block hangs below
its first statement, so a statement is read together with whatever follows it. Only a for loop whose head holds
something other than assignments has no tokens of its own.
-/

namespace Vee

set_option autoImplicit false

open Grammar

namespace Stmt

/-! ## Statements without spans -/

mutual

def bare : Stmt → Stmt
  | .assign _ name e => .assign .nowhere name e.bare
  | .expr _ e => .expr .nowhere e.bare
  | .forLoop _ init c step body => .forLoop .nowhere init.bare c.bare step.bare (blockBare body)
  | .function _ name params body => .function .nowhere name params (blockBare body)
  | .branch _ c yes no => .branch .nowhere c.bare (blockBare yes) (blockBare no)
  | .print _ e => .print .nowhere e.bare
  | .ret _ e => .ret .nowhere (e.map Expr.bare)
  | .whileLoop _ c body => .whileLoop .nowhere c.bare (blockBare body)

def blockBare : List Stmt → List Stmt
  | [] => []
  | s :: rest => s.bare :: blockBare rest

end

def isAssign : Stmt → Bool
  | .assign _ _ _ => true
  | _ => false

mutual

/-- Every for loop starts and steps with an assignment. -/
def assignHeads : Stmt → Bool
  | .forLoop _ init _ step body => init.isAssign && step.isAssign && blockAssignHeads body
  | .function _ _ _ body => blockAssignHeads body
  | .branch _ _ yes no => blockAssignHeads yes && blockAssignHeads no
  | .whileLoop _ _ body => blockAssignHeads body
  | _ => true

def blockAssignHeads : List Stmt → Bool
  | [] => true
  | s :: rest => s.assignHeads && blockAssignHeads rest

end

/-! ## Pieces of patterns -/

theorem covers_parens {whole : Bool} {r : Name} {i : Nat} {ts : List Token} {tree : Tree}
    (h : Tree.Derivation r (i + 1) ts tree) :
    Tree.Covers whole [.literal .openParen, .rule r, .literal .closeParen] i (parens ts)
      [.inl (.fixed .openParen), .inr tree, .inl (.fixed .closeParen)] :=
  .token rfl (h.covers (.inr (.inl (List.cons_ne_nil _ _))) (.token rfl (.nil false _)))

theorem covers_braces {i : Nat} {ts : List Token} {tree : Tree} (h : Tree.Derivation .codeBlock (i + 1) ts tree) :
    Tree.Covers false [.literal .openBrace, .rule .codeBlock, .literal .closeBrace] i (braces ts)
      [.inl (.fixed .openBrace), .inr tree, .inl (.fixed .closeBrace)] :=
  .token rfl (h.covers (.inr (.inl (List.cons_ne_nil _ _))) (.token rfl (.nil false _)))

/-! ## Expressions and lines -/

/-- Tokens of an expression, wherever they stand. -/
def ReadsExpr (ts : List Token) (e : Expr) : Prop :=
  ∀ i, ∃ tree e', Tree.Derivation .or i ts tree ∧ Expr.ofTree none tree = .ok e' ∧ e'.bare = e.bare ∧
    ∀ n, n.floor? = some 0 → tree.rule ≠ n

theorem readsExpr (e : Expr) : ReadsExpr e.tokens e := by
  intro i
  obtain ⟨tree, hReads⟩ := (Expr.stands i e).1
  obtain ⟨e', hBare, hTree⟩ := hReads.exists_ofTree
  refine ⟨tree, e', Expr.derivation_ruleAt_mono (Nat.zero_le _) hReads.derivation, hTree, hBare, ?_⟩
  rintro n hZero rfl
  obtain ⟨m, hFloor, hPos, -⟩ := hReads.floor
  cases hZero.symm.trans hFloor
  cases hPos

/-- Tokens of an assignment, wherever they stand. -/
def ReadsAssign (ts : List Token) (s : Stmt) : Prop :=
  ∀ i, ∃ tree s', Tree.Derivation .assign i ts tree ∧ ofAssign tree = .ok s' ∧ s'.bare = s.bare

theorem readsAssign {s : Stmt} (h : s.isAssign = true) : ReadsAssign s.clause s := by
  cases s with
  | assign span name e =>
    intro i
    obtain ⟨tree, e', hDerivation, hTree, hBare, -⟩ := readsExpr e (i + 1 + 1)
    have hCovers : Tree.Covers true [.rule .ident, .literal .assign, .rule .or] i (clause (.assign span name e))
        [.inr (.leaf .ident i ⟨.name, name⟩), .inl (.fixed .assign), .inr tree] :=
      (Expr.derivation_name i name).covers (.inr (.inr rfl))
        (.token rfl (hDerivation.covers_last (.inl (Expr.ne_nil_of_ruleAt (q := 0) hDerivation))))
    obtain ⟨place, hNode⟩ : ∃ place, Tree.Derivation .assign i (clause (.assign span name e))
        (.node .assign place [.leaf .ident i ⟨.name, name⟩, tree] none) := ⟨_, hCovers.derivation (by decide)⟩
    refine ⟨_, .assign place name e', hNode, ?_, ?_⟩
    · rw [ofAssign, hTree]
      rfl
    · rw [bare, bare, hBare]
  | _ => cases h

/-- Tokens in front of a semicolon, wherever they stand. -/
def ReadsLine (ts : List Token) (s : Stmt) : Prop :=
  ∀ i, ∃ tree s', Tree.Derivation .line i ts tree ∧ ofLine tree = .ok s' ∧ s'.bare = s.bare

theorem ReadsAssign.line {ts : List Token} {s : Stmt} (h : ReadsAssign ts s) : ReadsLine ts s := by
  intro i
  obtain ⟨tree, s', hDerivation, hTree, hBare⟩ := h i
  exact ⟨tree, s', Expr.derivation_single (by decide) hDerivation, ofLine_of_ofAssign hTree, hBare⟩

theorem readsLine_expr (span : Span) (e : Expr) : ReadsLine e.tokens (.expr span e) := by
  intro i
  obtain ⟨tree, e', hDerivation, hTree, hBare, hRule⟩ := readsExpr e i
  refine ⟨tree, .expr tree.span e', Expr.derivation_single (by decide) hDerivation, ?_, ?_⟩
  · rw [ofLine, hTree]
    · rfl
    · rintro span children operator rfl
      exact hRule .assign rfl rfl
    · rintro span value tail operator rfl
      exact hRule .print rfl rfl
    · rintro span operator rfl
      exact hRule .ret rfl rfl
    · rintro span value tail operator rfl
      exact hRule .ret rfl rfl
  · rw [bare, bare, hBare]

theorem readsLine_print (span : Span) (e : Expr) : ReadsLine (clause (.print span e)) (.print span e) := by
  intro i
  obtain ⟨tree, e', hDerivation, hTree, hBare, -⟩ := readsExpr e (i + 1 + 1)
  have hCovers : Tree.Covers true [.literal .print, .literal .openParen, .rule .or, .literal .closeParen] i
      (clause (.print span e))
      [.inl (.fixed .print), .inl (.fixed .openParen), .inr tree, .inl (.fixed .closeParen)] :=
    .token rfl (covers_parens hDerivation)
  obtain ⟨place, hNode⟩ : ∃ place, Tree.Derivation .print i (clause (.print span e)) (.node .print place [tree] none) :=
    ⟨_, hCovers.derivation (by decide)⟩
  refine ⟨_, .print place e', Expr.derivation_single (by decide) hNode, ?_, ?_⟩
  · rw [ofLine, hTree]
    rfl
  · rw [bare, bare, hBare]

theorem readsLine_ret_none (span : Span) : ReadsLine (clause (.ret span none)) (.ret span none) := by
  intro i
  have hNode : Tree.Derivation .ret i (clause (.ret span none)) (.node .ret ⟨i, i + 1⟩ [] none) :=
    ⟨[.literal .ret], by decide, [.inl (.fixed .ret)], .token rfl (.nil false _), rfl⟩
  refine ⟨_, .ret ⟨i, i + 1⟩ none, Expr.derivation_single (by decide) hNode, ?_, rfl⟩
  rw [ofLine]

theorem readsLine_ret_some (span : Span) (e : Expr) :
    ReadsLine (clause (.ret span (some e))) (.ret span (some e)) := by
  intro i
  obtain ⟨tree, e', hDerivation, hTree, hBare, -⟩ := readsExpr e (i + 1)
  have hCovers : Tree.Covers true [.literal .ret, .rule .or] i (clause (.ret span (some e)))
      [.inl (.fixed .ret), .inr tree] :=
    .token rfl (hDerivation.covers_last (.inl (Expr.ne_nil_of_ruleAt (q := 0) hDerivation)))
  obtain ⟨place, hNode⟩ : ∃ place, Tree.Derivation .ret i (clause (.ret span (some e)))
      (.node .ret place [tree] none) := ⟨_, hCovers.derivation (by decide)⟩
  refine ⟨_, .ret place (some e'), Expr.derivation_single (by decide) hNode, ?_, ?_⟩
  · rw [ofLine, hTree]
    rfl
  · rw [bare, bare, Option.map_some, Option.map_some, hBare]

/-! ## Blocks -/

/-- Tokens of a block, wherever they stand. -/
def ReadsBlock (ts : List Token) (ss : List Stmt) : Prop :=
  ∀ i, ∃ tree ss', Tree.Derivation .codeBlock i ts tree ∧ ofBlock tree = .ok ss' ∧ blockBare ss' = blockBare ss ∧
    tree.rule ≠ .otherwise

/-- The trees behind a statement: none, or that of a block. -/
def Trails (i : Nat) (ts : List Token) (trees : List Tree) : Prop :=
  ts = [] ∧ trees = [] ∨
    ∃ tree, trees = [tree] ∧ ts ≠ [] ∧ Tree.Derivation .codeBlock i ts tree ∧ tree.rule ≠ .otherwise

/-- Tokens behind a statement, wherever they stand. -/
def ReadsRest (ts : List Token) (ss : List Stmt) : Prop :=
  ∀ i, ∃ trees ss', Trails i ts trees ∧ ofRest trees = .ok ss' ∧ blockBare ss' = blockBare ss

theorem readsBlock_nil : ReadsBlock [] [] := by
  intro i
  refine ⟨.node .codeBlock ⟨i, i⟩ [] none, [], ⟨[], by decide, [], .nil true i, rfl⟩, ?_, rfl, nofun⟩
  rw [ofBlock]

theorem ReadsBlock.rest {ts : List Token} {ss : List Stmt} (h : ReadsBlock ts ss) (hNil : ts = [] ↔ ss = []) :
    ReadsRest ts ss := by
  intro i
  cases ss with
  | nil => exact ⟨[], [], .inl ⟨hNil.mpr rfl, rfl⟩, by rw [ofRest], rfl⟩
  | cons s rest =>
    obtain ⟨tree, ss', hDerivation, hTree, hBare, hRule⟩ := h i
    exact ⟨[tree], ss', .inr ⟨tree, rfl, mt hNil.mp (List.cons_ne_nil _ _), hDerivation, hRule⟩, by rw [ofRest, hTree],
      hBare⟩

/-- A rule of a statement that may be followed by a block. -/
theorem Trails.derivation {n : Name} {p : Pattern} {i : Nat} {us vs : List Token} {a b : Tree.Part}
    {parts : List Tree.Part} {trees : List Tree} (hTrails : Trails (i + us.length) vs trees)
    (hMem : p ∈ (table n).alternatives) (hMore : p ++ [.rule .codeBlock] ∈ (table n).alternatives)
    (hPlace : (table n).operator = none ∨ (table n).operator = some 0)
    (hHead : Tree.Covers true p i us (a :: b :: parts)) :
    ∃ place, Tree.Derivation n i (us ++ vs) (.node n place
      ((a :: b :: parts).filterMap Sum.getRight? ++ trees) (Tree.operatorOf n (a :: b :: parts))) := by
  rcases hTrails with ⟨rfl, rfl⟩ | ⟨tree, rfl, hTakes, hTree, -⟩
  · rw [List.append_nil, List.append_nil]
    exact ⟨_, hHead.derivation hMem⟩
  · have hCovers : Tree.Covers true (p ++ [.rule .codeBlock]) i (us ++ vs) (a :: b :: (parts ++ [.inr tree])) :=
      hHead.append (hTree.covers_last (.inl hTakes))
    have hChildren : (a :: b :: (parts ++ [.inr tree])).filterMap Sum.getRight? =
        (a :: b :: parts).filterMap Sum.getRight? ++ [tree] :=
      List.filterMap_append (l := a :: b :: parts)
    have hOperator : Tree.operatorOf n (a :: b :: (parts ++ [.inr tree])) = Tree.operatorOf n (a :: b :: parts) := by
      rcases hPlace with hPlace | hPlace <;> rw [Tree.operatorOf, Tree.operatorOf, hPlace] <;> rfl
    rw [← hChildren, ← hOperator]
    exact ⟨_, hCovers.derivation hMore⟩

/-- A construct behind its first word. -/
theorem readsBlock_construct {k : Token.Kind} {n : Name} {ts : List Token} {ss : List Stmt}
    (hMem : [.literal k, .rule n] ∈ (table .codeBlock).alternatives) (hNe : ts ≠ [])
    (h : ∀ i, ∃ tree ss', Tree.Derivation n i ts tree ∧ ofConstruct tree = .ok ss' ∧ blockBare ss' = blockBare ss) :
    ReadsBlock (.fixed k :: ts) ss := by
  intro i
  obtain ⟨tree, ss', hDerivation, hTree, hBare⟩ := h (i + 1)
  have hCovers : Tree.Covers true [.literal k, .rule n] i (.fixed k :: ts) [.inl (.fixed k), .inr tree] :=
    .token (beq_self_eq_true k) (hDerivation.covers_last (.inl hNe))
  obtain ⟨place, hNode⟩ : ∃ place, Tree.Derivation .codeBlock i (.fixed k :: ts)
      (.node .codeBlock place [tree] none) := ⟨_, hCovers.derivation hMem⟩
  refine ⟨_, ss', hNode, ?_, hBare, nofun⟩
  rw [ofBlock, hTree]

theorem readsBlock_line {us vs : List Token} {s : Stmt} {ss : List Stmt} (hLine : ReadsLine us s)
    (hRest : ReadsRest vs ss) : ReadsBlock (us ++ [.fixed .semicolon] ++ vs) (s :: ss) := by
  intro i
  obtain ⟨line, s', hDerivation, hLine, hBare⟩ := hLine i
  obtain ⟨trees, ss', hTrails, hTrees, hRestBare⟩ := hRest (i + (us ++ [Token.fixed .semicolon]).length)
  have hHead : Tree.Covers true [.rule .line, .literal .semicolon] i (us ++ [.fixed .semicolon])
      [.inr line, .inl (.fixed .semicolon)] :=
    hDerivation.covers (.inr (.inr rfl)) (.token rfl (.nil false _))
  obtain ⟨place, hNode⟩ : ∃ place, Tree.Derivation .lines i (us ++ [.fixed .semicolon] ++ vs)
      (.node .lines place (line :: trees) none) := hTrails.derivation (by decide) (by decide) (.inl rfl) hHead
  refine ⟨_, s' :: ss', Expr.derivation_single (by decide) hNode, ?_, ?_, nofun⟩
  · rw [ofBlock, hLine, hTrees]
    rfl
  · rw [blockBare, blockBare, hBare, hRestBare]

theorem covers_guarded {ts us : List Token} {c : Expr} {body : List Stmt} (i : Nat) (hCondition : ReadsExpr ts c)
    (hBody : ReadsBlock us body) :
    ∃ condition block c' body',
      Tree.Covers true guarded i (parens ts ++ braces us)
        [.inl (.fixed .openParen), .inr condition, .inl (.fixed .closeParen), .inl (.fixed .openBrace), .inr block,
          .inl (.fixed .closeBrace)] ∧
      Expr.ofTree none condition = .ok c' ∧ c'.bare = c.bare ∧
      ofBlock block = .ok body' ∧ blockBare body' = blockBare body := by
  obtain ⟨condition, c', hDerivation, hTree, hBare, -⟩ := hCondition (i + 1)
  obtain ⟨block, body', hBlock, hBlockTree, hBlockBare, -⟩ := hBody (i + (parens ts).length + 1)
  exact ⟨condition, block, c', body', (covers_parens hDerivation).append (covers_braces hBlock), hTree, hBare,
    hBlockTree, hBlockBare⟩

theorem readsBlock_while {ts us vs : List Token} {c : Expr} {body ss : List Stmt} (span : Span)
    (hCondition : ReadsExpr ts c) (hBody : ReadsBlock us body) (hRest : ReadsRest vs ss) :
    ReadsBlock (.fixed .whileWord :: (parens ts ++ braces us ++ vs)) (.whileLoop span c body :: ss) := by
  refine readsBlock_construct (n := .whileLoop) (by decide) (List.cons_ne_nil _ _) fun i => ?_
  obtain ⟨condition, block, c', body', hHead, hTree, hBare, hBlock, hBlockBare⟩ :=
    covers_guarded i hCondition hBody
  obtain ⟨trees, ss', hTrails, hTrees, hRestBare⟩ := hRest (i + (parens ts ++ braces us).length)
  obtain ⟨place, hNode⟩ : ∃ place, Tree.Derivation .whileLoop i (parens ts ++ braces us ++ vs)
      (.node .whileLoop place (condition :: block :: trees) none) :=
    hTrails.derivation (by decide) (by decide) (.inl rfl) hHead
  refine ⟨_, .whileLoop place c' body' :: ss', hNode, ?_, ?_⟩
  · rw [ofConstruct, hTree, hBlock, hTrees]
    rfl
  · rw [blockBare, blockBare, bare, bare, hBare, hBlockBare, hRestBare]

theorem readsBlock_branch {ts us vs : List Token} {c : Expr} {yes ss : List Stmt} (span : Span)
    (hCondition : ReadsExpr ts c) (hYes : ReadsBlock us yes) (hRest : ReadsRest vs ss) :
    ReadsBlock (.fixed .ifWord :: (parens ts ++ braces us ++ vs)) (.branch span c yes [] :: ss) := by
  refine readsBlock_construct (n := .branch) (by decide) (List.cons_ne_nil _ _) fun i => ?_
  obtain ⟨condition, block, c', yes', hHead, hTree, hBare, hBlock, hBlockBare⟩ :=
    covers_guarded i hCondition hYes
  obtain ⟨trees, ss', hTrails, hTrees, hRestBare⟩ := hRest (i + (parens ts ++ braces us).length)
  obtain ⟨place, hNode⟩ : ∃ place, Tree.Derivation .branch i (parens ts ++ braces us ++ vs)
      (.node .branch place (condition :: block :: trees) none) :=
    hTrails.derivation (by decide) (by decide) (.inl rfl) hHead
  refine ⟨_, .branch place c' yes' [] :: ss', hNode, ?_, ?_⟩
  · rw [ofConstruct, hTree, hBlock, hTrees]
    · rfl
    -- What follows is a block, so it is not taken for the other branch.
    · rintro otherPlace no rest operator tail rfl
      rcases hTrails with ⟨-, hNil⟩ | ⟨tree, hTrees, -, -, hRule⟩
      · cases hNil
      · cases hTrees
        exact hRule rfl
  · rw [blockBare, blockBare, bare, bare, hBare, hBlockBare, hRestBare]

theorem readsBlock_branch_else {ts us ws vs : List Token} {c : Expr} {yes no ss : List Stmt} (span : Span)
    (hCondition : ReadsExpr ts c) (hYes : ReadsBlock us yes) (hNo : ReadsBlock ws no) (hRest : ReadsRest vs ss) :
    ReadsBlock (.fixed .ifWord :: (parens ts ++ braces us ++ (.fixed .elseWord :: braces ws ++ vs)))
      (.branch span c yes no :: ss) := by
  refine readsBlock_construct (n := .branch) (by decide) (List.cons_ne_nil _ _) fun i => ?_
  obtain ⟨condition, block, c', yes', hGuarded, hTree, hBare, hBlock, hBlockBare⟩ :=
    covers_guarded i hCondition hYes
  generalize parens ts ++ braces us = head at hGuarded ⊢
  obtain ⟨other, no', hOther, hOtherTree, hOtherBare, -⟩ := hNo (i + head.length + 1 + 1)
  obtain ⟨trees, ss', hTrails, hTrees, hRestBare⟩ :=
    hRest (i + head.length + (Token.fixed .elseWord :: braces ws).length)
  have hElseHead : Tree.Covers true elseHead (i + head.length) (.fixed .elseWord :: braces ws)
      [.inl (.fixed .elseWord), .inl (.fixed .openBrace), .inr other, .inl (.fixed .closeBrace)] :=
    .token rfl (covers_braces hOther)
  obtain ⟨elsePlace, hElse⟩ : ∃ place, Tree.Derivation .otherwise (i + head.length)
      (.fixed .elseWord :: braces ws ++ vs) (.node .otherwise place (other :: trees) none) :=
    hTrails.derivation (by decide) (by decide) (.inl rfl) hElseHead
  have hCovers := hGuarded.append (hElse.covers_last (.inl (List.cons_ne_nil _ _)))
  obtain ⟨place, hNode⟩ : ∃ place, Tree.Derivation .branch i (head ++ (.fixed .elseWord :: braces ws ++ vs))
      (.node .branch place [condition, block, .node .otherwise elsePlace (other :: trees) none] none) :=
    ⟨_, Tree.Covers.derivation hCovers (by decide)⟩
  refine ⟨_, .branch place c' yes' no' :: ss', hNode, ?_, ?_⟩
  · rw [ofConstruct, hTree, hBlock, hOtherTree, hTrees]
    rfl
  · rw [blockBare, blockBare, bare, bare, hBare, hBlockBare, hOtherBare, hRestBare]

theorem covers_forHead {ts us ws vs : List Token} {init step : Stmt} {c : Expr} {body : List Stmt} (i : Nat)
    (hInit : ReadsAssign ts init) (hCondition : ReadsExpr us c) (hStep : ReadsAssign ws step)
    (hBody : ReadsBlock vs body) :
    ∃ first condition second block init' c' step' body',
      Tree.Covers true forHead i
        (parens (ts ++ .fixed .semicolon :: us ++ .fixed .semicolon :: ws) ++ braces vs)
        [.inl (.fixed .openParen), .inr first, .inl (.fixed .semicolon), .inr condition, .inl (.fixed .semicolon),
          .inr second, .inl (.fixed .closeParen), .inl (.fixed .openBrace), .inr block, .inl (.fixed .closeBrace)] ∧
      (ofAssign first = .ok init' ∧ init'.bare = init.bare) ∧
      (Expr.ofTree none condition = .ok c' ∧ c'.bare = c.bare) ∧
      (ofAssign second = .ok step' ∧ step'.bare = step.bare) ∧
      ofBlock block = .ok body' ∧ blockBare body' = blockBare body := by
  generalize hTokens : parens (ts ++ .fixed .semicolon :: us ++ .fixed .semicolon :: ws) = head
  obtain ⟨first, init', hInit, hInitTree⟩ := hInit (i + 1)
  obtain ⟨condition, c', hCondition, hTree, hBare, -⟩ := hCondition (i + 1 + ts.length + 1)
  obtain ⟨second, step', hStep, hStepTree⟩ := hStep (i + 1 + ts.length + 1 + us.length + 1)
  obtain ⟨block, body', hBlock, hBlockTree, hBlockBare, -⟩ := hBody (i + head.length + 1)
  have hHead : Tree.Covers true [.literal .openParen, .rule .assign, .literal .semicolon, .rule .or,
      .literal .semicolon, .rule .assign, .literal .closeParen] i head
      [.inl (.fixed .openParen), .inr first, .inl (.fixed .semicolon), .inr condition, .inl (.fixed .semicolon),
        .inr second, .inl (.fixed .closeParen)] := by
    simp only [← hTokens, parens, List.append_assoc, List.cons_append]
    exact .token rfl (hInit.covers (.inr (.inl (List.cons_ne_nil _ _))) (.token rfl
      (hCondition.covers (.inr (.inl (List.cons_ne_nil _ _))) (.token rfl
        (hStep.covers (.inr (.inl (List.cons_ne_nil _ _))) (.token rfl (.nil false _)))))))
  exact ⟨first, condition, second, block, init', c', step', body', hHead.append (covers_braces hBlock), hInitTree,
    ⟨hTree, hBare⟩, hStepTree, hBlockTree, hBlockBare⟩

theorem readsBlock_for {ts us ws xs vs : List Token} {init step : Stmt} {c : Expr} {body ss : List Stmt}
    (span : Span) (hInit : ReadsAssign ts init) (hCondition : ReadsExpr us c) (hStep : ReadsAssign ws step)
    (hBody : ReadsBlock xs body) (hRest : ReadsRest vs ss) :
    ReadsBlock
      (.fixed .forWord :: (parens (ts ++ .fixed .semicolon :: us ++ .fixed .semicolon :: ws) ++ braces xs ++ vs))
      (.forLoop span init c step body :: ss) := by
  refine readsBlock_construct (n := .forLoop) (by decide) (List.cons_ne_nil _ _) fun i => ?_
  obtain ⟨first, condition, second, block, init', c', step', body', hHead, hFirst, hCondition, hSecond, hBlock⟩ :=
    covers_forHead i hInit hCondition hStep hBody
  generalize parens (ts ++ .fixed .semicolon :: us ++ .fixed .semicolon :: ws) ++ braces xs = head at hHead ⊢
  obtain ⟨trees, ss', hTrails, hTrees, hRestBare⟩ := hRest (i + head.length)
  obtain ⟨place, hNode⟩ : ∃ place, Tree.Derivation .forLoop i (head ++ vs)
      (.node .forLoop place (first :: condition :: second :: block :: trees) none) :=
    hTrails.derivation (by decide) (by decide) (.inl rfl) hHead
  refine ⟨_, .forLoop place init' c' step' body' :: ss', hNode, ?_, ?_⟩
  · rw [ofConstruct, hFirst.1, hCondition.1, hSecond.1, hBlock.1, hTrees]
    rfl
  · rw [blockBare, blockBare, bare, bare, hFirst.2, hCondition.2, hSecond.2, hBlock.2, hRestBare]

theorem paramsOfTrees_node {span : Span} {children : List Tree} {params : List String}
    (h : paramsOfTrees children = .ok params) : paramsOfTrees [.node .params span children none] = .ok params := by
  rw [paramsOfTrees, h, paramsOfTrees]
  exact congrArg Except.ok (List.append_nil _)

theorem readsParams (params : List String) (i : Nat) :
    ∃ tree, Tree.Derivation .params i (paramTokens params ++ [.fixed .closeParen]) tree ∧
      paramsOfTrees [tree] = .ok params := by
  induction params generalizing i with
  | nil =>
    have hNode : Tree.Derivation .params i [.fixed .closeParen] (.node .params ⟨i, i + 1⟩ [] none) :=
      ⟨[.literal .closeParen], by decide, [.inl (.fixed .closeParen)], .token rfl (.nil false _), rfl⟩
    exact ⟨_, hNode, paramsOfTrees_node (by rw [paramsOfTrees])⟩
  | cons p rest ih =>
    have hName := Expr.derivation_name i p
    cases rest with
    | nil =>
      have hCovers : Tree.Covers true [.rule .ident, .literal .closeParen] i [⟨.name, p⟩, .fixed .closeParen]
          [.inr (.leaf .ident i ⟨.name, p⟩), .inl (.fixed .closeParen)] :=
        hName.covers (.inr (.inr rfl)) (.token rfl (.nil false _))
      refine ⟨_, hCovers.derivation (by decide), paramsOfTrees_node ?_⟩
      change paramsOfTrees [.leaf .ident i ⟨.name, p⟩] = _
      rw [paramsOfTrees, paramsOfTrees]
      rfl
    | cons next rest =>
      obtain ⟨later, hLater, hTree⟩ := ih (i + 1 + 1)
      have hCovers : Tree.Covers true [.rule .ident, .literal .comma, .rule .params] i
          (paramTokens (p :: next :: rest) ++ [.fixed .closeParen])
          [.inr (.leaf .ident i ⟨.name, p⟩), .inl (.fixed .comma), .inr later] :=
        hName.covers (.inr (.inr rfl)) (.token rfl (hLater.covers_last (.inl (by simp))))
      refine ⟨_, hCovers.derivation (by decide), paramsOfTrees_node ?_⟩
      change paramsOfTrees [.leaf .ident i ⟨.name, p⟩, later] = _
      rw [paramsOfTrees, hTree]
      rfl

theorem readsBlock_function {us vs : List Token} {body ss : List Stmt} (span : Span) (name : String)
    (params : List String) (hBody : ReadsBlock us body) (hRest : ReadsRest vs ss) :
    ReadsBlock (.fixed .func :: (⟨.name, name⟩ :: parens (paramTokens params) ++ braces us ++ vs))
      (.function span name params body :: ss) := by
  refine readsBlock_construct (n := .function) (by decide) (List.cons_ne_nil _ _) fun i => ?_
  obtain ⟨list, hParams, hParamsTree⟩ := readsParams params (i + 1 + 1)
  obtain ⟨block, body', hBlock, hBlockTree, hBlockBare, -⟩ :=
    hBody (i + (⟨.name, name⟩ :: parens (paramTokens params) : List Token).length + 1)
  have hHead : Tree.Covers true functionHead i (⟨.name, name⟩ :: parens (paramTokens params) ++ braces us)
      [.inl ⟨.name, name⟩, .inl (.fixed .openParen), .inr list, .inl (.fixed .openBrace), .inr block,
        .inl (.fixed .closeBrace)] :=
    Tree.Covers.append (p := [.literal .name, .literal .openParen, .rule .params])
      (.token rfl (.token rfl (hParams.covers_last (.inl (by simp))))) (covers_braces hBlock)
  generalize (⟨.name, name⟩ :: parens (paramTokens params) ++ braces us : List Token) = head at hHead ⊢
  obtain ⟨trees, ss', hTrails, hTrees, hRestBare⟩ := hRest (i + head.length)
  obtain ⟨place, hNode⟩ : ∃ place, Tree.Derivation .function i (head ++ vs)
      (.node .function place (list :: block :: trees) (some ⟨.name, name⟩)) :=
    hTrails.derivation (by decide) (by decide) (.inr rfl) hHead
  refine ⟨_, .function place name params body' :: ss', hNode, ?_, ?_⟩
  · rw [ofConstruct, hParamsTree, hBlockTree, hTrees]
    rfl
  · rw [blockBare, blockBare, bare, bare, hBlockBare, hRestBare]

/-! ## Statements -/

theorem blockTokens_eq_nil {ss : List Stmt} : blockTokens ss = [] ↔ ss = [] := by
  cases ss with
  | nil => simp [blockTokens]
  | cons s rest => cases s <;> simp [blockTokens, tokens]

mutual

theorem readsBlock_cons {ts : List Token} {ss : List Stmt} (hRest : ReadsRest ts ss) :
    ∀ s : Stmt, s.assignHeads = true → ReadsBlock (s.tokens ++ ts) (s :: ss)
  | .assign span name e, _ =>
    readsBlock_line (readsAssign rfl).line hRest
  | .expr span e, _ =>
    readsBlock_line (readsLine_expr span e) hRest
  | .forLoop span init c step body, h => by
    rw [assignHeads, Bool.and_eq_true, Bool.and_eq_true] at h
    rw [tokens]
    exact readsBlock_for span (readsAssign h.1.1) (readsExpr c) (readsAssign h.1.2) (readsBlock body h.2) hRest
  | .function span name params body, h => by
    rw [assignHeads] at h
    rw [tokens]
    exact readsBlock_function span name params (readsBlock body h) hRest
  | .branch span c yes no, h => by
    rw [assignHeads, Bool.and_eq_true] at h
    have hYes := readsBlock yes h.1
    have hNo := readsBlock no h.2
    rw [tokens]
    cases no with
    | nil =>
      rw [List.isEmpty_nil, if_pos rfl, List.append_nil]
      exact readsBlock_branch span (readsExpr c) hYes hRest
    | cons other rest =>
      rw [List.isEmpty_cons, if_neg Bool.false_ne_true, List.append_assoc]
      exact readsBlock_branch_else span (readsExpr c) hYes hNo hRest
  | .print span e, _ =>
    readsBlock_line (readsLine_print span e) hRest
  | .ret span none, _ =>
    readsBlock_line (readsLine_ret_none span) hRest
  | .ret span (some e), _ =>
    readsBlock_line (readsLine_ret_some span e) hRest
  | .whileLoop span c body, h => by
    rw [assignHeads] at h
    rw [tokens]
    exact readsBlock_while span (readsExpr c) (readsBlock body h) hRest

theorem readsBlock : ∀ ss : List Stmt, blockAssignHeads ss = true → ReadsBlock (blockTokens ss) ss
  | [], _ => by
    rw [blockTokens]
    exact readsBlock_nil
  | s :: rest, h => by
    rw [blockAssignHeads, Bool.and_eq_true] at h
    rw [blockTokens]
    exact readsBlock_cons ((readsBlock rest h.2).rest blockTokens_eq_nil) s h.1

end

end Stmt

namespace Toolchain

/-- Parsing gives statements back from their tokens, except for the spans. -/
theorem parse_blockTokens (statements : List Stmt) (hHeads : Stmt.blockAssignHeads statements = true) :
    (parse (Stmt.blockTokens statements)).map Stmt.blockBare = .ok (Stmt.blockBare statements) := by
  obtain ⟨tree, statements', hDerivation, hTree, hBare, -⟩ := Stmt.readsBlock statements hHeads 0
  rw [parse, (Tree.parse_eq_ok_iff _ tree).mpr hDerivation]
  change (Except.mapError _ (Stmt.ofBlock tree)).map Stmt.blockBare = _
  rw [hTree, ← hBare]
  rfl

/-- The tokens of `for (i = a - b - (a - b); i; i = -(7)) { }`. -/
theorem parse_blockTokens_for :
    (parse [.fixed .forWord, .fixed .openParen, ⟨.name, "i"⟩, .fixed .assign, ⟨.name, "a"⟩, .fixed .minus,
      ⟨.name, "b"⟩, .fixed .minus, .fixed .openParen, ⟨.name, "a"⟩, .fixed .minus, ⟨.name, "b"⟩, .fixed .closeParen,
      .fixed .semicolon, ⟨.name, "i"⟩, .fixed .semicolon, ⟨.name, "i"⟩, .fixed .assign, .fixed .minus,
      .fixed .openParen, ⟨.number, "7"⟩, .fixed .closeParen, .fixed .closeParen, .fixed .openBrace,
      .fixed .closeBrace]).map Stmt.blockBare =
    .ok [.forLoop .nowhere
      (.assign .nowhere "i" (.binary .sub .nowhere
        (.binary .sub .nowhere (.var .nowhere "a") (.var .nowhere "b"))
        (.binary .sub .nowhere (.var .nowhere "a") (.var .nowhere "b"))))
      (.var .nowhere "i") (.assign .nowhere "i" (.unary .neg .nowhere (.int .nowhere 7))) []] :=
  parse_blockTokens
    [.forLoop .nowhere
      (.assign .nowhere "i" (.binary .sub .nowhere
        (.binary .sub .nowhere (.var .nowhere "a") (.var .nowhere "b"))
        (.binary .sub .nowhere (.var .nowhere "a") (.var .nowhere "b"))))
      (.var .nowhere "i") (.assign .nowhere "i" (.unary .neg .nowhere (.int .nowhere 7))) []] rfl

end Toolchain

end Vee
