import Vee.Proofs.Parsing.Moving
import Vee.Proofs.Parsing.Origin
import Vee.Proofs.Parsing.Shapes
import Vee.Stmt.Walk

/-! # Where statements and expressions lie

Every tree in a parse tree is the tree of its own rule over the tokens in its span. So the tokens in the span of an
expression, parsed alone, give the expression back at another place, and those in the span of a statement the
statement. An operation of two operands is an exception: its span runs from one operand to the other, and leaves
parentheses out.
-/

namespace Vee

set_option autoImplicit false

open Grammar Effect

/-! ## Phrases -/

mutual

/-- The statements and expressions of a statement, with those in the bodies of functions. -/
def Stmt.phrases : Stmt → List Phrase
  | .assign span name e => .stmt (.assign span name e) :: e.walk
  | .expr span e => .stmt (.expr span e) :: e.walk
  | .forLoop span init c step body =>
    .stmt (.forLoop span init c step body) :: (init.phrases ++ c.walk ++ step.phrases ++ Stmt.allPhrases body)
  | .function span name params body => .stmt (.function span name params body) :: Stmt.allPhrases body
  | .branch span c yes no =>
    .stmt (.branch span c yes no) :: (c.walk ++ Stmt.allPhrases yes ++ Stmt.allPhrases no)
  | .print span e => .stmt (.print span e) :: e.walk
  | .ret span none => [.stmt (.ret span none)]
  | .ret span (some e) => .stmt (.ret span (some e)) :: e.walk
  | .whileLoop span c body => .stmt (.whileLoop span c body) :: (c.walk ++ Stmt.allPhrases body)

def Stmt.allPhrases : List Stmt → List Phrase
  | [] => []
  | s :: rest => s.phrases ++ Stmt.allPhrases rest

end

theorem Expr.walkList_append (first second : List Expr) :
    walkList (first ++ second) = walkList first ++ walkList second := by
  induction first with
  | nil => rfl
  | cons e rest ih => rw [List.cons_append, walkList, walkList, ih, List.append_assoc]

/-- A statement that ends with a semicolon. -/
def Stmt.isLine : Stmt → Bool
  | .assign .. | .expr .. | .print .. | .ret .. => true
  | _ => false

/-- Anything but an operation of two operands. -/
def Expr.isOperand : Expr → Bool
  | .binary .. => false
  | _ => true

/-- The expression of tokens that stand alone. -/
def Expr.ofTokens? (tokens : List Token) : Option Expr := do
  let tree ← (Tree.Match.run tokens.toArray .or ⟨0, tokens.length⟩ ∅).1
  (Expr.ofTree none tree).toOption

/-- The statement of tokens that stand alone in front of a semicolon. -/
def Stmt.ofTokens? (tokens : List Token) : Option Stmt := do
  let tree ← (Tree.Match.run tokens.toArray .line ⟨0, tokens.length⟩ ∅).1
  (Stmt.ofLine tree).toOption

/-- The span has tokens, and they alone give the expression, up to where it stands. -/
def Expr.LiesIn (tokens : List Token) (e : Expr) : Prop :=
  e.span.start < e.span.stop ∧ e.span.stop ≤ tokens.length ∧
    (ofTokens? (tokens.extract e.span.start e.span.stop)).map (Expr.moved e.span.start) = some e

/-- The span has tokens, and they alone give the statement, up to where it stands. -/
def Stmt.LiesIn (tokens : List Token) (s : Stmt) : Prop :=
  s.span.start < s.span.stop ∧ s.span.stop ≤ tokens.length ∧
    (ofTokens? (tokens.extract s.span.start s.span.stop)).map (Stmt.moved s.span.start) = some s

def Phrase.LiesIn (tokens : List Token) : Phrase → Prop
  | .stmt s => s.isLine = true → s.LiesIn tokens
  | .expr e => e.isOperand = true → e.LiesIn tokens

/-! ## Trees over their tokens -/

namespace Tree

/-- A tree over the tokens from an index on, with only such trees below it. -/
inductive Rooted (tokens : List Token) : Tree → Prop where
  | leaf {rule : Name} {i : Nat} {t : Token} (hTokens : [t] <+: tokens.drop i)
      (hDerivation : Derivation rule i [t] (.leaf rule i t)) : Rooted tokens (.leaf rule i t)
  | node {rule : Name} {i : Nat} {ts : List Token} {children : List Tree} {operator : Option Token}
      (hTokens : ts <+: tokens.drop i)
      (hDerivation : Derivation rule i ts (.node rule ⟨i, i + ts.length⟩ children operator))
      (hChildren : ∀ child ∈ children, Rooted tokens child) :
      Rooted tokens (.node rule ⟨i, i + ts.length⟩ children operator)

variable {tokens : List Token}

theorem Rooted.of_mem {rule : Name} {span : Span} {children : List Tree} {operator : Option Token} {child : Tree}
    (h : Rooted tokens (.node rule span children operator)) (hMem : child ∈ children) : Rooted tokens child := by
  cases h with
  | node _ _ hChildren => exact hChildren child hMem

theorem Rooted.exists_derivation {tree : Tree} (h : Rooted tokens tree) :
    ∃ ts, ts <+: tokens.drop tree.span.start ∧ tree.span.stop = tree.span.start + ts.length ∧
      Derivation tree.rule tree.span.start ts tree := by
  cases h with
  | leaf hTokens hDerivation => exact ⟨_, hTokens, rfl, hDerivation⟩
  | node hTokens hDerivation _ => exact ⟨_, hTokens, rfl, hDerivation⟩

theorem rooted_assemble {r : Name} {q : Pattern} {i : Nat} {ts : List Token} {parts : List Part}
    (hMem : q ∈ (table r).alternatives) (hCovers : Covers true q i ts parts) (hTokens : ts <+: tokens.drop i)
    (hParts : ∀ tree, .inr tree ∈ parts → Rooted tokens tree) :
    Rooted tokens (assemble r ⟨i, i + ts.length⟩ parts) := by
  have hDerivation : Derivation r i ts (assemble r ⟨i, i + ts.length⟩ parts) := ⟨q, hMem, parts, hCovers, rfl⟩
  rcases assemble_cases r ⟨i, i + ts.length⟩ parts with ⟨tree, rfl, hTree⟩ | ⟨t, rfl, -, hLeaf⟩ | hNode
  -- The tree of a lone reference has the span of the reference, under the rule that made it.
  · rw [hTree]
    exact hParts tree (List.mem_singleton.mpr rfl)
  · rw [hLeaf] at hDerivation ⊢
    cases hCovers with
    | token _ hRest =>
      cases hRest
      exact .leaf hTokens hDerivation
  · rw [hNode] at hDerivation ⊢
    exact .node hTokens hDerivation fun child hChild => hParts child (mem_of_getRight hChild)

theorem Covers.rooted {whole : Bool} {p : Pattern} {i : Nat} {ts : List Token} {parts : List Part}
    (h : Covers whole p i ts parts) (hTokens : ts <+: tokens.drop i) :
    ∀ tree, .inr tree ∈ parts → Rooted tokens tree := by
  induction h with
  | nil => exact nofun
  | @token whole e p i t ts parts _ _ ih =>
    intro tree hMem
    rcases List.mem_cons.mp hMem with hEq | hMem
    · cases hEq
    · exact ih (prefix_drop [t] hTokens) tree hMem
  | @rule whole r q p i us vs inner parts hAlternative hFirst _ _ ihFirst ihRest =>
    intro tree hMem
    rcases List.mem_cons.mp hMem with hEq | hMem
    · cases hEq
      have hFront := (List.prefix_append us vs).trans hTokens
      exact rooted_assemble hAlternative hFirst hFront (ihFirst hFront)
    · exact ihRest (prefix_drop us hTokens) tree hMem

theorem Derivation.rooted {n : Name} {tree : Tree} (h : Derivation n 0 tokens tree) : Rooted tokens tree := by
  obtain ⟨p, hMem, parts, hCovers, rfl⟩ := h
  exact rooted_assemble hMem hCovers List.prefix_rfl (hCovers.rooted List.prefix_rfl)

/-- The tokens of a tree, matched alone against a rule that has the tree, stand for what the tree stands for, at
another place. -/
theorem Rooted.lower_alone {α : Type} {n : Name} {tree : Tree} {lower : Tree → Except ShapeError α}
    {move : Nat → α → α} {a : α} (h : Rooted tokens tree)
    (hCarries : ∀ k own, Carries (move k) (lower own) (lower (own.moved k))) (hLower : lower tree = .ok a)
    (hRule : ∀ i ts, Derivation tree.rule i ts tree → Derivation n i ts tree)
    (hNonempty : ∀ i ts, Derivation n i ts tree → ts ≠ []) :
    tree.span.start < tree.span.stop ∧ tree.span.stop ≤ tokens.length ∧
      ((Match.run (tokens.extract tree.span.start tree.span.stop).toArray n
        ⟨0, (tokens.extract tree.span.start tree.span.stop).length⟩ ∅).1.bind fun own => (lower own).toOption).map
          (move tree.span.start) = some a := by
  obtain ⟨ts, hTokens, hStop, hDerivation⟩ := h.exists_derivation
  have hAlone := hRule _ _ hDerivation
  have hPos : 0 < ts.length := List.length_pos_iff.mpr (hNonempty _ _ hAlone)
  have hLength : ts.length ≤ tokens.length - tree.span.start := List.length_drop ▸ hTokens.length_le
  have hSlice : tokens.extract tree.span.start tree.span.stop = ts := by
    rw [List.extract_eq_take_drop, hStop, Nat.add_sub_cancel_left]
    exact (List.prefix_iff_eq_take.mp hTokens).symm
  obtain ⟨own, hOwn, hMoved⟩ := hAlone.exists_moved
  have hResult := hCarries tree.span.start own
  rw [hMoved] at hResult
  obtain ⟨b, hLowered, rfl⟩ := hResult.exists_of_ok hLower
  refine ⟨by omega, by omega, ?_⟩
  rw [hSlice, (run_eq_some_iff n ts own).mpr hOwn, Option.bind_some, hLowered]
  rfl

end Tree

/-! ## Expressions -/

/-- All of the phrases lie where their spans say. -/
def Phrase.AllLieIn (tokens : List Token) (phrases : List Phrase) : Prop := ∀ p ∈ phrases, p.LiesIn tokens

theorem Phrase.allLieIn_nil {tokens : List Token} : AllLieIn tokens [] := List.forall_mem_nil _

theorem Phrase.AllLieIn.append {tokens : List Token} {first second : List Phrase} (hFirst : AllLieIn tokens first)
    (hSecond : AllLieIn tokens second) : AllLieIn tokens (first ++ second) :=
  List.forall_mem_append.mpr ⟨hFirst, hSecond⟩

namespace Expr

open Phrase

variable {tokens : List Token}

/-- The rules of trees that stand for expressions. -/
theorem rule_of_ofTree {left : Option LeftOperand} {tree : Tree} {e : Expr} :
    ofTree left tree = .ok e → (∃ q, ruleAt q = tree.rule) ∨ [.rule tree.rule] ∈ (table .item).alternatives := by
  fun_cases ofTree left tree with
  | case1 | case2 | case6 =>
    intro _
    right
    rw [Tree.rule]
    decide
  | case4 => exact fun _ => .inl ⟨8, rfl⟩
  | case8 | case9 => exact fun _ => .inl ⟨7, rfl⟩
  | case11 rule span operator hItem hCall hUnary a b tail op hOperator =>
    intro _
    left
    cases rule with
    | or => exact ⟨1, rfl⟩
    | and => exact ⟨2, rfl⟩
    | equality => exact ⟨3, rfl⟩
    | comparison => exact ⟨4, rfl⟩
    | sum => exact ⟨5, rfl⟩
    | product => exact ⟨6, rfl⟩
    | _ => cases hOperator
  | case3 | case5 | case7 | case10 | case12 =>
    intro h
    cases h

theorem derivation_or {left : Option LeftOperand} {tree : Tree} {e : Expr} (h : ofTree left tree = .ok e) {i : Nat}
    {ts : List Token} (hTree : Tree.Derivation tree.rule i ts tree) : Tree.Derivation .or i ts tree := by
  rcases rule_of_ofTree h with ⟨q, hRule⟩ | hItem
  · rw [← hRule] at hTree
    exact derivation_ruleAt_mono (Nat.zero_le q) hTree
  · have hTree : Tree.Derivation (ruleAt 8) i ts tree := derivation_single hItem hTree
    exact derivation_ruleAt_mono (Nat.zero_le 8) hTree

theorem liesIn_of_span {tree : Tree} {e : Expr} (hTree : tree.Rooted tokens) (h : ofTree none tree = .ok e)
    (hSpan : e.span = tree.span) : e.LiesIn tokens := by
  rw [LiesIn, hSpan]
  exact hTree.lower_alone (fun k own => carries_ofTree k none own) h (fun _ _ => derivation_or h)
    fun _ _ => ne_nil_of_ruleAt (q := 0)

theorem allLieIn_own {tree : Tree} {e : Expr} {below : List Phrase} (hTree : tree.Rooted tokens)
    (h : ofTree none tree = .ok e) (hSpan : e.span = tree.span) (hBelow : AllLieIn tokens below) :
    AllLieIn tokens (below ++ [.expr e]) := by
  refine hBelow.append (List.forall_mem_singleton.mpr ?_)
  intro _
  exact liesIn_of_span hTree h hSpan

theorem allLieIn_join {left : Option LeftOperand} {e : Expr} (hLeft : ∀ l ∈ left, AllLieIn tokens l.value.walk)
    (h : AllLieIn tokens e.walk) : AllLieIn tokens (LeftOperand.join left e).walk := by
  cases left with
  | none => exact h
  | some l =>
    rw [LeftOperand.join, walk]
    refine ((hLeft l rfl).append h).append (List.forall_mem_singleton.mpr ?_)
    intro hOperand
    cases hOperand

theorem allLieIn_nothing : ∀ l ∈ (none : Option LeftOperand), AllLieIn tokens l.value.walk := by
  rintro _ ⟨⟩

theorem exists_of_ofLiteral {span : Span} {literal : String} {e : Expr} (h : ofLiteral span literal = .ok e) :
    ∃ n, e = .int span n := by
  unfold ofLiteral at h
  split at h
  · cases h
    exact ⟨_, rfl⟩
  · cases h

mutual

/-- The phrases of a tree's expression lie where their spans say, if those of what waits on the left do. -/
theorem allLieIn_ofTree (left : Option LeftOperand) (tree : Tree) (e : Expr) (hTree : tree.Rooted tokens)
    (hLeft : ∀ l ∈ left, AllLieIn tokens l.value.walk) :
    ofTree left tree = .ok e → AllLieIn tokens e.walk := by
  fun_cases ofTree left tree with
  | case1 index token =>
    intro h
    obtain ⟨x, hLiteral, hResult⟩ := exists_of_except_bind h
    cases hResult
    refine allLieIn_join hLeft ?_
    have hOwn : ofTree none (.leaf .number index token) = .ok x := by
      rw [ofTree, hLiteral]
      rfl
    obtain ⟨n, rfl⟩ := exists_of_ofLiteral hLiteral
    exact allLieIn_own hTree hOwn rfl allLieIn_nil
  | case2 index token =>
    intro h
    cases h
    refine allLieIn_join hLeft ?_
    have hOwn : ofTree none (.leaf .ident index token) = .ok (.var ⟨index, index + 1⟩ token.text) := by
      rw [ofTree]
      rfl
    exact allLieIn_own hTree hOwn rfl allLieIn_nil
  | case4 span operator inner tail =>
    intro h
    obtain ⟨x, hInner, hResult⟩ := exists_of_except_bind h
    cases hResult
    refine allLieIn_join hLeft ?_
    -- Parentheses leave nothing behind: what they enclose keeps its own span.
    exact allLieIn_ofTree none inner x (hTree.of_mem List.mem_cons_self) allLieIn_nothing hInner
  | case6 span operator args rest =>
    intro h
    obtain ⟨values, hArgs, h⟩ := exists_of_except_bind h
    obtain ⟨name, hName, hResult⟩ := exists_of_except_bind h
    cases hResult
    refine allLieIn_join hLeft ?_
    have hOwn : ofTree none (.node .call span (args :: rest) operator) = .ok (.call span name values) := by
      rw [ofTree, hArgs]
      change nameOf .call span operator >>= _ = _
      rw [hName]
      rfl
    rw [walk]
    exact allLieIn_own hTree hOwn rfl (allLieIn_ofArgs (args :: rest) values (fun _ => hTree.of_mem) hArgs)
  | case8 span operator index token tail hMinus =>
    intro h
    obtain ⟨x, hLiteral, hResult⟩ := exists_of_except_bind h
    cases hResult
    refine allLieIn_join hLeft ?_
    have hOwn : ofTree none (.node .unary span (.leaf .number index token :: tail) operator) = .ok x := by
      rw [ofTree.eq_8 _ _ _ _ _ _ hMinus, hLiteral]
      rfl
    obtain ⟨n, rfl⟩ := exists_of_ofLiteral hLiteral
    exact allLieIn_own hTree hOwn rfl allLieIn_nil
  | case9 span operator operand tail op hLiteral hOperator =>
    intro h
    obtain ⟨x, hOperand, hResult⟩ := exists_of_except_bind h
    cases hResult
    refine allLieIn_join hLeft ?_
    have hOwn : ofTree none (.node .unary span (operand :: tail) operator) = .ok (.unary op span x) := by
      rw [ofTree.eq_9 _ _ _ _ _ _ hLiteral hOperator, hOperand]
      rfl
    rw [walk]
    refine allLieIn_own hTree hOwn rfl ?_
    exact allLieIn_ofTree none operand x (hTree.of_mem List.mem_cons_self) allLieIn_nothing hOperand
  | case11 rule span operator hItem hCall hUnary a b tail op hOperator =>
    intro h
    obtain ⟨first, hFirst, h⟩ := exists_of_except_bind h
    have hLater : b.Rooted tokens := hTree.of_mem (List.mem_cons_of_mem _ List.mem_cons_self)
    have hFirstLies := allLieIn_ofTree none a first (hTree.of_mem List.mem_cons_self) allLieIn_nothing hFirst
    split at h
    -- In a chain the operation so far waits for the next operand; otherwise only the first operand does.
    · refine allLieIn_ofTree _ b e hLater ?_ h
      rintro _ ⟨⟩
      exact allLieIn_join hLeft hFirstLies
    · obtain ⟨x, hSecond, hResult⟩ := exists_of_except_bind h
      cases hResult
      refine allLieIn_join hLeft (allLieIn_ofTree _ b x hLater ?_ hSecond)
      rintro _ ⟨⟩
      exact hFirstLies
  | case3 | case5 | case7 | case10 | case12 =>
    intro h
    cases h
termination_by sizeOf tree
decreasing_by
  all_goals
    subst_vars
    simp only [Tree.node.sizeOf_spec, List.cons.sizeOf_spec]
    omega

theorem allLieIn_ofArgs (trees : List Tree) (args : List Expr) (hTrees : ∀ t ∈ trees, t.Rooted tokens) :
    ofArgs trees = .ok args → AllLieIn tokens (walkList args) := by
  fun_cases ofArgs trees with
  | case1 =>
    intro h
    cases h
    exact allLieIn_nil
  | case2 span children operator rest =>
    intro h
    obtain ⟨hArgs, hRest⟩ := List.forall_mem_cons.mp hTrees
    obtain ⟨first, hFirst, h⟩ := exists_of_except_bind h
    obtain ⟨more, hMore, hResult⟩ := exists_of_except_bind h
    cases hResult
    rw [walkList_append]
    have hFirstLies := allLieIn_ofArgs children first (fun _ => hArgs.of_mem) hFirst
    exact hFirstLies.append (allLieIn_ofArgs rest more hRest hMore)
  | case3 tree rest hNode =>
    intro h
    obtain ⟨hTree, hRest⟩ := List.forall_mem_cons.mp hTrees
    obtain ⟨first, hFirst, h⟩ := exists_of_except_bind h
    obtain ⟨more, hMore, hResult⟩ := exists_of_except_bind h
    cases hResult
    rw [walkList]
    have hFirstLies := allLieIn_ofTree none tree first hTree allLieIn_nothing hFirst
    exact hFirstLies.append (allLieIn_ofArgs rest more hRest hMore)
termination_by sizeOf trees
decreasing_by
  all_goals
    subst_vars
    simp only [Tree.node.sizeOf_spec, List.cons.sizeOf_spec]
    omega

end

end Expr

/-! ## Statements -/

namespace Stmt

open Phrase

variable {tokens : List Token}

/-- Only an empty pattern and a lone reference can spell nothing. -/
theorem not_derives_nil {n : Name} (hEmpty : [] ∉ (table n).alternatives)
    (hSingle : ∀ r, [.rule r] ∉ (table n).alternatives) : ¬ Derives n [] := by
  rintro ⟨p, hMem, hSpells⟩
  generalize hKinds : ([] : List Token.Kind) = ks at hSpells
  cases hSpells with
  | nil => exact hEmpty hMem
  | token => cases hKinds
  | rule _ _ _ hRest =>
    obtain ⟨-, rfl⟩ := List.append_eq_nil_iff.mp hKinds.symm
    cases hRest.eq_nil
    exact hSingle _ hMem

theorem line_ne_nil {ks : List Token.Kind} (h : Derives .line ks) : ks ≠ [] := by
  rintro rfl
  obtain ⟨p, hMem, hSpells⟩ := h
  simp only [table, List.mem_cons, List.not_mem_nil, or_false] at hMem
  rcases hMem with rfl | rfl | rfl | rfl
  · exact not_derives_nil (by decide) (by simp [table]) (spells_single_iff.mp hSpells)
  · exact not_derives_nil (by decide) (by simp [table]) (spells_single_iff.mp hSpells)
  · exact not_derives_nil (by decide) (by simp [table]) (spells_single_iff.mp hSpells)
  · exact Derives.ne_nil rfl (spells_single_iff.mp hSpells) rfl

theorem rule_of_ofLine {tree : Tree} {s : Stmt} : ofLine tree = .ok s →
    [.rule tree.rule] ∈ (table .line).alternatives ∨ ∃ e, Expr.ofTree none tree = .ok e := by
  fun_cases ofLine tree with
  | case1 | case2 | case3 | case4 =>
    intro _
    left
    rw [Tree.rule]
    decide
  | case5 tree hAssign hPrint hRet hRetValue =>
    intro h
    obtain ⟨e, hExpr, -⟩ := exists_of_except_bind h
    exact .inr ⟨e, hExpr⟩

theorem derivation_line {tree : Tree} {s : Stmt} (h : ofLine tree = .ok s) {i : Nat} {ts : List Token}
    (hTree : Tree.Derivation tree.rule i ts tree) : Tree.Derivation .line i ts tree := by
  rcases rule_of_ofLine h with hMem | ⟨e, hExpr⟩
  · exact Expr.derivation_single hMem hTree
  · exact Expr.derivation_single (by decide) (Expr.derivation_or hExpr hTree)

theorem liesIn_of_span {tree : Tree} {s : Stmt} (hTree : tree.Rooted tokens) (h : ofLine tree = .ok s)
    (hSpan : s.span = tree.span) : s.LiesIn tokens := by
  rw [LiesIn, hSpan]
  refine hTree.lower_alone carries_ofLine h (fun _ _ => derivation_line h) ?_
  intro i ts hLine hNil
  exact line_ne_nil hLine.derives (List.map_eq_nil_iff.mpr hNil)

theorem allLieIn_line {tree : Tree} {s : Stmt} {below : List Phrase} (hTree : tree.Rooted tokens)
    (h : ofLine tree = .ok s) (hSpan : s.span = tree.span) (hBelow : AllLieIn tokens below) :
    AllLieIn tokens (.stmt s :: below) := by
  refine List.forall_mem_cons.mpr ⟨?_, hBelow⟩
  intro _
  exact liesIn_of_span hTree h hSpan

theorem allLieIn_ofTree {tree : Tree} {e : Expr} (hTree : tree.Rooted tokens) (h : Expr.ofTree none tree = .ok e) :
    AllLieIn tokens e.walk := Expr.allLieIn_ofTree none tree e hTree Expr.allLieIn_nothing h

theorem allLieIn_ofAssign {tree : Tree} {s : Stmt} (hTree : tree.Rooted tokens) (h : ofAssign tree = .ok s) :
    AllLieIn tokens s.phrases := by
  have hLine := ofLine_of_ofAssign h
  revert h
  fun_cases ofAssign tree with
  | case1 span index target value tail operator =>
    intro h
    obtain ⟨e, hExpr, hResult⟩ := exists_of_except_bind h
    cases hResult
    rw [phrases]
    refine allLieIn_line hTree hLine rfl (allLieIn_ofTree (hTree.of_mem ?_) hExpr)
    exact List.mem_cons_of_mem _ List.mem_cons_self
  | case2 =>
    intro h
    cases h

theorem allLieIn_ofLine {tree : Tree} {s : Stmt} (hTree : tree.Rooted tokens) (h : ofLine tree = .ok s) :
    AllLieIn tokens s.phrases := by
  have hLine := h
  revert h
  fun_cases ofLine tree with
  | case1 span children operator => exact allLieIn_ofAssign hTree
  | case2 span value tail operator =>
    intro h
    obtain ⟨e, hExpr, hResult⟩ := exists_of_except_bind h
    cases hResult
    rw [phrases]
    exact allLieIn_line hTree hLine rfl (allLieIn_ofTree (hTree.of_mem List.mem_cons_self) hExpr)
  | case3 span operator =>
    intro h
    cases h
    exact allLieIn_line hTree hLine rfl allLieIn_nil
  | case4 span value tail operator =>
    intro h
    obtain ⟨e, hExpr, hResult⟩ := exists_of_except_bind h
    cases hResult
    rw [phrases]
    exact allLieIn_line hTree hLine rfl (allLieIn_ofTree (hTree.of_mem List.mem_cons_self) hExpr)
  | case5 tree hAssign hPrint hRet hRetValue =>
    intro h
    obtain ⟨e, hExpr, hResult⟩ := exists_of_except_bind h
    cases hResult
    rw [phrases]
    exact allLieIn_line hTree hLine rfl (allLieIn_ofTree hTree hExpr)

/-- A statement that has a block, with the phrases below it. -/
theorem allLieIn_construct {s : Stmt} {below : List Phrase} (hBlock : s.isLine = false)
    (hBelow : AllLieIn tokens below) : AllLieIn tokens (.stmt s :: below) := by
  refine List.forall_mem_cons.mpr ⟨?_, hBelow⟩
  intro hLine
  rw [hBlock] at hLine
  cases hLine

theorem allLieIn_allPhrases {body : List Stmt} (h : ∀ s ∈ body, AllLieIn tokens s.phrases) :
    AllLieIn tokens (allPhrases body) := by
  induction body with
  | nil => exact allLieIn_nil
  | cons s rest ih =>
    obtain ⟨hFirst, hRest⟩ := List.forall_mem_cons.mp h
    exact hFirst.append (ih hRest)

/-- The phrases of all statements of a tree lie where their spans say. -/
theorem traversal_allLieIn :
    Traversal (Tree.Rooted tokens) (fun e => AllLieIn tokens e.walk) fun s => AllLieIn tokens s.phrases where
  child := Tree.Rooted.of_mem
  expr := allLieIn_ofTree
  line := allLieIn_ofLine
  branch := by
    intro span c yes no hCondition hYes hNo
    rw [phrases]
    exact allLieIn_construct rfl ((hCondition.append (allLieIn_allPhrases hYes)).append (allLieIn_allPhrases hNo))
  whileLoop := by
    intro span c body hCondition hBody
    rw [phrases]
    exact allLieIn_construct rfl (hCondition.append (allLieIn_allPhrases hBody))
  forLoop := by
    intro span init step c body hInit hCondition hStep hBody
    rw [phrases]
    exact allLieIn_construct rfl (((hInit.append hCondition).append hStep).append (allLieIn_allPhrases hBody))
  function := by
    intro span children operator name params body _ _ hBody
    rw [phrases]
    exact allLieIn_construct rfl (allLieIn_allPhrases hBody)

end Stmt

namespace Toolchain

/-- Every statement that ends with a semicolon, and every expression but an operation of two operands, lies at the
tokens that its span names: matched alone, they give it back, at the start of the tokens. -/
theorem phrases_lie_at_spans {tokens : List Token} {statements : List Stmt} (h : parse tokens = .ok statements) :
    ∀ p ∈ Stmt.allPhrases statements, p.LiesIn tokens := by
  obtain ⟨tree, hDerivation, hStatements⟩ := exists_derivation_of_parse h
  exact Stmt.allLieIn_allPhrases (Stmt.traversal_allLieIn.block tree statements hDerivation.rooted hStatements)

/-- The assignment `x = (-7);`, in which the number with its sign lies inside the parentheses. -/
theorem phrases_lie_at_spans_assign :
    ∃ tokens statements, tokens = [⟨.name, "x"⟩, .fixed .assign, .fixed .openParen, .fixed .minus, ⟨.number, "7"⟩,
        .fixed .closeParen, .fixed .semicolon] ∧
      statements = [.assign ⟨0, 6⟩ "x" (.int ⟨3, 5⟩ (-7))] ∧
      parse tokens = .ok statements ∧ ∀ p ∈ Stmt.allPhrases statements, p.LiesIn tokens := by
  have hNumber : Tree.Derivation .unary 4 [⟨.number, "7"⟩] (.leaf .number 4 ⟨.number, "7"⟩) :=
    Expr.derivation_ruleAt_succ (q := 7) (Expr.derivation_number 4 "7")
  have hUnary : Tree.Derivation .unary 3 [.fixed .minus, ⟨.number, "7"⟩]
      (.node .unary ⟨3, 5⟩ [.leaf .number 4 ⟨.number, "7"⟩] (some (.fixed .minus))) :=
    Tree.Covers.derivation (.token rfl (hNumber.covers_last (.inl (List.cons_ne_nil _ _)))) List.mem_cons_self
  have hOr : Tree.Derivation .or 3 _ _ := Expr.derivation_ruleAt_mono (p := 7) (Nat.zero_le 7) hUnary
  have hItem : Tree.Derivation .item 2 [.fixed .openParen, .fixed .minus, ⟨.number, "7"⟩, .fixed .closeParen]
      (.node .item ⟨2, 6⟩ [.node .unary ⟨3, 5⟩ [.leaf .number 4 ⟨.number, "7"⟩] (some (.fixed .minus))] none) :=
    Tree.Covers.derivation (p := [.literal .openParen, .rule .or, .literal .closeParen])
      (.token rfl (hOr.covers (.inl (List.cons_ne_nil _ _)) (.token rfl (.nil false _)))) (by decide)
  have hValue : Tree.Derivation .or 2 _ _ := Expr.derivation_ruleAt_mono (p := 8) (Nat.zero_le 8) hItem
  have hAssign : Tree.Derivation .assign 0 [⟨.name, "x"⟩, .fixed .assign, .fixed .openParen, .fixed .minus,
      ⟨.number, "7"⟩, .fixed .closeParen]
      (.node .assign ⟨0, 6⟩ [.leaf .ident 0 ⟨.name, "x"⟩, .node .item ⟨2, 6⟩
        [.node .unary ⟨3, 5⟩ [.leaf .number 4 ⟨.number, "7"⟩] (some (.fixed .minus))] none] none) :=
    Tree.Covers.derivation ((Expr.derivation_name 0 "x").covers (.inl (List.cons_ne_nil _ _))
      (.token rfl (hValue.covers_last (.inl (List.cons_ne_nil _ _))))) List.mem_cons_self
  have hLine : Tree.Derivation .line 0 _ _ := Expr.derivation_single (by decide) hAssign
  have hLines : Tree.Derivation .lines 0 [⟨.name, "x"⟩, .fixed .assign, .fixed .openParen, .fixed .minus,
      ⟨.number, "7"⟩, .fixed .closeParen, .fixed .semicolon]
      (.node .lines ⟨0, 7⟩ [.node .assign ⟨0, 6⟩ [.leaf .ident 0 ⟨.name, "x"⟩, .node .item ⟨2, 6⟩
        [.node .unary ⟨3, 5⟩ [.leaf .number 4 ⟨.number, "7"⟩] (some (.fixed .minus))] none] none] none) :=
    Tree.Covers.derivation (hLine.covers (.inl (List.cons_ne_nil _ _)) (.token rfl (.nil false _))) List.mem_cons_self
  have hTree := (Tree.parse_eq_ok_iff _ _).mpr (Expr.derivation_single (by decide) hLines)
  have hParse : parse [⟨.name, "x"⟩, .fixed .assign, .fixed .openParen, .fixed .minus, ⟨.number, "7"⟩,
      .fixed .closeParen, .fixed .semicolon] = .ok [.assign ⟨0, 6⟩ "x" (.int ⟨3, 5⟩ (-7))] := by
    have hRead : Word.read? ("-" ++ "7").toList = some (-7) := by decide
    rw [parse, hTree]
    change (Tree.statements _).mapError _ = _
    rw [Tree.statements, Stmt.ofBlock, Stmt.ofLine, Stmt.ofAssign, Expr.ofTree, Expr.ofTree_negative none _ _ _ rfl,
      Expr.ofLiteral, hRead, Stmt.ofRest]
    rfl
  exact ⟨_, _, rfl, rfl, hParse, phrases_lie_at_spans hParse⟩

end Toolchain

end Vee
