import Vee.Proofs.Parsing.Columns

/-! # How far statements reach

The trees below a tree lie side by side in its span. A statement that ends with a semicolon has the span of its own
tree, and the rest of its block comes behind it. In the tree of a compound statement the rest of the block is the last
part, so that the span of the statement takes in every statement behind it.
-/

namespace Vee

set_option autoImplicit false

open Grammar

/-! ## Trees side by side -/

namespace Tree

/-- Trees that follow each other between two places. -/
def Laid : Nat → List Tree → Nat → Prop
  | lo, [], hi => lo ≤ hi
  | lo, tree :: rest, hi => lo ≤ tree.span.start ∧ tree.span.start ≤ tree.span.stop ∧ Laid tree.span.stop rest hi

theorem Laid.le {lo hi : Nat} {trees : List Tree} (h : Laid lo trees hi) : lo ≤ hi := by
  induction trees generalizing lo with
  | nil => exact h
  | cons tree rest ih =>
    obtain ⟨hStart, hSpan, hRest⟩ := h
    exact hStart.trans (hSpan.trans (ih hRest))

theorem Laid.mono {lo lo' hi : Nat} {trees : List Tree} (h : Laid lo trees hi) (hLe : lo' ≤ lo) :
    Laid lo' trees hi := by
  cases trees with
  | nil => exact hLe.trans h
  | cons tree rest => exact ⟨hLe.trans h.1, h.2⟩

theorem Laid.of_mem {lo hi : Nat} {trees : List Tree} {tree : Tree} (h : Laid lo trees hi) (hMem : tree ∈ trees) :
    lo ≤ tree.span.start ∧ tree.span.stop ≤ hi := by
  induction trees generalizing lo with
  | nil => cases hMem
  | cons first rest ih =>
    obtain ⟨hStart, hSpan, hRest⟩ := h
    rcases List.mem_cons.mp hMem with rfl | hMem
    · exact ⟨hStart, hRest.le⟩
    · obtain ⟨hBehind, hStop⟩ := ih hRest hMem
      exact ⟨hStart.trans (hSpan.trans hBehind), hStop⟩

/-- A tree whose parts follow each other in its span, all the way down. -/
inductive Nested : Tree → Prop where
  | leaf (rule : Name) (i : Nat) (t : Token) : Nested (.leaf rule i t)
  | node {rule : Name} {span : Span} {children : List Tree} {operator : Option Token}
      (hLaid : Laid span.start children span.stop) (hChildren : ∀ child ∈ children, Nested child) :
      Nested (.node rule span children operator)

section

variable {rule : Name} {span : Span} {children : List Tree} {operator : Option Token} {child : Tree}

theorem Nested.laid (h : Nested (.node rule span children operator)) : Laid span.start children span.stop := by
  cases h with
  | node hLaid _ => exact hLaid

theorem Nested.of_mem (h : Nested (.node rule span children operator)) (hMem : child ∈ children) : Nested child := by
  cases h with
  | node _ hChildren => exact hChildren child hMem

end

variable {whole : Bool} {r : Name} {p : Pattern} {i : Nat} {ts : List Token} {parts : List Part}

theorem Covers.tokens_eq_nil (h : Covers whole p i ts []) : ts = [] := by
  cases h
  rfl

theorem span_assemble (h : Covers whole p i ts parts)
    (hAlone : ∀ tree, parts = [.inr tree] → tree.span = ⟨i, i + ts.length⟩) :
    (assemble r ⟨i, i + ts.length⟩ parts).span = ⟨i, i + ts.length⟩ := by
  rcases assemble_cases r ⟨i, i + ts.length⟩ parts with ⟨tree, rfl, hTree⟩ | ⟨t, rfl, -, hLeaf⟩ | hNode
  · rw [hTree]
    exact hAlone tree rfl
  · cases h with
    | token _ hRest =>
      cases hRest.tokens_eq_nil
      rw [hLeaf]
      rfl
  · rw [hNode]
    rfl

/-- The tree of a lone reference lies over all tokens. -/
theorem Covers.span_alone (h : Covers whole p i ts parts) :
    ∀ tree, parts = [.inr tree] → tree.span = ⟨i, i + ts.length⟩ := by
  induction h with
  | nil =>
    intro tree hParts
    cases hParts
  | token =>
    intro tree hParts
    cases hParts
  | @rule whole r q p i us vs inner parts hMem hFirst hTakes hRest ihFirst ihRest =>
    intro tree hParts
    cases hParts
    rw [hRest.tokens_eq_nil, List.append_nil]
    exact span_assemble hFirst ihFirst

theorem Covers.laid (h : Covers whole p i ts parts) : Laid i (parts.filterMap Sum.getRight?) (i + ts.length) := by
  induction h with
  | nil => exact Nat.le_refl _
  | @token whole e p i t ts parts hAccepts hRest ih =>
    rw [List.length_cons, Nat.add_comm ts.length, ← Nat.add_assoc]
    exact ih.mono (Nat.le_succ i)
  | @rule whole r q p i us vs inner parts hMem hFirst hTakes hRest ihFirst ihRest =>
    rw [List.length_append, ← Nat.add_assoc]
    have hSpan := span_assemble (r := r) hFirst hFirst.span_alone
    refine ⟨?_, ?_, ?_⟩
    · rw [hSpan]
    · rw [hSpan]
      exact Nat.le_add_right _ _
    · rw [hSpan]
      exact ihRest

theorem nested_assemble (h : Covers whole p i ts parts) (hParts : ∀ tree, .inr tree ∈ parts → Nested tree) :
    Nested (assemble r ⟨i, i + ts.length⟩ parts) := by
  rcases assemble_cases r ⟨i, i + ts.length⟩ parts with ⟨tree, rfl, hTree⟩ | ⟨t, rfl, -, hLeaf⟩ | hNode
  · rw [hTree]
    exact hParts tree (List.mem_singleton.mpr rfl)
  · rw [hLeaf]
    exact .leaf _ _ _
  · rw [hNode]
    exact .node h.laid fun child hChild => hParts child (mem_of_getRight hChild)

theorem Covers.nested (h : Covers whole p i ts parts) : ∀ tree, .inr tree ∈ parts → Nested tree := by
  induction h with
  | nil =>
    intro tree hMem
    cases hMem
  | token _ _ ih =>
    intro tree hMem
    rcases List.mem_cons.mp hMem with hEq | hMem
    · cases hEq
    · exact ih tree hMem
  | rule _ hFirst _ _ ihFirst ihRest =>
    intro tree hMem
    rcases List.mem_cons.mp hMem with hEq | hMem
    · cases hEq
      exact nested_assemble hFirst ihFirst
    · exact ihRest tree hMem

theorem Derivation.nested {tree : Tree} (h : Derivation r i ts tree) : Nested tree := by
  obtain ⟨p, -, parts, hCovers, rfl⟩ := h
  exact nested_assemble hCovers hCovers.nested

theorem Derivation.span_eq {tree : Tree} (h : Derivation r i ts tree) : tree.span = ⟨i, i + ts.length⟩ := by
  obtain ⟨p, -, parts, hCovers, rfl⟩ := h
  exact span_assemble hCovers hCovers.span_alone

/-- A tree has tokens if the patterns of its rule are long enough. -/
theorem Rooted.start_lt_stop {tokens : List Token} {rule : Name} {span : Span} {children : List Tree}
    {operator : Option Token} (h : Rooted tokens (.node rule span children operator))
    (hLong : ∀ p ∈ (table rule).alternatives, 2 ≤ p.length) : span.start < span.stop := by
  obtain ⟨ts, -, hStop, hDerivation⟩ := h.exists_derivation
  have hTakes : ts ≠ [] := by
    rintro rfl
    refine Stmt.not_derives_nil ?_ ?_ hDerivation.derives
    · exact fun hMem => absurd (hLong _ hMem) (by simp)
    · exact fun r hMem => absurd (hLong _ hMem) (by simp)
  have hPos := List.length_pos_iff.mpr hTakes
  change span.stop = span.start + ts.length at hStop
  omega

end Tree

/-! ## Blocks -/

namespace Stmt

mutual

/-- The blocks in a statement. -/
def blocks : Stmt → List (List Stmt)
  | .forLoop _ _ _ _ body => body :: blocksBelow body
  | .function _ _ _ body => body :: blocksBelow body
  | .branch _ _ yes no => (yes :: blocksBelow yes) ++ (no :: blocksBelow no)
  | .whileLoop _ _ body => body :: blocksBelow body
  | _ => []

def blocksBelow : List Stmt → List (List Stmt)
  | [] => []
  | s :: rest => s.blocks ++ blocksBelow rest

end

/-- A block and the blocks in it. -/
def allBlocks (statements : List Stmt) : List (List Stmt) := statements :: blocksBelow statements

/-- Where a statement lies that comes behind another in its block. -/
def Precedes (s t : Stmt) : Prop :=
  if s.isLine then s.span.stop ≤ t.span.start else s.span.start ≤ t.span.start ∧ t.span.stop ≤ s.span.stop

/-- A block between two places. -/
structure Ordered (lo hi : Nat) (block : List Stmt) : Prop where
  spans : ∀ s ∈ block, lo ≤ s.span.start ∧ s.span.start < s.span.stop ∧ s.span.stop ≤ hi
  order : block.Pairwise Precedes

theorem ordered_nil (lo hi : Nat) : Ordered lo hi [] := ⟨List.forall_mem_nil _, .nil⟩

theorem Ordered.mono {lo lo' hi hi' : Nat} {block : List Stmt} (h : Ordered lo hi block) (hStart : lo' ≤ lo)
    (hStop : hi ≤ hi') : Ordered lo' hi' block := by
  refine ⟨fun s hMem => ?_, h.order⟩
  have hSpan := h.spans s hMem
  omega

/-- The blocks of statements, all in a span. -/
def Fills (span : Span) (statements : List Stmt) : Prop :=
  ∀ block ∈ allBlocks statements, Ordered span.start span.stop block

variable {tokens : List Token} {span : Span} {s : Stmt} {later : List Stmt}

theorem fills_nil (span : Span) : Fills span [] := List.forall_mem_singleton.mpr (ordered_nil _ _)

theorem Fills.mono {inner : Span} {statements : List Stmt} (h : Fills inner statements)
    (hInside : span.start ≤ inner.start ∧ inner.stop ≤ span.stop) : Fills span statements :=
  fun block hMem => (h block hMem).mono hInside.1 hInside.2

/-- What follows fills any span around its tree. -/
theorem Behind.fills {rest : List Tree} (h : Behind (fun tree => Fills tree.span) rest later)
    (hRest : ∀ t ∈ rest, span.start ≤ t.span.start ∧ t.span.stop ≤ span.stop) : Fills span later := by
  cases rest with
  | nil =>
    cases h
    exact fills_nil span
  | cons t rest => exact Fills.mono h (hRest t List.mem_cons_self)

theorem fills_cons (hBlocks : ∀ block ∈ s.blocks, Ordered span.start span.stop block) (hLater : Fills span later)
    (hSpan : span.start ≤ s.span.start ∧ s.span.start < s.span.stop ∧ s.span.stop ≤ span.stop)
    (hPrecedes : ∀ t ∈ later, s.Precedes t) : Fills span (s :: later) := by
  obtain ⟨hOwn, hBelow⟩ := List.forall_mem_cons.mp hLater
  refine List.forall_mem_cons.mpr ⟨⟨?_, ?_⟩, ?_⟩
  · exact List.forall_mem_cons.mpr ⟨hSpan, hOwn.spans⟩
  · exact List.pairwise_cons.mpr ⟨hPrecedes, hOwn.order⟩
  · rw [blocksBelow]
    exact List.forall_mem_append.mpr ⟨hBlocks, hBelow⟩

/-- A compound statement has the span of the rest of its block with its own. -/
theorem fills_compound (hLine : s.isLine = false) (hSpan : s.span = span) (hTakes : span.start < span.stop)
    (hBlocks : ∀ block ∈ s.blocks, Ordered span.start span.stop block) (hLater : Fills span later) :
    Fills span (s :: later) := by
  refine fills_cons hBlocks hLater ?_ ?_
  · rw [hSpan]
    exact ⟨Nat.le_refl _, hTakes, Nat.le_refl _⟩
  · intro t hMem
    obtain ⟨hStart, -, hStop⟩ := (hLater later List.mem_cons_self).spans t hMem
    rw [Precedes, hLine, hSpan]
    exact ⟨hStart, hStop⟩

theorem span_ofLine {tree : Tree} : ofLine tree = .ok s → s.span = tree.span ∧ s.isLine = true := by
  fun_cases ofLine tree with
  | case1 span children operator =>
    fun_cases ofAssign (.node .assign span children operator) with
    | case1 =>
      intro h
      obtain ⟨e, -, hResult⟩ := Effect.exists_of_except_bind h
      cases hResult
      exact ⟨rfl, rfl⟩
    | case2 =>
      intro h
      cases h
  | case3 =>
    intro h
    cases h
    exact ⟨rfl, rfl⟩
  | case2 | case4 | case5 =>
    intro h
    obtain ⟨e, -, hResult⟩ := Effect.exists_of_except_bind h
    cases hResult
    exact ⟨rfl, rfl⟩

theorem blocks_of_isLine (h : s.isLine = true) : s.blocks = [] := by
  cases s with
  | assign | expr | print | ret => simp only [blocks]
  | forLoop | function | branch | whileLoop => cases h

/-- The statements behind a line lie between its end and the end of the block. -/
theorem fills_lines {line : Tree} {rest : List Tree} (hRooted : line.Rooted tokens)
    (hLaid : Tree.Laid span.start (line :: rest) span.stop) (hLine : ofLine line = .ok s)
    (hLater : Behind (fun tree => Fills tree.span) rest later) : Fills span (s :: later) := by
  obtain ⟨hSpan, hIsLine⟩ := span_ofLine hLine
  obtain ⟨hStart, hOrder, hRest⟩ := hLaid
  have hTakes := (liesIn_of_span hRooted hLine hSpan).1
  have hBehind : Fills ⟨line.span.stop, span.stop⟩ later := hLater.fills fun t hMem => hRest.of_mem hMem
  refine fills_cons ?_ (hBehind.mono ⟨hStart.trans hOrder, Nat.le_refl _⟩) ?_ ?_
  · rw [blocks_of_isLine hIsLine]
    exact List.forall_mem_nil _
  · rw [hSpan] at hTakes ⊢
    exact ⟨hStart, hTakes, hRest.le⟩
  · intro t hMem
    rw [Precedes, hIsLine, hSpan]
    exact ((hBehind later List.mem_cons_self).spans t hMem).1

/-- A compound statement with one block, which stands among the parts of its tree with what follows. -/
theorem fills_single {rule : Name} {children rest : List Tree} {operator : Option Token} {body : Tree}
    {first : List Stmt}
    (hRooted : Tree.Rooted tokens (.node rule span children operator))
    (hNested : Tree.Nested (.node rule span children operator))
    (hLong : ∀ p ∈ (table rule).alternatives, 2 ≤ p.length) (hParts : body :: rest ⊆ children)
    (hLine : s.isLine = false) (hSpan : s.span = span) (hBlocks : s.blocks = allBlocks first)
    (hBody : Fills body.span first) (hLater : Behind (fun tree => Fills tree.span) rest later) :
    Fills span (s :: later) := by
  refine fills_compound hLine hSpan (hRooted.start_lt_stop hLong) ?_ ?_
  · rw [hBlocks]
    exact hBody.mono (hNested.laid.of_mem (hParts List.mem_cons_self))
  · exact hLater.fills fun t hMem => hNested.laid.of_mem (hParts (List.mem_cons_of_mem _ hMem))

theorem descent_fills : Descent (fun tree => tree.Rooted tokens ∧ tree.Nested) fun tree => Fills tree.span where
  child := fun h hMem => ⟨h.1.of_mem hMem, h.2.of_mem hMem⟩
  empty := fun _ _ => fills_nil _
  codeBlock := by
    intro span tree tail operator statements h hStatements
    exact hStatements.mono (h.2.laid.of_mem List.mem_cons_self)
  lines := by
    intro span line rest operator s later h hLine hLater
    exact fills_lines (h.1.of_mem List.mem_cons_self) h.2.laid hLine hLater
  otherwise := by
    intro span inner condition yes no rest tail operator outer c first second later h _ hYes hNo hLater
    obtain ⟨hRooted, hNested⟩ := h
    -- The rest of the block hangs below the part behind `else`.
    have hInner : Tree.Nested (.node .otherwise inner (no :: rest) operator) := hNested.of_mem (by simp)
    have hInside : span.start ≤ inner.start ∧ inner.stop ≤ span.stop :=
      hNested.laid.of_mem (List.mem_cons_of_mem _ (List.mem_cons_of_mem _ List.mem_cons_self))
    refine fills_compound rfl rfl (hRooted.start_lt_stop (by decide)) ?_ ?_
    · rw [blocks]
      refine List.forall_mem_append.mpr ⟨hYes.mono (hNested.laid.of_mem (by simp)), ?_⟩
      exact (hNo.mono (hInner.laid.of_mem (by simp))).mono hInside
    · exact (hLater.fills fun t hMem => hInner.laid.of_mem (by simp [hMem])).mono hInside
  branch := by
    intro span condition yes rest operator c first later h _ hYes hLater
    obtain ⟨hRooted, hNested⟩ := h
    refine fills_compound rfl rfl (hRooted.start_lt_stop (by decide)) ?_ ?_
    · rw [blocks]
      exact List.forall_mem_append.mpr ⟨hYes.mono (hNested.laid.of_mem (by simp)), fills_nil _⟩
    · exact hLater.fills fun t hMem => hNested.laid.of_mem (by simp [hMem])
  whileLoop := by
    intro span condition body rest operator c first later h _ hBody hLater
    exact fills_single h.1 h.2 (by decide) (List.subset_cons_self _ _) rfl rfl rfl hBody hLater
  forLoop := by
    intro span init condition step body rest operator start next c first later h _ _ _ hBody hLater
    have hParts := (List.suffix_append [init, condition, step] (body :: rest)).subset
    exact fills_single h.1 h.2 (by decide) hParts rfl rfl rfl hBody hLater
  function := by
    intro span params body rest operator name names first later h _ hBody hLater
    exact fills_single h.1 h.2 (by decide) (List.subset_cons_self _ _) rfl rfl rfl hBody hLater

/-- Spans are apart exactly if compound statements come last. -/
theorem Ordered.separate_iff {lo hi : Nat} {block : List Stmt} (h : Ordered lo hi block) :
    (block.Pairwise fun s t => s.span.stop ≤ t.span.start) ↔ ∀ s ∈ block.dropLast, s.isLine = true := by
  obtain ⟨hSpans, hOrder⟩ := h
  induction block with
  | nil => simp
  | cons s rest ih =>
    obtain ⟨hFirst, hRest⟩ := List.pairwise_cons.mp hOrder
    have hLater := ih (fun t hMem => hSpans t (List.mem_cons_of_mem _ hMem)) hRest
    cases rest with
    | nil => simp
    | cons t rest =>
      rw [List.pairwise_cons, hLater, List.dropLast_cons_cons, List.forall_mem_cons (l := (t :: rest).dropLast)]
      refine and_congr_left fun _ => ?_
      constructor
      · intro hBefore
        -- A compound statement would take in the next one, which has tokens.
        by_contra hLine
        have hInside := hFirst t List.mem_cons_self
        rw [Precedes, if_neg hLine] at hInside
        have hStart := hBefore t List.mem_cons_self
        have hTakes := (hSpans t (by simp)).2.1
        omega
      · intro hLine u hMem
        have hBefore := hFirst u hMem
        rwa [Precedes, if_pos hLine] at hBefore

end Stmt

namespace Toolchain

variable {tokens : List Token} {statements : List Stmt}

/-- Every statement has tokens in its span. Those behind it in its block lie behind the span if it ends with a semicolon
and in the span if it is compound, so that the spans of a block are apart exactly if compound statements come last. -/
theorem spans_of_blocks (h : parse tokens = .ok statements) :
    ∀ block ∈ Stmt.allBlocks statements,
      (∀ s ∈ block, s.span.start < s.span.stop ∧ s.span.stop ≤ tokens.length) ∧
      (block.Pairwise fun s t =>
        if s.isLine then s.span.stop ≤ t.span.start
        else s.span.start ≤ t.span.start ∧ t.span.stop ≤ s.span.stop) ∧
      ((block.Pairwise fun s t => s.span.stop ≤ t.span.start) ↔ ∀ s ∈ block.dropLast, s.isLine = true) := by
  obtain ⟨tree, hDerivation, hStatements⟩ := exists_derivation_of_parse h
  have hFills := Stmt.descent_fills.block tree statements ⟨hDerivation.rooted, hDerivation.nested⟩ hStatements
  rw [hDerivation.span_eq, Nat.zero_add] at hFills
  intro block hMem
  have hOrdered := hFills block hMem
  exact ⟨fun s hStmt => (hOrdered.spans s hStmt).2, hOrdered.order, hOrdered.separate_iff⟩

/-- The program `func f() { } print(1);`. -/
theorem parse_function_print :
    parse [.fixed .func, ⟨.name, "f"⟩, .fixed .openParen, .fixed .closeParen, .fixed .openBrace, .fixed .closeBrace,
      .fixed .print, .fixed .openParen, ⟨.number, "1"⟩, .fixed .closeParen, .fixed .semicolon] =
        .ok [.function ⟨1, 11⟩ "f" [] [], .print ⟨6, 10⟩ (.int ⟨8, 9⟩ 1)] := by
  have hNumber : Tree.Derivation .or 8 [⟨.number, "1"⟩] (.leaf .number 8 ⟨.number, "1"⟩) :=
    Expr.derivation_ruleAt_mono (p := 8) (Nat.zero_le 8) (Expr.derivation_number 8 "1")
  have hPrint : Tree.Derivation .print 6 [.fixed .print, .fixed .openParen, ⟨.number, "1"⟩, .fixed .closeParen]
      (.node .print ⟨6, 10⟩ [.leaf .number 8 ⟨.number, "1"⟩] none) :=
    Tree.Covers.derivation (.token rfl (.token rfl (hNumber.covers (.inl (List.cons_ne_nil _ _))
      (.token rfl (.nil false _))))) List.mem_cons_self
  have hLine : Tree.Derivation .line 6 _ _ := Expr.derivation_single (by decide) hPrint
  have hLines : Tree.Derivation .lines 6
      [.fixed .print, .fixed .openParen, ⟨.number, "1"⟩, .fixed .closeParen, .fixed .semicolon]
      (.node .lines ⟨6, 11⟩ [.node .print ⟨6, 10⟩ [.leaf .number 8 ⟨.number, "1"⟩] none] none) :=
    Tree.Covers.derivation (hLine.covers (.inl (List.cons_ne_nil _ _)) (.token rfl (.nil false _))) List.mem_cons_self
  have hRest : Tree.Derivation .codeBlock 6 _ _ := Expr.derivation_single (by decide) hLines
  have hBody : Tree.Derivation .codeBlock 5 [] (.node .codeBlock ⟨5, 5⟩ [] none) :=
    ⟨[], by decide, [], .nil true 5, rfl⟩
  have hParams : Tree.Derivation .params 3 [.fixed .closeParen] (.node .params ⟨3, 4⟩ [] none) :=
    ⟨[.literal .closeParen], by decide, [.inl (.fixed .closeParen)], .token rfl (.nil false 4), rfl⟩
  have hFunction : Tree.Derivation .function 1 [⟨.name, "f"⟩, .fixed .openParen, .fixed .closeParen, .fixed .openBrace,
      .fixed .closeBrace, .fixed .print, .fixed .openParen, ⟨.number, "1"⟩, .fixed .closeParen, .fixed .semicolon]
      (.node .function ⟨1, 11⟩ [.node .params ⟨3, 4⟩ [] none, .node .codeBlock ⟨5, 5⟩ [] none,
        .node .lines ⟨6, 11⟩ [.node .print ⟨6, 10⟩ [.leaf .number 8 ⟨.number, "1"⟩] none] none]
        (some ⟨.name, "f"⟩)) :=
    Tree.Covers.derivation (p := functionHead ++ [.rule .codeBlock])
      (.token rfl (.token rfl (hParams.covers (.inl (List.cons_ne_nil _ _)) (.token rfl
        (hBody.covers (.inr (.inl (List.cons_ne_nil _ _))) (.token rfl
          (hRest.covers_last (.inl (List.cons_ne_nil _ _))))))))) List.mem_cons_self
  have hRoot : Tree.Derivation root 0 [.fixed .func, ⟨.name, "f"⟩, .fixed .openParen, .fixed .closeParen,
      .fixed .openBrace, .fixed .closeBrace, .fixed .print, .fixed .openParen, ⟨.number, "1"⟩, .fixed .closeParen,
      .fixed .semicolon] _ :=
    Tree.Covers.derivation (p := [.literal .func, .rule .function])
      (.token rfl (hFunction.covers_last (.inl (List.cons_ne_nil _ _)))) List.mem_cons_self
  have hTree := (Tree.parse_eq_ok_iff _ _).mpr hRoot
  have hRead : Word.read? "1".toList = some 1 := by decide
  rw [parse, hTree]
  change (Tree.statements (.node .codeBlock _ [.node .function _ [.node .params _ _ _, _, _] _] _)).mapError _ = _
  rw [Tree.statements, Stmt.ofBlock, Stmt.ofConstruct, Stmt.paramsOfTrees, Stmt.paramsOfTrees,
    Stmt.ofBlock, Stmt.ofRest, Stmt.ofBlock, Stmt.ofLine, Stmt.ofRest, Expr.ofTree, Expr.ofLiteral, hRead]
  rfl

/-- Two statements, and a function whose span takes in the statement behind it. -/
theorem spans_of_blocks_function : ∃ tokens statements, parse tokens = .ok statements ∧
    statements = [.function ⟨1, 11⟩ "f" [] [], .print ⟨6, 10⟩ (.int ⟨8, 9⟩ 1)] ∧
    ∀ block ∈ Stmt.allBlocks statements,
      (∀ s ∈ block, s.span.start < s.span.stop ∧ s.span.stop ≤ tokens.length) ∧
      (block.Pairwise fun s t =>
        if s.isLine then s.span.stop ≤ t.span.start
        else s.span.start ≤ t.span.start ∧ t.span.stop ≤ s.span.stop) ∧
      ((block.Pairwise fun s t => s.span.stop ≤ t.span.start) ↔ ∀ s ∈ block.dropLast, s.isLine = true) :=
  ⟨_, _, parse_function_print, rfl, spans_of_blocks parse_function_print⟩

/-- The spans of a block need not be apart. -/
theorem not_separate_of_function : ∃ tokens statements, parse tokens = .ok statements ∧
    ¬ ∀ block ∈ Stmt.allBlocks statements, block.Pairwise fun s t => s.span.stop ≤ t.span.start := by
  refine ⟨_, _, parse_function_print, fun h => ?_⟩
  have hTop := h _ List.mem_cons_self
  have hBefore := List.rel_of_pairwise_cons hTop List.mem_cons_self
  exact absurd hBefore (by decide)

end Toolchain

end Vee
