import Vee.Proofs.Parsing.Lowering
import Vee.Proofs.Parsing.Recognition
import Vee.Stmt.Scoped
import Vee.Toolchain

/-! # Where names come from

The tokens of a parse tree are among those it was made from, and the functions that its statements declare have
the texts of such tokens for names.
-/

namespace Vee

set_option autoImplicit false

open Grammar

namespace Tree

mutual

/-- The tokens at the leaves and the operators. -/
def tokens : Tree → List Token
  | .leaf _ _ t => [t]
  | .node _ _ children operator => operator.toList ++ allTokens children

def allTokens : List Tree → List Token
  | [] => []
  | t :: rest => t.tokens ++ allTokens rest

end

theorem mem_allTokens {trees : List Tree} {t : Token} : t ∈ allTokens trees ↔ ∃ tree ∈ trees, t ∈ tree.tokens := by
  induction trees with
  | nil => simp [allTokens]
  | cons tree trees ih => simp [allTokens, ih]

/-- What a part of a pattern has of the tokens. -/
def Part.tokens : Part → List Token
  | .inl t => [t]
  | .inr tree => tree.tokens

theorem exists_of_operatorOf {n : Name} {parts : List Part} {t : Token} (h : operatorOf n parts = some t) :
    .inl t ∈ parts := by
  obtain ⟨i, -, hPart⟩ := Option.bind_eq_some_iff.mp h
  obtain ⟨part, hGet, hLeft⟩ := Option.bind_eq_some_iff.mp hPart
  cases part with
  | inl u =>
    cases hLeft
    exact List.mem_of_getElem? hGet
  | inr tree => cases hLeft

theorem mem_tokens_assemble {n : Name} {span : Span} {parts : List Part} {t : Token}
    (h : t ∈ (assemble n span parts).tokens) : ∃ part ∈ parts, t ∈ part.tokens := by
  rcases assemble_cases n span parts with ⟨tree, rfl, hTree⟩ | ⟨u, rfl, -, hLeaf⟩ | hNode
  · exact ⟨.inr tree, List.mem_singleton.mpr rfl, hTree ▸ h⟩
  · rw [hLeaf] at h
    exact ⟨.inl u, List.mem_singleton.mpr rfl, h⟩
  · rw [hNode, tokens, List.mem_append, Option.mem_toList, mem_allTokens] at h
    rcases h with hOperator | ⟨tree, hTree, hMem⟩
    · exact ⟨.inl t, exists_of_operatorOf hOperator, List.mem_singleton.mpr rfl⟩
    · exact ⟨.inr tree, mem_of_getRight hTree, hMem⟩

theorem Covers.mem_of_part {whole : Bool} {p : Pattern} {i : Nat} {ts : List Token} {parts : List Part} {t : Token}
    (h : Covers whole p i ts parts) (hMem : ∃ part ∈ parts, t ∈ part.tokens) : t ∈ ts := by
  induction h with
  | nil => simp at hMem
  | token _ _ ih =>
    obtain ⟨part, hPart, hToken⟩ := hMem
    rcases List.mem_cons.mp hPart with rfl | hPart
    · exact List.mem_cons.mpr (.inl (List.mem_singleton.mp hToken))
    · exact List.mem_cons_of_mem _ (ih ⟨part, hPart, hToken⟩)
  | rule _ _ _ _ ihFirst ihRest =>
    obtain ⟨part, hPart, hToken⟩ := hMem
    rcases List.mem_cons.mp hPart with rfl | hPart
    · exact List.mem_append_left _ (ihFirst (mem_tokens_assemble hToken))
    · exact List.mem_append_right _ (ihRest ⟨part, hPart, hToken⟩)

theorem Derivation.mem_of_tokens {n : Name} {i : Nat} {ts : List Token} {tree : Tree} {t : Token}
    (h : Derivation n i ts tree) (hMem : t ∈ tree.tokens) : t ∈ ts := by
  obtain ⟨p, -, parts, hCovers, rfl⟩ := h
  exact hCovers.mem_of_part (mem_tokens_assemble hMem)

end Tree

/-! ## Declarations -/

/-- Tokens have the names of declarations for texts. -/
def Declaration.NamedBy (ts : List Token) (ds : List Declaration) : Prop := ∀ d ∈ ds, ∃ t ∈ ts, t.text = d.name

namespace Declaration

variable {us ts : List Token} {ds es : List Declaration}

theorem NamedBy.mono (h : NamedBy us ds) (hSub : ∀ t ∈ us, t ∈ ts) : NamedBy ts ds := by
  intro d hMem
  obtain ⟨t, hToken, hText⟩ := h d hMem
  exact ⟨t, hSub t hToken, hText⟩

theorem namedBy_nil : NamedBy ts [] := List.forall_mem_nil _

theorem NamedBy.append (hFirst : NamedBy ts ds) (hSecond : NamedBy ts es) : NamedBy ts (ds ++ es) :=
  List.forall_mem_append.mpr ⟨hFirst, hSecond⟩

end Declaration

namespace Stmt

open Declaration

theorem declarations_ofAssign {tree : Tree} {s : Stmt} (h : ofAssign tree = .ok s) : s.declarations = [] := by
  unfold ofAssign at h
  split at h
  · obtain ⟨e, -, hStmt⟩ := Effect.exists_of_except_bind h
    cases hStmt
    rfl
  · cases h

theorem declarations_ofLine {tree : Tree} {s : Stmt} (h : ofLine tree = .ok s) : s.declarations = [] := by
  unfold ofLine at h
  split at h
  · exact declarations_ofAssign h
  · obtain ⟨e, -, hStmt⟩ := Effect.exists_of_except_bind h
    cases hStmt
    rfl
  · cases h
    rfl
  · obtain ⟨e, -, hStmt⟩ := Effect.exists_of_except_bind h
    cases hStmt
    rfl
  · obtain ⟨e, -, hStmt⟩ := Effect.exists_of_except_bind h
    cases hStmt
    rfl

theorem exists_of_nameOf {rule : Name} {span : Span} {operator : Option Token} {name : String}
    (h : nameOf rule span operator = .ok name) : ∃ token, operator = some token ∧ token.text = name := by
  unfold nameOf at h
  split at h
  · split at h
    · cases h
      exact ⟨_, rfl, rfl⟩
    · cases h
  · cases h

theorem namedBy_blockDeclarations {ts : List Token} {body : List Stmt}
    (h : ∀ s ∈ body, NamedBy ts s.declarations) : NamedBy ts (blockDeclarations body) := by
  induction body with
  | nil => exact namedBy_nil
  | cons s rest ih =>
    obtain ⟨hFirst, hRest⟩ := List.forall_mem_cons.mp h
    exact hFirst.append (ih hRest)

/-- The names of functions pass from the tokens of a tree to its statements. -/
theorem traversal_namedBy (ts : List Token) :
    Traversal (fun tree => ∀ t ∈ tree.tokens, t ∈ ts) (fun _ => True) fun s => NamedBy ts s.declarations where
  child := by
    intro rule span children operator tree hTree hMem t hToken
    exact hTree t (List.mem_append_right _ (Tree.mem_allTokens.mpr ⟨tree, hMem, hToken⟩))
  expr := fun _ _ => trivial
  line := by
    intro tree s _ h
    rw [declarations_ofLine h]
    exact namedBy_nil
  branch := fun _ _ _ _ _ hYes hNo => (namedBy_blockDeclarations hYes).append (namedBy_blockDeclarations hNo)
  whileLoop := fun _ _ _ _ hBody => namedBy_blockDeclarations hBody
  forLoop := fun _ _ _ _ _ _ _ _ hBody => namedBy_blockDeclarations hBody
  function := by
    intro span children operator name params body hTree hName hBody
    obtain ⟨token, rfl, hText⟩ := exists_of_nameOf hName
    exact List.forall_mem_cons.mpr ⟨⟨token, hTree token List.mem_cons_self, hText⟩, namedBy_blockDeclarations hBody⟩

end Stmt

namespace Toolchain

variable {tokens : List Token} {statements : List Stmt}

theorem exists_derivation_of_parse (h : parse tokens = .ok statements) :
    ∃ tree, Tree.Derivation root 0 tokens tree ∧ Stmt.ofBlock tree = .ok statements := by
  obtain ⟨tree, hTree, hStatements⟩ := Effect.exists_of_except_bind h
  exact ⟨tree, (Tree.parse_eq_ok_iff tokens tree).mp (Effect.eq_ok_of_mapError hTree),
    Effect.eq_ok_of_mapError hStatements⟩

theorem namedBy_parse (h : parse tokens = .ok statements) :
    Declaration.NamedBy tokens (Stmt.blockDeclarations statements) := by
  obtain ⟨tree, hDerivation, hStatements⟩ := exists_derivation_of_parse h
  apply Stmt.namedBy_blockDeclarations
  exact (Stmt.traversal_namedBy tokens).block tree statements (fun _ => hDerivation.mem_of_tokens) hStatements

end Toolchain

end Vee
