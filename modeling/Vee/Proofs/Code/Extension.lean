import Vee.Proofs.Code.Generation

/-! # Code with more functions

A function that is declared behind all other statements changes nothing in their code: calls find the functions they
found before, the main program has no code for the declaration, and the new functions stand behind the old ones. So
the listing of the shorter program is the beginning of the longer one's.
-/

namespace Vee

set_option autoImplicit false

/-! ## Tables with more functions -/

/-- Calls that find a function in a table find the same one in the other. -/
def Functions.Embeds (fs more : Functions) : Prop := ∀ name f, fs.find? name = some f → more.find? name = some f

theorem Functions.embeds_of_prefix {fs more : Functions} (h : fs.list <+: more.list) : fs.Embeds more := by
  intro name f hFind
  obtain ⟨others, hOthers⟩ := h
  rw [Functions.find?, ← hOthers, List.find?_append, ← Functions.find?, hFind]
  rfl

/-- The declarations of functions and their order determine the table. -/
theorem Functions.Sound.prefix_of_declarations {fs more : Functions} (h : fs.Sound) (hMore : more.Sound)
    (hPrefix : fs.list.map Function.declaration <+: more.list.map Function.declaration) : fs.list <+: more.list := by
  rw [List.prefix_iff_getElem?] at hPrefix ⊢
  intro i hLt
  have hDeclared := hPrefix i (by rwa [List.length_map])
  rw [List.getElem?_map, Option.map_eq_some_iff, List.getElem_map] at hDeclared
  obtain ⟨g, hGet, hSame⟩ := hDeclared
  obtain ⟨hSymbol, hLocals⟩ := h i _ (List.getElem?_eq_getElem hLt)
  obtain ⟨hOther, hOthers⟩ := hMore i g hGet
  rw [hGet]
  generalize fs.list[i] = f at hSame hSymbol hLocals
  obtain ⟨name, symbol, params, body, locals⟩ := f
  obtain ⟨name', symbol', params', body', locals'⟩ := g
  simp only [Function.declaration, Declaration.mk.injEq] at hSame
  simp_all

section

variable {fs more : Functions}

mutual

theorem Expr.HasCode.embed (hEmbeds : fs.Embeds more) {v : Variables} {e : Expr} {code : List Cell}
    (h : e.HasCode fs v code) : e.HasCode more v code := by
  cases h with
  | int span n => exact .int span n
  | own span hSlot hWord => exact .own span hSlot hWord
  | global span hSlot hWord => exact .global span hSlot hWord
  | call span hFind hArity hArgs hArityWord hLocals =>
    exact .call span (hEmbeds _ _ hFind) hArity (hArgs.embed hEmbeds) hArityWord hLocals
  | unary span hOperand => exact .unary span (hOperand.embed hEmbeds)
  | binary span hLeft hRight => exact .binary span (hLeft.embed hEmbeds) (hRight.embed hEmbeds)

theorem Expr.ArgsHaveCode.embed (hEmbeds : fs.Embeds more) {v : Variables} {es : List Expr} {code : List Cell}
    (h : Expr.ArgsHaveCode fs v es code) : Expr.ArgsHaveCode more v es code := by
  cases h with
  | nil => exact .nil
  | cons hLater hFirst => exact .cons (hLater.embed hEmbeds) (hFirst.embed hEmbeds)

end

mutual

theorem Stmt.HasCode.embed (hEmbeds : fs.Embeds more) {v : Variables} {a : Nat} {s : Stmt} {code : List Cell}
    (h : s.HasCode fs v a code) : s.HasCode more v a code := by
  cases h with
  | own span hValue hSlot hWord => exact .own span (hValue.embed hEmbeds) hSlot hWord
  | global span hValue hSlot hWord => exact .global span (hValue.embed hEmbeds) hSlot hWord
  | expr span hValue => exact .expr span (hValue.embed hEmbeds)
  | print span hValue => exact .print span (hValue.embed hEmbeds)
  | function span name params body => exact .function span name params body
  | ret span hOpen => exact .ret span hOpen
  | retValue span hOpen hValue => exact .retValue span hOpen (hValue.embed hEmbeds)
  | when span hTest hYes hSkip => exact .when span (hTest.embed hEmbeds) (hYes.embed hEmbeds) hSkip
  | branch span hElse hTest hYes hNo hSkip hLeave =>
    exact .branch span hElse (hTest.embed hEmbeds) (hYes.embed hEmbeds) (hNo.embed hEmbeds) hSkip hLeave
  | whileLoop span hTest hBody hLeave hAgain =>
    exact .whileLoop span (hTest.embed hEmbeds) (hBody.embed hEmbeds) hLeave hAgain
  | forLoop span hInit hTest hBody hStep hLeave hAgain =>
    exact .forLoop span (hInit.embed hEmbeds) (hTest.embed hEmbeds) (hBody.embed hEmbeds) (hStep.embed hEmbeds) hLeave hAgain

theorem Stmt.BlockHasCode.embed (hEmbeds : fs.Embeds more) {v : Variables} {a : Nat} {body : List Stmt} {code : List Cell}
    (h : Stmt.BlockHasCode fs v a body code) : Stmt.BlockHasCode more v a body code := by
  cases h with
  | nil v a => exact .nil v a
  | cons hFirst hLater => exact .cons (hFirst.embed hEmbeds) (hLater.embed hEmbeds)

end

end

theorem Stmt.BlockHasCode.unique {fs : Functions} {v : Variables} {a : Nat} {body : List Stmt} {code other : List Cell}
    (h : Stmt.BlockHasCode fs v a body code) (hOther : Stmt.BlockHasCode fs v a body other) : code = other := by
  have hFirst : Stmt.blockCode fs a body { vars := v } = (code, _) := Stmt.BlockHasCode.blockCode_eq h
  have hSecond : Stmt.blockCode fs a body { vars := v } = (other, _) := Stmt.BlockHasCode.blockCode_eq hOther
  exact congrArg Prod.fst (hFirst.symm.trans hSecond)

/-! ## Placements -/

/-- The code of a placed function, given the names of the global variables. -/
def Placement.HasCode (fs : Functions) (globals : List String) (p : Placement) : Prop :=
  ∃ code, Stmt.BlockHasCode fs ⟨globals, [⟨p.function.params, []⟩]⟩ p.start p.function.body code ∧
    p.code = code ++ Draft.returnCode p.function.body

/-- Where the same functions come first, they stand at the same addresses with the same code. -/
theorem Placement.Follow.isPrefix {fs more : Functions} {globals : List String} {a : Nat} {ps qs : List Placement}
    (hEmbeds : fs.Embeds more) (h : Follow a ps) (hMore : Follow a qs) (hCode : ∀ p ∈ ps, p.HasCode fs globals)
    (hCodes : ∀ q ∈ qs, q.HasCode more globals) (hPrefix : ps.map Placement.function <+: qs.map Placement.function) :
    ps <+: qs := by
  induction ps generalizing a qs with
  | nil => exact List.nil_prefix
  | cons p ps ih =>
    cases qs with
    | nil => simp at hPrefix
    | cons q qs =>
      obtain ⟨hStart, hLater⟩ := h
      obtain ⟨hOther, hOthers⟩ := hMore
      rw [List.map_cons, List.map_cons, List.cons_prefix_cons] at hPrefix
      obtain ⟨hFunction, hRest⟩ := hPrefix
      have hSame : p = q := by
        obtain ⟨code, hBody, hEnd⟩ := hCode p List.mem_cons_self
        obtain ⟨other, hOtherBody, hOtherEnd⟩ := hCodes q List.mem_cons_self
        rw [hOther, ← hStart, ← hFunction] at hOtherBody
        rw [← hFunction, ← (hBody.embed hEmbeds).unique hOtherBody, ← hEnd] at hOtherEnd
        obtain ⟨f, start, cells⟩ := p
        obtain ⟨g, begin, others⟩ := q
        cases hFunction
        cases hOtherEnd
        cases hStart.trans hOther.symm
        rfl
      subst hSame
      refine List.cons_prefix_cons.mpr ⟨rfl, ih hLater hOthers ?_ ?_ hRest⟩
      · exact fun r hMem => hCode r (List.mem_cons_of_mem _ hMem)
      · exact fun r hMem => hCodes r (List.mem_cons_of_mem _ hMem)

/-! ## A function behind all statements -/

namespace Draft

variable {fs more : Functions} {statements longer : List Stmt} {main front : List Cell} {ps qs : List Placement}
    {d e : Draft}

theorem Sound.hasCode (h : Sound fs statements main ps d) {p : Placement} (hMem : p ∈ ps) :
    p.HasCode fs (Stmt.globalNames statements) := (h.function p hMem).2.2

theorem Sound.know (h : Sound fs statements main ps d) : fs.Know d.listing.cells := by
  obtain ⟨code, hCode, hMain⟩ := h.entry
  rw [h.cells, Functions.know_append]
  constructor
  · rw [hMain]
    exact Functions.know_append.mpr ⟨hCode.know, by simp⟩
  · intro id hMem
    obtain ⟨p, hPart, hBody⟩ := List.mem_flatMap.mp hMem
    obtain ⟨code, hCode, hEnd⟩ := h.hasCode hPart
    rw [hEnd] at hBody
    exact Functions.know_append.mpr ⟨hCode.know, Functions.know_returnCode _⟩ id hBody

/-- Cells are linked alike where their functions stand at the same places. -/
theorem Sound.linked_eq (h : Sound fs statements main ps d) (hFunctions : ps.map Placement.function = fs.list)
    (hMore : Sound more longer front qs e) (hPrefix : ps <+: qs) :
    d.listing.cells.map (Cell.linked e.relocations.places) = d.listing.cells.map (Cell.linked d.relocations.places) := by
  refine List.map_congr_left fun c hMem => ?_
  cases c with
  | op o => rfl
  | int n => rfl
  | symbol id =>
    obtain ⟨f, hDeclared, rfl⟩ := h.know id hMem
    rw [← hFunctions] at hDeclared
    obtain ⟨p, hPart, rfl⟩ := List.mem_map.mp hDeclared
    rw [Cell.linked, Cell.linked, (h.function p hPart).2.1, (hMore.function p (hPrefix.subset hPart)).2.1]

end Draft

section

variable (statements : List Stmt) (span : Span) (name : String) (params : List String) (body : List Stmt)

theorem Stmt.blockTargets_function_behind :
    Stmt.blockTargets (statements ++ [.function span name params body]) = Stmt.blockTargets statements := by
  induction statements with
  | nil => rfl
  | cons s rest ih => rw [List.cons_append, Stmt.blockTargets, Stmt.blockTargets, ih]

theorem Stmt.blockDeclarations_behind (s : Stmt) :
    Stmt.blockDeclarations (statements ++ [s]) = Stmt.blockDeclarations statements ++ s.declarations := by
  induction statements with
  | nil => exact List.append_nil _
  | cons first rest ih => rw [List.cons_append, Stmt.blockDeclarations, Stmt.blockDeclarations, ih, List.append_assoc]

end

section

variable {statements : List Stmt} {span : Span} {name : String} {params : List String} {body : List Stmt}

theorem Functions.prefix_behind {s : Stmt} (h : (Functions.declareBlock {} statements).2 = [])
    (hMore : (Functions.declareBlock {} (statements ++ [s])).2 = []) :
    (Functions.declareBlock {} statements).1.list <+: (Functions.declareBlock {} (statements ++ [s])).1.list := by
  apply (Functions.sound_declared statements).prefix_of_declarations (Functions.sound_declared _)
  rw [Functions.declarations_declareBlock h, Functions.declarations_declareBlock hMore, Stmt.blockDeclarations_behind]
  exact ⟨_, List.append_assoc ..⟩

/-- A declaration has no code in the main program. -/
theorem Draft.Sound.main_eq {fs more : Functions} {main front : List Cell} {ps qs : List Placement} {d e : Draft}
    (hEmbeds : fs.Embeds more) (h : Draft.Sound fs statements main ps d)
    (hMore : Draft.Sound more (statements ++ [.function span name params body]) front qs e) : front = main := by
  obtain ⟨code, hCode, rfl⟩ := h.entry
  obtain ⟨other, hOther, rfl⟩ := hMore.entry
  obtain ⟨first, second, v, rfl, hFirst, hLast⟩ := hOther.split_last
  cases hLast with
  | function => rw [(hCode.embed hEmbeds).unique hFirst, List.append_nil]

/-- The listing of a program is the beginning of its listing with one more function behind it. -/
theorem Listing.prefix_of_function_behind {short long : Listing} (hShort : Listing.ofStatements statements = .ok short)
    (hLong : Listing.ofStatements (statements ++ [.function span name params body]) = .ok long) :
    short.cells <+: long.cells ∧ short.sections <+: long.sections := by
  obtain ⟨hDeclared, d, main, ps, hDraft, hFunctions, hLinked, rfl⟩ := Listing.exists_draft hShort
  obtain ⟨hAll, e, front, qs, hMore, hOthers, hLinkedMore, rfl⟩ := Listing.exists_draft hLong
  have hPrefix := Functions.prefix_behind hDeclared hAll
  have hEmbeds := Functions.embeds_of_prefix hPrefix
  have hGlobals : Stmt.globalNames (statements ++ [.function span name params body]) = Stmt.globalNames statements := by
    rw [Stmt.globalNames, Stmt.blockTargets_function_behind, Stmt.globalNames]
  obtain rfl := hDraft.main_eq hEmbeds hMore
  have hPlacements : ps <+: qs := by
    refine hDraft.follow.isPrefix hEmbeds hMore.follow (fun p => hDraft.hasCode) ?_ (hFunctions ▸ hOthers ▸ hPrefix)
    intro q hMem
    rw [← hGlobals]
    exact hMore.hasCode hMem
  have hSame := hDraft.linked_eq hFunctions hMore hPlacements
  obtain ⟨rest, rfl⟩ := hPlacements
  have hCells : e.listing.cells = d.listing.cells ++ rest.flatMap Placement.code := by
    rw [hMore.cells, hDraft.cells, List.flatMap_append, List.append_assoc]
  constructor
  · rw [Relocations.cells_link hDraft.records hLinked, Relocations.cells_link hMore.records hLinkedMore, ← hSame,
      hCells, List.map_append]
    exact List.prefix_append _ _
  · rw [hDraft.sections, hMore.sections, List.map_append]
    exact List.prefix_append _ _

end

end Vee
