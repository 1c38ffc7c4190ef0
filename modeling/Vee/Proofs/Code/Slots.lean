import Vee.Proofs.Code.Sections

/-! # Slots of a function

The locals of a function are counted before its code is generated, in another order. The count is the number of names
that the body assigns, parameters apart, and the number of slots that its code has allotted at the end. The loads and
stores in the section of a function reach only these slots and those of the parameters, each name its own.
-/

namespace Vee

set_option autoImplicit false

/-! ## Loads and stores among cells -/

namespace Cell

/-- The slot of the load or store at the start of cells. -/
def slotAt? : List Cell → Option Word
  | .op .store :: .int w :: _ => some w
  | .op .const :: .int w :: .op .load :: _ => some w
  | _ => none

/-- The slots of all loads and stores among cells. -/
def slots : List Cell → List Word
  | [] => []
  | c :: rest => (slotAt? (c :: rest)).toList ++ slots rest

/-- Cells that go on neither with an operand nor with a load. -/
def Opens (cells : List Cell) : Prop := ∀ c, cells.head? = some c → ∃ o, c = .op o ∧ o ≠ .load

theorem slotAt?_eq_some {cells : List Cell} {w : Word} :
    slotAt? cells = some w ↔
      (∃ rest, cells = .op .store :: .int w :: rest) ∨ ∃ rest, cells = .op .const :: .int w :: .op .load :: rest := by
  constructor
  · intro h
    rw [slotAt?.eq_def] at h
    split at h
    · cases h
      exact .inl ⟨_, rfl⟩
    · cases h
      exact .inr ⟨_, rfl⟩
    · cases h
  · rintro (⟨rest, rfl⟩ | ⟨rest, rfl⟩)
    · rfl
    · rfl

theorem slotAt?_append {front rest : List Cell} (h : Opens rest) (c : Cell) :
    slotAt? (c :: front ++ rest) = slotAt? (c :: front) := by
  apply Option.ext
  intro w
  rw [slotAt?_eq_some, slotAt?_eq_some]
  constructor
  -- only an operand or a load at the start of the rest could complete what stands in front of it
  · rintro (⟨tail, hCells⟩ | ⟨tail, hCells⟩)
    · cases front with
      | nil =>
        obtain ⟨_, rfl⟩ := List.cons.inj hCells
        obtain ⟨_, hOp, _⟩ := h _ rfl
        cases hOp
      | cons x front =>
        cases hCells
        exact .inl ⟨front, rfl⟩
    · match front with
      | [] =>
        obtain ⟨_, rfl⟩ := List.cons.inj hCells
        obtain ⟨_, hOp, _⟩ := h _ rfl
        cases hOp
      | [x] =>
        obtain ⟨_, hRest⟩ := List.cons.inj hCells
        obtain ⟨_, rfl⟩ := List.cons.inj hRest
        obtain ⟨_, hOp, hNot⟩ := h _ rfl
        cases hOp
        exact absurd rfl hNot
      | x :: y :: front =>
        cases hCells
        exact .inr ⟨front, rfl⟩
  · rintro (⟨tail, hCells⟩ | ⟨tail, hCells⟩)
    · cases hCells
      exact .inl ⟨tail ++ rest, rfl⟩
    · cases hCells
      exact .inr ⟨tail ++ rest, rfl⟩

theorem slots_append {front rest : List Cell} (h : Opens rest) : slots (front ++ rest) = slots front ++ slots rest := by
  induction front with
  | nil => rfl
  | cons c front ih =>
    rw [List.cons_append, slots, ← List.cons_append, slotAt?_append h, ih, slots, List.append_assoc]

theorem Opens.append {front rest : List Cell} (hFront : Opens front) (hRest : Opens rest) : Opens (front ++ rest) := by
  cases front with
  | nil => exact hRest
  | cons c front => exact hFront

theorem opens_op (o : Opcode) (h : o ≠ .load) (rest : List Cell) : Opens (.op o :: rest) := by
  intro c hHead
  cases hHead
  exact ⟨o, rfl, h⟩

theorem Opens.linked {code : List Cell} (h : Opens code) (places : Std.TreeMap Nat Nat) :
    Opens (code.map (linked places)) := by
  cases code with
  | nil => exact nofun
  | cons c rest =>
    obtain ⟨o, rfl, hNot⟩ := h c rfl
    exact opens_op o hNot _

end Cell

/-! ## Names in the order of code -/

mutual

/-- The names of a function that an expression reads, in the order of its code. -/
def Expr.uses (own : Eval.Own) : Expr → List String
  | .int _ _ => []
  | .var _ x => if Eval.isOwn own x then [x] else []
  | .call _ _ args => Expr.allUses own args
  | .unary _ _ e => e.uses own
  | .binary _ _ l r => l.uses own ++ r.uses own

def Expr.allUses (own : Eval.Own) : List Expr → List String
  | [] => []
  | e :: rest => Expr.allUses own rest ++ e.uses own

end

mutual

/-- The names of a function that a statement reads or assigns, in the order of its code. -/
def Stmt.uses (own : Eval.Own) : Stmt → List String
  | .assign _ x e => e.uses own ++ if own.isSome then [x] else []
  | .expr _ e => e.uses own
  | .print _ e => e.uses own
  | .function _ _ _ _ => []
  | .ret _ none => []
  | .ret _ (some e) => e.uses own
  | .branch _ c yes no => c.uses own ++ Stmt.blockUses own yes ++ Stmt.blockUses (Eval.after own yes) no
  | .whileLoop _ c body => c.uses own ++ Stmt.blockUses own body
  | .forLoop _ init c step body =>
    let inside := Eval.after own [init]
    init.uses own ++ c.uses inside ++ Stmt.blockUses inside body ++ step.uses (Eval.after inside body)

def Stmt.blockUses (own : Eval.Own) : List Stmt → List String
  | [] => []
  | s :: rest => s.uses own ++ Stmt.blockUses (Eval.after own [s]) rest

end

/-- Linked code whose loads and stores reach the slots of some names in a frame. -/
structure Cell.Reaches (places : Std.TreeMap Nat Nat) (frame : Frame) (code : List Cell) (names : List String) :
    Prop where
  opens : Opens code
  slots : ((slots (code.map (linked places))).map fun w => w.toInt).map some = names.map frame.offset?

namespace Cell.Reaches

variable {places : Std.TreeMap Nat Nat} {frame : Frame} {code first second : List Cell} {names more : List String}

theorem nil : Reaches places frame [] [] :=
  { opens := nofun
    slots := rfl }

theorem append (hFirst : Reaches places frame first names) (hSecond : Reaches places frame second more) :
    Reaches places frame (first ++ second) (names ++ more) := by
  constructor
  · exact hFirst.opens.append hSecond.opens
  · rw [List.map_append, slots_append (hSecond.opens.linked places), List.map_append, List.map_append,
      hFirst.slots, hSecond.slots, List.map_append]

theorem followed (h : Reaches places frame code names) (hSilent : Reaches places frame second []) :
    Reaches places frame (code ++ second) names := by
  have hBoth := h.append hSilent
  rwa [List.append_nil] at hBoth

theorem op (o : Opcode) (hLoad : o ≠ .load) : Reaches places frame [.op o] [] := by
  constructor
  · exact opens_op o hLoad []
  · cases o <;> rfl

theorem ops {os : List Opcode} (h : ∀ o ∈ os, o ≠ .load) : Reaches places frame (os.map .op) [] := by
  induction os with
  | nil => exact nil
  | cons o os ih =>
    obtain ⟨hFirst, hRest⟩ := List.forall_mem_cons.mp h
    exact (op o hFirst).append (ih hRest)

theorem const (n : Word) : Reaches places frame [.op .const, .int n] [] :=
  { opens := opens_op .const nofun _
    slots := rfl }

theorem call (id : Nat) (arity locals : Word) :
    Reaches places frame [.op .call, .symbol id, .int arity, .int locals] [] := by
  constructor
  · exact opens_op .call nofun _
  · simp only [List.map_cons, linked]
    cases places[id]?.bind Word.ofNat? <;> rfl

theorem jump (w : Word) (o : Opcode) (hLoad : o ≠ .load) : Reaches places frame (jumpCode w o) [] :=
  (const w).append (op o hLoad)

theorem gstore (w : Word) : Reaches places frame [.op .gstore, .int w] [] :=
  { opens := opens_op .gstore nofun _
    slots := rfl }

theorem load {x : String} {offset : Int} {w : Word} (hSlot : frame.offset? x = some offset)
    (hWord : Word.ofInt? offset = some w) : Reaches places frame [.op .const, .int w, .op .load] [x] := by
  constructor
  · exact opens_op .const nofun _
  · change [some w.toInt] = [frame.offset? x]
    rw [hSlot, Word.toInt_of_ofInt? hWord]

theorem store {x : String} {offset : Int} {w : Word} (hSlot : frame.offset? x = some offset)
    (hWord : Word.ofInt? offset = some w) : Reaches places frame [.op .store, .int w] [x] := by
  constructor
  · exact opens_op .store nofun _
  · change [some w.toInt] = [frame.offset? x]
    rw [hSlot, Word.toInt_of_ofInt? hWord]

end Cell.Reaches

/-! ## Code of a function -/

section

variable {fs : Functions} {places : Std.TreeMap Nat Nat} {v full : Variables} {own : Eval.Own} {frame : Frame}
    {code : List Cell}

mutual

theorem Expr.HasCode.reaches {e : Expr} {code : List Cell} (h : e.HasCode fs v code) (hOwned : v.Owned own)
    (hWithin : v.Within full) (hFrames : full.frames = [frame]) : Cell.Reaches places frame code (e.uses own) := by
  cases h with
  | int span n => exact .const n
  | @own name offset w span hSlot hWord =>
    rw [Expr.uses]
    rcases hOwned.resolve hWithin hSlot with ⟨offset, table, hEq, hOwn, hTable, hOffset⟩ | ⟨i, hEq, _⟩
    · cases hEq
      cases hTable.symm.trans hFrames
      rw [if_pos hOwn]
      exact .load hOffset hWord
    · cases hEq
  | @global name i w span hSlot hWord =>
    rw [Expr.uses]
    rcases hOwned.resolve hWithin hSlot with ⟨offset, table, hEq, _⟩ | ⟨i, _, hOther, _⟩
    · cases hEq
    · rw [hOther]
      exact (Cell.Reaches.const w).append (.op .gload nofun)
  | call span hFind hArity hArgs hArityWord hLocals =>
    exact (hArgs.reaches hOwned hWithin hFrames).followed (.call _ _ _)
  | @unary op _ _ span hOperand =>
    refine (hOperand.reaches hOwned hWithin hFrames).followed (.op op.opcode ?_)
    cases op <;> nofun
  | @binary op _ _ _ _ span hLeft hRight =>
    have hBoth := (hLeft.reaches hOwned hWithin hFrames).append (hRight.reaches hOwned hWithin hFrames)
    refine hBoth.followed (.ops ?_)
    cases op <;> decide

theorem Expr.ArgsHaveCode.reaches {es : List Expr} {code : List Cell} (h : Expr.ArgsHaveCode fs v es code)
    (hOwned : v.Owned own) (hWithin : v.Within full) (hFrames : full.frames = [frame]) :
    Cell.Reaches places frame code (Expr.allUses own es) := by
  cases h with
  | nil => exact .nil
  | cons hLater hFirst => exact (hLater.reaches hOwned hWithin hFrames).append (hFirst.reaches hOwned hWithin hFrames)

end

mutual

/-- The table is within the one at the end, so that a name keeps the slot of its first assignment. -/
theorem Stmt.HasCode.reaches {v : Variables} {own : Eval.Own} {a : Nat} {s : Stmt} {code : List Cell}
    (h : s.HasCode fs v a code) (hOwned : v.Owned own) (hWithin : (v.assignAll s.targets).Within full)
    (hFrames : full.frames = [frame]) : Cell.Reaches places frame code (s.uses own) := by
  have hBefore : v.Within full := (hOwned.within_assignAll _).trans hWithin
  cases h with
  | @own _ _ name _ _ offset w span hValue hSlot hWord =>
    refine (hValue.reaches hOwned hBefore hFrames).append ?_
    rcases hOwned.assign hWithin with ⟨offset, table, hEq, hOpen, hTable, hOffset⟩ | ⟨i, hEq, _⟩
    · cases hEq.symm.trans hSlot
      cases hTable.symm.trans hFrames
      rw [if_pos hOpen]
      exact .store hOffset hWord
    · cases hEq.symm.trans hSlot
  | @global _ _ name _ _ i w span hValue hSlot hWord =>
    rcases hOwned.assign hWithin with ⟨offset, table, hEq, _⟩ | ⟨i, _, hOther, _⟩
    · cases hEq.symm.trans hSlot
    · rw [Stmt.uses, hOther, if_neg Bool.false_ne_true, List.append_nil]
      exact (hValue.reaches hOwned hBefore hFrames).followed (.gstore w)
  | expr span hValue => exact (hValue.reaches hOwned hBefore hFrames).followed (.op .pop nofun)
  | print span hValue => exact (hValue.reaches hOwned hBefore hFrames).followed (.op .print nofun)
  | function span name params body => exact .nil
  | ret span hOpen => exact (Cell.Reaches.const (-1)).followed (.op .ret nofun)
  | retValue span hOpen hValue => exact (hValue.reaches hOwned hBefore hFrames).followed (.op .ret nofun)
  | when span hTest hYes hSkip =>
    rw [Stmt.targets, Stmt.blockTargets, List.append_nil] at hWithin
    rw [Stmt.uses, Stmt.blockUses, List.append_nil]
    refine .append (.followed ?_ (.jump _ .jmpf nofun)) ?_
    · exact hTest.reaches hOwned hBefore hFrames
    · exact hYes.reaches hOwned hWithin hFrames
  | @branch _ _ _ yes no _ _ _ _ _ span hElse hTest hYes hNo hSkip hLeave =>
    rw [Stmt.targets, Variables.assignAll_append] at hWithin
    have hMiddle := hOwned.after_block yes
    refine .append (.followed (.append (.followed ?_ (.jump _ .jmpf nofun)) ?_) (.jump _ .jmp nofun)) ?_
    · exact hTest.reaches hOwned hBefore hFrames
    · exact hYes.reaches hOwned ((hMiddle.within_assignAll _).trans hWithin) hFrames
    · exact hNo.reaches hMiddle hWithin hFrames
  | whileLoop span hTest hBody hLeave hAgain =>
    refine .followed (.append (.followed ?_ (.jump _ .jmpf nofun)) ?_) (.jump _ .jmp nofun)
    · exact hTest.reaches hOwned hBefore hFrames
    · exact hBody.reaches hOwned hWithin hFrames
  | @forLoop _ _ init step _ body _ _ _ _ _ _ span hInit hTest hBody hStep hLeave hAgain =>
    rw [Stmt.targets, Variables.assignAll_append, Variables.assignAll_append] at hWithin
    have hInside := hOwned.after_stmt init
    have hBehind := hInside.after_block body
    have hStepWithin := (hBehind.within_assignAll _).trans hWithin
    have hBodyWithin := (hInside.within_assignAll _).trans hStepWithin
    refine .followed (.append (.append (.followed (.append ?_ ?_) (.jump _ .jmpf nofun)) ?_) ?_) (.jump _ .jmp nofun)
    · exact hInit.reaches hOwned hBodyWithin hFrames
    · exact hTest.reaches hInside hBodyWithin hFrames
    · exact hBody.reaches hInside hStepWithin hFrames
    · exact hStep.reaches hBehind hWithin hFrames

theorem Stmt.BlockHasCode.reaches {v : Variables} {own : Eval.Own} {a : Nat} {body : List Stmt} {code : List Cell}
    (h : Stmt.BlockHasCode fs v a body code) (hOwned : v.Owned own)
    (hWithin : (v.assignAll (Stmt.blockTargets body)).Within full) (hFrames : full.frames = [frame]) :
    Cell.Reaches places frame code (Stmt.blockUses own body) := by
  cases h with
  | nil => exact .nil
  | @cons _ _ s _ _ _ hFirst hLater =>
    rw [Stmt.blockTargets, Variables.assignAll_append] at hWithin
    have hBehind := hOwned.after_stmt s
    have hFirstWithin := (hBehind.within_assignAll _).trans hWithin
    exact (hFirst.reaches hOwned hFirstWithin hFrames).append (hLater.reaches hBehind hWithin hFrames)

end

end

theorem Draft.reaches_returnCode {places : Std.TreeMap Nat Nat} {frame : Frame} (body : List Stmt) :
    Cell.Reaches places frame (returnCode body) [] := by
  rw [returnCode]
  split
  · exact .nil
  · exact .followed (.const (-1)) (.op .ret nofun)

/-- The frame of a function behind its body. -/
def Function.frame (f : Function) : Frame := ⟨f.params, f.localNames⟩

theorem Placement.reaches {fs : Functions} {statements : List Stmt} {main : List Cell} {ps : List Placement} {d : Draft}
    {p : Placement} (h : Draft.Sound fs statements main ps d) (hMem : p ∈ ps) (places : Std.TreeMap Nat Nat) :
    Cell.Reaches places p.function.frame p.code (Stmt.blockUses (some p.function.params) p.function.body) := by
  obtain ⟨_, _, code, hCode, hEnd⟩ := h.function p hMem
  have hOwned : Variables.Owned (some p.function.params)
      ⟨Stmt.globalNames statements, [⟨p.function.params, []⟩]⟩ := .call (by simp)
  have hWithin : Variables.Within
      (Variables.assignAll ⟨Stmt.globalNames statements, [⟨p.function.params, []⟩]⟩ (Stmt.blockTargets p.function.body))
      ⟨Stmt.globalNames statements, [p.function.frame]⟩ := by
    rw [Variables.assignAll_open]
    exact .call List.prefix_rfl
  rw [hEnd]
  exact (hCode.reaches hOwned hWithin rfl).followed (Draft.reaches_returnCode _)

/-! ## Slots and names -/

namespace Function

variable {f : Function}

theorem length_localNames (f : Function) :
    f.localNames.length = ((Stmt.blockTargets f.body).toFinset \ f.params.toFinset).card := by
  have hNames : f.localNames.toFinset = (Stmt.blockTargets f.body).toFinset \ f.params.toFinset := by
    ext x
    rw [List.mem_toFinset, localNames, mem_enlistAll, Finset.mem_sdiff, List.mem_toFinset, List.mem_toFinset]
    simp
  have hNodup : f.localNames.Nodup := nodup_enlistAll List.nodup_nil
  rw [← hNames, List.toFinset_card_of_nodup hNodup]

theorem offset_bounds {x : String} {slot : Int} (h : f.frame.offset? x = some slot) :
    -(f.arity : Int) ≤ slot ∧ slot < f.localNames.length := by
  rcases Frame.name_of_offset? h with ⟨i, rfl, hName⟩ | ⟨i, rfl, hName⟩
  · have hLt : i < f.arity := (List.getElem?_eq_some_iff.mp hName).1
    rw [Int.negSucc_eq]
    omega
  · have hLt : i < f.localNames.length := (List.getElem?_eq_some_iff.mp hName).1
    rw [Int.ofNat_eq_natCast]
    omega

end Function

theorem exists_pairs {names : List String} {slots : List Int} {offset? : String → Option Int}
    (h : slots.map some = names.map offset?) :
    ∃ uses : List (String × Int), uses.map Prod.fst = names ∧ uses.map Prod.snd = slots ∧
      ∀ u ∈ uses, offset? u.1 = some u.2 := by
  induction names generalizing slots with
  | nil =>
    cases List.map_eq_nil_iff.mp h
    exact ⟨[], rfl, rfl, nofun⟩
  | cons x names ih =>
    obtain ⟨slot, rest, rfl, hFirst, hRest⟩ := List.map_eq_cons_iff.mp h
    obtain ⟨uses, hNames, hSlots, hUses⟩ := ih hRest
    refine ⟨(x, slot) :: uses, ?_, ?_, ?_⟩
    · rw [List.map_cons, hNames]
    · rw [List.map_cons, hSlots]
    · rw [List.forall_mem_cons]
      exact ⟨hFirst.symm, hUses⟩

/-! ## Sections -/

/-- The cells of a section, up to the next one. -/
def Listing.sectionCells (l : Listing) (i : Nat) : List Cell :=
  let starts := l.sections.map Prod.fst
  (l.cells.take (starts[i + 1]?.getD l.cells.length)).drop (starts[i]?.getD l.cells.length)

theorem Placement.Follow.sectionCells {l : Listing} {main : List Cell} {ps : List Placement} {g : Cell → Cell} {i : Nat}
    {p : Placement} (h : Follow main.length ps) (hCells : l.cells = (main ++ ps.flatMap code).map g)
    (hSections : l.sections = ps.map fun p => (p.start, p.function.name)) (hGet : ps[i]? = some p) :
    l.sectionCells i = p.code.map g := by
  obtain ⟨before, after, rfl, rfl⟩ : ∃ before after, ps = before ++ p :: after ∧ before.length = i := by
    obtain ⟨hLt, rfl⟩ := List.getElem?_eq_some_iff.mp hGet
    refine ⟨ps.take i, ps.drop (i + 1), ?_, List.length_take_of_le (Nat.le_of_lt hLt)⟩
    rw [List.getElem_cons_drop, List.take_append_drop]
  obtain ⟨_, hStart, hAfter⟩ := follow_append.mp h
  have hAll : l.cells = ((main ++ before.flatMap code).map g ++ p.code.map g) ++ (after.flatMap code).map g := by
    rw [hCells, ← List.map_append, ← List.map_append, List.flatMap_append, List.flatMap_cons]
    simp only [List.append_assoc]
  have hFront : p.start = ((main ++ before.flatMap code).map g).length := by
    rw [hStart, List.length_map, List.length_append]
  have hFirst : (l.sections.map Prod.fst)[before.length]? = some p.start := by
    simp [hSections]
  -- the section ends at the next one, or where the cells do
  have hNext : (l.sections.map Prod.fst)[before.length + 1]?.getD l.cells.length =
      ((main ++ before.flatMap code).map g ++ p.code.map g).length := by
    cases after with
    | nil =>
      rw [hAll]
      simp [hSections]
    | cons q after =>
      obtain ⟨hNextStart, _⟩ := hAfter
      simp [hSections, hNextStart, Nat.add_assoc]
  rw [Listing.sectionCells]
  simp only [hFirst, hNext, Option.getD_some]
  rw [hAll, List.take_left, hFront, List.drop_left]

theorem Listing.vars_behind {statements : List Stmt} {listing : Listing} {i : Nat} {f : Function}
    (h : Listing.ofStatements statements = .ok listing)
    (hGet : (Functions.declareBlock {} statements).1.list[i]? = some f) :
    ((draft statements i).body (Functions.declareBlock {} statements).1 f).2.vars =
      ⟨Stmt.globalNames statements, [f.frame]⟩ := by
  obtain ⟨main, ps, hDraft, _⟩ := Listing.sound_draft h i
  have hErrors := Listing.no_errors_draft h (i + 1)
  rw [draft_succ hGet] at hErrors
  exact (hDraft.body hErrors).2.1

/-- The locals of a function were counted rightly: they are the names assigned in its body, parameters apart, and the
slots in the table behind the body. Its code reads and assigns its own names in their slots, which differ. -/
structure Function.Allotted (f : Function) (behind : Variables) (code : List Cell) : Prop where
  assigned : f.locals = ((Stmt.blockTargets f.body).toFinset \ f.params.toFinset).card
  closed : behind.leave.1 = f.locals
  slots : ∃ uses : List (String × Int),
    uses.map Prod.fst = Stmt.blockUses (some f.params) f.body ∧ uses.map Prod.snd = (Cell.slots code).map (·.toInt) ∧
    (∀ u ∈ uses, -(f.arity : Int) ≤ u.2 ∧ u.2 < f.locals) ∧ ∀ u ∈ uses, ∀ w ∈ uses, u.1 = w.1 ↔ u.2 = w.2

theorem Function.allotted {f : Function} {behind : Variables} {code : List Cell} {places : Std.TreeMap Nat Nat}
    (hLocals : f.locals = f.localNames.length) (hFrames : behind.frames = [f.frame])
    (hCode : Cell.Reaches places f.frame code (Stmt.blockUses (some f.params) f.body)) :
    f.Allotted behind (code.map (Cell.linked places)) := by
  constructor
  · rw [hLocals, f.length_localNames]
  · rw [Variables.leave, hFrames, hLocals]
    rfl
  · obtain ⟨uses, hNames, hUsed, hOffsets⟩ := exists_pairs hCode.slots
    refine ⟨uses, hNames, hUsed, ?_, ?_⟩
    · intro u hMem
      rw [hLocals]
      exact Function.offset_bounds (hOffsets u hMem)
    · intro u hFirst w hSecond
      have hOffset := hOffsets u hFirst
      constructor
      · intro hName
        rw [hName, hOffsets w hSecond] at hOffset
        exact (Option.some.inj hOffset).symm
      · intro hSlot
        rw [hSlot] at hOffset
        exact Frame.offset?_injective hOffset (hOffsets w hSecond)

/-- For each declared function the count of locals agrees with its code. -/
theorem Listing.exists_allotted {statements : List Stmt} {listing : Listing} {i : Nat} {d : Declaration}
    (h : Listing.ofStatements statements = .ok listing) (hDeclared : (Stmt.blockDeclarations statements)[i]? = some d) :
    ∃ f, (Functions.declareBlock {} statements).1.list[i]? = some f ∧ f.declaration = d ∧
      listing.sections[i]?.map Prod.snd = some d.name ∧
      f.Allotted ((draft statements i).body (Functions.declareBlock {} statements).1 f).2.vars
        (listing.sectionCells i) := by
  obtain ⟨hErrors, draft, main, ps, hDraft, hFunctions, hLinked, hListing⟩ := Listing.exists_draft h
  rw [Relocations.cells_link hDraft.records hLinked, hDraft.cells, hDraft.sections] at hListing
  have hDeclarations := Functions.declarations_declareBlock hErrors
  rw [List.map_nil, List.nil_append] at hDeclarations
  rw [← hDeclarations, List.getElem?_map] at hDeclared
  obtain ⟨f, hGet, rfl⟩ := Option.map_eq_some_iff.mp hDeclared
  have hPlacement := hGet
  rw [← hFunctions, List.getElem?_map] at hPlacement
  obtain ⟨p, hPlaced, rfl⟩ := Option.map_eq_some_iff.mp hPlacement
  have hMem := List.mem_of_getElem? hPlaced
  have hLocals : p.function.locals = p.function.localNames.length := by
    rw [(Functions.sound_declared statements i _ hGet).2, Function.countLocals_eq (hDraft.function p hMem).1]
    rfl
  refine ⟨p.function, hGet, rfl, ?_, ?_⟩
  · rw [hListing, List.getElem?_map, hPlaced]
    rfl
  · rw [hDraft.follow.sectionCells (congrArg Listing.cells hListing) (congrArg Listing.sections hListing) hPlaced]
    have hVars := Listing.vars_behind h hGet
    refine Function.allotted hLocals ?_ (Placement.reaches hDraft hMem _)
    rw [hVars]

/-- A function that reads a global name before the name is its own, and a loop with a new name in its step. -/
def Stmt.nameInStep : List Stmt :=
  let span := Span.nowhere
  let read := Expr.var span
  [.assign span "x" (.int span 1),
    .function span "f" ["n"]
      [.assign span "x" (read "x"),
        .forLoop span (.assign span "i" (read "n")) (read "i") (.assign span "s" (read "b"))
          [.assign span "b" (read "x")]]]

theorem Listing.exists_allotted_nameInStep :
    ∃ f, (Functions.declareBlock {} Stmt.nameInStep).1.list[0]? = some f ∧ f.locals = 4 ∧
      (Cell.slots ((Listing.generate Stmt.nameInStep).listing.sectionCells 0)).map (·.toInt) =
        [0, -1, 1, 1, 0, 2, 2, 3] ∧
      f.Allotted ((draft Stmt.nameInStep 0).body (Functions.declareBlock {} Stmt.nameInStep).1 f).2.vars
        ((Listing.generate Stmt.nameInStep).listing.sectionCells 0) := by
  have hListing : Listing.ofStatements Stmt.nameInStep = .ok (Listing.generate Stmt.nameInStep).listing := rfl
  have hCount : (Functions.declareBlock {} Stmt.nameInStep).1.list[0]?.map Function.locals = some 4 := by
    decide +kernel
  obtain ⟨f, hGet, _, _, hAllotted⟩ := Listing.exists_allotted (i := 0) hListing rfl
  rw [hGet] at hCount
  exact ⟨f, hGet, Option.some.inj hCount, by decide +kernel, hAllotted⟩

end Vee
