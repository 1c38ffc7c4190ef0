import Vee.Proofs.Code.Blame
import Vee.Proofs.Code.Fitting
import Vee.Proofs.Code.Layout

/-! # Symbols in code

Generation goes on behind an error, and what it keeps can be linked all the same: a statement that is dropped leaves
neither cells nor records behind, every symbol among the cells is that of a declared function, and every declared
function gets a place. So linking finds no error of its own, as long as words number the cells.
-/

namespace Vee

set_option autoImplicit false

open Effect

/-! ## Symbols of declared functions -/

/-- Every symbol among the cells is that of a function. -/
def Functions.Know (fs : Functions) (cells : List Cell) : Prop :=
  ∀ id, .symbol id ∈ cells → ∃ f ∈ fs.list, f.symbol = id

namespace Functions

variable {fs : Functions} {first second : List Cell}

@[simp] theorem know_nil : fs.Know [] := fun _ hMem => absurd hMem List.not_mem_nil

@[simp] theorem know_op {o : Opcode} {cells : List Cell} : fs.Know (.op o :: cells) ↔ fs.Know cells := by
  simp [Know]

@[simp] theorem know_int {n : Word} {cells : List Cell} : fs.Know (.int n :: cells) ↔ fs.Know cells := by
  simp [Know]

@[simp] theorem know_append : fs.Know (first ++ second) ↔ fs.Know first ∧ fs.Know second := by
  simp only [Know, List.mem_append]
  constructor
  · intro h
    exact ⟨fun id hMem => h id (.inl hMem), fun id hMem => h id (.inr hMem)⟩
  · rintro ⟨hFirst, hSecond⟩ id hMem
    exact hMem.elim (hFirst id) (hSecond id)

theorem know_ops (ops : List Opcode) : fs.Know (ops.map Cell.op) := by
  simp [Know]

theorem know_call {f : Function} {arity locals : Word} (h : f ∈ fs.list) :
    fs.Know [.op .call, .symbol f.symbol, .int arity, .int locals] := by
  intro id hMem
  simp only [List.mem_cons, reduceCtorEq, Cell.symbol.injEq, List.not_mem_nil, or_false, false_or] at hMem
  exact ⟨f, h, hMem.symm⟩

theorem know_returnCode (body : List Stmt) : fs.Know (Draft.returnCode body) := by
  rw [Draft.returnCode]
  split
  · exact know_nil
  · simp

end Functions

open Functions

section

variable {fs : Functions} {v : Variables}

mutual

theorem Expr.HasCode.know {e : Expr} {code : List Cell} (h : e.HasCode fs v code) : fs.Know code := by
  cases h with
  | int span n => simp
  | own span hSlot hWord => simp
  | global span hSlot hWord => simp
  | call span hFind hArity hArgs hArityWord hLocals =>
    exact know_append.mpr ⟨hArgs.know, know_call (List.mem_of_find?_eq_some hFind)⟩
  | unary span hOperand => exact know_append.mpr ⟨hOperand.know, by simp⟩
  | binary span hLeft hRight =>
    exact know_append.mpr ⟨know_append.mpr ⟨hLeft.know, hRight.know⟩, know_ops _⟩

theorem Expr.ArgsHaveCode.know {es : List Expr} {code : List Cell} (h : Expr.ArgsHaveCode fs v es code) :
    fs.Know code := by
  cases h with
  | nil => exact know_nil
  | cons hLater hFirst => exact know_append.mpr ⟨hLater.know, hFirst.know⟩

end

theorem Slot.know_of_storeCode {slot : Slot} {span : Span} {store : List Cell} (h : slot.storeCode span = .ok store) :
    fs.Know store := by
  rcases storeCode_cases h with ⟨offset, w, -, -, rfl⟩ | ⟨i, w, -, -, rfl⟩
  · simp
  · simp

end

/-! ## Statements -/

/-- No error among those found comes from linking. -/
def Scope.NoLinkError (scope : Scope) : Prop := ∀ e, .link e ∉ scope.errors

theorem CompileError.RaisedIn.ne_link {phrases : List Phrase} {e : CompileError} (h : e.RaisedIn phrases)
    (d : LinkError) : e ≠ .link d := by
  obtain ⟨p, _, hRaised⟩ := h
  rintro rfl
  cases hRaised

theorem Scope.NoLinkError.report {scope : Scope} (h : scope.NoLinkError) {e : CompileError} (hOwn : ∀ d, e ≠ .link d) :
    Scope.NoLinkError { scope with errors := scope.errors ++ [e] } := by
  intro d hMem
  rcases List.mem_append.mp hMem with hFound | hNew
  · exact h d hFound
  · exact hOwn d (List.mem_singleton.mp hNew).symm

namespace Gen

/-- A step whose code has no symbol but those of functions, and that adds no error of linking. -/
structure Tracked (fs : Functions) (x : Gen (List Cell)) : Prop where
  yields (scope : Scope) : scope.NoLinkError →
    Yields x scope (fun code later => fs.Know code ∧ later.NoLinkError) fun _ later => later.NoLinkError

variable {fs : Functions} {x : Gen (List Cell)} {f : List Cell → Gen (List Cell)}

theorem Tracked.bind (hFirst : Tracked fs x) (hRest : ∀ code, fs.Know code → Tracked fs (f code)) :
    Tracked fs (x >>= f) := by
  constructor
  intro scope hScope
  refine (hFirst.yields scope hScope).bind ?_
  rintro code later ⟨hCode, hLater⟩
  exact (hRest code hCode).yields later hLater

theorem tracked_pure {code : List Cell} (h : fs.Know code) : Tracked fs (pure code) := ⟨fun _ hScope => ⟨h, hScope⟩⟩

theorem tracked_throw (e : CompileError) : Tracked fs (throw e) := ⟨fun _ hScope => hScope⟩

theorem tracked_get_bind {g : Scope → Gen (List Cell)} (h : ∀ scope, Tracked fs (g scope)) :
    Tracked fs (get >>= g) := ⟨fun scope hScope => (h scope).yields scope hScope⟩

theorem tracked_assign_bind (name : String) {g : Slot → Gen (List Cell)} (h : ∀ slot, Tracked fs (g slot)) :
    Tracked fs (assign name >>= g) := ⟨fun _ hScope => (h _).yields _ hScope⟩

theorem tracked_modifyGet {g : Scope → List Cell × Scope}
    (h : ∀ scope, scope.NoLinkError → fs.Know (g scope).1 ∧ (g scope).2.NoLinkError) : Tracked fs (modifyGet g) := ⟨h⟩

theorem tracked_expr (e : Expr) : Tracked fs (expr fs e) := by
  constructor
  intro scope hScope
  cases hCode : e.code fs scope.vars with
  | ok code =>
    simp only [Yields, expr, hCode]
    exact ⟨(Expr.hasCode_of_code hCode).know, hScope⟩
  | error d =>
    simp only [Yields, expr, hCode]
    exact hScope

theorem tracked_jump (target : Nat) (op : Opcode) : Tracked fs (jump target op) := by
  rw [jump, address]
  cases Word.ofNat? target with
  | none => exact tracked_throw _
  | some w =>
    refine tracked_pure ?_
    simp

end Gen

namespace Stmt

open Gen

variable {fs : Functions}

mutual

theorem tracked_code (a : Nat) (s : Stmt) : Tracked fs (s.code fs a) := by
  cases s with
  | assign span name e =>
    rw [code]
    refine (tracked_expr e).bind fun value hValue => tracked_assign_bind name fun slot => ?_
    split
    · rename_i store hStore
      exact tracked_pure (know_append.mpr ⟨hValue, Slot.know_of_storeCode hStore⟩)
    · exact tracked_throw _
  | expr span e =>
    rw [code]
    refine (tracked_expr e).bind fun value hValue => tracked_pure ?_
    simpa using hValue
  | print span e =>
    rw [code]
    refine (tracked_expr e).bind fun value hValue => tracked_pure ?_
    simpa using hValue
  | function span name params body =>
    rw [code]
    exact tracked_pure know_nil
  | ret span value =>
    cases value with
    | none =>
      refine tracked_get_bind fun scope => ?_
      split
      · exact tracked_pure (by simp)
      · exact tracked_throw _
    | some e =>
      refine tracked_get_bind fun scope => ?_
      split
      · refine (tracked_expr e).bind fun value hValue => tracked_pure ?_
        simpa using hValue
      · exact tracked_throw _
  | branch span c yes no =>
    rw [code]
    refine (tracked_expr c).bind fun test hTest => ?_
    refine (tracked_modifyGet (tracked_block _ yes)).bind fun yesCode hYes => ?_
    split
    · refine (tracked_jump _ _).bind fun skip hSkip => tracked_pure ?_
      simp [hTest, hSkip, hYes]
    · refine (tracked_modifyGet (tracked_block _ no)).bind fun noCode hNo => ?_
      refine (tracked_jump _ _).bind fun skip hSkip => (tracked_jump _ _).bind fun leave hLeave => tracked_pure ?_
      simp [hTest, hSkip, hYes, hLeave, hNo]
  | whileLoop span c body =>
    rw [code]
    refine (tracked_expr c).bind fun test hTest => ?_
    refine (tracked_modifyGet (tracked_block _ body)).bind fun bodyCode hBody => ?_
    refine (tracked_jump _ _).bind fun leave hLeave => (tracked_jump _ _).bind fun again hAgain => tracked_pure ?_
    simp [hTest, hLeave, hBody, hAgain]
  | forLoop span init c step body =>
    rw [code]
    refine (tracked_code _ init).bind fun initCode hInit => (tracked_expr c).bind fun test hTest => ?_
    refine (tracked_modifyGet (tracked_block _ body)).bind fun bodyCode hBody => ?_
    refine (tracked_code _ step).bind fun stepCode hStep => ?_
    refine (tracked_jump _ _).bind fun leave hLeave => (tracked_jump _ _).bind fun again hAgain => tracked_pure ?_
    simp [hInit, hTest, hLeave, hBody, hStep, hAgain]

/-- What a statement had before its error is dropped with it. -/
theorem tracked_block (a : Nat) (body : List Stmt) (scope : Scope) (h : scope.NoLinkError) :
    fs.Know (blockCode fs a body scope).1 ∧ (blockCode fs a body scope).2.NoLinkError := by
  cases body with
  | nil => exact ⟨know_nil, h⟩
  | cons s rest =>
    have hFirst := (tracked_code a s).yields scope h
    rw [blockCode]
    cases hCode : code fs a s scope with
    | ok code later =>
      obtain ⟨hKnow, hLater⟩ := hFirst.of_ok hCode
      obtain ⟨hRest, hEnd⟩ := tracked_block (a + code.length) rest later hLater
      exact ⟨know_append.mpr ⟨hKnow, hRest⟩, hEnd⟩
    | error e later =>
      have hOwn := ((fails_code s a).raised scope hCode).ne_link
      exact tracked_block a rest _ ((hFirst.of_error hCode).report hOwn)

end

theorem BlockHasCode.know {v : Variables} {a : Nat} {body : List Stmt} {code : List Cell}
    (h : BlockHasCode fs v a body code) : fs.Know code := by
  have hBlock : blockCode fs a body { vars := v } = (code, _) := BlockHasCode.blockCode_eq h
  have hKnow : fs.Know (blockCode fs a body { vars := v }).1 := (tracked_block a body _ fun _ => List.not_mem_nil).1
  rwa [hBlock] at hKnow

end Stmt

/-! ## Declarations -/

namespace Functions

mutual

theorem link_not_mem_declareStmt (fs : Functions) (s : Stmt) (d : LinkError) : .link d ∉ (fs.declareStmt s).2 := by
  cases s with
  | function span name params body =>
    rw [declareStmt, declare]
    cases fs.find? name with
    | none => exact link_not_mem_declareBlock _ body d
    | some f => exact List.not_mem_cons_of_ne_of_not_mem (by simp) (link_not_mem_declareBlock fs body d)
  | branch span c yes no =>
    rw [declareStmt]
    exact List.not_mem_append (link_not_mem_declareBlock fs yes d) (link_not_mem_declareBlock _ no d)
  | whileLoop span c body => exact link_not_mem_declareBlock fs body d
  | forLoop span init c step body => exact link_not_mem_declareBlock fs body d
  | assign span x e => exact List.not_mem_nil
  | expr span e => exact List.not_mem_nil
  | print span e => exact List.not_mem_nil
  | ret span value => exact List.not_mem_nil

theorem link_not_mem_declareBlock (fs : Functions) (body : List Stmt) (d : LinkError) :
    .link d ∉ (fs.declareBlock body).2 := by
  cases body with
  | nil => exact List.not_mem_nil
  | cons s rest =>
    rw [declareBlock]
    exact List.not_mem_append (link_not_mem_declareStmt fs s d) (link_not_mem_declareBlock _ rest d)

end

end Functions

/-! ## Drafts -/

namespace Draft

/-- A draft with some functions, errors or not: its records are the symbols among its cells, all of declared functions,
and the functions have places within it. -/
structure Tracks (fs : Functions) (placed : List Function) (d : Draft) : Prop where
  records : d.relocations.Records d.listing.cells
  symbols : fs.Know d.listing.cells
  places : ∀ f ∈ placed, ∃ a ≤ d.listing.cells.length, d.relocations.places[f.symbol]? = some a
  errors : d.scope.NoLinkError

variable {fs : Functions} {placed : List Function} {d : Draft}

theorem Tracks.place (h : Tracks fs placed d) {cells : List Cell} (hCells : fs.Know cells) {scope : Scope}
    (hScope : scope.NoLinkError) : Tracks fs placed (place { d with scope := scope } cells) where
  records := h.records.scan cells
  symbols := know_append.mpr ⟨h.symbols, hCells⟩
  places := by
    intro f hMem
    obtain ⟨a, hLe, hPlace⟩ := h.places f hMem
    refine ⟨a, ?_, ?_⟩
    · simp only [Draft.place, Listing.append, List.length_append]
      omega
    · rw [Draft.place, Relocations.places_scan]
      exact hPlace
  errors := hScope

theorem tracks_entry (statements : List Stmt) {errors : List CompileError} (h : ∀ e, .link e ∉ errors) :
    Tracks fs [] (entry { scope := { errors := errors } } fs statements) := by
  have hNew : Tracks fs [] { scope := { errors := errors } } :=
    ⟨Relocations.records_new, know_nil, fun _ hMem => absurd hMem List.not_mem_nil, h⟩
  obtain ⟨hCode, hScope⟩ : fs.Know (block { scope := { errors := errors } } fs statements).1 ∧ _ :=
    Stmt.tracked_block 0 statements { errors := errors } h
  exact hNew.place (know_append.mpr ⟨hCode, by simp⟩) hScope

theorem noLinkError_declareParams (scope : Scope) (h : scope.NoLinkError) (params : List String) :
    (params.foldl declareParam scope).NoLinkError := by
  induction params generalizing scope with
  | nil => exact h
  | cons x params ih =>
    refine ih _ ?_
    rw [declareParam]
    split
    · exact h
    · exact h.report (by simp)

theorem Tracks.opened (h : Tracks fs placed d) (f : Function) : Tracks fs (placed ++ [f]) (d.opened f) where
  records := h.records
  symbols := h.symbols
  places := by
    intro g hMem
    simp only [Draft.opened, Listing.addSection, Relocations.place, Std.TreeMap.getElem?_insert]
    split
    · exact ⟨_, Nat.le_refl _, rfl⟩
    · rename_i hOther
      rcases List.mem_append.mp hMem with hDone | hLast
      · exact h.places g hDone
      · rw [List.mem_singleton.mp hLast] at hOther
        simp at hOther
  errors := noLinkError_declareParams { d.scope with vars := d.scope.vars.enter } h.errors f.params

theorem Tracks.step (h : Tracks fs placed d) (f : Function) : Tracks fs (placed ++ [f]) (function fs d f) := by
  have hOpened := h.opened f
  obtain ⟨hCode, hScope⟩ : fs.Know (d.body fs f).1 ∧ (d.body fs f).2.NoLinkError :=
    Stmt.tracked_block d.listing.cells.length f.body (d.opened f).scope hOpened.errors
  rw [function_opened]
  exact hOpened.place (know_append.mpr ⟨hCode, know_returnCode f.body⟩) hScope

theorem Tracks.run (h : Tracks fs placed d) (rest : List Function) :
    Tracks fs (placed ++ rest) (rest.foldl (function fs) d) := by
  induction rest generalizing placed d with
  | nil => simpa using h
  | cons f rest ih =>
    rw [List.append_cons]
    exact ih (h.step f)

/-- Nothing is left to find when all functions have been placed. -/
theorem Tracks.errors_link (h : Tracks fs fs.list d) (hSize : d.listing.cells.length < 2147483648) :
    (d.relocations.link d.listing.cells).1.errors = [] := by
  refine h.records.errors_link fun id hMem => ?_
  obtain ⟨f, hDeclared, rfl⟩ := h.symbols id hMem
  obtain ⟨a, hLe, hPlace⟩ := h.places f hDeclared
  obtain ⟨w, hWord⟩ := Word.exists_ofNat?_iff.mpr (Nat.lt_of_le_of_lt hLe hSize)
  exact ⟨w, by rw [hPlace, Option.bind_some, hWord]⟩

end Draft

/-- Linking adds no error to those found before. -/
theorem Listing.link_not_mem_errors {statements : List Stmt}
    (h : (Listing.generate statements).listing.cells.length < 2147483648) (e : LinkError) :
    .link e ∉ (Listing.generate statements).errors := by
  have hEntry : Draft.Tracks (declareBlock {} statements).1 [] _ :=
    Draft.tracks_entry statements (link_not_mem_declareBlock {} statements)
  have hDraft := hEntry.run (declareBlock {} statements).1.list
  have hLinked := hDraft.errors_link (Relocations.length_link _ _ ▸ h)
  intro hMem
  rcases List.mem_append.mp hMem with hFound | hNew
  · exact hDraft.errors e hFound
  · obtain ⟨d, hError, _⟩ := List.mem_map.mp hNew
    exact List.not_mem_nil (hLinked ▸ hError)

end Vee
