import Vee.Proofs.Code.Emission
import Vee.Proofs.Code.Link

/-! # Layout of programs

Where the code of a program stands once it is linked: the main program at the start with a halt behind it, and
every function at the place that calls of it lead to. Each function has code for a table of its parameters and
all global names, and its number of locals is that of the names its code assigns.
-/

namespace Vee

set_option autoImplicit false

/-- The names of the global variables, by slot. -/
def Stmt.globalNames (statements : List Stmt) : List String := (Stmt.blockTargets statements).foldl (enlist []) []

/-- The names of the locals of a function, by slot. -/
def Function.localNames (f : Function) : List String := (Stmt.blockTargets f.body).foldl (enlist f.params) []

/-- Linked code of a program. -/
structure Program.Layout (p : Program) (places : Std.TreeMap Nat Nat) (fs : Functions) (statements : List Stmt) :
    Prop where
  main : ∃ code, Stmt.BlockHasCode fs {} 0 statements code ∧ p.Holds places 0 (code ++ [.op .halt])
  function : ∀ f ∈ fs.list, ∃ a code, places[f.symbol]? = some a ∧
    Stmt.BlockHasCode fs ⟨Stmt.globalNames statements, [⟨f.params, []⟩]⟩ a f.body code ∧
    p.Holds places a (code ++ Draft.returnCode f.body)
  locals : ∀ f ∈ fs.list, f.locals = f.localNames.length

/-! ## Declared functions -/

/-- The symbol of each function is its position, and its locals have been counted. -/
def Functions.Sound (fs : Functions) : Prop :=
  ∀ (i : Nat) (f : Function), fs.list[i]? = some f →
    f.symbol = i ∧ f.locals = Function.countLocals f.params f.body

namespace Functions

variable {fs : Functions}

theorem Sound.declare (h : fs.Sound) {span : Span} {name : String} {params : List String} {body : List Stmt}
    {symbol : Nat} {more : Functions} (hDeclare : fs.declare span name params body = .ok (symbol, more)) :
    more.Sound := by
  rw [Functions.declare] at hDeclare
  split at hDeclare
  · cases hDeclare
  · cases hDeclare
    intro i f hGet
    rw [List.getElem?_append] at hGet
    split at hGet
    · exact h i f hGet
    · cases hIndex : i - fs.list.length with
      | zero =>
        rw [hIndex] at hGet
        cases hGet
        refine ⟨?_, rfl⟩
        change fs.list.length = i
        omega
      | succ n =>
        rw [hIndex] at hGet
        cases hGet

mutual

theorem Sound.declareStmt {fs : Functions} (h : fs.Sound) (s : Stmt) : (fs.declareStmt s).1.Sound := by
  cases s with
  | function span name params body =>
    rw [Functions.declareStmt]
    split
    · rename_i hDeclare
      exact (h.declare hDeclare).declareBlock body
    · exact h.declareBlock body
  | branch span c yes no => exact (h.declareBlock yes).declareBlock no
  | whileLoop span c body => exact h.declareBlock body
  | forLoop span init c step body => exact h.declareBlock body
  | assign span name e => exact h
  | expr span e => exact h
  | print span e => exact h
  | ret span value => exact h

theorem Sound.declareBlock {fs : Functions} (h : fs.Sound) (body : List Stmt) : (fs.declareBlock body).1.Sound := by
  cases body with
  | nil => exact h
  | cons s rest => exact (h.declareStmt s).declareBlock rest

end

theorem sound_declared (statements : List Stmt) : (declareBlock {} statements).1.Sound :=
  Sound.declareBlock (fun i f hGet => by simp at hGet) statements

end Functions

/-! ## Parameters and locals -/

theorem Variables.param_new {globals done : List String} {x : String} (h : x ∉ done) :
    (Variables.mk globals [⟨done, []⟩]).param x =
      (some (-((done.length : Int) + 1)), ⟨globals, [⟨done ++ [x], []⟩]⟩) := by
  have hNone : (Frame.mk done []).offset? x = none := Frame.offset?_eq_none.mpr ⟨h, by simp⟩
  simp only [Variables.param, hNone]

theorem Variables.param_old {globals done : List String} {x : String} (h : x ∈ done) :
    (Variables.mk globals [⟨done, []⟩]).param x = (none, ⟨globals, [⟨done, []⟩]⟩) := by
  cases hOffset : (Frame.mk done []).offset? x with
  | none => exact absurd h (Frame.offset?_eq_none.mp hOffset).1
  | some slot => simp only [Variables.param, hOffset]

theorem Draft.errors_declareParam (scope : Scope) (name : String) :
    scope.errors <+: (Draft.declareParam scope name).errors := by
  rw [Draft.declareParam]
  split
  · exact List.prefix_rfl
  · exact List.prefix_append _ _

theorem Draft.errors_declareParams (scope : Scope) (params : List String) :
    scope.errors <+: (params.foldl Draft.declareParam scope).errors := by
  induction params generalizing scope with
  | nil => exact List.prefix_rfl
  | cons x params ih => exact (Draft.errors_declareParam scope x).trans (ih _)

theorem Draft.declareParams_of_no_error {params done globals : List String} {scope : Scope}
    (h : (params.foldl Draft.declareParam scope).errors = []) (hVars : scope.vars = ⟨globals, [⟨done, []⟩]⟩)
    (hDone : done.Nodup) :
    (params.foldl Draft.declareParam scope).vars = ⟨globals, [⟨done ++ params, []⟩]⟩ ∧ (done ++ params).Nodup := by
  induction params generalizing scope done with
  | nil => simpa using ⟨hVars, hDone⟩
  | cons x params ih =>
    rw [List.foldl_cons] at h ⊢
    have hErrors := List.prefix_nil.mp (h ▸ Draft.errors_declareParams (Draft.declareParam scope x) params)
    by_cases hOld : x ∈ done
    · simp [Draft.declareParam, hVars, Variables.param_old hOld] at hErrors
    · rw [List.append_cons]
      refine ih h ?_ ?_
      · simp only [Draft.declareParam, hVars, Variables.param_new hOld]
      · rw [List.nodup_append]
        refine ⟨hDone, by simp, ?_⟩
        intro y hMem z hEnd hEq
        rw [List.mem_singleton] at hEnd
        exact hOld (hEnd ▸ hEq ▸ hMem)

theorem not_mem_of_nodup {done params : List String} {x : String} (h : (done ++ [x] ++ params).Nodup) : x ∉ done := by
  rw [List.append_assoc, List.nodup_append] at h
  exact fun hMem => h.2.2 x hMem x (by simp) rfl

theorem Function.params_entered {params done globals : List String} (h : (done ++ params).Nodup) :
    params.foldl (fun v p => (v.param p).2) (Variables.mk globals [⟨done, []⟩]) =
      ⟨globals, [⟨done ++ params, []⟩]⟩ := by
  induction params generalizing done with
  | nil => rw [List.append_nil]; rfl
  | cons x params ih =>
    rw [List.append_cons] at h ⊢
    rw [List.foldl_cons, Variables.param_new (not_mem_of_nodup h), ih h]

/-- The locals counted beforehand are those that the code of the body allots. -/
theorem Function.countLocals_eq {params : List String} (h : params.Nodup) (body : List Stmt) :
    Function.countLocals params body = ((Stmt.blockTargets body).foldl (enlist params) []).length := by
  have hEntered : params.foldl (fun v p => (v.param p).2) (Variables.mk [] [⟨[], []⟩]) = ⟨[], [⟨params, []⟩]⟩ :=
    Function.params_entered h
  have hAssigned := Variables.assignAll_open [] ⟨params, []⟩ [] (Stmt.assignedNames body)
  rw [Variables.assignAll] at hAssigned
  rw [Function.countLocals, Variables.enter]
  simp only [hEntered, hAssigned, Variables.leave]
  exact length_enlistAll_congr (fun x => (Stmt.mem_blockTargets body).symm) List.nodup_nil

/-! ## Placing -/

/-- The code stands among cells from an address on. -/
def Placed (cells : List Cell) (a : Nat) (code : List Cell) : Prop :=
  ∀ (i : Nat) (c : Cell), code[i]? = some c → cells[a + i]? = some c

theorem placed_append (cells code : List Cell) : Placed (cells ++ code) cells.length code := by
  intro i c hGet
  rw [List.getElem?_append_right (by omega), Nat.add_sub_cancel_left, hGet]

theorem Placed.append {cells code : List Cell} {a : Nat} (h : Placed cells a code) (more : List Cell) :
    Placed (cells ++ more) a code := by
  intro i c hGet
  have hLt := (List.getElem?_eq_some_iff.mp (h i c hGet)).1
  rw [List.getElem?_append_left hLt, h i c hGet]

theorem placed_between (before code after : List Cell) : Placed (before ++ code ++ after) before.length code :=
  (placed_append before code).append after

/-- A function with the address at which it starts and its code, the return at its end included. -/
structure Placement where
  function : Function
  start : Nat
  code : List Cell

namespace Placement

/-- The code of functions stands one behind another from an address on. -/
def Follow : Nat → List Placement → Prop
  | _, [] => True
  | a, p :: rest => p.start = a ∧ Follow (a + p.code.length) rest

theorem follow_append {a : Nat} {first second : List Placement} :
    Follow a (first ++ second) ↔ Follow a first ∧ Follow (a + (first.flatMap code).length) second := by
  induction first generalizing a with
  | nil => simp [Follow]
  | cons p rest ih =>
    rw [List.cons_append, Follow, Follow, ih, List.flatMap_cons, List.length_append, and_assoc, Nat.add_assoc]

theorem Follow.start_le {a : Nat} {ps : List Placement} (h : Follow a ps) {p : Placement} (hMem : p ∈ ps) :
    p.start ≤ a + (ps.flatMap code).length := by
  obtain ⟨before, after, rfl⟩ := List.append_of_mem hMem
  obtain ⟨hStart, _⟩ := (follow_append.mp h).2
  rw [hStart, List.flatMap_append, List.length_append]
  omega

theorem Follow.placed {main : List Cell} {ps : List Placement} (h : Follow main.length ps) {p : Placement}
    (hMem : p ∈ ps) : Placed (main ++ ps.flatMap code) p.start p.code := by
  obtain ⟨before, after, rfl⟩ := List.append_of_mem hMem
  obtain ⟨hStart, _⟩ := (follow_append.mp h).2
  have hLength : p.start = (main ++ before.flatMap code).length := by
    rw [hStart, List.length_append]
  rw [hLength, List.flatMap_append, List.flatMap_cons, ← List.append_assoc, ← List.append_assoc]
  exact placed_between _ _ _

end Placement

namespace Draft

/-- A draft with the main program and some functions, in which no error was found. -/
structure Sound (fs : Functions) (statements : List Stmt) (main : List Cell) (ps : List Placement) (d : Draft) :
    Prop where
  vars : d.scope.vars = ⟨Stmt.globalNames statements, []⟩
  records : d.relocations.Records d.listing.cells
  cells : d.listing.cells = main ++ ps.flatMap Placement.code
  sections : d.listing.sections = ps.map fun p => (p.start, p.function.name)
  follow : Placement.Follow main.length ps
  entry : ∃ code, Stmt.BlockHasCode fs {} 0 statements code ∧ main = code ++ [.op .halt]
  function : ∀ p ∈ ps, p.function.params.Nodup ∧ d.relocations.places[p.function.symbol]? = some p.start ∧
    ∃ code, Stmt.BlockHasCode fs ⟨Stmt.globalNames statements, [⟨p.function.params, []⟩]⟩ p.start p.function.body
      code ∧ p.code = code ++ returnCode p.function.body

variable {fs : Functions} {statements : List Stmt} {main : List Cell} {ps : List Placement} {d : Draft} {f : Function}

theorem sound_entry {errors : List CompileError}
    (h : (entry { scope := { errors := errors } } fs statements).scope.errors = []) :
    ∃ main, Sound fs statements main [] (entry { scope := { errors := errors } } fs statements) := by
  obtain ⟨hVars, hCode⟩ := Stmt.blockHasCode_of_blockCode
    (Eq.refl (Stmt.blockCode fs 0 statements { errors := errors })) h
  rw [show Scope.vars { errors := errors } = ⟨[], []⟩ from rfl, Variables.assignAll_main] at hVars
  exact ⟨_,
    { vars := hVars
      records := Relocations.records_new.scan _
      cells := (List.append_nil _).symm
      sections := rfl
      follow := trivial
      entry := ⟨_, hCode, rfl⟩
      function := nofun }⟩

theorem errors_function : d.scope.errors <+: (function fs d f).scope.errors :=
  (errors_declareParams { d.scope with vars := d.scope.vars.enter } f.params).trans (Stmt.errors_blockCode _ _ _)

theorem errors_functions {rest : List Function} :
    d.scope.errors <+: (rest.foldl (function fs) d).scope.errors := by
  induction rest generalizing d with
  | nil => exact List.prefix_rfl
  | cons f rest ih => exact errors_function.trans ih

theorem no_errors_before_functions {rest : List Function}
    (h : (rest.foldl (function fs) d).scope.errors = []) : d.scope.errors = [] := by
  have hPrefix : d.scope.errors <+: (rest.foldl (function fs) d).scope.errors := errors_functions
  rw [h] at hPrefix
  exact List.prefix_nil.mp hPrefix

/-- The draft in front of the body of a function. -/
def opened (d : Draft) (f : Function) : Draft where
  listing := d.listing.addSection f.name
  relocations := d.relocations.place f.symbol d.listing.cells.length
  scope := f.params.foldl declareParam { d.scope with vars := d.scope.vars.enter }

/-- The code of the body of a function, and the scope behind it. -/
def body (fs : Functions) (d : Draft) (f : Function) : List Cell × Scope := (d.opened f).block fs f.body

theorem function_opened (fs : Functions) (d : Draft) (f : Function) :
    Draft.function fs d f =
      place { d.opened f with scope := { (d.body fs f).2 with vars := (d.body fs f).2.vars.leave.2 } }
        ((d.body fs f).1 ++ returnCode f.body) := rfl

theorem Sound.body (h : Sound fs statements main ps d) (hErrors : (Draft.function fs d f).scope.errors = []) :
    f.params.Nodup ∧ (d.body fs f).2.vars = ⟨Stmt.globalNames statements, [⟨f.params, f.localNames⟩]⟩ ∧
      Stmt.BlockHasCode fs ⟨Stmt.globalNames statements, [⟨f.params, []⟩]⟩ d.listing.cells.length f.body
        (d.body fs f).1 := by
  have hBehind : (d.body fs f).2.errors = [] := hErrors
  have hBlock : Stmt.blockCode fs d.listing.cells.length f.body (d.opened f).scope = d.body fs f := rfl
  have hEntered : d.scope.vars.enter = ⟨Stmt.globalNames statements, [⟨[], []⟩]⟩ := by
    rw [h.vars]
    rfl
  obtain ⟨hOpened, hNodup⟩ :=
    declareParams_of_no_error (Stmt.no_errors_before_block hBlock hBehind) hEntered List.nodup_nil
  rw [List.nil_append] at hOpened hNodup
  obtain ⟨hVars, hCode⟩ := Stmt.blockHasCode_of_blockCode hBlock hBehind
  rw [opened, hOpened] at hVars hCode
  rw [Variables.assignAll_open] at hVars
  exact ⟨hNodup, hVars, hCode⟩

theorem Sound.step (h : Sound fs statements main ps d) (hNew : ∀ p ∈ ps, p.function.symbol ≠ f.symbol)
    (hErrors : (Draft.function fs d f).scope.errors = []) :
    ∃ p, p.function = f ∧ Sound fs statements main (ps ++ [p]) (Draft.function fs d f) := by
  obtain ⟨hNodup, hVars, hCode⟩ := h.body hErrors
  refine ⟨⟨f, d.listing.cells.length, (d.body fs f).1 ++ returnCode f.body⟩, rfl, ?_⟩
  rw [function_opened]
  refine
    { vars := ?_
      records := Relocations.Records.scan (r := d.relocations.place f.symbol _) h.records _
      cells := ?_
      sections := ?_
      follow := ?_
      entry := h.entry
      function := ?_ }
  · simp only [place, hVars, Variables.leave]
  · simp [place, opened, Listing.append, Listing.addSection, h.cells]
  · simp [place, opened, Listing.append, Listing.addSection, h.sections]
  · rw [Placement.follow_append]
    refine ⟨h.follow, ?_, trivial⟩
    rw [h.cells, List.length_append]
  · intro p hMem
    simp only [place, opened, Relocations.places_scan, Relocations.place, Std.TreeMap.getElem?_insert]
    rcases List.mem_append.mp hMem with hDone | hLast
    · obtain ⟨hParams, hPlace, hBody⟩ := h.function p hDone
      refine ⟨hParams, ?_, hBody⟩
      rw [if_neg (by simpa using fun hEq => hNew p hDone hEq.symm)]
      exact hPlace
    · rw [List.mem_singleton] at hLast
      subst hLast
      exact ⟨hNodup, by simp, _, hCode, rfl⟩

theorem Sound.steps {rest : List Function} (h : Sound fs statements main ps d)
    (hDistinct : (ps.map Placement.function ++ rest).Pairwise fun f g => f.symbol ≠ g.symbol)
    (hErrors : (rest.foldl (Draft.function fs) d).scope.errors = []) :
    ∃ qs, qs.map Placement.function = ps.map Placement.function ++ rest ∧
      Sound fs statements main qs (rest.foldl (Draft.function fs) d) := by
  induction rest generalizing ps d with
  | nil => exact ⟨ps, (List.append_nil _).symm, h⟩
  | cons f rest ih =>
    have hNew : ∀ p ∈ ps, p.function.symbol ≠ f.symbol := by
      intro p hMem
      exact (List.pairwise_append.mp hDistinct).2.2 _ (List.mem_map_of_mem hMem) f (List.mem_cons_self ..)
    obtain ⟨p, rfl, hStep⟩ := h.step hNew (no_errors_before_functions hErrors)
    rw [List.append_cons, ← List.map_singleton, ← List.map_append] at hDistinct ⊢
    exact ih hStep hDistinct hErrors

end Draft

theorem Functions.Sound.distinct {fs : Functions} (h : fs.Sound) :
    fs.list.Pairwise fun f g => f.symbol ≠ g.symbol := by
  rw [List.pairwise_iff_getElem]
  intro i j hi hj hLt hEq
  have hFirst := (h i _ (List.getElem?_eq_getElem hi)).1
  have hSecond := (h j _ (List.getElem?_eq_getElem hj)).1
  omega

/-! ## Whole programs -/

theorem Placed.holds {cells code : List Cell} {a : Nat} {words : List Word} {places : Std.TreeMap Nat Nat}
    (h : Placed cells a code) (hWords : cells.map (Cell.word? places) = words.map some) :
    Program.Holds ⟨words.toArray⟩ places a code := by
  refine Program.holds_of_getElem? fun i c hGet => ?_
  have hMap : (cells.map (Cell.word? places))[a + i]? = some (c.word? places) := by
    rw [List.getElem?_map, h i c hGet, Option.map_some]
  rw [hWords, List.getElem?_map, Option.map_eq_some_iff] at hMap
  obtain ⟨w, hRead, hWord⟩ := hMap
  exact ⟨w, hWord.symm, by simpa using hRead⟩

theorem Listing.holds_of_toProgram {listing : Listing} {program : Program} (h : listing.toProgram = .ok program)
    (places : Std.TreeMap Nat Nat) : program.Holds places 0 listing.cells := by
  obtain ⟨words, hWords, hProgram⟩ := Effect.exists_of_except_bind h
  cases hProgram
  exact (placed_append [] listing.cells).holds (Listing.word?_of_wordsFrom hWords places)

/-- The draft of a program with so many of its functions. -/
def Listing.draft (statements : List Stmt) (count : Nat) : Draft :=
  let (fs, errors) := Functions.declareBlock {} statements
  (fs.list.take count).foldl (Draft.function fs) (Draft.entry { scope := { errors := errors } } fs statements)

section

variable {statements : List Stmt} {listing : Listing}

theorem Listing.draft_succ {i : Nat} {f : Function}
    (hGet : (Functions.declareBlock {} statements).1.list[i]? = some f) :
    draft statements (i + 1) = Draft.function (Functions.declareBlock {} statements).1 (draft statements i) f := by
  simp only [draft]
  rw [List.take_add_one, hGet, List.foldl_append]
  rfl

theorem Listing.no_errors_draft (h : Listing.ofStatements statements = .ok listing) (count : Nat) :
    (draft statements count).scope.errors = [] := by
  rw [Listing.ofStatements] at h
  split at h
  · rename_i hEmpty
    have hErrors := (List.append_eq_nil_iff.mp (List.isEmpty_iff.mp hEmpty)).1
    rw [← List.take_append_drop count (Functions.declareBlock {} statements).1.list, List.foldl_append] at hErrors
    exact Draft.no_errors_before_functions hErrors
  · cases h

theorem Listing.sound_draft (h : Listing.ofStatements statements = .ok listing) (count : Nat) :
    ∃ main ps, Draft.Sound (Functions.declareBlock {} statements).1 statements main ps (draft statements count) ∧
      ps.map Placement.function = (Functions.declareBlock {} statements).1.list.take count := by
  have hDistinct := (Functions.sound_declared statements).distinct.sublist (List.take_sublist count _)
  have hErrors := Listing.no_errors_draft h count
  obtain ⟨main, hEntry⟩ := Draft.sound_entry (Draft.no_errors_before_functions hErrors)
  obtain ⟨ps, hFunctions, hDraft⟩ := hEntry.steps hDistinct hErrors
  exact ⟨main, ps, hDraft, hFunctions⟩

/-- A listing without errors is a sound draft, linked. -/
theorem Listing.exists_draft (h : Listing.ofStatements statements = .ok listing) :
    (Functions.declareBlock {} statements).2 = [] ∧ ∃ d main ps,
      Draft.Sound (Functions.declareBlock {} statements).1 statements main ps d ∧
      ps.map Placement.function = (Functions.declareBlock {} statements).1.list ∧
      (d.relocations.link d.listing.cells).1.errors = [] ∧
      listing = ⟨(d.relocations.link d.listing.cells).1.cells, d.listing.sections⟩ := by
  obtain ⟨main, ps, hDraft, hFunctions⟩ := Listing.sound_draft h (Functions.declareBlock {} statements).1.list.length
  have hDeclared := Stmt.no_errors_before_block rfl (Listing.no_errors_draft h 0)
  rw [List.take_length] at hFunctions
  simp only [Listing.draft, List.take_length] at hDraft
  rw [Listing.ofStatements] at h
  split at h
  · rename_i hEmpty
    have hLinked := (List.append_eq_nil_iff.mp (List.isEmpty_iff.mp hEmpty)).2
    cases h
    exact ⟨hDeclared, _, main, ps, hDraft, hFunctions, List.map_eq_nil_iff.mp hLinked, rfl⟩
  · cases h

end

/-- Linked code of a program without errors is laid out. -/
theorem Listing.exists_layout {statements : List Stmt} {listing : Listing}
    (h : Listing.ofStatements statements = .ok listing) :
    ∃ program places, listing.toProgram = .ok program ∧ program.words.size = listing.cells.length ∧
      program.Layout places (Functions.declareBlock {} statements).1 statements := by
  obtain ⟨_, d, main, ps, hDraft, hFunctions, hLinked, rfl⟩ := Listing.exists_draft h
  have hSound := Functions.sound_declared statements
  obtain ⟨words, hWords, hLength, hCells⟩ := Relocations.exists_words hDraft.records hLinked
  rw [hDraft.cells] at hCells
  refine ⟨⟨words.toArray⟩, d.relocations.places, ?_, hLength, ?_, ?_, ?_⟩
  · simp only [Listing.toProgram, hWords]
    rfl
  · obtain ⟨code, hCode, rfl⟩ := hDraft.entry
    exact ⟨code, hCode, ((placed_append [] _).append _).holds hCells⟩
  · intro f hMem
    rw [← hFunctions] at hMem
    obtain ⟨p, hPlaced, rfl⟩ := List.mem_map.mp hMem
    obtain ⟨_, hPlace, code, hCode, hEnd⟩ := hDraft.function p hPlaced
    exact ⟨p.start, code, hPlace, hCode, hEnd ▸ (hDraft.follow.placed hPlaced).holds hCells⟩
  · intro f hMem
    obtain ⟨i, hGet⟩ := List.getElem?_of_mem hMem
    rw [← hFunctions] at hMem
    obtain ⟨p, hPlaced, rfl⟩ := List.mem_map.mp hMem
    rw [(hSound i _ hGet).2, Function.countLocals_eq (hDraft.function p hPlaced).1]
    rfl

end Vee
