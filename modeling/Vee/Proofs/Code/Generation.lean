import Vee.Proofs.Code.Sections
import Vee.Proofs.Code.Symbols

/-! # Generation without errors

When the passes of generation find no error: in the declarations if no name is declared twice, and in the main program
and in functions if all accesses fit. Linking adds none as long as words number the cells, and the length of the code is
known beforehand.
-/

namespace Vee

set_option autoImplicit false

open Access

/-! ## Declarations -/

namespace Functions

def names (fs : Functions) : List String := fs.list.map Function.name

theorem names_eq {fs : Functions} {ds : List Declaration} (h : fs.list.map Function.declaration = ds) :
    fs.names = ds.map Declaration.name := by
  rw [← h, List.map_map]
  rfl

theorem names_append {fs mid : Functions} {ds : List Declaration}
    (h : mid.list.map Function.declaration = fs.list.map Function.declaration ++ ds) :
    mid.names = fs.names ++ ds.map Declaration.name := by
  rw [names_eq h, List.map_append, ← names_eq rfl]

theorem find?_eq_none {fs : Functions} {name : String} : fs.find? name = none ↔ name ∉ fs.names := by
  simp only [find?, List.find?_eq_none, beq_iff_eq, names, List.mem_map, not_exists, not_and]

/-- Two passes one behind the other find nothing if no name is declared twice. -/
theorem append_errors_iff {fs mid : Functions} {first second : List CompileError} {names more : List String}
    (hMid : first = [] → mid.names = fs.names ++ names) (hFirst : first = [] ↔ (fs.names ++ names).Nodup)
    (hSecond : mid.names.Nodup → (second = [] ↔ (mid.names ++ more).Nodup)) :
    first ++ second = [] ↔ (fs.names ++ (names ++ more)).Nodup := by
  rw [List.append_eq_nil_iff, ← List.append_assoc]
  constructor
  · rintro ⟨hNone, hLater⟩
    rw [← hMid hNone]
    refine (hSecond ?_).mp hLater
    rw [hMid hNone]
    exact hFirst.mp hNone
  · intro hNodup
    have hNone := hFirst.mpr (List.nodup_append.mp hNodup).1
    rw [← hMid hNone] at hNodup
    exact ⟨hNone, (hSecond (List.nodup_append.mp hNodup).1).mpr hNodup⟩

mutual

theorem declareStmt_errors_iff {fs : Functions} (h : fs.names.Nodup) (s : Stmt) :
    (fs.declareStmt s).2 = [] ↔ (fs.names ++ s.declarations.map Declaration.name).Nodup := by
  cases s with
  | function span name params body =>
    rw [declareStmt, declare, Stmt.declarations, List.map_cons]
    cases hFind : fs.find? name with
    | some f =>
      simp only [reduceCtorEq, false_iff]
      intro hNodup
      have hMem : name ∈ fs.names := by
        by_contra hNot
        rw [find?_eq_none.mpr hNot] at hFind
        cases hFind
      exact (List.nodup_append.mp hNodup).2.2 name hMem name List.mem_cons_self rfl
    | none =>
      have hNew := find?_eq_none.mp hFind
      let f : Function := ⟨name, fs.list.length, params, body, Function.countLocals params body⟩
      have hNames : names ⟨fs.list ++ [f]⟩ = fs.names ++ [name] := List.map_append
      have hNodup : names ⟨fs.list ++ [f]⟩ |>.Nodup := by
        rw [hNames, ← List.concat_eq_append]
        exact h.concat hNew
      have hBody := declareBlock_errors_iff hNodup body
      rw [hNames, List.append_assoc, List.singleton_append] at hBody
      exact hBody
  | branch span c yes no =>
    rw [declareStmt, Stmt.declarations, List.map_append]
    exact append_errors_iff (fun hNone => names_append (declarations_declareBlock hNone))
      (declareBlock_errors_iff h yes) fun hMid => declareBlock_errors_iff hMid no
  | whileLoop span c body => exact declareBlock_errors_iff h body
  | forLoop span init c step body => exact declareBlock_errors_iff h body
  | assign span x e => simpa [declareStmt, Stmt.declarations] using h
  | expr span e => simpa [declareStmt, Stmt.declarations] using h
  | print span e => simpa [declareStmt, Stmt.declarations] using h
  | ret span value => simpa [declareStmt, Stmt.declarations] using h

theorem declareBlock_errors_iff {fs : Functions} (h : fs.names.Nodup) (body : List Stmt) :
    (fs.declareBlock body).2 = [] ↔ (fs.names ++ (Stmt.blockDeclarations body).map Declaration.name).Nodup := by
  cases body with
  | nil => simpa [declareBlock, Stmt.blockDeclarations] using h
  | cons s rest =>
    rw [declareBlock, Stmt.blockDeclarations, List.map_append]
    exact append_errors_iff (fun hNone => names_append (declarations_declareStmt hNone))
      (declareStmt_errors_iff h s) fun hMid => declareBlock_errors_iff hMid rest

end

end Functions

/-! ## Drafts -/

/-- The length of the code of a function, the return at its end included. -/
def Declaration.codeLength (d : Declaration) : Nat :=
  Stmt.blockCodeLength d.body + (Draft.returnCode d.body).length

def Stmt.programLength (statements : List Stmt) : Nat :=
  Stmt.blockCodeLength statements + 1 + ((Stmt.blockDeclarations statements).map Declaration.codeLength).sum

namespace Draft

variable {fs : Functions} {statements : List Stmt} {d : Draft} {f : Function} {globals : List String}

theorem declareParams_eq {params done : List String} {errors : List CompileError} (h : (done ++ params).Nodup) :
    params.foldl declareParam { vars := ⟨globals, [⟨done, []⟩]⟩, errors := errors } =
      { vars := ⟨globals, [⟨done ++ params, []⟩]⟩, errors := errors } := by
  induction params generalizing done with
  | nil => rw [List.append_nil]; rfl
  | cons x params ih =>
    rw [List.append_cons] at h ⊢
    rw [List.foldl_cons, declareParam, Variables.param_new (not_mem_of_nodup h), ih h]

theorem entry_eq {code : List Cell} (h : Stmt.BlockHasCode fs {} 0 statements code) :
    (entry {} fs statements).scope = { vars := ⟨Stmt.globalNames statements, []⟩ } ∧
      (entry {} fs statements).listing.cells = code ++ [.op .halt] := by
  have hBlock : block {} fs statements = (code, { vars := ⟨Stmt.globalNames statements, []⟩ }) := by
    rw [Stmt.globalNames, ← Variables.assignAll_main]
    exact Stmt.BlockHasCode.blockCode_eq h
  rw [entry, hBlock]
  exact ⟨rfl, rfl⟩

theorem function_eq {code : List Cell} (hScope : d.scope = { vars := ⟨globals, []⟩ }) (hParams : f.params.Nodup)
    (h : Stmt.BlockHasCode fs ⟨globals, [⟨f.params, []⟩]⟩ d.listing.cells.length f.body code) :
    (function fs d f).scope = d.scope ∧
      (function fs d f).listing.cells = d.listing.cells ++ (code ++ returnCode f.body) := by
  have hOpened : f.params.foldl declareParam { vars := Variables.enter ⟨globals, []⟩ } =
      { vars := ⟨globals, [⟨f.params, []⟩]⟩ } := declareParams_eq hParams
  have hBlock : Stmt.blockCode fs d.listing.cells.length f.body { vars := ⟨globals, [⟨f.params, []⟩]⟩ } =
      (code, { vars := Variables.assignAll ⟨globals, [⟨f.params, []⟩]⟩ (Stmt.blockTargets f.body) }) :=
    Stmt.BlockHasCode.blockCode_eq h
  rw [Variables.assignAll_open] at hBlock
  simp only [function, hOpened, block, Listing.addSection, hBlock, hScope]
  exact ⟨rfl, rfl⟩

theorem scope_functions {rest : List Function} (hScope : d.scope = { vars := ⟨globals, []⟩ })
    (h : ∀ f ∈ rest, f.params.Nodup ∧ Each (Fits fs ⟨globals, [⟨f.params, []⟩]⟩) (Stmt.blockAccesses f.body))
    (hSize : d.listing.cells.length + (rest.map fun f => f.declaration.codeLength).sum < 2147483648) :
    (rest.foldl (function fs) d).scope = d.scope := by
  induction rest generalizing d with
  | nil => rfl
  | cons f rest ih =>
    obtain ⟨hParams, hFits⟩ := h f List.mem_cons_self
    rw [List.map_cons, List.sum_cons] at hSize
    have hRoom : d.listing.cells.length + Stmt.blockCodeLength f.body < 2147483648 := by
      have hBody : f.declaration.codeLength = Stmt.blockCodeLength f.body + (returnCode f.body).length := rfl
      omega
    obtain ⟨code, hCode⟩ := Stmt.exists_blockHasCode hFits hRoom
    obtain ⟨hKept, hCells⟩ := function_eq hScope hParams hCode
    have hLength : (function fs d f).listing.cells.length = d.listing.cells.length + f.declaration.codeLength := by
      rw [hCells, List.length_append, List.length_append, hCode.length_eq]
      rfl
    rw [← Nat.add_assoc, ← hLength] at hSize
    exact (ih (hKept.trans hScope) (fun g hMem => h g (List.mem_cons_of_mem _ hMem)) hSize).trans hKept

theorem Sound.length_cells {main : List Cell} {ps : List Placement} (h : Sound fs statements main ps d)
    (hFunctions : (ps.map Placement.function).map Function.declaration = Stmt.blockDeclarations statements) :
    d.listing.cells.length = Stmt.programLength statements := by
  have hBodies : (ps.flatMap Placement.code).length =
      ((Stmt.blockDeclarations statements).map Declaration.codeLength).sum := by
    rw [List.length_flatMap, ← hFunctions, List.map_map, List.map_map]
    apply congrArg List.sum
    apply List.map_congr_left
    intro p hMem
    obtain ⟨_, _, code, hCode, hEnd⟩ := h.function p hMem
    rw [hEnd, List.length_append, hCode.length_eq]
    rfl
  obtain ⟨code, hCode, rfl⟩ := h.entry
  rw [h.cells, List.length_append, hBodies, List.length_append, hCode.length_eq, List.length_singleton,
    Stmt.programLength]

end Draft

/-! ## Generation -/

/-- The accesses of the main program and those of every function fit. -/
structure Functions.Serve (fs : Functions) (statements : List Stmt) : Prop where
  main : Each (Fits fs {}) (Stmt.blockAccesses statements)
  params : ∀ f ∈ fs.list, f.params.Nodup
  functions : ∀ f ∈ fs.list,
    Each (Fits fs ⟨Stmt.globalNames statements, [⟨f.params, []⟩]⟩) (Stmt.blockAccesses f.body)

theorem Listing.serve_of_ofStatements {statements : List Stmt} {listing : Listing}
    (h : Listing.ofStatements statements = .ok listing) :
    (Functions.declareBlock {} statements).2 = [] ∧ (Functions.declareBlock {} statements).1.Serve statements ∧
      listing.cells.length = Stmt.programLength statements := by
  obtain ⟨hDeclared, d, main, ps, hDraft, hFunctions, hLinked, rfl⟩ := Listing.exists_draft h
  have hFunction : ∀ f ∈ (Functions.declareBlock {} statements).1.list, f.params.Nodup ∧
      Each (Fits (Functions.declareBlock {} statements).1 ⟨Stmt.globalNames statements, [⟨f.params, []⟩]⟩)
        (Stmt.blockAccesses f.body) := by
    intro f hMem
    rw [← hFunctions] at hMem
    obtain ⟨p, hPlaced, rfl⟩ := List.mem_map.mp hMem
    obtain ⟨hParams, _, code, hCode, _⟩ := hDraft.function p hPlaced
    exact ⟨hParams, hCode.fits⟩
  refine ⟨hDeclared, ⟨?_, fun f hMem => (hFunction f hMem).1, fun f hMem => (hFunction f hMem).2⟩, ?_⟩
  · obtain ⟨code, hCode, _⟩ := hDraft.entry
    exact hCode.fits
  · rw [Relocations.cells_link hDraft.records hLinked, List.length_map]
    exact hDraft.length_cells (hFunctions ▸ Functions.declarations_declareBlock hDeclared)

theorem Listing.exists_of_serve {statements : List Stmt} (hSize : Stmt.programLength statements < 2147483648)
    (hDeclared : (Functions.declareBlock {} statements).2 = [])
    (h : (Functions.declareBlock {} statements).1.Serve statements) :
    ∃ listing, Listing.ofStatements statements = .ok listing := by
  have hSound := Functions.sound_declared statements
  have hDeclarations := Functions.declarations_declareBlock hDeclared
  rw [List.map_nil, List.nil_append] at hDeclarations
  rw [Listing.ofStatements, Listing.generate]
  simp only [hDeclared]
  generalize (Functions.declareBlock {} statements).1 = fs at h hSound hDeclarations
  have hParts : Stmt.blockCodeLength statements + 1 + (fs.list.map fun f => f.declaration.codeLength).sum <
      2147483648 := by
    rwa [Stmt.programLength, ← hDeclarations, List.map_map] at hSize
  obtain ⟨code, hCode⟩ : ∃ code, Stmt.BlockHasCode fs {} 0 statements code :=
    Stmt.exists_blockHasCode h.main (by omega)
  obtain ⟨hScope, hCells⟩ := Draft.entry_eq hCode
  have hLength : (Draft.entry {} fs statements).listing.cells.length = Stmt.blockCodeLength statements + 1 := by
    rw [hCells, List.length_append, hCode.length_eq, List.length_singleton]
  have hNone : (fs.list.foldl (Draft.function fs) (Draft.entry {} fs statements)).scope.errors = [] := by
    rw [Draft.scope_functions hScope (fun f hMem => ⟨h.params f hMem, h.functions f hMem⟩) (hLength ▸ hParts), hScope]
  -- No pass left an error, so that the draft is sound and its length is known before it is linked.
  obtain ⟨main, hEntry⟩ := Draft.sound_entry (Draft.no_errors_before_functions hNone)
  obtain ⟨ps, hFunctions, hDraft⟩ := hEntry.steps hSound.distinct hNone
  rw [List.map_nil, List.nil_append] at hFunctions
  have hTotal := hDraft.length_cells (hFunctions ▸ hDeclarations)
  have hTracks : Draft.Tracks fs [] (Draft.entry {} fs statements) :=
    Draft.tracks_entry statements fun _ => List.not_mem_nil
  have hLinked := (hTracks.run fs.list).errors_link (hTotal ▸ hSize)
  simp only [hNone, hLinked]
  exact ⟨_, rfl⟩

end Vee
