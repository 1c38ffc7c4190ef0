import Vee.Proofs.Code.Generation

/-! # Programs that have code

A program has code exactly if it is well-scoped, as long as words number its parameters and cells. What generation
finds to fit is what scope allows: tables of variables hold the names assigned in front, and are no longer than the
code. Only parameters take no code, so that a function can have more of them than words number.
-/

namespace Vee

set_option autoImplicit false

open Access

/-! ## Bounds from the length of code -/

namespace Access

/-- How much code an access has at least: a store for a write, and code for every argument of a call. -/
def weight : Access → Nat
  | write _ => 1
  | call _ count => count
  | _ => 0

def load (accesses : List Access) : Nat := (accesses.map weight).sum

theorem load_append (first second : List Access) : load (first ++ second) = load first + load second := by
  rw [load, List.map_append, List.sum_append]
  rfl

theorem load_cons (a : Access) (rest : List Access) : load (a :: rest) = a.weight + load rest := rfl

theorem length_writes_le (accesses : List Access) : (writes accesses).length ≤ load accesses := by
  induction accesses with
  | nil => exact Nat.le_refl 0
  | cons a rest ih =>
    rw [load_cons]
    cases a with
    | write x =>
      change (writes rest).length + 1 ≤ 1 + load rest
      omega
    | _ => exact Nat.le_trans ih (Nat.le_add_left ..)

/-- A table that accesses fill is no longer than their code. -/
theorem length_table_le (known : List String) (accesses : List Access) :
    ((writes accesses).foldl (enlist known) []).length ≤ load accesses := by
  have hNames := length_enlistAll_le known [] (writes accesses)
  rw [List.length_nil, Nat.zero_add] at hNames
  exact Nat.le_trans hNames (length_writes_le accesses)

end Access

mutual

theorem Expr.load_accesses (e : Expr) : load e.accesses < e.codeLength := by
  cases e with
  | int span n => exact Nat.zero_lt_two
  | var span x => exact Nat.zero_lt_succ 2
  | call span f args =>
    have hArgs := Expr.load_allAccesses args
    rw [Expr.accesses, load_append, load_cons, Expr.codeLength]
    change _ + (args.length + 0) < _
    omega
  | unary op span e =>
    have hOperand := e.load_accesses
    rw [Expr.accesses, Expr.codeLength]
    omega
  | binary op span l r =>
    have hLeft := l.load_accesses
    have hRight := r.load_accesses
    rw [Expr.accesses, load_append, Expr.codeLength]
    omega

theorem Expr.load_allAccesses (es : List Expr) : load (Expr.allAccesses es) + es.length ≤ Expr.allCodeLength es := by
  cases es with
  | nil => exact Nat.le_refl 0
  | cons e rest =>
    have hFirst := e.load_accesses
    have hRest := Expr.load_allAccesses rest
    rw [Expr.allAccesses, load_append, Expr.allCodeLength, List.length_cons]
    omega

end

mutual

theorem Stmt.load_accesses (s : Stmt) : load s.accesses ≤ s.codeLength := by
  cases s with
  | assign span x e =>
    have hValue := e.load_accesses
    rw [Stmt.accesses, load_append, Stmt.codeLength]
    change _ + 1 ≤ _
    omega
  | expr span e => exact Nat.le_succ_of_le (Nat.le_of_lt e.load_accesses)
  | print span e => exact Nat.le_succ_of_le (Nat.le_of_lt e.load_accesses)
  | function span f params body => exact Nat.le_refl 0
  | ret span value =>
    cases value with
    | none => exact Nat.zero_le 3
    | some e =>
      have hValue := e.load_accesses
      rw [Stmt.accesses, load_cons, Stmt.codeLength]
      change 0 + _ ≤ _
      omega
  | branch span c yes no =>
    have hTest := c.load_accesses
    have hYes := Stmt.load_blockAccesses yes
    have hNo := Stmt.load_blockAccesses no
    rw [Stmt.accesses, load_append, load_append]
    cases no with
    | nil =>
      rw [Stmt.codeLength]
      change _ + (_ + 0) ≤ _
      omega
    | cons s rest =>
      rw [Stmt.codeLength]
      · omega
      · exact nofun
  | whileLoop span c body =>
    have hTest := c.load_accesses
    have hBody := Stmt.load_blockAccesses body
    rw [Stmt.accesses, load_append, Stmt.codeLength]
    omega
  | forLoop span init c step body =>
    have hInit := init.load_accesses
    have hTest := c.load_accesses
    have hBody := Stmt.load_blockAccesses body
    have hStep := step.load_accesses
    rw [Stmt.accesses, load_append, load_append, load_append, Stmt.codeLength]
    omega

theorem Stmt.load_blockAccesses (body : List Stmt) : load (Stmt.blockAccesses body) ≤ Stmt.blockCodeLength body := by
  cases body with
  | nil => exact Nat.le_refl 0
  | cons s rest =>
    have hFirst := s.load_accesses
    have hRest := Stmt.load_blockAccesses rest
    rw [Stmt.blockAccesses, load_append, Stmt.blockCodeLength]
    omega

end

theorem Functions.Sound.locals_lt {fs : Functions} (h : fs.Sound) {f : Function} (hMem : f ∈ fs.list)
    (hParams : f.params.Nodup) (hBody : Stmt.blockCodeLength f.body < 2147483648) : f.locals < 2147483648 := by
  obtain ⟨i, hGet⟩ := List.getElem?_of_mem hMem
  rw [(h i f hGet).2, Function.countLocals_eq hParams, ← Stmt.writes_blockAccesses]
  calc
    _ ≤ load (Stmt.blockAccesses f.body) := length_table_le ..
    _ ≤ Stmt.blockCodeLength f.body := Stmt.load_blockAccesses f.body
    _ < 2147483648 := hBody

/-! ## Slots that words number -/

theorem mem_take_iff {names : List String} {x : String} {i n : Nat} (h : names.idxOf? x = some i) :
    x ∈ names.take n ↔ i < n := by
  obtain ⟨hLt, hGet, hFirst⟩ := List.idxOf?_eq_some_iff.mp h
  rw [List.mem_take_iff_getElem]
  constructor
  · rintro ⟨j, hj, hName⟩
    have hLe : i ≤ j := by
      by_contra hNot
      exact hFirst j (by omega) hName
    omega
  · intro hBelow
    exact ⟨i, by omega, hGet⟩

/-- Words number so many parameters and as many locals. -/
theorem Frame.exists_word_iff {params locals : List String} {x : String} {offset : Int}
    (h : (Frame.mk params locals).offset? x = some offset) :
    (∃ w, Word.ofInt? offset = some w) ↔
      x ∈ params.take 2147483648 ∨ x ∉ params ∧ x ∈ locals.take 2147483648 := by
  rw [Word.exists_ofInt?_iff]
  rw [Frame.offset?] at h
  split at h
  · rename_i i hParam
    have hMem := List.mem_of_getElem? (getElem?_of_idxOf? hParam)
    rw [mem_take_iff hParam, ← Option.some.inj h]
    simp only [hMem, not_true_eq_false, false_and, or_false]
    omega
  · rename_i hParam
    obtain ⟨i, hLocal, rfl⟩ := Option.map_eq_some_iff.mp h
    have hNot := List.idxOf?_eq_none_iff.mp hParam
    have hTake : x ∉ params.take 2147483648 := fun hMem => hNot (List.mem_of_mem_take hMem)
    simp only [hNot, hTake, not_false_eq_true, true_and, false_or, mem_take_iff hLocal, Int.ofNat_eq_natCast]
    omega

namespace Variables

variable {globals params locals : List String} {x : String}

theorem exists_global_iff :
    (∃ slot w, (globals.idxOf? x).map Slot.global = some slot ∧ slot.word? = some w) ↔
      x ∈ globals.take 2147483648 := by
  cases hIndex : globals.idxOf? x with
  | none =>
    have hNot : x ∉ globals.take 2147483648 := fun hMem =>
      List.idxOf?_eq_none_iff.mp hIndex (List.mem_of_mem_take hMem)
    simp [hNot]
  | some i =>
    rw [mem_take_iff hIndex, ← Word.exists_ofNat?_iff]
    simp [Slot.word?]

theorem exists_resolve_iff :
    (∃ slot w, (Variables.mk globals [⟨params, locals⟩]).resolve x = some slot ∧ slot.word? = some w) ↔
      x ∈ params.take 2147483648 ∨
        x ∉ params ∧ (x ∈ locals.take 2147483648 ∨ x ∉ locals ∧ x ∈ globals.take 2147483648) := by
  simp only [resolve, List.head?_cons, Option.bind_some]
  cases hOffset : (Frame.mk params locals).offset? x with
  | none =>
    obtain ⟨hParam, hLocal⟩ := Frame.offset?_eq_none.mp hOffset
    have hParams : x ∉ params.take 2147483648 := fun hMem => hParam (List.mem_of_mem_take hMem)
    have hLocals : x ∉ locals.take 2147483648 := fun hMem => hLocal (List.mem_of_mem_take hMem)
    rw [exists_global_iff]
    simp [hParam, hLocal, hParams, hLocals]
  | some offset =>
    have hWord := Frame.exists_word_iff hOffset
    have hOwn := Frame.mem_of_offset? hOffset
    have hSlot : (∃ slot w, some (Slot.frame offset) = some slot ∧ slot.word? = some w) ↔
        ∃ w, Word.ofInt? offset = some w := by simp [Slot.word?]
    rw [hSlot, hWord]
    refine or_congr_right (and_congr_right fun hParam => ?_)
    simp [hOwn.resolve_left hParam]

theorem exists_assign_main (hCount : globals.length < 2147483648) :
    ∃ w, ((Variables.mk globals []).assign x).1.word? = some w := by
  simp only [assign]
  cases hIndex : globals.idxOf? x with
  | none => exact Word.exists_ofNat?_iff.mpr hCount
  | some i =>
    have hLt := (List.getElem?_eq_some_iff.mp (getElem?_of_idxOf? hIndex)).1
    exact Word.exists_ofNat?_iff.mpr (Nat.lt_trans hLt hCount)

theorem exists_assign_open (hCount : locals.length < 2147483648) (hNear : x ∈ params → x ∈ params.take 2147483648) :
    ∃ w, ((Variables.mk globals [⟨params, locals⟩]).assign x).1.word? = some w := by
  simp only [assign]
  cases hOffset : (Frame.mk params locals).offset? x with
  | none => exact Word.exists_ofNat?_iff.mpr hCount
  | some offset =>
    apply (Frame.exists_word_iff hOffset).mpr
    rw [List.take_of_length_le (Nat.le_of_lt hCount)]
    by_cases hParam : x ∈ params
    · exact .inl (hNear hParam)
    · exact .inr ⟨hParam, (Frame.mem_of_offset? hOffset).resolve_left hParam⟩

theorem mem_take_of_assign {w : Word}
    (h : ((Variables.mk globals [⟨params, locals⟩]).assign x).1.word? = some w) (hParam : x ∈ params) :
    x ∈ params.take 2147483648 := by
  simp only [assign] at h
  cases hOffset : (Frame.mk params locals).offset? x with
  | none => exact absurd hParam (Frame.offset?_eq_none.mp hOffset).1
  | some offset =>
    rw [hOffset] at h
    exact ((Frame.exists_word_iff hOffset).mp ⟨w, h⟩).resolve_right fun hOther => hOther.1 hParam

end Variables

/-! ## Accesses in scope -/

/-- Calls that a function serves fit a declaration. -/
theorem Functions.exists_find?_iff {fs : Functions} {ds : List Declaration} (hNames : fs.names.Nodup)
    (hDeclared : fs.list.map Function.declaration = ds) {name : String} {count : Nat} :
    (∃ f, fs.find? name = some f ∧ f.arity = count) ↔ Declaration.fits ds name count = true := by
  subst hDeclared
  simp only [Declaration.fits, List.any_map, List.any_eq_true, Function.comp_apply, Bool.and_eq_true, beq_iff_eq]
  constructor
  · rintro ⟨f, hFind, hArity⟩
    have hName : f.name = name := by simpa using List.find?_some hFind
    exact ⟨f, List.mem_of_find?_eq_some hFind, hName, hArity⟩
  · rintro ⟨f, hMem, hName, hArity⟩
    change f.name = name at hName
    subst hName
    cases hFind : fs.find? f.name with
    | none => exact absurd (List.mem_map_of_mem hMem) (find?_eq_none.mp hFind)
    | some g =>
      -- Names are distinct, so the first function of the name is the only one.
      have hName : g.name = f.name := by simpa using List.find?_some hFind
      obtain rfl := List.inj_on_of_nodup_map hNames (List.mem_of_find?_eq_some hFind) hMem hName
      exact ⟨g, rfl, hArity⟩

namespace Access

section

variable {fs : Functions} {ds : List Declaration} {before : List Access} {a : Access}
    {globals params known : List String} (hNames : fs.names.Nodup)
    (hDeclared : fs.list.map Function.declaration = ds)

theorem table_open (globals params : List String) (before : List Access) :
    (Variables.mk globals [⟨params, []⟩]).assignAll (writes before) =
      ⟨globals, [⟨params, (writes before).foldl (enlist params) []⟩]⟩ := Variables.assignAll_open ..

theorem Fits.mem_take (h : Fits fs ⟨globals, [⟨params, []⟩]⟩ before a) {x : String} (hParam : x ∈ params)
    (hUse : a = .read x ∨ a = .write x) : x ∈ params.take 2147483648 := by
  rcases hUse with rfl | rfl
  · rw [Fits, table_open, Variables.exists_resolve_iff] at h
    exact h.resolve_right fun hOther => hOther.1 hParam
  · rw [Fits, table_open] at h
    obtain ⟨w, hWord⟩ := h
    exact Variables.mem_take_of_assign hWord hParam

include hNames hDeclared

theorem Fits.allowed_main (h : Fits fs {} before a) : Allowed ds false [] before a := by
  cases a with
  | read x =>
    rw [Fits, Variables.assignAll_main] at h
    have hMem := List.mem_of_mem_take (Variables.exists_global_iff.mp h)
    simpa [mem_enlistAll, mem_writes, Allowed] using hMem
  | write x => trivial
  | call name count =>
    obtain ⟨f, _, _, hFind, hArity, _⟩ := h
    exact (Functions.exists_find?_iff hNames hDeclared).mp ⟨f, hFind, hArity⟩
  | ret =>
    rw [Fits, Variables.assignAll_main] at h
    cases h

theorem Fits.allowed_function (hKnown : ∀ x, x ∈ globals ↔ x ∈ known)
    (h : Fits fs ⟨globals, [⟨params, []⟩]⟩ before a) : Allowed ds true (params ++ known) before a := by
  cases a with
  | read x =>
    rw [Fits, table_open, Variables.exists_resolve_iff] at h
    rw [Allowed, List.mem_append, ← hKnown]
    rcases h with hParam | ⟨_, hLocal | ⟨_, hGlobal⟩⟩
    · exact .inl (.inl (List.mem_of_mem_take hParam))
    · have hMem := List.mem_of_mem_take hLocal
      rw [mem_enlistAll, mem_writes] at hMem
      exact .inr (hMem.resolve_left List.not_mem_nil).1
    · exact .inl (.inr (List.mem_of_mem_take hGlobal))
  | write x => trivial
  | call name count =>
    obtain ⟨f, _, _, hFind, hArity, _⟩ := h
    exact (Functions.exists_find?_iff hNames hDeclared).mp ⟨f, hFind, hArity⟩
  | ret => rfl

variable (hLocals : ∀ f ∈ fs.list, f.locals < 2147483648) (hLoad : load before + a.weight < 2147483648)

include hLocals hLoad

theorem Allowed.fits_call (v : Variables) {name : String} {count : Nat} (hCall : a = .call name count)
    (h : Declaration.fits ds name count = true) : Fits fs v before a := by
  subst hCall
  obtain ⟨f, hFind, rfl⟩ := (Functions.exists_find?_iff hNames hDeclared).mpr h
  change _ + f.arity < _ at hLoad
  obtain ⟨arity, hArity⟩ : ∃ w, Word.ofNat? f.arity = some w := Word.exists_ofNat?_iff.mpr (by omega)
  obtain ⟨locals, hWord⟩ := Word.exists_ofNat?_iff.mpr (hLocals f (List.mem_of_find?_eq_some hFind))
  exact ⟨f, arity, locals, hFind, rfl, hArity, hWord⟩

theorem Allowed.fits_main (h : Allowed ds false [] before a) : Fits fs {} before a := by
  have hCount := length_table_le [] before
  cases a with
  | read x =>
    rw [Fits, Variables.assignAll_main]
    apply Variables.exists_global_iff.mpr
    change x ∈ ((writes before).foldl (enlist []) []).take 2147483648
    rw [List.take_of_length_le (by omega), mem_enlistAll, mem_writes]
    exact .inr ⟨h.resolve_left List.not_mem_nil, List.not_mem_nil⟩
  | write x =>
    change _ + 1 < _ at hLoad
    rw [Fits, Variables.assignAll_main]
    exact Variables.exists_assign_main (by omega)
  | call name count => exact Allowed.fits_call hNames hDeclared hLocals hLoad _ rfl h
  | ret => cases h

theorem Allowed.fits_function (hGlobals : globals.length ≤ 2147483648) (hKnown : ∀ x, x ∈ globals ↔ x ∈ known)
    (hNear : ∀ x ∈ params, a = .read x ∨ a = .write x → x ∈ params.take 2147483648)
    (h : Allowed ds true (params ++ known) before a) : Fits fs ⟨globals, [⟨params, []⟩]⟩ before a := by
  have hCount := length_table_le params before
  cases a with
  | read x =>
    have hTable : ((writes before).foldl (enlist params) []).length ≤ 2147483648 := by omega
    rw [Fits, table_open, Variables.exists_resolve_iff, List.take_of_length_le hGlobals,
      List.take_of_length_le hTable, hKnown, mem_enlistAll, mem_writes]
    by_cases hParam : x ∈ params
    · exact .inl (hNear x hParam (.inl rfl))
    · rw [Allowed, List.mem_append] at h
      by_cases hWritten : .write x ∈ before
      · exact .inr ⟨hParam, .inl (.inr ⟨hWritten, hParam⟩)⟩
      · refine .inr ⟨hParam, .inr ⟨?_, (h.resolve_right hWritten).resolve_left hParam⟩⟩
        rintro (hNone | ⟨hWrite, _⟩)
        · exact List.not_mem_nil hNone
        · exact hWritten hWrite
  | write x =>
    change _ + 1 < _ at hLoad
    rw [Fits, table_open]
    exact Variables.exists_assign_open (by omega) fun hParam => hNear x hParam (.inr rfl)
  | call name count => exact Allowed.fits_call hNames hDeclared hLocals hLoad _ rfl h
  | ret =>
    rw [Fits, table_open]
    rfl

end

theorem Each.imp_of_load {P Q : List Access → Access → Prop} {accesses : List Access} {bound : Nat}
    (h : Each P accesses) (hLoad : load accesses < bound)
    (hImp : ∀ before a, a ∈ accesses → load before + a.weight < bound → P before a → Q before a) :
    Each Q accesses := by
  refine h.imp fun before a after hSplit => hImp before a ?_ ?_
  · rw [hSplit]
    exact List.mem_append_right _ List.mem_cons_self
  · rw [hSplit, load_append, load_cons] at hLoad
    omega

end Access

/-! ## Acceptance -/

/-- A parameter that its function uses is among the first 2147483648, for which words have numbers. -/
def Stmt.Numbered (statements : List Stmt) : Prop :=
  ∀ d ∈ Stmt.blockDeclarations statements, ∀ x ∈ d.params,
    .read x ∈ Stmt.blockAccesses d.body ∨ .write x ∈ Stmt.blockAccesses d.body → x ∈ d.params.take 2147483648

theorem Stmt.numbered_of_length_le {statements : List Stmt}
    (h : ∀ d ∈ Stmt.blockDeclarations statements, d.params.length ≤ 2147483648) : Stmt.Numbered statements := by
  intro d hMem x hParam _
  rw [List.take_of_length_le (h d hMem)]
  exact hParam

theorem Stmt.mem_globalNames {statements : List Stmt} (x : String) :
    x ∈ Stmt.globalNames statements ↔ x ∈ Stmt.assignedNames statements := by
  simp [Stmt.globalNames, mem_enlistAll, Stmt.mem_blockTargets]

theorem Stmt.length_globalNames_le (statements : List Stmt) :
    (Stmt.globalNames statements).length ≤ Stmt.blockCodeLength statements := by
  rw [Stmt.globalNames, ← Stmt.writes_blockAccesses]
  exact Nat.le_trans (length_table_le ..) (Stmt.load_blockAccesses statements)

theorem Stmt.codeLength_le_programLength {statements : List Stmt} {d : Declaration}
    (h : d ∈ Stmt.blockDeclarations statements) : Stmt.blockCodeLength d.body ≤ Stmt.programLength statements := by
  obtain ⟨before, after, hSplit⟩ := List.append_of_mem h
  rw [Stmt.programLength, hSplit, List.map_append, List.map_cons, List.sum_append, List.sum_cons,
    Declaration.codeLength]
  omega

namespace Functions

variable {statements : List Stmt} {fs : Functions}

theorem declared_iff :
    (declareBlock {} statements).2 = [] ↔ ((Stmt.blockDeclarations statements).map Declaration.name).Nodup := by
  apply declareBlock_errors_iff
  exact List.nodup_nil

theorem Serve.wellScoped (h : fs.Serve statements) (hNames : fs.names.Nodup)
    (hDeclared : fs.list.map Function.declaration = Stmt.blockDeclarations statements) :
    Stmt.WellScoped statements ∧ Stmt.Numbered statements := by
  have hAll : ∀ P : Declaration → Prop, (∀ f ∈ fs.list, P f.declaration) →
      ∀ d ∈ Stmt.blockDeclarations statements, P d := by
    intro P hEvery
    rw [← hDeclared]
    exact List.forall_mem_map.mpr hEvery
  rw [Stmt.wellScoped_iff_each]
  refine ⟨⟨names_eq hDeclared ▸ hNames, hAll _ h.params, ?_, hAll _ fun f hMem => ?_⟩, hAll _ fun f hMem => ?_⟩
  · exact h.main.imp fun before a after _ hFits => hFits.allowed_main hNames hDeclared
  · exact (h.functions f hMem).imp fun before a after _ hFits =>
      hFits.allowed_function hNames hDeclared Stmt.mem_globalNames
  · rintro x hParam (hRead | hWrite)
    · obtain ⟨before, after, hSplit⟩ := List.append_of_mem hRead
      exact (h.functions f hMem before _ after hSplit).mem_take hParam (.inl rfl)
    · obtain ⟨before, after, hSplit⟩ := List.append_of_mem hWrite
      exact (h.functions f hMem before _ after hSplit).mem_take hParam (.inr rfl)

theorem serve_of_wellScoped (hSound : fs.Sound)
    (hDeclared : fs.list.map Function.declaration = Stmt.blockDeclarations statements)
    (h : Stmt.WellScoped statements) (hNumbered : Stmt.Numbered statements)
    (hSize : Stmt.programLength statements < 2147483648) : fs.Serve statements := by
  obtain ⟨hDistinct, hParams, hMain, hBodies⟩ := (Stmt.wellScoped_iff_each statements).mp h
  have hNames : fs.names.Nodup := names_eq hDeclared ▸ hDistinct
  have hFunction : ∀ f ∈ fs.list, f.declaration ∈ Stmt.blockDeclarations statements := by
    intro f hMem
    rw [← hDeclared]
    exact List.mem_map_of_mem hMem
  have hRoom : Stmt.blockCodeLength statements < 2147483648 := by
    rw [Stmt.programLength] at hSize
    omega
  have hRooms : ∀ f ∈ fs.list, Stmt.blockCodeLength f.body < 2147483648 := fun f hMem =>
    Nat.lt_of_le_of_lt (Stmt.codeLength_le_programLength (hFunction f hMem)) hSize
  have hLocals : ∀ f ∈ fs.list, f.locals < 2147483648 := fun f hMem =>
    hSound.locals_lt hMem (hParams _ (hFunction f hMem)) (hRooms f hMem)
  refine ⟨?_, fun f hMem => hParams _ (hFunction f hMem), fun f hMem => ?_⟩
  · refine hMain.imp_of_load (Nat.lt_of_le_of_lt (Stmt.load_blockAccesses statements) hRoom) ?_
    intro before a _ hLoad hAllowed
    exact hAllowed.fits_main hNames hDeclared hLocals hLoad
  · refine (hBodies _ (hFunction f hMem)).imp_of_load
      (Nat.lt_of_le_of_lt (Stmt.load_blockAccesses f.body) (hRooms f hMem)) ?_
    intro before a hAccess hLoad hAllowed
    refine hAllowed.fits_function hNames hDeclared hLocals hLoad
      (Nat.le_of_lt (Nat.lt_of_le_of_lt (Stmt.length_globalNames_le statements) hRoom)) Stmt.mem_globalNames ?_
    rintro x hParam (rfl | rfl)
    · exact hNumbered _ (hFunction f hMem) x hParam (.inl hAccess)
    · exact hNumbered _ (hFunction f hMem) x hParam (.inr hAccess)

end Functions

theorem Listing.wellScoped_of_ofStatements {statements : List Stmt} {listing : Listing}
    (h : Listing.ofStatements statements = .ok listing) :
    Stmt.WellScoped statements ∧ Stmt.Numbered statements ∧
      listing.cells.length = Stmt.programLength statements := by
  obtain ⟨hErrors, hServe, hLength⟩ := Listing.serve_of_ofStatements h
  have hDeclared := Functions.declarations_declareBlock hErrors
  have hNames : (Functions.declareBlock {} statements).1.names.Nodup :=
    Functions.names_eq hDeclared ▸ Functions.declared_iff.mp hErrors
  obtain ⟨hScoped, hNumbered⟩ := hServe.wellScoped hNames hDeclared
  exact ⟨hScoped, hNumbered, hLength⟩

/-- Generation accepts the well-scoped programs whose parameters have numbers and whose code is not too long, and no
others. What it does not accept it gives errors for. -/
theorem Listing.accepts_wellScoped (statements : List Stmt) :
    (Stmt.WellScoped statements → Stmt.Numbered statements → Stmt.programLength statements < 2147483648 →
        ∃ listing, Listing.ofStatements statements = .ok listing) ∧
      (∀ listing, Listing.ofStatements statements = .ok listing →
        Stmt.WellScoped statements ∧ Stmt.Numbered statements ∧
          listing.cells.length = Stmt.programLength statements) ∧
      ∀ errors, Listing.ofStatements statements = .error errors → errors ≠ [] := by
  refine ⟨?_, ?_, ?_⟩
  · intro hScoped hNumbered hSize
    have hErrors := Functions.declared_iff.mpr hScoped.names
    have hDeclared := Functions.declarations_declareBlock hErrors
    have hSound := Functions.sound_declared statements
    exact Listing.exists_of_serve hSize hErrors
      (Functions.serve_of_wellScoped hSound hDeclared hScoped hNumbered hSize)
  · exact fun listing => Listing.wellScoped_of_ofStatements
  · intro errors h
    rw [Listing.ofStatements] at h
    split at h
    · cases h
    · rename_i hErrors
      cases h
      simpa using hErrors

/-- A loop whose body reads what only its step assigns. -/
def Stmt.stepAhead : List Stmt :=
  let span := Span.nowhere
  [.forLoop span (.assign span "i" (.int span 0)) (.var span "i") (.assign span "j" (.int span 1))
    [.print span (.var span "j")]]

theorem Listing.accepts_countDown_not_stepAhead :
    (∃ listing, Listing.ofStatements Stmt.countDown = .ok listing ∧ listing.cells.length = 33) ∧
      ∃ errors, Listing.ofStatements Stmt.stepAhead = .error errors ∧ errors ≠ [] := by
  obtain ⟨hComplete, hSound, _⟩ := Listing.accepts_wellScoped Stmt.countDown
  obtain ⟨_, hOnly, hErrors⟩ := Listing.accepts_wellScoped Stmt.stepAhead
  constructor
  · obtain ⟨listing, h⟩ := hComplete (by decide) (Stmt.numbered_of_length_le (by decide)) (by decide)
    refine ⟨listing, h, (hSound listing h).2.2.trans ?_⟩
    decide
  · cases h : Listing.ofStatements Stmt.stepAhead with
    | ok listing => exact absurd (hOnly listing h).1 (by decide)
    | error errors => exact ⟨errors, rfl, hErrors errors h⟩

/-! ## Parameters without a number -/

def Stmt.numberedParam (i : Nat) : String := "p" ++ i.repr

/-- A function with parameters from 0 to a last one, which it prints. Nothing calls it. -/
def Stmt.printLast (last : Nat) : List Stmt :=
  let span := Span.nowhere
  [.function span "f" ((List.range (last + 1)).map Stmt.numberedParam)
    [.print span (.var span (Stmt.numberedParam last))]]

theorem Stmt.numberedParam_injective : Function.Injective Stmt.numberedParam := by
  intro i j hSame
  exact Nat.repr_injective ((String.append_right_inj "p").mp hSame)

theorem Stmt.mem_map_numberedParam {i n : Nat} :
    Stmt.numberedParam i ∈ (List.range n).map Stmt.numberedParam ↔ i < n := by
  rw [List.mem_map_of_injective Stmt.numberedParam_injective, List.mem_range]

theorem Stmt.blockDeclarations_printLast (last : Nat) :
    Stmt.blockDeclarations (Stmt.printLast last) =
      [⟨"f", (List.range (last + 1)).map Stmt.numberedParam,
        [.print .nowhere (.var .nowhere (Stmt.numberedParam last))]⟩] := rfl

theorem Stmt.wellScoped_printLast (last : Nat) : Stmt.WellScoped (Stmt.printLast last) where
  names := List.nodup_singleton "f"
  params := by
    rw [Stmt.blockDeclarations_printLast, List.forall_mem_singleton]
    exact List.nodup_range.map Stmt.numberedParam_injective
  returns := List.not_mem_nil
  calls := by
    intro body hMem name count hCall
    rcases List.mem_pair.mp hMem with rfl | rfl
    · cases hCall
    · cases List.mem_singleton.mp hCall
  main := by
    intro before x after hSplit
    exact absurd hSplit.symm (List.append_ne_nil_of_right_ne_nil before (List.cons_ne_nil _ after))
  functions := by
    rw [Stmt.blockDeclarations_printLast, List.forall_mem_singleton]
    intro before x after hSplit
    have hRead : .read x ∈ [Access.read (Stmt.numberedParam last)] := by
      rw [show [Access.read (Stmt.numberedParam last)] = before ++ .read x :: after from hSplit]
      exact List.mem_append_right _ List.mem_cons_self
    cases List.mem_singleton.mp hRead
    exact .inl (Stmt.mem_map_numberedParam.mpr (Nat.lt_succ_self last))

theorem Variables.resolve_numberedParam (globals : List String) (last : Nat) :
    (Variables.mk globals [⟨(List.range (last + 1)).map Stmt.numberedParam, []⟩]).resolve (Stmt.numberedParam last) =
      some (.frame (-(last + 1))) := by
  have hNew : Stmt.numberedParam last ∉ (List.range last).map Stmt.numberedParam := fun hMem =>
    Nat.lt_irrefl _ (Stmt.mem_map_numberedParam.mp hMem)
  have hIndex : ((List.range (last + 1)).map Stmt.numberedParam).idxOf? (Stmt.numberedParam last) = some last := by
    rw [List.range_succ, List.map_append, List.map_singleton, idxOf?_concat hNew, List.length_map, List.length_range]
  simp [Variables.resolve, Frame.offset?, hIndex]

theorem Slot.loadCode?_eq_none_of_le {last : Nat} (h : 2147483648 ≤ last) :
    (Slot.frame (-(last + 1))).loadCode? = none := by
  have hWord : Word.ofInt? (-(last + 1)) = none := by
    rw [Word.ofInt?]
    exact if_neg (by omega)
  rw [Slot.loadCode?, hWord]
  rfl

-- The slot is a variable, so that no number of that size is evaluated.
theorem Expr.code_var_of_loadCode?_eq_none {fs : Functions} {v : Variables} {span : Span} {name : String} {slot : Slot}
    (hSlot : v.resolve name = some slot) (hLoad : slot.loadCode? = none) :
    Expr.code fs v (.var span name) = .error (.numberTooLarge span name) := by
  simp only [Expr.code, hSlot, hLoad]

/-- The only error in a function that prints a variable without code, where nothing calls the function. -/
theorem Listing.errors_generate_print {params : List String} {name : String} {e : CompileError}
    (hParams : params.Nodup)
    (hCode : ∀ fs, Expr.code fs ⟨[], [⟨params, []⟩]⟩ (.var .nowhere name) = .error e) :
    (Listing.generate [.function .nowhere "f" params [.print .nowhere (.var .nowhere name)]]).errors = [e] := by
  have hEntered : params.foldl Draft.declareParam { vars := ⟨[], [⟨[], []⟩]⟩ } = { vars := ⟨[], [⟨params, []⟩]⟩ } :=
    Draft.declareParams_eq hParams
  have hBody : ∀ fs a, Stmt.blockCode fs a [.print .nowhere (.var .nowhere name)] { vars := ⟨[], [⟨params, []⟩]⟩ } =
      ([], { vars := ⟨[], [⟨params, []⟩]⟩, errors := [e] }) := by
    intro fs a
    have hPrint : Stmt.code fs a (.print .nowhere (.var .nowhere name)) { vars := ⟨[], [⟨params, []⟩]⟩ } =
        .error e { vars := ⟨[], [⟨params, []⟩]⟩ } := by
      rw [Stmt.code]
      apply Effect.bind_of_error
      simp only [Gen.expr, hCode]
    simp only [Stmt.blockCode, hPrint, List.nil_append]
  -- The code at the entry is unfolded before the function is, which leaves the function's body as `hBody` has it.
  simp only [Listing.generate, Functions.declareBlock, Functions.declareStmt, Functions.declare, Functions.find?,
    List.find?_nil, List.nil_append, List.append_nil, List.foldl_cons, List.foldl_nil, Draft.entry, Draft.block,
    Stmt.blockCode, Stmt.code]
  simp only [Draft.function, Draft.block, Draft.place, Variables.enter, pure, EStateM.pure, hEntered, hBody]
  rfl

theorem Listing.ofStatements_printLast {last : Nat} (h : 2147483648 ≤ last) :
    Listing.ofStatements (Stmt.printLast last) = .error [.numberTooLarge .nowhere (Stmt.numberedParam last)] := by
  have hErrors : (Listing.generate (Stmt.printLast last)).errors =
      [.numberTooLarge .nowhere (Stmt.numberedParam last)] :=
    Listing.errors_generate_print (List.nodup_range.map Stmt.numberedParam_injective) fun _ =>
      Expr.code_var_of_loadCode?_eq_none (Variables.resolve_numberedParam [] last) (Slot.loadCode?_eq_none_of_le h)
  simp only [Listing.ofStatements, hErrors]
  rfl

theorem Listing.refuses_printLast :
    Stmt.WellScoped (Stmt.printLast 2147483648) ∧ Stmt.programLength (Stmt.printLast 2147483648) = 8 ∧
      Listing.ofStatements (Stmt.printLast 2147483648) =
        .error [.numberTooLarge .nowhere (Stmt.numberedParam 2147483648)] := by
  refine ⟨Stmt.wellScoped_printLast _, ?_, Listing.ofStatements_printLast (Nat.le_refl _)⟩
  rfl

end Vee
