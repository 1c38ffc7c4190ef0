import Vee.Proofs.Code.Sections
import Vee.Proofs.Simulation.Growth

/-! # Stores in machines

A machine represents a store if each global name has its value in its slot of memory and each name of the running
function has its value in the frame. The slots are those of the table of variables at the end of the code, which
agrees with all tables on the way. The rules below say for single instructions what the store becomes.
-/

namespace Vee

set_option autoImplicit false

namespace Eval.Bindings

theorem get_set (b : Bindings) (x y : String) (w : Word) : (b.set x w).get y = if x = y then w else b.get y := by
  induction b with
  | nil =>
    by_cases hEq : x = y
    · simp [set, get, hEq]
    · have hNe : (y == x) = false := by simpa using fun h => hEq h.symm
      simp [set, get, List.lookup, hEq, hNe]
  | cons pair rest ih =>
    obtain ⟨z, v⟩ := pair
    rw [set]
    by_cases hHead : z = x
    · subst hHead
      by_cases hEq : z = y
      · simp [get, hEq]
      · have hNe : (y == z) = false := by simpa using fun h => hEq h.symm
        simp [get, List.lookup, hEq, hNe]
    · rw [if_neg hHead]
      by_cases hEq : y = z
      · have hNe : x ≠ y := fun h => hHead (h.trans hEq).symm
        simp [get, List.lookup, hEq, hEq ▸ hNe]
      · have hNe : (y == z) = false := by simpa using hEq
        simpa [get, List.lookup, hNe] using ih

theorem get_zip_of_mem {params : List String} {values : List Word} {x : String} {i : Nat}
    (hLength : params.length = values.length) (h : params.idxOf? x = some i) :
    values[i]? = some (get (params.zip values) x) := by
  induction params generalizing values i with
  | nil => simp at h
  | cons p params ih =>
    cases values with
    | nil => simp at hLength
    | cons w values =>
      rw [List.idxOf?_cons] at h
      split at h
      · rename_i hEq
        have hName : (x == p) = true := by simpa using (beq_iff_eq.mp hEq).symm
        cases h
        simp [get, List.lookup, hName]
      · rename_i hNe
        obtain ⟨j, hIndex, rfl⟩ := Option.map_eq_some_iff.mp h
        have hName : (x == p) = false := by simpa using fun h => hNe (by simpa using h.symm)
        rw [List.getElem?_cons_succ, ih (by simpa using hLength) hIndex]
        simp [get, List.lookup, hName]

theorem get_zip_of_not_mem {params : List String} {x : String} (values : List Word) (h : x ∉ params) :
    get (params.zip values) x = 0 := by
  induction params generalizing values with
  | nil => rfl
  | cons p params ih =>
    cases values with
    | nil => rfl
    | cons w values =>
      obtain ⟨hHead, hTail⟩ := not_or.mp fun hMem => h (List.mem_cons.mpr hMem)
      have hName : (x == p) = false := by simpa using hHead
      simpa [get, List.lookup, hName] using ih values hTail

end Eval.Bindings

namespace Machine

open Eval (Store Bindings)

/-- A laid-out program on a machine with limits. -/
structure Image extends Setting where
  functions : Functions
  places : Std.TreeMap Nat Nat
  statements : List Stmt
  declared : functions.list.map Function.declaration = Stmt.blockDeclarations statements
  layout : program.Layout places functions statements
  globals_eq : globals = Stmt.globalNames statements
  size_lt : program.words.size < 2147483648

/-- The functions that evaluation knows of. -/
def Image.declarations (I : Image) : List Declaration := Stmt.blockDeclarations I.statements

theorem Image.function?_of_find? {I : Image} {name : String} {f : Function} (h : I.functions.find? name = some f) :
    Eval.function? I.declarations name = some f.declaration := by
  rw [Image.declarations, ← I.declared, Eval.function?, List.find?_map]
  exact congrArg (Option.map Function.declaration) h

/-- Each global name has its value in its slot, as far as there are slots, and all other slots are zero. -/
structure MemoryStores (I : Image) (memory : Memory) (globals : Bindings) : Prop where
  size : memory.size = I.limits.globals
  named : ∀ {i : Nat} {x : String}, I.globals[i]? = some x → i < memory.size → memory.get? i = some (globals.get x)
  rest : ∀ {i : Nat}, I.globals.length ≤ i → i < memory.size → memory.get? i = some 0

/-- Each name of the frame has its value in its slot. -/
def Home.Stores (full : Variables) (home : Home) (own : Bindings) : Prop :=
  ∀ frame ∈ full.frames, ∀ {x : String} {slot : Int}, frame.offset? x = some slot →
    home.get? slot = some (own.get x)

/-- The home of the main program, or of a call that can return. -/
inductive Runs (I : Image) : Variables → Home → Prop
  | main : Runs I ⟨I.globals, []⟩ .main
  | call {params names : List String} {c : Caller} {args locals : List Word} (hCaller : c.Sound I.toSetting)
      (hArgs : args.length < 2147483648) : Runs I ⟨I.globals, [⟨params, names⟩]⟩ (.call c args locals)

/-- A snapshot of code at an address, which represents a store. -/
structure At (I : Image) (full : Variables) (home : Home) (pc : Nat) (temps : List Word) (store : Store)
    (s : Snapshot) : Prop where
  runs : Runs I full home
  memory : MemoryStores I s.globals store.globals
  own : home.Stores full store.own
  pc : s.pc = pc
  fp : s.fp = home.fp
  stack : s.stack = home.stack ++ temps
  activations : s.activations = home.activations
  output : s.output = Eval.text store.printed

/-! ## Writing variables -/

section

variable {I : Image} {full : Variables} {home : Home} {memory : Memory}

theorem Runs.globals (h : Runs I full home) : full.globals = I.globals := by
  cases h <;> rfl

theorem globals_nodup (I : Image) : I.globals.Nodup := by
  rw [I.globals_eq]
  exact nodup_enlistAll List.nodup_nil

theorem MemoryStores.set {globals : Bindings} {i : Nat} {x : String} (h : MemoryStores I memory globals)
    (hName : I.globals[i]? = some x) (w : Word) : MemoryStores I (memory.set i w) (globals.set x w) where
  size := by rw [Memory.size_set, h.size]
  named := by
    intro j y hOther hLt
    rw [Memory.size_set] at hLt
    rw [Memory.get?_set, Bindings.get_set]
    by_cases hSame : j = i
    · subst hSame
      cases hName.symm.trans hOther
      rw [if_pos ⟨rfl, hLt⟩, if_pos rfl]
    · have hDiffer : x ≠ y := by
        rintro rfl
        have hLength := (List.getElem?_eq_some_iff.mp hOther).1
        exact hSame ((List.getElem?_inj hLength (globals_nodup I)).mp (hOther.trans hName.symm))
      rw [if_neg fun h => hSame h.1, if_neg hDiffer]
      exact h.named hOther hLt
  rest := by
    intro j hOut hLt
    rw [Memory.size_set] at hLt
    have hLength := (List.getElem?_eq_some_iff.mp hName).1
    rw [Memory.get?_set, if_neg (by omega)]
    exact h.rest hOut hLt

theorem Home.get?_set {slot : Int} {v : Word} (h : home.get? slot = some v) (other : Int) (w : Word) :
    (home.set slot w).get? other = if slot = other then some w else home.get? other := by
  cases home with
  | main => cases h
  | call c args locals =>
    cases slot with
    | ofNat n =>
      have hLt := (List.getElem?_eq_some_iff.mp h).1
      cases other with
      | ofNat m =>
        have hSame : Int.ofNat n = Int.ofNat m ↔ n = m := Int.ofNat_inj
        simp only [Home.set, Home.get?, List.getElem?_set, if_pos hLt, hSame]
      | negSucc m => simp [Home.set, Home.get?]
    | negSucc n =>
      have hLt := (List.getElem?_eq_some_iff.mp h).1
      cases other with
      | ofNat m => simp [Home.set, Home.get?]
      | negSucc m => simp [Home.set, Home.get?, List.getElem?_set, hLt]

theorem Home.Stores.set {own : Bindings} {frame : Frame} {x : String} {slot : Int} (h : home.Stores full own)
    (hFrames : full.frames = [frame]) (hSlot : frame.offset? x = some slot) (w : Word) :
    (home.set slot w).Stores full (own.set x w) := by
  intro other hMem y otherSlot hOther
  have hValue := h frame (by simp [hFrames]) hSlot
  rw [hFrames, List.mem_singleton] at hMem
  subst hMem
  rw [Home.get?_set hValue, Bindings.get_set]
  by_cases hSame : x = y
  · subst hSame
    cases hSlot.symm.trans hOther
    simp
  · have hDiffer : slot ≠ otherSlot := by
      rintro rfl
      exact hSame (Frame.offset?_injective hSlot hOther)
    rw [if_neg hDiffer, if_neg hSame]
    exact h other (by simp [hFrames]) hOther

theorem Runs.set (h : Runs I full home) (slot : Int) (w : Word) : Runs I full (home.set slot w) := by
  cases h with
  | main => exact .main
  | call hCaller hArgs =>
    cases slot with
    | ofNat n => exact .call hCaller hArgs
    | negSucc n => exact .call hCaller (by simpa using hArgs)

end

/-! ## Instructions on a represented store -/

namespace At

variable {I : Image} {full : Variables} {home : Home} {pc : Nat} {temps : List Word} {store : Store} {s : Snapshot}

theorem eq_snapshot (h : At I full home pc temps store s) :
    s = home.snapshot pc temps s.globals (Eval.text store.printed) := by
  obtain ⟨_, _, _, rfl, hFp, hStack, hActivations, hOutput⟩ := h
  rw [Home.snapshot, ← hFp, ← hStack, ← hActivations, ← hOutput]

theorem stack_concat {w : Word} (h : At I full home pc (temps ++ [w]) store s) :
    s.stack = home.stack ++ temps ++ [w] := by
  rw [h.stack, List.append_assoc]

theorem const {w : Word} (h : At I full home pc temps store s)
    (hOp : I.program.words[pc]? = some Opcode.const.word) (hArg : I.program.words[pc + 1]? = some w) :
    ∃ t, Leads I.toSetting step s () t ∧ At I full home (pc + 2) (temps ++ [w]) store t := by
  rw [← h.pc] at hOp hArg
  refine ⟨_, leads_const hOp hArg, { h with pc := ?_, stack := ?_ }⟩
  · rw [h.pc]
  · rw [h.stack, List.append_assoc]

theorem jmp {w : Word} {a : Nat} (h : At I full home pc (temps ++ [w]) store s)
    (hOp : I.program.words[pc]? = some Opcode.jmp.word) (hTarget : Word.ofNat? a = some w)
    (hSize : a < I.program.words.size) :
    ∃ t, Leads I.toSetting step s () t ∧ At I full home a temps store t := by
  rw [← h.pc] at hOp
  exact ⟨_, leads_jmp hOp h.stack_concat (Word.toNat?_of_ofNat? hTarget) hSize,
    { h with pc := rfl, stack := rfl }⟩

theorem jmpf {c w : Word} {a : Nat} (h : At I full home pc (temps ++ [c] ++ [w]) store s)
    (hOp : I.program.words[pc]? = some Opcode.jmpf.word) (hTarget : Word.ofNat? a = some w)
    (hSize : a < I.program.words.size) :
    ∃ t, Leads I.toSetting step s () t ∧ At I full home (if c = 0 then a else pc + 1) temps store t := by
  have hStack : s.stack = home.stack ++ temps ++ [c, w] := by
    rw [h.stack]
    simp
  rw [← h.pc] at hOp
  refine ⟨_, leads_jmpf hOp hStack (Word.toNat?_of_ofNat? hTarget) hSize, { h with pc := ?_, stack := rfl }⟩
  rw [h.pc]

theorem drop {w : Word} (h : At I full home pc (temps ++ [w]) store s)
    (hOp : I.program.words[pc]? = some Opcode.pop.word) :
    ∃ t, Leads I.toSetting step s () t ∧ At I full home (pc + 1) temps store t := by
  rw [← h.pc] at hOp
  refine ⟨_, leads_pop_instruction hOp h.stack_concat, { h with pc := ?_, stack := rfl }⟩
  rw [h.pc]

theorem print {w : Word} (h : At I full home pc (temps ++ [w]) store s)
    (hOp : I.program.words[pc]? = some Opcode.print.word) :
    ∃ t, Leads I.toSetting step s () t ∧
      At I full home (pc + 1) temps { store with printed := store.printed ++ [w] } t := by
  rw [← h.pc] at hOp
  refine ⟨_, leads_print hOp h.stack_concat, { h with pc := ?_, stack := rfl, output := ?_ }⟩
  · rw [h.pc]
  · rw [Eval.text_concat, h.output]

theorem load {x : String} {frame : Frame} {slot : Int} {w : Word}
    (h : At I full home pc (temps ++ [w]) store s) (hOp : I.program.words[pc]? = some Opcode.load.word)
    (hFrames : full.frames = [frame]) (hSlot : frame.offset? x = some slot) (hWord : Word.ofInt? slot = some w) :
    ∃ t, Leads I.toSetting step s () t ∧ At I full home (pc + 1) (temps ++ [store.own.get x]) store t := by
  have hValue := h.own frame (by simp [hFrames]) hSlot
  have hEq := h.eq_snapshot
  have hIndex : ({ s with stack := home.stack ++ temps }.machine I.toSetting).slotIndex? w =
      some (home.index slot) := by
    rw [hEq]
    exact Home.slotIndex?_snapshot hValue (Word.toInt_of_ofInt? hWord)
  have hRead : (home.stack ++ temps)[home.index slot]? = some (store.own.get x) := by
    obtain ⟨hLt, hGet⟩ := List.getElem?_eq_some_iff.mp (Home.stack_index hValue).1
    rw [List.getElem?_append_left hLt, List.getElem?_eq_getElem hLt, hGet]
  rw [← h.pc] at hOp
  refine ⟨_, leads_load hOp h.stack_concat hIndex hRead, { h with pc := ?_, stack := ?_ }⟩
  · rw [h.pc]
  · rw [List.append_assoc]

theorem store_own {x : String} {frame : Frame} {slot : Int} {w v : Word}
    (h : At I full home pc (temps ++ [v]) store s) (hOp : I.program.words[pc]? = some Opcode.store.word)
    (hArg : I.program.words[pc + 1]? = some w) (hFrames : full.frames = [frame])
    (hSlot : frame.offset? x = some slot) (hWord : Word.ofInt? slot = some w) :
    ∃ t, Leads I.toSetting step s () t ∧
      At I full (home.set slot v) (pc + 2) temps { store with own := store.own.set x v } t := by
  have hValue := h.own frame (by simp [hFrames]) hSlot
  have hLeads : Leads I.toSetting step s () ((home.set slot v).snapshot (pc + 2) temps s.globals s.output) := by
    rw [h.eq_snapshot, ← h.output]
    exact leads_store_slot hOp hArg hValue (Word.toInt_of_ofInt? hWord)
  refine ⟨_, hLeads,
    { h with
      runs := h.runs.set slot v
      own := h.own.set hFrames hSlot v
      pc := rfl
      fp := rfl
      stack := rfl
      activations := rfl
      output := h.output }⟩

theorem gload {x : String} {i : Nat} {w : Word} (h : At I full home pc (temps ++ [w]) store s)
    (hOp : I.program.words[pc]? = some Opcode.gload.word) (hName : full.globals[i]? = some x)
    (hWord : Word.ofNat? i = some w) :
    ∃ t, Leads I.toSetting step s () t ∧ At I full home (pc + 1) (temps ++ [store.globals.get x]) store t := by
  rw [h.runs.globals] at hName
  have hLt := (List.getElem?_eq_some_iff.mp hName).1
  rw [← h.pc] at hOp
  refine ⟨_, leads_gload hOp h.stack_concat (Word.toNat?_of_ofNat? hWord) h.memory.size hLt
    (h.memory.named hName), { h with pc := ?_, stack := ?_ }⟩
  · rw [h.pc]
  · rw [List.append_assoc]

theorem gstore {x : String} {i : Nat} {w v : Word} (h : At I full home pc (temps ++ [v]) store s)
    (hOp : I.program.words[pc]? = some Opcode.gstore.word) (hArg : I.program.words[pc + 1]? = some w)
    (hName : full.globals[i]? = some x) (hWord : Word.ofNat? i = some w) :
    ∃ t, Leads I.toSetting step s () t ∧
      At I full home (pc + 2) temps { store with globals := store.globals.set x v } t := by
  rw [h.runs.globals] at hName
  have hLt := (List.getElem?_eq_some_iff.mp hName).1
  rw [← h.pc] at hOp hArg
  refine ⟨_, leads_gstore hOp hArg h.stack_concat (Word.toNat?_of_ofNat? hWord) h.memory.size hLt,
    { h with memory := h.memory.set hName v, pc := ?_, stack := rfl }⟩
  rw [h.pc]

end At

end Machine

end Vee
