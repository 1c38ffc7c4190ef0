import Vee.Proofs.Code.Names
import Vee.Stmt.Eval

/-! # Tables of variables

A table within another has the same functions open and allots the same slots, perhaps fewer. While code is
generated the table is within the one at the end, so that a slot means the same name from its first use on. The
names that evaluation takes for the function's own are those of the open frame.
-/

namespace Vee

set_option autoImplicit false

section

variable {names more : List String} {x y : String} {i : Nat}

theorem getElem?_of_idxOf? (h : names.idxOf? x = some i) : names[i]? = some x := by
  obtain ⟨hLt, hGet, _⟩ := List.idxOf?_eq_some_iff.mp h
  rw [List.getElem?_eq_getElem hLt, hGet]

theorem idxOf?_mono (hPrefix : names <+: more) (h : names.idxOf? x = some i) : more.idxOf? x = some i := by
  obtain ⟨rest, rfl⟩ := hPrefix
  obtain ⟨hLt, hGet, hFirst⟩ := List.idxOf?_eq_some_iff.mp h
  refine List.idxOf?_eq_some_iff.mpr ⟨by rw [List.length_append]; omega, ?_, ?_⟩
  · rw [List.getElem_append_left hLt, hGet]
  · intro j hj
    rw [List.getElem_append_left (Nat.lt_trans hj hLt)]
    exact hFirst j hj

theorem idxOf?_concat (h : x ∉ names) : (names ++ [x]).idxOf? x = some names.length := by
  refine List.idxOf?_eq_some_iff.mpr ⟨by simp, by simp, ?_⟩
  intro j hj hEq
  rw [List.getElem_append_left hj] at hEq
  exact h (hEq ▸ List.getElem_mem hj)

end

/-! ## Frames -/

namespace Frame

variable {f : Frame} {x y : String} {slot : Int}

theorem offset?_eq_none : f.offset? x = none ↔ x ∉ f.params ∧ x ∉ f.locals := by
  rw [offset?]
  split
  · rename_i hParam
    have hMem := List.mem_of_getElem? (getElem?_of_idxOf? hParam)
    simp [hMem]
  · rename_i hParam
    simp [List.idxOf?_eq_none_iff.mp hParam]

/-- Parameters count down from -1 and locals up from 0. -/
theorem name_of_offset? (h : f.offset? x = some slot) :
    (∃ i, slot = .negSucc i ∧ f.params[i]? = some x) ∨ ∃ i, slot = .ofNat i ∧ f.locals[i]? = some x := by
  rw [offset?] at h
  split at h
  · rename_i i hParam
    left
    refine ⟨i, ?_, getElem?_of_idxOf? hParam⟩
    rw [Int.negSucc_eq]
    exact (Option.some.inj h).symm
  · obtain ⟨i, hLocal, rfl⟩ := Option.map_eq_some_iff.mp h
    exact .inr ⟨i, rfl, getElem?_of_idxOf? hLocal⟩

theorem mem_of_offset? (h : f.offset? x = some slot) : x ∈ f.params ∨ x ∈ f.locals := by
  rcases name_of_offset? h with ⟨i, _, hName⟩ | ⟨i, _, hName⟩
  · exact .inl (List.mem_of_getElem? hName)
  · exact .inr (List.mem_of_getElem? hName)

theorem offset?_injective (hx : f.offset? x = some slot) (hy : f.offset? y = some slot) : x = y := by
  rcases name_of_offset? hx with ⟨i, rfl, hi⟩ | ⟨i, rfl, hi⟩
  · rcases name_of_offset? hy with ⟨j, hj, hName⟩ | ⟨j, hj, hName⟩
    · cases hj
      exact Option.some.inj (hi.symm.trans hName)
    · cases hj
  · rcases name_of_offset? hy with ⟨j, hj, hName⟩ | ⟨j, hj, hName⟩
    · cases hj
    · cases hj
      exact Option.some.inj (hi.symm.trans hName)

theorem offset?_mono {params done all : List String} (hPrefix : done <+: all)
    (h : (Frame.mk params done).offset? x = some slot) : (Frame.mk params all).offset? x = some slot := by
  rw [offset?] at h ⊢
  split at h
  · rename_i hParam
    simp only [hParam]
    exact h
  · rename_i hParam
    obtain ⟨i, hLocal, rfl⟩ := Option.map_eq_some_iff.mp h
    simp only [hParam, idxOf?_mono hPrefix hLocal, Option.map_some]

end Frame

/-! ## Adding names -/

namespace Variables

/-- Assigns names one after the other. -/
def assignAll (v : Variables) (names : List String) : Variables := names.foldl (fun v x => (v.assign x).2) v

theorem assignAll_append (v : Variables) (names more : List String) :
    v.assignAll (names ++ more) = (v.assignAll names).assignAll more := List.foldl_append

theorem assign_main (globals : List String) (x : String) :
    ((Variables.mk globals []).assign x).2 = ⟨enlist [] globals x, []⟩ := by
  simp only [assign, enlist]
  cases hIndex : globals.idxOf? x with
  | none => simp [List.idxOf?_eq_none_iff.mp hIndex]
  | some i => simp [List.mem_of_getElem? (getElem?_of_idxOf? hIndex)]

theorem assign_open (globals : List String) (f : Frame) (rest : List Frame) (x : String) :
    ((Variables.mk globals (f :: rest)).assign x).2 =
      ⟨globals, ⟨f.params, enlist f.params f.locals x⟩ :: rest⟩ := by
  simp only [assign, enlist]
  cases hOffset : f.offset? x with
  | none =>
    obtain ⟨hParams, hLocals⟩ := Frame.offset?_eq_none.mp hOffset
    simp [hParams, hLocals]
  | some slot =>
    simp [Frame.mem_of_offset? hOffset]

theorem assignAll_main (globals names : List String) :
    (Variables.mk globals []).assignAll names = ⟨names.foldl (enlist []) globals, []⟩ := by
  induction names generalizing globals with
  | nil => rfl
  | cons x names ih =>
    change ((Variables.mk globals []).assign x).2.assignAll names = _
    rw [assign_main, ih]
    rfl

theorem assignAll_open (globals : List String) (f : Frame) (rest : List Frame) (names : List String) :
    (Variables.mk globals (f :: rest)).assignAll names =
      ⟨globals, ⟨f.params, names.foldl (enlist f.params) f.locals⟩ :: rest⟩ := by
  induction names generalizing f with
  | nil => rfl
  | cons x names ih =>
    change ((Variables.mk globals (f :: rest)).assign x).2.assignAll names = _
    rw [assign_open, ih]
    rfl

/-- The table while code is generated, and the one at the end. -/
inductive Within : Variables → Variables → Prop
  | main {done all : List String} (h : done <+: all) : Within ⟨done, []⟩ ⟨all, []⟩
  | call {globals params done all : List String} (h : done <+: all) :
      Within ⟨globals, [⟨params, done⟩]⟩ ⟨globals, [⟨params, all⟩]⟩

theorem Within.trans {u v w : Variables} (hFirst : Within u v) (hSecond : Within v w) : Within u w := by
  cases hFirst with
  | main h =>
    cases hSecond with
    | main h' => exact .main (h.trans h')
  | call h =>
    cases hSecond with
    | call h' => exact .call (h.trans h')

/-- The names known to a function are those of its frame. Outside functions there are none. -/
inductive Owned : Eval.Own → Variables → Prop
  | main (globals : List String) : Owned none ⟨globals, []⟩
  | call {own globals params locals : List String} (h : ∀ x, x ∈ own ↔ x ∈ params ∨ x ∈ locals) :
      Owned (some own) ⟨globals, [⟨params, locals⟩]⟩

variable {own : Eval.Own} {v full : Variables} {x : String}

theorem Owned.within_assignAll (h : Owned own v) (names : List String) : Within v (v.assignAll names) := by
  cases h with
  | main globals =>
    rw [assignAll_main]
    exact .main prefix_enlistAll
  | call h =>
    rw [assignAll_open]
    exact .call prefix_enlistAll

theorem Owned.after_block (h : Owned own v) (body : List Stmt) :
    Owned (Eval.after own body) (v.assignAll (Stmt.blockTargets body)) := by
  cases h with
  | main globals =>
    rw [assignAll_main]
    exact .main _
  | @call own globals params locals h =>
    rw [assignAll_open]
    refine .call fun x => ?_
    rw [List.mem_append, h, mem_enlistAll, Stmt.mem_blockTargets]
    by_cases hParam : x ∈ params <;> simp [hParam]

theorem Owned.after_stmt (h : Owned own v) (s : Stmt) : Owned (Eval.after own [s]) (v.assignAll s.targets) := by
  have hBlock := h.after_block [s]
  rwa [Stmt.blockTargets, Stmt.blockTargets, List.append_nil] at hBlock

/-- What a reference reads: the function's own name or a global one. -/
theorem Owned.resolve {slot : Slot} (h : Owned own v) (hWithin : v.Within full) (hSlot : v.resolve x = some slot) :
    (∃ offset frame, slot = .frame offset ∧ Eval.isOwn own x = true ∧ full.frames = [frame] ∧
        frame.offset? x = some offset) ∨
      ∃ i, slot = .global i ∧ Eval.isOwn own x = false ∧ full.globals[i]? = some x := by
  cases h with
  | main globals =>
    cases hWithin with
    | main hPrefix =>
      right
      obtain ⟨i, hIndex, rfl⟩ := Option.map_eq_some_iff.mp hSlot
      exact ⟨i, rfl, rfl, getElem?_of_idxOf? (idxOf?_mono hPrefix hIndex)⟩
  | @call own globals params locals h =>
    cases hWithin with
    | @call _ _ _ all hPrefix =>
      rw [Variables.resolve] at hSlot
      simp only [List.head?_cons, Option.bind_some] at hSlot
      split at hSlot
      · rename_i offset hOffset
        left
        have hMem : x ∈ own := (h x).mpr (Frame.mem_of_offset? hOffset)
        refine ⟨offset, _, (Option.some.inj hSlot).symm, ?_, rfl, Frame.offset?_mono hPrefix hOffset⟩
        simpa [Eval.isOwn] using hMem
      · rename_i hOffset
        right
        obtain ⟨i, hIndex, rfl⟩ := Option.map_eq_some_iff.mp hSlot
        have hNot : x ∉ own := by
          rw [h]
          exact not_or.mpr (Frame.offset?_eq_none.mp hOffset)
        refine ⟨i, rfl, ?_, getElem?_of_idxOf? hIndex⟩
        simpa [Eval.isOwn] using hNot

/-- What an assignment writes: a name of the function in a function, a global one outside. -/
theorem Owned.assign (h : Owned own v) (hWithin : (v.assign x).2.Within full) :
    (∃ offset frame, (v.assign x).1 = .frame offset ∧ own.isSome = true ∧ full.frames = [frame] ∧
        frame.offset? x = some offset) ∨
      ∃ i, (v.assign x).1 = .global i ∧ own.isSome = false ∧ full.globals[i]? = some x := by
  cases h with
  | main globals =>
    right
    rw [assign_main] at hWithin
    cases hWithin with
    | main hPrefix =>
      cases hIndex : globals.idxOf? x with
      | some i =>
        refine ⟨i, by simp [Variables.assign, hIndex], rfl, ?_⟩
        exact getElem?_of_idxOf? (idxOf?_mono ((prefix_enlist _ _ _).trans hPrefix) hIndex)
      | none =>
        have hNew := List.idxOf?_eq_none_iff.mp hIndex
        refine ⟨globals.length, by simp [Variables.assign, hIndex], rfl, ?_⟩
        rw [enlist, if_neg (by simpa using hNew)] at hPrefix
        exact getElem?_of_idxOf? (idxOf?_mono hPrefix (idxOf?_concat hNew))
  | @call own globals params locals h =>
    left
    rw [assign_open] at hWithin
    cases hWithin with
    | @call _ _ _ all hPrefix =>
      cases hOffset : (Frame.mk params locals).offset? x with
      | some offset =>
        refine ⟨offset, _, by simp [Variables.assign, hOffset], rfl, rfl, ?_⟩
        exact Frame.offset?_mono ((prefix_enlist _ _ _).trans hPrefix) hOffset
      | none =>
        obtain ⟨hParams, hLocals⟩ := Frame.offset?_eq_none.mp hOffset
        refine ⟨locals.length, _, by simp [Variables.assign, hOffset], rfl, rfl, ?_⟩
        rw [enlist, if_neg (not_or.mpr ⟨hParams, hLocals⟩)] at hPrefix
        refine Frame.offset?_mono hPrefix ?_
        simp [Frame.offset?, List.idxOf?_eq_none_iff.mpr hParams, idxOf?_concat hLocals]

end Variables

end Vee
