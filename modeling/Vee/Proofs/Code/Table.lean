import Vee.Proofs.Code.Variables

/-! # Tables of variables in use

Whatever is asked of a table that starts out empty, and in whatever order: names get consecutive slots in the order in
which they come up, a name keeps its slot for as long as its function is open, and a function that has been closed
leaves no trace.
-/

namespace Vee

set_option autoImplicit false

namespace Variables

/-! ## Requests -/

inductive Request where
  | enter
  | leave
  | param (name : String)
  | assign (name : String)
  | resolve (name : String)

inductive Answer where
  | done
  | count (locals : Nat)
  | offset (offset : Option Int)
  | slot (slot : Slot)
  | found (slot : Option Slot)

/-- The answer to a request and the table behind it. -/
def Request.answer (v : Variables) : Request → Answer × Variables
  | enter => (.done, v.enter)
  | leave => (.count v.leave.1, v.leave.2)
  | param x => (.offset (v.param x).1, (v.param x).2)
  | assign x => (.slot (v.assign x).1, (v.assign x).2)
  | resolve x => (.found (v.resolve x), v)

abbrev Entry := Request × Answer

/-- What was asked and answered: outside all functions that are open, and in each of them, the innermost first. -/
structure Log where
  outside : List Entry := []
  inside : List (List Entry) := []

def Log.add (log : Log) (entry : Entry) : Log :=
  match log.inside with
  | [] => { log with outside := log.outside ++ [entry] }
  | own :: rest => { log with inside := (own ++ [entry]) :: rest }

def Log.record (log : Log) (a : Answer) : Request → Log
  | .enter => { log with inside := [] :: log.inside }
  | .leave => { log with inside := log.inside.tail }
  | r => log.add (r, a)

/-- The answers to requests, one after the other. -/
def answers (v : Variables) : List Request → List Answer
  | [] => []
  | r :: rest => (r.answer v).1 :: answers (r.answer v).2 rest

/-- The table behind requests. -/
def after (v : Variables) : List Request → Variables
  | [] => v
  | r :: rest => after (r.answer v).2 rest

def logged (v : Variables) (log : Log) : List Request → Log
  | [] => log
  | r :: rest => logged (r.answer v).2 (log.record (r.answer v).1 r) rest

def Entry.accepted? : Entry → Option String
  | (.param x, .offset (some _)) => some x
  | _ => none

def Entry.assigned? : Entry → Option String
  | (.assign x, _) => some x
  | _ => none

/-- The names that were accepted as parameters. -/
def accepted (entries : List Entry) : List String := entries.filterMap Entry.accepted?

/-- The names that were assigned, each time that they were. -/
def assigned (entries : List Entry) : List String := entries.filterMap Entry.assigned?

/-- Slots number the distinct names of a list from 0 on, in the order of their first places. -/
def Numbers (slot : String → Nat → Prop) (asked : List String) : Prop :=
  ∃ names : List String, names.Nodup ∧ (∀ x, x ∈ names ↔ x ∈ asked) ∧
    names.Pairwise (fun x y => asked.idxOf x < asked.idxOf y) ∧ ∀ x i, slot x i ↔ names[i]? = some x

/-- Parameters count down from -1 in the order in which they were accepted, and all other names that were assigned
count up from 0. -/
structure Follows (f : Frame) (entries : List Entry) : Prop where
  params : Numbers (fun x i => f.offset? x = some (.negSucc i)) (accepted entries)
  locals : Numbers (fun x i => f.offset? x = some (.ofNat i))
    ((assigned entries).filter fun x => x ∉ accepted entries)

/-- How many functions are open within one that is still open behind a request. -/
def Request.depth? : Nat → Request → Option Nat
  | k, enter => some (k + 1)
  | 0, leave => none
  | k + 1, leave => some k
  | k, _ => some k

def depth? (k : Nat) : List Request → Option Nat
  | [] => some k
  | r :: rest => (r.depth? k).bind fun k => depth? k rest

/-! ## What a table holds -/

/-- The names of a frame, as they were asked for. -/
structure Holds (f : Frame) (entries : List Entry) : Prop where
  params : f.params = accepted entries
  nodup : f.params.Nodup
  locals : f.locals = (assigned entries).foldl (enlist f.params) []

structure Describes (v : Variables) (log : Log) : Prop where
  globals : v.globals = (assigned log.outside).foldl (enlist []) []
  frames : List.Forall₂ Holds v.frames log.inside

theorem accepted_append (first second : List Entry) : accepted (first ++ second) = accepted first ++ accepted second :=
  List.filterMap_append

theorem assigned_append (first second : List Entry) : assigned (first ++ second) = assigned first ++ assigned second :=
  List.filterMap_append

theorem accepted_pass {entry : Entry} (h : accepted [entry] = []) (entries : List Entry) :
    accepted (entries ++ [entry]) = accepted entries := by
  rw [accepted_append, h, List.append_nil]

theorem assigned_pass {entry : Entry} (h : assigned [entry] = []) (entries : List Entry) :
    assigned (entries ++ [entry]) = assigned entries := by
  rw [assigned_append, h, List.append_nil]

theorem enlistAll_congr {known others names seen : List String} (h : ∀ x ∈ names, x ∈ known ↔ x ∈ others) :
    names.foldl (enlist known) seen = names.foldl (enlist others) seen := by
  induction names generalizing seen with
  | nil => rfl
  | cons x names ih =>
    obtain ⟨hFirst, hRest⟩ := List.forall_mem_cons.mp h
    rw [List.foldl_cons, List.foldl_cons, ih hRest]
    simp only [enlist, hFirst]

variable {f : Frame} {entries : List Entry} {v : Variables} {log : Log} {x : String}

theorem Holds.mem_locals (h : Holds f entries) : x ∈ f.locals ↔ x ∈ assigned entries ∧ x ∉ f.params := by
  rw [h.locals, mem_enlistAll]
  simp

/-- A request that changes nothing in a frame. -/
theorem Holds.pass (h : Holds f entries) {entry : Entry} (hAccepted : accepted [entry] = [])
    (hAssigned : assigned [entry] = []) : Holds f (entries ++ [entry]) := by
  refine ⟨?_, h.nodup, ?_⟩
  · rw [accepted_pass hAccepted]
    exact h.params
  · rw [assigned_pass hAssigned]
    exact h.locals

theorem Holds.param (h : Holds f entries) (hNew : f.offset? x = none) (o : Int) :
    Holds { f with params := f.params ++ [x] } (entries ++ [(.param x, .offset (some o))]) := by
  obtain ⟨hParam, hLocal⟩ := Frame.offset?_eq_none.mp hNew
  refine ⟨?_, ?_, ?_⟩
  · rw [accepted_append, ← h.params]
    rfl
  · rw [← List.concat_eq_append]
    exact h.nodup.concat hParam
  · -- The name was not assigned before, so that it makes no difference for the names that were.
    have hOther : x ∉ assigned entries := fun hMem => hLocal (h.mem_locals.mpr ⟨hMem, hParam⟩)
    rw [assigned_pass rfl]
    change f.locals = (assigned entries).foldl _ []
    rw [h.locals]
    apply enlistAll_congr
    intro y hMem
    have hNe : y ≠ x := fun hEq => hOther (hEq ▸ hMem)
    simp [hNe]

theorem Holds.assign (h : Holds f entries) (a : Answer) :
    Holds { f with locals := enlist f.params f.locals x } (entries ++ [(.assign x, a)]) := by
  refine ⟨?_, h.nodup, ?_⟩
  · rw [accepted_pass rfl]
    exact h.params
  · rw [assigned_append, List.foldl_append, ← h.locals]
    rfl

theorem param_of_known {globals : List String} {rest : List Frame} {o : Int} (h : f.offset? x = some o) :
    (Variables.mk globals (f :: rest)).param x = (none, ⟨globals, f :: rest⟩) := by
  simp only [param, h]

theorem param_of_new {globals : List String} {rest : List Frame} (h : f.offset? x = none) :
    (Variables.mk globals (f :: rest)).param x =
      (some (-((f.params.length : Int) + 1)), ⟨globals, { f with params := f.params ++ [x] } :: rest⟩) := by
  simp only [param, h]

theorem Describes.step (h : Describes v log) (r : Request) :
    Describes (r.answer v).2 (log.record (r.answer v).1 r) := by
  obtain ⟨globals, frames⟩ := v
  obtain ⟨outside, inside⟩ := log
  obtain ⟨hGlobals, hFrames⟩ := h
  cases r with
  | enter => exact ⟨hGlobals, .cons ⟨rfl, List.nodup_nil, rfl⟩ hFrames⟩
  | leave =>
    cases hFrames with
    | nil => exact ⟨hGlobals, .nil⟩
    | cons _ hRest => exact ⟨hGlobals, hRest⟩
  | param x =>
    cases hFrames with
    | nil =>
      refine ⟨?_, .nil⟩
      change globals = (assigned (outside ++ [_])).foldl _ []
      rw [assigned_pass rfl]
      exact hGlobals
    | @cons f own rest others hOwn hRest =>
      cases hOffset : f.offset? x with
      | some o =>
        simp only [Request.answer, param_of_known hOffset]
        exact ⟨hGlobals, .cons (hOwn.pass rfl rfl) hRest⟩
      | none =>
        simp only [Request.answer, param_of_new hOffset]
        exact ⟨hGlobals, .cons (hOwn.param hOffset _) hRest⟩
  | assign x =>
    cases hFrames with
    | nil =>
      simp only [Request.answer, assign_main]
      refine ⟨?_, .nil⟩
      change enlist [] globals x = (assigned (outside ++ [_])).foldl _ []
      rw [assigned_append, List.foldl_append]
      change globals = (assigned outside).foldl _ [] at hGlobals
      rw [← hGlobals]
      rfl
    | @cons f own rest others hOwn hRest =>
      simp only [Request.answer, assign_open]
      exact ⟨hGlobals, .cons (hOwn.assign _) hRest⟩
  | resolve x =>
    cases hFrames with
    | nil =>
      refine ⟨?_, .nil⟩
      change globals = (assigned (outside ++ [_])).foldl _ []
      rw [assigned_pass rfl]
      exact hGlobals
    | cons hOwn hRest => exact ⟨hGlobals, .cons (hOwn.pass rfl rfl) hRest⟩

theorem Describes.run (h : Describes v log) (rs : List Request) : Describes (v.after rs) (logged v log rs) := by
  induction rs generalizing v log with
  | nil => exact h
  | cons r rs ih => exact ih (h.step r)

/-! ## Numbering -/

theorem idxOf?_iff_getElem? {names : List String} {i : Nat} (h : names.Nodup) :
    names.idxOf? x = some i ↔ names[i]? = some x := by
  refine ⟨getElem?_of_idxOf?, fun hGet => ?_⟩
  obtain ⟨hLt, rfl⟩ := List.getElem?_eq_some_iff.mp hGet
  refine List.idxOf?_eq_some_iff.mpr ⟨hLt, rfl, ?_⟩
  intro j hj hEq
  have hSame := (List.Nodup.getElem_inj_iff h).mp hEq
  omega

theorem enlistAll_filter (known names seen : List String) :
    names.foldl (enlist known) seen = (names.filter (· ∉ known)).foldl (enlist []) seen := by
  induction names generalizing seen with
  | nil => rfl
  | cons x names ih =>
    rw [List.foldl_cons, ih]
    by_cases hKnown : x ∈ known <;> simp [enlist, hKnown]

theorem idxOf_lt_of_enlistAll (names : List String) :
    (names.foldl (enlist []) []).Pairwise fun x y => names.idxOf x < names.idxOf y := by
  -- On the last name: those before it keep their first places, and it comes behind them if it is new.
  induction names using List.reverseRecOn with
  | nil => exact .nil
  | append_singleton names x ih =>
    have hMem : ∀ y, y ∈ names.foldl (enlist []) [] → y ∈ names := by
      intro y hSeen
      simpa using mem_enlistAll.mp hSeen
    have hKept : (names.foldl (enlist []) []).Pairwise
        fun y z => (names ++ [x]).idxOf y < (names ++ [x]).idxOf z := by
      refine ih.imp_of_mem fun hy hz hLt => ?_
      rwa [List.idxOf_append_of_mem (hMem _ hy), List.idxOf_append_of_mem (hMem _ hz)]
    rw [List.foldl_append, List.foldl_cons, List.foldl_nil, enlist]
    split
    · exact hKept
    · rename_i hNew
      have hOther : x ∉ names := fun h => hNew (.inr (mem_enlistAll.mpr (.inr ⟨h, List.not_mem_nil⟩)))
      refine List.pairwise_append.mpr ⟨hKept, List.pairwise_singleton _ _, ?_⟩
      intro y hy z hz
      rw [List.mem_singleton.mp hz, List.idxOf_append_of_mem (hMem y hy), List.idxOf_append_of_notMem hOther]
      have hLt := List.idxOf_lt_length_of_mem (hMem y hy)
      omega

theorem numbers_enlistAll {asked : List String} {slot : String → Nat → Prop}
    (h : ∀ x i, slot x i ↔ (asked.foldl (enlist []) [])[i]? = some x) : Numbers slot asked := by
  refine ⟨_, nodup_enlistAll List.nodup_nil, fun x => ?_, idxOf_lt_of_enlistAll asked, h⟩
  rw [mem_enlistAll]
  simp

theorem enlistAll_of_nodup {names : List String} (h : names.Nodup) : names.foldl (enlist []) [] = names := by
  induction names using List.reverseRecOn with
  | nil => rfl
  | append_singleton names x ih =>
    obtain ⟨hNodup, _, hOther⟩ := List.nodup_append.mp h
    have hNew : x ∉ names := fun hMem => hOther x hMem x (List.mem_singleton.mpr rfl) rfl
    rw [List.foldl_append, ih hNodup]
    simp [enlist, hNew]

theorem Holds.follows (h : Holds f entries) : Follows f entries := by
  have hLocals : f.locals.Nodup := by
    rw [h.locals]
    exact nodup_enlistAll List.nodup_nil
  constructor
  · apply numbers_enlistAll
    intro x i
    rw [← h.params, enlistAll_of_nodup h.nodup, ← idxOf?_iff_getElem? h.nodup]
    constructor
    · intro hOffset
      rcases Frame.name_of_offset? hOffset with ⟨j, hSlot, hName⟩ | ⟨j, hSlot, _⟩
      · cases hSlot
        exact (idxOf?_iff_getElem? h.nodup).mpr hName
      · cases hSlot
    · intro hIndex
      simp only [Frame.offset?, hIndex, Int.negSucc_eq]
  · apply numbers_enlistAll
    intro x i
    rw [← h.params, ← enlistAll_filter, ← h.locals]
    constructor
    · intro hOffset
      rcases Frame.name_of_offset? hOffset with ⟨j, hSlot, _⟩ | ⟨j, hSlot, hName⟩
      · cases hSlot
      · cases hSlot
        exact hName
    · intro hName
      have hOther := (h.mem_locals.mp (List.mem_of_getElem? hName)).2
      simp [Frame.offset?, List.idxOf?_eq_none_iff.mpr hOther, (idxOf?_iff_getElem? hLocals).mpr hName]

theorem Describes.numbers_globals (h : Describes v log) :
    Numbers (fun x i => v.globals.idxOf? x = some i) (assigned log.outside) := by
  apply numbers_enlistAll
  intro x i
  rw [← h.globals, idxOf?_iff_getElem?]
  rw [h.globals]
  exact nodup_enlistAll List.nodup_nil

/-! ## Slots are kept -/

/-- The names of a frame have the same slots in another. -/
def Keeps (f g : Frame) : Prop := ∀ x o, f.offset? x = some o → g.offset? x = some o

theorem Keeps.refl (f : Frame) : Keeps f f := fun _ _ h => h

theorem Keeps.trans {g h : Frame} (hFirst : Keeps f g) (hSecond : Keeps g h) : Keeps f h :=
  fun x o hOffset => hSecond x o (hFirst x o hOffset)

theorem keeps_param (h : f.offset? x = none) : Keeps f { f with params := f.params ++ [x] } := by
  intro y o hOffset
  rw [Frame.offset?] at hOffset
  split at hOffset
  · rename_i i hParam
    simp only [Frame.offset?, idxOf?_mono (List.prefix_append _ _) hParam]
    exact hOffset
  · rename_i hParam
    -- A name that has a slot is not the one that is new.
    have hNe : y ≠ x := by
      rintro rfl
      rw [List.idxOf?_eq_none_iff.mpr (Frame.offset?_eq_none.mp h).2] at hOffset
      cases hOffset
    have hOther : y ∉ f.params ++ [x] := by
      simpa [hNe] using List.idxOf?_eq_none_iff.mp hParam
    simp only [Frame.offset?, List.idxOf?_eq_none_iff.mpr hOther]
    exact hOffset

/-- Requests for a name change the innermost frame only, and there nothing that it has. -/
theorem answer_innermost (r : Request) (globals : List String) (f : Frame) (rest : List Frame)
    (h : r.depth? 0 = some 0) : ∃ g, (r.answer ⟨globals, f :: rest⟩).2 = ⟨globals, g :: rest⟩ ∧ Keeps f g := by
  cases r with
  | enter => cases h
  | leave => cases h
  | param x =>
    cases hOffset : f.offset? x with
    | some o => exact ⟨f, by rw [Request.answer, param_of_known hOffset], .refl f⟩
    | none => exact ⟨_, by rw [Request.answer, param_of_new hOffset], keeps_param hOffset⟩
  | assign x =>
    refine ⟨_, by rw [Request.answer, assign_open], ?_⟩
    exact fun y o hOffset => Frame.offset?_mono (prefix_enlist _ _ _) hOffset
  | resolve x => exact ⟨f, rfl, .refl f⟩

/-- While a function is open, the frames around it and the global names stay as they are. -/
theorem answer_of_open {r : Request} {k k' : Nat} (h : r.depth? k = some k') (globals : List String)
    {inner : List Frame} (hLength : inner.length = k) (f : Frame) (outer : List Frame) :
    ∃ inner' g, (r.answer ⟨globals, inner ++ f :: outer⟩).2 = ⟨globals, inner' ++ g :: outer⟩ ∧
      inner'.length = k' ∧ Keeps f g := by
  subst hLength
  cases inner with
  | nil =>
    have hTop := answer_innermost r globals f outer
    cases r with
    | enter =>
      cases h
      exact ⟨[{}], f, rfl, rfl, .refl f⟩
    | leave => cases h
    | param x | assign x | resolve x =>
      cases h
      obtain ⟨g, hAnswer, hKeeps⟩ := hTop rfl
      exact ⟨[], g, hAnswer, rfl, hKeeps⟩
  | cons top inner =>
    have hTop := answer_innermost r globals top (inner ++ f :: outer)
    cases r with
    | enter =>
      cases h
      exact ⟨{} :: top :: inner, f, rfl, rfl, .refl f⟩
    | leave =>
      cases h
      exact ⟨inner, f, rfl, rfl, .refl f⟩
    | param x | assign x | resolve x =>
      cases h
      obtain ⟨top', hAnswer, _⟩ := hTop rfl
      exact ⟨top' :: inner, f, hAnswer, rfl, .refl f⟩

theorem after_of_open {k k' : Nat} {rs : List Request} (h : depth? k rs = some k') (globals : List String)
    {inner : List Frame} (hLength : inner.length = k) (f : Frame) (outer : List Frame) :
    ∃ inner' g, after ⟨globals, inner ++ f :: outer⟩ rs = ⟨globals, inner' ++ g :: outer⟩ ∧
      inner'.length = k' ∧ Keeps f g := by
  induction rs generalizing k inner f with
  | nil =>
    cases h
    exact ⟨inner, f, rfl, hLength, .refl f⟩
  | cons r rs ih =>
    obtain ⟨m, hStep, hRest⟩ := Option.bind_eq_some_iff.mp h
    obtain ⟨mid, g, hAnswer, hMid, hFirst⟩ := answer_of_open hStep globals hLength f outer
    obtain ⟨inner', g', hAfter, hLast, hSecond⟩ := ih hRest hMid g
    refine ⟨inner', g', ?_, hLast, hFirst.trans hSecond⟩
    rw [after, hAnswer, hAfter]

theorem exists_frame_after {k k' : Nat} {rs : List Request} (hFrame : v.frames[k]? = some f)
    (h : depth? k rs = some k') : ∃ g, (v.after rs).frames[k']? = some g ∧ Keeps f g := by
  obtain ⟨globals, frames⟩ := v
  obtain ⟨hLt, hGet⟩ := List.getElem?_eq_some_iff.mp hFrame
  have hSplit : frames = frames.take k ++ f :: frames.drop (k + 1) := by
    rw [← hGet, List.cons_getElem_drop_succ, List.take_append_drop]
  have hLength : (frames.take k).length = k := List.length_take_of_le (Nat.le_of_lt hLt)
  obtain ⟨inner', g, hAfter, rfl, hKeeps⟩ := after_of_open h globals hLength f (frames.drop (k + 1))
  rw [← hSplit] at hAfter
  exact ⟨g, by simp [hAfter], hKeeps⟩

theorem prefix_globals_answer (v : Variables) (r : Request) : v.globals <+: (r.answer v).2.globals := by
  obtain ⟨globals, frames⟩ := v
  cases frames with
  | nil =>
    cases r with
    | assign x =>
      rw [Request.answer, assign_main]
      exact prefix_enlist _ _ _
    | enter | leave | param x | resolve x => exact List.prefix_rfl
  | cons f rest =>
    have hTop := answer_innermost r globals f rest
    cases r with
    | enter | leave => exact List.prefix_rfl
    | param x | assign x | resolve x =>
      obtain ⟨g, hAnswer, _⟩ := hTop rfl
      rw [hAnswer]

theorem prefix_globals_after (v : Variables) (rs : List Request) : v.globals <+: (v.after rs).globals := by
  induction rs generalizing v with
  | nil => exact List.prefix_rfl
  | cons r rs ih => exact (prefix_globals_answer v r).trans (ih _)

theorem after_append (v : Variables) (first second : List Request) :
    v.after (first ++ second) = (v.after first).after second := by
  induction first generalizing v with
  | nil => rfl
  | cons r first ih => exact ih _

/-- A function that was opened and closed leaves no trace. -/
theorem after_closed {inner : List Request} (h : depth? 0 inner = some 0) (v : Variables) :
    v.after (.enter :: (inner ++ [.leave])) = v := by
  obtain ⟨globals, frames⟩ := v
  rw [after, after_append]
  obtain ⟨inner', g, hAfter, hLength, _⟩ := after_of_open h globals List.length_nil {} frames
  change after (after ⟨globals, [] ++ {} :: frames⟩ inner) [.leave] = _
  rw [hAfter, List.length_eq_zero_iff.mp hLength]
  rfl

theorem resolve_assign (v : Variables) (x : String) : (v.assign x).2.resolve x = some (v.assign x).1 := by
  obtain ⟨globals, frames⟩ := v
  cases frames with
  | nil =>
    cases hIndex : globals.idxOf? x with
    | some i => simp [assign, resolve, hIndex]
    | none => simp [assign, resolve, hIndex, idxOf?_concat (List.idxOf?_eq_none_iff.mp hIndex)]
  | cons f rest =>
    cases hOffset : f.offset? x with
    | some o => simp [assign, resolve, hOffset]
    | none =>
      obtain ⟨hParams, hLocals⟩ := Frame.offset?_eq_none.mp hOffset
      have hSlot : Frame.offset? { f with locals := f.locals ++ [x] } x = some f.locals.length := by
        simp [Frame.offset?, List.idxOf?_eq_none_iff.mpr hParams, idxOf?_concat hLocals]
      simp [assign, resolve, hOffset, hSlot]

theorem resolve_param {o : Int} (h : (v.param x).1 = some o) : (v.param x).2.resolve x = some (.frame o) := by
  obtain ⟨globals, frames⟩ := v
  cases frames with
  | nil => cases h
  | cons f rest =>
    cases hOffset : f.offset? x with
    | some _ =>
      rw [param_of_known hOffset] at h
      cases h
    | none =>
      rw [param_of_new hOffset] at h ⊢
      cases h
      have hIndex := idxOf?_concat (Frame.offset?_eq_none.mp hOffset).1
      simp [resolve, Frame.offset?, hIndex]

/-- After any requests: the global names that were assigned have consecutive slots in the order of their first
assignment, and so have the parameters and the other names of each open function. Slots stay while the function is
open, an assignment or a parameter gives the slot that a reference then finds, and a function that was opened and
closed changes no later answer. -/
theorem slots_after_requests (rs : List Request) :
    Numbers (fun x i => (after {} rs).globals.idxOf? x = some i) (assigned (logged {} {} rs).outside) ∧
    List.Forall₂ Follows (after {} rs).frames (logged {} {} rs).inside ∧
    (∀ more x i, (after {} rs).globals.idxOf? x = some i →
      ((after {} rs).after more).globals.idxOf? x = some i) ∧
    (∀ more k k' f, (after {} rs).frames[k]? = some f → depth? k more = some k' →
      ∃ g, ((after {} rs).after more).frames[k']? = some g ∧
        ∀ x o, f.offset? x = some o → g.offset? x = some o) ∧
    (∀ x, ((after {} rs).assign x).2.resolve x = some ((after {} rs).assign x).1) ∧
    (∀ x o, ((after {} rs).param x).1 = some o → ((after {} rs).param x).2.resolve x = some (.frame o)) ∧
    ∀ inner later, depth? 0 inner = some 0 →
      answers ((after {} rs).after (.enter :: (inner ++ [.leave]))) later = answers (after {} rs) later := by
  have hDescribes : Describes (after {} rs) (logged {} {} rs) := Describes.run ⟨rfl, .nil⟩ rs
  refine ⟨hDescribes.numbers_globals, hDescribes.frames.imp fun _ _ h => h.follows, ?_, ?_, resolve_assign _, ?_, ?_⟩
  · exact fun more x i hIndex => idxOf?_mono (prefix_globals_after _ more) hIndex
  · exact fun more k k' f hFrame hDepth => exists_frame_after hFrame hDepth
  · exact fun x o hParam => resolve_param hParam
  · intro inner later hDepth
    rw [after_closed hDepth]

-- The second `a` is no new parameter, and `x` is a local variable for as long as the function is open.
example :
    answers {} [.assign "x", .assign "y", .enter, .param "a", .param "b", .param "a", .resolve "y", .assign "x",
      .assign "b", .resolve "x", .leave, .resolve "x", .resolve "a"] =
    [.slot (.global 0), .slot (.global 1), .done, .offset (some (-1)), .offset (some (-2)), .offset none,
      .found (some (.global 1)), .slot (.frame 0), .slot (.frame (-2)), .found (some (.frame 0)), .count 1,
      .found (some (.global 0)), .found none] := rfl

end Variables

end Vee
