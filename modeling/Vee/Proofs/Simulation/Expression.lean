import Vee.Proofs.Simulation.Represent

/-! # Code of expressions

The code of an expression pushes its value on top of whatever lies there, and evaluation and machine agree on
all variables behind it. A call is followed into the code of the function with one round less. Everything is
proved for one more unit of fuel at a time, on the assumption that it holds with one less.
-/

namespace Vee

set_option autoImplicit false

namespace Eval

theorem stmt_next {ds : List Declaration} {own : Own} {fuel : Nat} {s : Stmt} {store later : Store}
    (h : stmt ds own fuel s store = .ok .next later) : s.isReturn = false := by
  cases s with
  | ret span value =>
    cases fuel with
    | zero => cases h
    | succ fuel =>
      cases value with
      | none => cases h
      | some e =>
        obtain ⟨w, mid, _, h⟩ := Effect.exists_of_bind_ok h
        cases h
  | _ => rfl

/-- Statements that end in a return do not go on behind it. -/
theorem block_next {ds : List Declaration} {own : Own} {fuel : Nat} {body : List Stmt} {store later : Store}
    (h : block ds own fuel body store = .ok .next later) : body.getLast?.any Stmt.isReturn = false := by
  induction body generalizing own fuel store with
  | nil => rfl
  | cons s rest ih =>
    cases fuel with
    | zero => cases h
    | succ fuel =>
      obtain ⟨flow, mid, hFirst, h⟩ := Effect.exists_of_bind_ok h
      cases flow with
      | ret w => cases h
      | next =>
        cases rest with
        | nil => simpa using stmt_next hFirst
        | cons s' rest => simpa using ih h

end Eval

namespace Machine

open Eval (Store Own Flow)

/-- How code that may return to a caller ends: behind itself, or in the caller with a value. -/
def Ends (I : Image) (full : Variables) (caller : Option Caller) (next : Nat) : Flow → Store → Snapshot → Prop
  | .next, store, t => ∃ home : Home, home.caller? = caller ∧ At I full home next [] store t
  | .ret w, store, t => ∃ c, caller = some c ∧ t = c.snapshot w t.globals (Eval.text store.printed) ∧
    MemoryStores I t.globals store.globals

/-! ## Fuel -/

/-- Enough fuel for so many rounds, behind code of some size. -/
def Image.Fuels (I : Image) (rounds fuel size : Nat) : Prop := rounds * sizeOf I.functions.list ≤ fuel - size

section

variable {I : Image} {rounds fuel size smaller : Nat}

theorem sizeOf_list_pos {α : Type} [SizeOf α] (l : List α) : 0 < sizeOf l := by
  cases l with
  | nil => simp
  | cons a rest =>
    rw [List.cons.sizeOf_spec]
    omega

theorem Image.Fuels.zero (h : I.Fuels rounds 0 size) : rounds = 0 := by
  rw [Image.Fuels, Nat.zero_sub, Nat.le_zero, Nat.mul_eq_zero] at h
  have hPos := sizeOf_list_pos I.functions.list
  omega

theorem Image.Fuels.sub (h : I.Fuels rounds (fuel + 1) size) (hLt : smaller < size) :
    I.Fuels rounds fuel smaller := by
  rw [Image.Fuels] at h ⊢
  omega

theorem Image.Fuels.pred (h : I.Fuels rounds (fuel + 1) size) :
    (rounds - 1) * sizeOf I.functions.list + sizeOf I.functions.list ≤ fuel + 1 - size ∨ rounds = 0 := by
  cases rounds with
  | zero => exact .inr rfl
  | succ n =>
    left
    rw [Image.Fuels, Nat.succ_mul] at h
    exact h

theorem Image.Fuels.body {f : Function} (h : I.Fuels rounds (fuel + 1) size) (hPos : 0 < size)
    (hMem : f ∈ I.functions.list) : I.Fuels (rounds - 1) fuel (sizeOf f.body) := by
  have hBody : sizeOf f.body < sizeOf f := by
    cases f
    simp
    omega
  have hList := List.sizeOf_lt_of_mem hMem
  rw [Image.Fuels]
  rcases h.pred with hLe | rfl
  · omega
  · simp

theorem Image.Fuels.again (h : I.Fuels rounds (fuel + 1) size) : I.Fuels (rounds - 1) fuel size := by
  have hWeight := sizeOf_list_pos I.functions.list
  rw [Image.Fuels]
  rcases h.pred with hLe | rfl
  · omega
  · simp

theorem Image.Fuels.exhausted {α : Type} {s : Snapshot} {store : Store} {post : α → Store → Snapshot → Prop}
    (h : I.Fuels rounds 0 size) : Follows I.toSetting rounds s (throw .outOfFuel) store post := by
  obtain rfl := h.zero
  exact .inr ⟨s, .refl s⟩

end

/-! ## Instructions that compute or return -/

namespace At

variable {I : Image} {full : Variables} {home : Home} {pc : Nat} {temps : List Word} {store : Store} {s : Snapshot}

theorem unary {op : UnaryOp} {a : Word} {n : Nat} (h : At I full home pc (temps ++ [a]) store s)
    (hOp : I.program.words[pc]? = some op.opcode.word) :
    Follows I.toSetting n s (Eval.lift (Eval.unary op a)) store
      fun w => At I full home (pc + 1) (temps ++ [w]) := by
  rw [← h.pc] at hOp
  obtain ⟨hValue, hFault⟩ := step_unary hOp h.stack_concat
  refine .lift h.output (fun w hResult => ?_)
    fun fault hResult => ⟨Eval.unary_fault hResult, _, hFault fault hResult, rfl⟩
  refine ⟨_, hValue w hResult, .pure { h with pc := ?_, stack := ?_ }⟩
  · rw [h.pc]
  · rw [List.append_assoc]

theorem stack_two {a b : Word} (h : At I full home pc (temps ++ [a] ++ [b]) store s) :
    s.stack = home.stack ++ temps ++ [a, b] := by
  rw [h.stack]
  simp

theorem binary {op : BinaryOp} {a b : Word} {n : Nat} (h : At I full home pc (temps ++ [a] ++ [b]) store s)
    (hOps : I.program.Holds I.places pc (op.opcodes.map Cell.op)) :
    Follows I.toSetting n s (Eval.lift (Eval.binary op a b)) store
      fun w => At I full home (pc + op.opcodes.length) (temps ++ [w]) := by
  by_cases hNe : op = .ne
  · -- A difference is an equality turned round.
    subst hNe
    simp only [BinaryOp.opcodes, List.map_cons, List.map_nil, Program.holds_op] at hOps
    obtain ⟨hEq, hNot, _⟩ := hOps
    rw [← h.pc] at hEq
    have hFirst := (step_operator (show BinaryOp.eq.opcodes = [.eq] from rfl) hEq h.stack_two).1 _ rfl
    refine .lift h.output (fun w hResult => ⟨_, hFirst, ?_⟩) fun fault hResult => by cases hResult
    obtain rfl : Word.ofBool (a != b) = w := Except.ok.inj hResult
    have hNegate : negate (Word.ofBool (a == b)) = Word.ofBool (a != b) := by
      rw [bne]
      cases a == b <;> rfl
    rw [← h.pc] at hNot
    refine .step (leads_not hNot rfl) h.output (Effect.appends_pure _) (Nat.le_succ n) (.pure ?_)
    refine { h with pc := ?_, stack := ?_ }
    · rw [h.pc]
      rfl
    · change home.stack ++ temps ++ [negate (Word.ofBool (a == b))] = _
      rw [hNegate, List.append_assoc]
  · obtain ⟨o, f, hCode, _, _, _⟩ := perform_operator op hNe
    rw [hCode] at hOps ⊢
    simp only [List.map_cons, List.map_nil, Program.holds_op] at hOps
    obtain ⟨hOp, _⟩ := hOps
    rw [← h.pc] at hOp
    obtain ⟨hValue, hFault⟩ := step_operator hCode hOp h.stack_two
    refine .lift h.output (fun w hResult => ?_)
      fun fault hResult => ⟨Eval.binary_fault hResult, _, hFault fault hResult, rfl⟩
    refine ⟨_, hValue w hResult, .pure { h with pc := ?_, stack := ?_ }⟩
    · rw [h.pc]
      rfl
    · rw [List.append_assoc]

theorem ret {w : Word} {c : Caller} (h : At I full home pc [w] store s)
    (hOp : I.program.words[pc]? = some Opcode.ret.word) (hCaller : home.caller? = some c) :
    Leads I.toSetting step s () (c.snapshot w s.globals (Eval.text store.printed)) := by
  have hEq := h.eq_snapshot
  cases h.runs with
  | main => cases hCaller
  | call hSound hArgs =>
    cases hCaller
    rw [hEq]
    exact leads_ret hOp hSound hArgs

end At

/-! ## What is shown for each fuel -/

/-- The machine follows all evaluation with so much fuel. -/
structure Following (I : Image) (fuel : Nat) : Prop where
  expr : ∀ {rounds : Nat} {own : Own} {v full : Variables} {home : Home} {pc : Nat} {temps : List Word}
    {store : Store} {s : Snapshot} {e : Expr} {code : List Cell}, I.Fuels rounds fuel (sizeOf e) →
    e.HasCode I.functions v code → I.program.Holds I.places pc code →
    pc + code.length < I.program.words.size → Variables.Owned own v → v.Within full →
    At I full home pc temps store s →
    Follows I.toSetting rounds s (Eval.expr I.declarations own fuel e) store
      fun w => At I full home (pc + code.length) (temps ++ [w])
  args : ∀ {rounds : Nat} {own : Own} {v full : Variables} {home : Home} {pc : Nat} {temps : List Word}
    {store : Store} {s : Snapshot} {es : List Expr} {code : List Cell}, I.Fuels rounds fuel (sizeOf es) →
    Expr.ArgsHaveCode I.functions v es code → I.program.Holds I.places pc code →
    pc + code.length < I.program.words.size → Variables.Owned own v → v.Within full →
    At I full home pc temps store s →
    Follows I.toSetting rounds s (Eval.args I.declarations own fuel es) store
      fun ws later t => ws.length = es.length ∧ At I full home (pc + code.length) (temps ++ ws.reverse) later t
  stmt : ∀ {rounds : Nat} {own : Own} {v full : Variables} {home : Home} {pc : Nat} {store : Store} {t : Snapshot}
    {s : Stmt} {code : List Cell}, I.Fuels rounds fuel (sizeOf s) → s.HasCode I.functions v pc code →
    I.program.Holds I.places pc code → (s.isReturn = false → pc + code.length < I.program.words.size) →
    Variables.Owned own v → (v.assignAll s.targets).Within full → At I full home pc [] store t →
    Follows I.toSetting rounds t (Eval.stmt I.declarations own fuel s) store
      (Ends I full home.caller? (pc + code.length))
  loop : ∀ {rounds : Nat} {own inside : Own} {v full : Variables} {home : Home} {pc : Nat} {store : Store}
    {s : Snapshot} {c : Expr} {body step : List Stmt} {code : List Cell},
    I.Fuels rounds fuel (sizeOf c + sizeOf body + sizeOf step) →
    Stmt.LoopHasCode I.functions v pc c body step code → I.program.Holds I.places pc code →
    pc + code.length < I.program.words.size → Variables.Owned own v →
    Variables.Owned inside (v.assignAll (Stmt.blockTargets body)) →
    ((v.assignAll (Stmt.blockTargets body)).assignAll (Stmt.blockTargets step)).Within full →
    At I full home pc [] store s →
    Follows I.toSetting rounds s (Eval.loop I.declarations own inside fuel c body step) store
      (Ends I full home.caller? (pc + code.length))
  block : ∀ {rounds : Nat} {own : Own} {v full : Variables} {home : Home} {pc : Nat} {store : Store} {s : Snapshot}
    {body : List Stmt} {code : List Cell}, I.Fuels rounds fuel (sizeOf body) →
    Stmt.BlockHasCode I.functions v pc body code → I.program.Holds I.places pc code →
    (body.getLast?.any Stmt.isReturn = false → pc + code.length < I.program.words.size) →
    Variables.Owned own v → (v.assignAll (Stmt.blockTargets body)).Within full → At I full home pc [] store s →
    Follows I.toSetting rounds s (Eval.block I.declarations own fuel body) store
      (Ends I full home.caller? (pc + code.length))

/-! ## Calls -/

section

variable {I : Image} {full : Variables} {home : Home} {pc fuel rounds : Nat} {temps : List Word} {store : Store}
  {s : Snapshot}

theorem returnCode_of_next {body : List Stmt} (h : body.getLast?.any Stmt.isReturn = false) :
    Draft.returnCode body = [.op .const, .int (-1), .op .ret] := by
  rw [Draft.returnCode, h]
  rfl

theorem lt_size_of_returnCode {body : List Stmt} (hReturn : I.program.Holds I.places pc (Draft.returnCode body))
    (hLast : body.getLast?.any Stmt.isReturn = false) : pc < I.program.words.size := by
  rw [returnCode_of_next hLast] at hReturn
  have hLe := hReturn.length_le (Nat.zero_lt_succ _)
  rw [List.length_cons] at hLe
  omega

/-- The frame of a call holds the arguments under the names of the parameters. -/
theorem stores_call {f : Function} {values : List Word} (c : Caller) (hLength : f.arity = values.length) :
    (Home.call c values (List.replicate f.localNames.length 0)).Stores
      ⟨I.globals, [⟨f.params, f.localNames⟩]⟩ (f.params.zip values) := by
  intro frame hMem x slot hSlot
  rw [List.mem_singleton] at hMem
  subst hMem
  rw [Frame.offset?] at hSlot
  split at hSlot
  · rename_i i hParam
    obtain rfl : Int.negSucc i = slot := by
      rw [Int.negSucc_eq]
      exact Option.some.inj hSlot
    exact Eval.Bindings.get_zip_of_mem hLength hParam
  · rename_i hParam
    obtain ⟨i, hLocal, rfl⟩ := Option.map_eq_some_iff.mp hSlot
    have hLt := (List.getElem?_eq_some_iff.mp (getElem?_of_idxOf? hLocal)).1
    rw [Eval.Bindings.get_zip_of_not_mem values (List.idxOf?_eq_none_iff.mp hParam)]
    simp only [Home.get?, List.getElem?_replicate]
    rw [if_pos hLt]

theorem At.resume {values : List Word} {w : Word} {later : Store} {t : Snapshot}
    (h : At I full home pc (temps ++ values.reverse) store s)
    (hBack : t = Caller.snapshot ⟨home.stack ++ temps, home.fp, pc + 4, home.activations⟩ w t.globals
      (Eval.text later.printed))
    (hMemory : MemoryStores I t.globals later.globals) :
    At I full home (pc + 4) (temps ++ [w]) { later with own := store.own } t := by
  refine ⟨h.runs, hMemory, h.own, ?_, ?_, ?_, ?_, ?_⟩
  all_goals rw [hBack]
  · rfl
  · rfl
  · exact List.append_assoc ..
  · rfl
  · rfl

/-- The code of a function stands at its place, with its return behind it, and begins inside the program. -/
theorem Image.exists_body {f : Function} {entry : Nat} (hMem : f ∈ I.functions.list)
    (hPlace : I.places[f.symbol]? = some entry) :
    ∃ code, Stmt.BlockHasCode I.functions ⟨I.globals, [⟨f.params, []⟩]⟩ entry f.body code ∧
      I.program.Holds I.places entry code ∧
      I.program.Holds I.places (entry + code.length) (Draft.returnCode f.body) ∧
      entry < I.program.words.size := by
  obtain ⟨a, code, hPlaced, hCode, hHolds⟩ := I.layout.function f hMem
  cases hPlace.symm.trans hPlaced
  rw [Program.holds_append] at hHolds
  obtain ⟨hBody, hReturn⟩ := hHolds
  rw [← I.globals_eq] at hCode
  refine ⟨code, hCode, hBody, hReturn, ?_⟩
  cases hLast : f.body.getLast?.any Stmt.isReturn with
  | false => exact Nat.lt_of_le_of_lt (Nat.le_add_right ..) (lt_size_of_returnCode hReturn hLast)
  | true =>
    have hPos := hCode.length_pos hLast
    have hLe := hBody.length_le hPos
    omega

/-- A call enters the function with the arguments under the names of the parameters, unless the caller's frame
pointer is too large for a word. -/
theorem At.call {f : Function} {values : List Word} {destination nargs nlocals : Word} {entry : Nat}
    (h : At I full home pc (temps ++ values.reverse) store s) (hMem : f ∈ I.functions.list)
    (hLength : f.arity = values.length) (hOp : I.program.words[pc]? = some Opcode.call.word)
    (hEntry : I.program.words[pc + 1]? = some destination) (hArgs : I.program.words[pc + 2]? = some nargs)
    (hLocals : I.program.words[pc + 3]? = some nlocals) (hDestination : Word.ofNat? entry = some destination)
    (hSize : entry < I.program.words.size) (hArity : Word.ofNat? f.arity = some nargs)
    (hNumber : Word.ofNat? f.locals = some nlocals) (hBack : pc + 4 < I.program.words.size) :
    (∃ t, Leads I.toSetting step s () t ∧
      At I ⟨I.globals, [⟨f.params, f.localNames⟩]⟩
        (.call ⟨home.stack ++ temps, home.fp, pc + 4, home.activations⟩ values (List.replicate f.locals 0))
        entry [] { store with own := f.params.zip values } t) ∨
    Exhausted I.toSetting step s := by
  let callee : Home :=
    .call ⟨home.stack ++ temps, home.fp, pc + 4, home.activations⟩ values (List.replicate f.locals 0)
  have hEq := h.eq_snapshot
  have hCount : Word.ofNat? values.length = some nargs := hLength ▸ hArity
  have hStep : if home.fp < 2147483648 then
      Leads I.toSetting step s () (callee.snapshot entry [] s.globals (Eval.text store.printed))
      else Exhausted I.toSetting step s := by
    rw [hEq]
    exact leads_call hOp hEntry hArgs hLocals (Word.toNat?_of_ofNat? hDestination) hSize hCount
      (Word.toNat?_of_ofNat? hNumber) (Nat.lt_trans hBack I.size_lt)
  split at hStep
  · rename_i hFp
    refine .inl ⟨_, hStep, ?_⟩
    exact {
      runs := .call ⟨hBack, Nat.lt_trans hBack I.size_lt, hFp⟩ (Word.lt_of_ofNat? hCount)
      memory := h.memory
      own := by
        rw [I.layout.locals f hMem]
        exact stores_call _ hLength
      pc := rfl
      fp := rfl
      stack := rfl
      activations := rfl
      output := rfl }
  · exact .inr hStep

/-- A function whose body does not return gives -1 to its caller. -/
theorem At.leave {α : Type} {c : Caller} {body : List Stmt} {x : Eval.M α}
    {post : α → Store → Snapshot → Prop} (h : At I full home pc [] store s)
    (hReturn : I.program.Holds I.places pc (Draft.returnCode body))
    (hLast : body.getLast?.any Stmt.isReturn = false) (hCaller : home.caller? = some c) (hGrows : Eval.Grows x)
    (hRest : ∀ globals, MemoryStores I globals store.globals →
      Follows I.toSetting rounds (c.snapshot (-1) globals (Eval.text store.printed)) x store post) :
    Follows I.toSetting rounds s x store post := by
  rw [returnCode_of_next hLast] at hReturn
  simp only [Program.holds_op, Program.holds_int] at hReturn
  obtain ⟨hConst, hMinus, hRet, _⟩ := hReturn
  obtain ⟨t, hPush, hPushed⟩ := h.const hConst hMinus
  refine .step hPush h.output hGrows (Nat.le_succ _) ?_
  exact .step (hPushed.ret hRet hCaller) hPushed.output hGrows (Nat.le_succ _) (hRest _ hPushed.memory)

theorem Following.call (ih : Following I fuel) {f : Function} {values : List Word} {size : Nat}
    {destination nargs nlocals : Word} {entry : Nat} (hFuel : I.Fuels rounds (fuel + 1) size) (hPos : 0 < size)
    (h : At I full home pc (temps ++ values.reverse) store s) (hMem : f ∈ I.functions.list)
    (hLength : f.arity = values.length) (hOp : I.program.words[pc]? = some Opcode.call.word)
    (hEntry : I.program.words[pc + 1]? = some destination) (hArgs : I.program.words[pc + 2]? = some nargs)
    (hLocals : I.program.words[pc + 3]? = some nlocals) (hPlace : I.places[f.symbol]? = some entry)
    (hDestination : Word.ofNat? entry = some destination) (hArity : Word.ofNat? f.arity = some nargs)
    (hNumber : Word.ofNat? f.locals = some nlocals) (hBack : pc + 4 < I.program.words.size) :
    Follows I.toSetting rounds s (do
        let caller := (← get).own
        modify fun s => { s with own := f.params.zip values }
        let flow ← Eval.block I.declarations (some f.params) fuel f.body
        modify fun s => { s with own := caller }
        match flow with
        | .ret w => return w
        | .next => return -1 : Eval.M Word) store
      fun w => At I full home (pc + 4) (temps ++ [w]) := by
  obtain ⟨code, hCode, hBody, hReturn, hSize⟩ := I.exists_body hMem hPlace
  have hGrows := (Eval.growing I.declarations fuel).call f.declaration values
  rcases h.call hMem hLength hOp hEntry hArgs hLocals hDestination hSize hArity hNumber hBack with
    ⟨t, hStep, hEntered⟩ | hStop
  · have hOwned : Variables.Owned (some f.params) ⟨I.globals, [⟨f.params, []⟩]⟩ := .call fun x => by simp
    have hWithin : (Variables.assignAll ⟨I.globals, [⟨f.params, []⟩]⟩ (Stmt.blockTargets f.body)).Within
        ⟨I.globals, [⟨f.params, f.localNames⟩]⟩ := by
      rw [Variables.assignAll_open]
      exact .call List.prefix_rfl
    have hRest : ∀ w, Eval.Grows (do
        modify fun s : Store => { s with own := store.own }
        return w : Eval.M Word) := fun w => (Eval.grows_setOwn _).bind fun _ => Effect.appends_pure w
    refine .step hStep h.output hGrows (Nat.le_add_of_sub_le (Nat.le_refl _)) (.silent rfl (.silent rfl ?_))
    refine (ih.block (hFuel.body hPos hMem) hCode hBody (lt_size_of_returnCode hReturn) hOwned hWithin
      hEntered).bind ?_ ?_
    · intro flow
      cases flow with
      | ret w => exact hRest w
      | next => exact hRest (-1)
    · intro flow later u hResult hEnds
      cases flow with
      | ret w =>
        obtain ⟨c, hCaller, hThere, hMemory⟩ := hEnds
        cases hCaller
        exact .silent rfl (.pure (h.resume hThere hMemory))
      | next =>
        obtain ⟨last, hCaller, hAt⟩ := hEnds
        refine hAt.leave hReturn (Eval.block_next hResult) hCaller (hRest (-1)) fun globals hMemory => ?_
        exact .silent rfl (.pure (h.resume rfl hMemory))
  · exact .stop hStop h.output hGrows

end

/-! ## One more unit of fuel -/

section

variable {I : Image} {fuel rounds : Nat} {own : Own} {v full : Variables} {home : Home} {pc : Nat} {temps : List Word}
  {store : Store} {s : Snapshot}

theorem Following.var_succ {name : String} {span : Span} {code : List Cell}
    (hCode : Expr.HasCode I.functions v (.var span name) code) (hHolds : I.program.Holds I.places pc code)
    (hOwned : Variables.Owned own v) (hWithin : v.Within full) (h : At I full home pc temps store s) :
    Follows I.toSetting rounds s (Eval.read own name) store
      fun w => At I full home (pc + code.length) (temps ++ [w]) := by
  have hGrows := Eval.grows_read own name
  cases hCode with
  | own span hSlot hWord =>
    simp only [Program.holds_op, Program.holds_int] at hHolds
    obtain ⟨hConst, hArg, hLoad, _⟩ := hHolds
    rcases hOwned.resolve hWithin hSlot with ⟨offset, frame, hEq, hOwn, hFrames, hOffset⟩ | ⟨i, hEq, _⟩
    · cases hEq
      obtain ⟨t, hPush, hPushed⟩ := h.const hConst hArg
      obtain ⟨u, hRead, hDone⟩ := hPushed.load hLoad hFrames hOffset hWord
      refine .step hPush h.output hGrows (Nat.le_succ _) (.step hRead hPushed.output hGrows (Nat.le_succ _) ?_)
      refine .of_ok (a := store.own.get name) ?_ hDone
      change EStateM.Result.ok (if Eval.isOwn own name then _ else _) store = _
      rw [if_pos hOwn]
    · cases hEq
  | global span hSlot hWord =>
    simp only [Program.holds_op, Program.holds_int] at hHolds
    obtain ⟨hConst, hArg, hLoad, _⟩ := hHolds
    rcases hOwned.resolve hWithin hSlot with ⟨offset, frame, hEq, _⟩ | ⟨i, hEq, hOwn, hName⟩
    · cases hEq
    · cases hEq
      obtain ⟨t, hPush, hPushed⟩ := h.const hConst hArg
      obtain ⟨u, hRead, hDone⟩ := hPushed.gload hLoad hName hWord
      refine .step hPush h.output hGrows (Nat.le_succ _) (.step hRead hPushed.output hGrows (Nat.le_succ _) ?_)
      refine .of_ok (a := store.globals.get name) ?_ hDone
      change EStateM.Result.ok (if Eval.isOwn own name then _ else _) store = _
      rw [if_neg (by rw [hOwn]; exact Bool.false_ne_true)]

theorem Following.expr_succ (ih : Following I fuel) {e : Expr} {code : List Cell}
    (hFuel : I.Fuels rounds (fuel + 1) (sizeOf e)) (hCode : e.HasCode I.functions v code)
    (hHolds : I.program.Holds I.places pc code) (hEnd : pc + code.length < I.program.words.size)
    (hOwned : Variables.Owned own v) (hWithin : v.Within full) (h : At I full home pc temps store s) :
    Follows I.toSetting rounds s (Eval.expr I.declarations own (fuel + 1) e) store
      fun w => At I full home (pc + code.length) (temps ++ [w]) := by
  have hGrowing := Eval.growing I.declarations fuel
  cases e with
  | int span n =>
    cases hCode
    simp only [Program.holds_op, Program.holds_int] at hHolds
    obtain ⟨t, hPush, hPushed⟩ := h.const hHolds.1 hHolds.2.1
    exact .step hPush h.output (Effect.appends_pure n) (Nat.le_succ _) (.pure hPushed)
  | var span name => exact Following.var_succ hCode hHolds hOwned hWithin h
  | unary op span a =>
    cases hCode with
    | unary span hOperand =>
      rw [Program.holds_append, Program.holds_op] at hHolds
      obtain ⟨hFirst, hOp, _⟩ := hHolds
      rw [List.length_append, List.length_singleton] at hEnd ⊢
      have hSub : I.Fuels rounds fuel (sizeOf a) := hFuel.sub (by rw [Expr.unary.sizeOf_spec]; omega)
      refine (ih.expr hSub hOperand hFirst (by omega) hOwned hWithin h).bind (fun _ => Eval.grows_lift _) ?_
      intro w later t _ hAt
      exact hAt.unary hOp
  | binary op span l r =>
    cases hCode with
    | @binary _ _ _ left right _ hLeft hRight =>
      rw [Program.holds_append, Program.holds_append] at hHolds
      obtain ⟨⟨hFirst, hSecond⟩, hOps⟩ := hHolds
      simp only [List.length_append, List.length_map] at hEnd hOps ⊢
      have hLeftFuel : I.Fuels rounds fuel (sizeOf l) := hFuel.sub (by rw [Expr.binary.sizeOf_spec]; omega)
      have hRightFuel : I.Fuels rounds fuel (sizeOf r) := hFuel.sub (by rw [Expr.binary.sizeOf_spec]; omega)
      refine (ih.expr hLeftFuel hLeft hFirst (by omega) hOwned hWithin h).bind
        (fun _ => (hGrowing.expr own r).bind fun _ => Eval.grows_lift _) ?_
      intro a later t _ hAt
      refine (ih.expr hRightFuel hRight hSecond (by omega) hOwned hWithin hAt).bind
        (fun _ => Eval.grows_lift _) ?_
      intro b later t _ hAt
      rw [← Nat.add_assoc] at hOps
      rw [← Nat.add_assoc, ← Nat.add_assoc]
      exact hAt.binary hOps
  | call span name args =>
    cases hCode with
    | @call _ f _ code arity locals _ hFind hArity hArgs hArityWord hLocals =>
      rw [Program.holds_append] at hHolds
      obtain ⟨hFirst, hCall⟩ := hHolds
      simp only [Program.holds_op, Program.holds_symbol, Program.holds_int] at hCall
      obtain ⟨hOp, ⟨entry, destination, hPlace, hDestination, hEntry⟩, hCount, hNumber, _⟩ := hCall
      simp only [List.length_append, List.length_cons, List.length_nil, Nat.reduceAdd] at hEnd ⊢
      have hSub : I.Fuels rounds fuel (sizeOf args) := hFuel.sub (by rw [Expr.call.sizeOf_spec]; omega)
      have hMem : f ∈ I.functions.list := List.mem_of_find?_eq_some hFind
      refine (ih.args hSub hArgs hFirst (by omega) hOwned hWithin h).bind ?_ ?_
      · intro values
        rw [Image.function?_of_find? hFind]
        exact hGrowing.call f.declaration values
      · intro values later t _ hMid
        obtain ⟨hLength, hAt⟩ := hMid
        simp only [Image.function?_of_find? hFind]
        rw [← Nat.add_assoc]
        exact ih.call hFuel (by rw [Expr.call.sizeOf_spec]; omega) hAt hMem (hArity.trans hLength.symm) hOp hEntry hCount hNumber hPlace
          hDestination hArityWord hLocals (by omega)

theorem Following.args_succ (ih : Following I fuel) {es : List Expr} {code : List Cell}
    (hFuel : I.Fuels rounds (fuel + 1) (sizeOf es)) (hCode : Expr.ArgsHaveCode I.functions v es code)
    (hHolds : I.program.Holds I.places pc code) (hEnd : pc + code.length < I.program.words.size)
    (hOwned : Variables.Owned own v) (hWithin : v.Within full) (h : At I full home pc temps store s) :
    Follows I.toSetting rounds s (Eval.args I.declarations own (fuel + 1) es) store
      fun ws later t =>
        ws.length = es.length ∧ At I full home (pc + code.length) (temps ++ ws.reverse) later t := by
  have hGrowing := Eval.growing I.declarations fuel
  cases hCode with
  | nil => exact .pure ⟨rfl, by simpa using h⟩
  | @cons e rest code later hLater hFirst =>
    rw [Program.holds_append] at hHolds
    rw [List.length_append] at hEnd ⊢
    have hRestFuel : I.Fuels rounds fuel (sizeOf rest) := hFuel.sub (by rw [List.cons.sizeOf_spec]; omega)
    have hHeadFuel : I.Fuels rounds fuel (sizeOf e) := hFuel.sub (by rw [List.cons.sizeOf_spec]; omega)
    refine (ih.args hRestFuel hLater hHolds.1 (by omega) hOwned hWithin h).bind
      (fun _ => (hGrowing.expr own e).bind fun _ => Effect.appends_pure _) ?_
    intro values mid t _ hMid
    obtain ⟨hLength, hAt⟩ := hMid
    refine (ih.expr hHeadFuel hFirst hHolds.2 (by omega) hOwned hWithin hAt).bind
      (fun _ => Effect.appends_pure _) ?_
    intro w last u _ hAt
    refine .pure ⟨by simp [hLength], ?_⟩
    rw [List.reverse_cons, ← List.append_assoc, ← Nat.add_assoc]
    exact hAt

end

end Machine

end Vee
