import Vee.Proofs.Simulation.Expression

/-! # Code of statements

The code of a statement starts and ends without temporaries. Conditions and the jumps around them are followed once
for branches and loops alike; a loop that goes round again has used up a round. Main statement: a machine follows
all evaluation, with as many rounds as the fuel is good for.
-/

namespace Vee.Machine

set_option autoImplicit false

open Eval (Store Own Flow)

section

variable {I : Image} {fuel rounds : Nat} {own inside : Own} {v full : Variables} {home : Home} {pc : Nat}
  {store : Store} {s : Snapshot}

theorem exists_caller (hOpen : v.inFunction = true) (hWithin : v.Within full) (hRuns : Runs I full home) :
    ∃ c, home.caller? = some c := by
  cases hWithin with
  | main _ => cases hOpen
  | call _ =>
    cases hRuns with
    | call _ _ => exact ⟨_, rfl⟩

theorem sizeOf_span_pos (span : Span) : 0 < sizeOf span := by
  cases span
  rw [Span.mk.sizeOf_spec]
  omega

theorem sizeOf_stmt_pos (st : Stmt) : 0 < sizeOf st := by
  cases st <;> grind

/-! ## Simple statements -/

theorem Following.assign_succ (ih : Following I fuel) {span : Span} {name : String} {e : Expr} {code : List Cell}
    (hFuel : I.Fuels rounds (fuel + 1) (sizeOf (Stmt.assign span name e)))
    (hCode : Stmt.HasCode I.functions v pc (.assign span name e) code) (hHolds : I.program.Holds I.places pc code)
    (hOwned : Variables.Owned own v) (hWithin : (v.assignAll [name]).Within full)
    (h : At I full home pc [] store s) :
    Follows I.toSetting rounds s (Eval.stmt I.declarations own (fuel + 1) (.assign span name e)) store
      (Ends I full home.caller? (pc + code.length)) := by
  have hSub : I.Fuels rounds fuel (sizeOf e) := hFuel.sub (by rw [Stmt.assign.sizeOf_spec]; omega)
  have hBefore := (hOwned.within_assignAll [name]).trans hWithin
  have hGrows (w : Word) : Eval.Grows (do Eval.write own name w; return Flow.next : Eval.M Flow) :=
    (Eval.grows_write own name w).bind fun _ => Effect.appends_pure _
  cases hCode with
  | @own _ _ _ _ value offset w _ hValue hSlot hWord =>
    rw [Program.holds_append] at hHolds
    simp only [Program.holds_op, Program.holds_int] at hHolds
    obtain ⟨hFirst, hOp, hArg, _⟩ := hHolds
    have hEnd := (Array.getElem?_eq_some_iff.mp hOp).1
    refine (ih.expr hSub hValue hFirst hEnd hOwned hBefore h).bind hGrows ?_
    intro value later t _ hAt
    rcases hOwned.assign hWithin with ⟨slot, frame, hEq, hSome, hFrames, hOffset⟩ | ⟨i, hEq, _⟩
    · cases hSlot.symm.trans hEq
      obtain ⟨u, hStep, hDone⟩ := hAt.store_own hOp hArg hFrames hOffset hWord
      have hWrite : Eval.write own name value later =
          .ok () { later with own := later.own.set name value } := by
        rw [Eval.write, if_pos hSome]
        rfl
      refine .step hStep hAt.output (hGrows value) (Nat.le_succ _) (.silent hWrite (.pure ?_))
      rw [List.length_append, ← Nat.add_assoc]
      exact ⟨_, Home.caller?_set .., hDone⟩
    · cases hSlot.symm.trans hEq
  | @global _ _ _ _ value i w _ hValue hSlot hWord =>
    rw [Program.holds_append] at hHolds
    simp only [Program.holds_op, Program.holds_int] at hHolds
    obtain ⟨hFirst, hOp, hArg, _⟩ := hHolds
    have hEnd := (Array.getElem?_eq_some_iff.mp hOp).1
    refine (ih.expr hSub hValue hFirst hEnd hOwned hBefore h).bind hGrows ?_
    intro value later t _ hAt
    rcases hOwned.assign hWithin with ⟨slot, frame, hEq, _⟩ | ⟨j, hEq, hNone, hName⟩
    · cases hSlot.symm.trans hEq
    · cases hSlot.symm.trans hEq
      obtain ⟨u, hStep, hDone⟩ := hAt.gstore hOp hArg hName hWord
      have hWrite : Eval.write own name value later =
          .ok () { later with globals := later.globals.set name value } := by
        rw [Eval.write, if_neg (by rw [hNone]; exact Bool.false_ne_true)]
        rfl
      refine .step hStep hAt.output (hGrows value) (Nat.le_succ _) (.silent hWrite (.pure ?_))
      rw [List.length_append, ← Nat.add_assoc]
      exact ⟨_, rfl, hDone⟩

theorem Following.ret_succ (ih : Following I fuel) {span : Span} {value : Option Expr} {code : List Cell}
    (hFuel : I.Fuels rounds (fuel + 1) (sizeOf (Stmt.ret span value)))
    (hCode : Stmt.HasCode I.functions v pc (.ret span value) code) (hHolds : I.program.Holds I.places pc code)
    (hOwned : Variables.Owned own v) (hWithin : v.Within full) (h : At I full home pc [] store s) :
    Follows I.toSetting rounds s (Eval.stmt I.declarations own (fuel + 1) (.ret span value)) store
      (Ends I full home.caller? (pc + code.length)) := by
  cases hCode with
  | ret span hOpen =>
    simp only [Program.holds_op, Program.holds_int] at hHolds
    obtain ⟨hConst, hMinus, hRet, _⟩ := hHolds
    obtain ⟨c, hCaller⟩ := exists_caller hOpen hWithin h.runs
    have hGrows : Eval.Grows (Pure.pure (Flow.ret (-1)) : Eval.M Flow) := Effect.appends_pure _
    obtain ⟨t, hPush, hPushed⟩ := h.const hConst hMinus
    refine .step hPush h.output hGrows (Nat.le_succ _) ?_
    refine .step (hPushed.ret hRet hCaller) hPushed.output hGrows (Nat.le_succ _) (.pure ?_)
    exact ⟨c, hCaller, rfl, hPushed.memory⟩
  | @retValue _ _ e value _ hOpen hValue =>
    rw [Program.holds_append, Program.holds_op] at hHolds
    obtain ⟨hFirst, hRet, _⟩ := hHolds
    have hEnd := (Array.getElem?_eq_some_iff.mp hRet).1
    have hSub : I.Fuels rounds fuel (sizeOf e) := hFuel.sub (by rw [Stmt.ret.sizeOf_spec, Option.some.sizeOf_spec]; omega)
    obtain ⟨c, hCaller⟩ := exists_caller hOpen hWithin h.runs
    refine (ih.expr hSub hValue hFirst hEnd hOwned hWithin h).bind (fun _ => Effect.appends_pure _) ?_
    intro w later t _ hAt
    refine .step (hAt.ret hRet hCaller) hAt.output (Effect.appends_pure _) (Nat.le_succ _) (.pure ?_)
    exact ⟨c, hCaller, rfl, hAt.memory⟩

/-! ## Conditions -/

/-- A condition, a jump if it is zero, and what follows in either case. -/
theorem Following.test (ih : Following I fuel) {α : Type} {post : α → Store → Snapshot → Prop} {c : Expr}
    {test : List Cell} {target : Nat} {skip : Word} {yes no : Eval.M α} (hFuel : I.Fuels rounds fuel (sizeOf c))
    (hCode : c.HasCode I.functions v test) (hHolds : I.program.Holds I.places pc (test ++ jumpCode skip .jmpf))
    (hSkip : Word.ofNat? target = some skip) (hTarget : target < I.program.words.size)
    (hOwned : Variables.Owned own v) (hWithin : v.Within full) (h : At I full home pc [] store s)
    (hYesGrows : Eval.Grows yes) (hNoGrows : Eval.Grows no)
    (hYes : ∀ later t, At I full home (pc + test.length + 3) [] later t →
      Follows I.toSetting rounds t yes later post)
    (hNo : ∀ later t, At I full home target [] later t → Follows I.toSetting rounds t no later post) :
    Follows I.toSetting rounds s
      (do if (← Eval.expr I.declarations own fuel c) ≠ 0 then yes else no) store post := by
  rw [Program.holds_append, jumpCode] at hHolds
  simp only [Program.holds_op, Program.holds_int] at hHolds
  obtain ⟨hFirst, hConst, hArg, hJump, _⟩ := hHolds
  have hEnd := (Array.getElem?_eq_some_iff.mp hConst).1
  have hGrows (w : Word) : Eval.Grows (if w ≠ 0 then yes else no) := by
    split
    · exact hYesGrows
    · exact hNoGrows
  refine (ih.expr hFuel hCode hFirst hEnd hOwned hWithin h).bind hGrows ?_
  intro w later t _ hAt
  obtain ⟨u, hPush, hPushed⟩ := hAt.const hConst hArg
  obtain ⟨last, hStep, hDone⟩ := hPushed.jmpf hJump hSkip hTarget
  refine .step hPush hAt.output (hGrows w) (Nat.le_succ _) (.step hStep hPushed.output (hGrows w) (Nat.le_succ _) ?_)
  by_cases hZero : w = 0
  · rw [if_pos hZero] at hDone
    rw [if_neg (by simpa using hZero)]
    exact hNo later last hDone
  · rw [if_neg hZero] at hDone
    rw [if_pos hZero]
    exact hYes later last hDone

/-- The jump at the end of code that goes on elsewhere. -/
theorem Ends.jump {caller : Option Caller} {next target : Nat} {w : Word} {flow : Flow}
    (h : Ends I full caller next flow store s) (hHolds : I.program.Holds I.places next (jumpCode w .jmp))
    (hWord : Word.ofNat? target = some w) (hTarget : target < I.program.words.size) :
    Follows I.toSetting rounds s (Pure.pure flow) store (Ends I full caller target) := by
  cases flow with
  | ret value => exact .pure h
  | next =>
    obtain ⟨last, hCaller, hAt⟩ := h
    simp only [jumpCode, Program.holds_op, Program.holds_int] at hHolds
    obtain ⟨hConst, hArg, hJump, _⟩ := hHolds
    obtain ⟨t, hPush, hPushed⟩ := hAt.const hConst hArg
    obtain ⟨u, hStep, hDone⟩ := hPushed.jmp hJump hWord hTarget
    refine .step hPush hAt.output (Effect.appends_pure _) (Nat.le_succ _) ?_
    refine .step hStep hPushed.output (Effect.appends_pure _) (Nat.le_succ _) (.pure ?_)
    exact ⟨last, hCaller, hDone⟩

theorem Following.branch_succ (ih : Following I fuel) {span : Span} {c : Expr} {yes no : List Stmt}
    {code : List Cell} (hFuel : I.Fuels rounds (fuel + 1) (sizeOf (Stmt.branch span c yes no)))
    (hCode : Stmt.HasCode I.functions v pc (.branch span c yes no) code)
    (hHolds : I.program.Holds I.places pc code) (hEnd : pc + code.length < I.program.words.size)
    (hOwned : Variables.Owned own v)
    (hWithin : (v.assignAll (Stmt.blockTargets yes ++ Stmt.blockTargets no)).Within full)
    (h : At I full home pc [] store s) :
    Follows I.toSetting rounds s (Eval.stmt I.declarations own (fuel + 1) (.branch span c yes no)) store
      (Ends I full home.caller? (pc + code.length)) := by
  have hGrowing := Eval.growing I.declarations fuel
  have hTestFuel : I.Fuels rounds fuel (sizeOf c) := hFuel.sub (by rw [Stmt.branch.sizeOf_spec]; omega)
  have hYesFuel : I.Fuels rounds fuel (sizeOf yes) := hFuel.sub (by rw [Stmt.branch.sizeOf_spec]; omega)
  have hNoFuel : I.Fuels rounds fuel (sizeOf no) := hFuel.sub (by rw [Stmt.branch.sizeOf_spec]; omega)
  have hBefore := (hOwned.within_assignAll _).trans hWithin
  rw [Variables.assignAll_append] at hWithin
  have hBetween := ((hOwned.after_block yes).within_assignAll _).trans hWithin
  cases hCode with
  | @when _ _ _ _ test yesCode skip _ hTest hYes hSkip =>
    rw [Program.holds_append] at hHolds
    simp only [List.length_append, length_jumpCode, ← Nat.add_assoc] at hEnd hHolds ⊢
    refine ih.test hTestFuel hTest hHolds.1 hSkip hEnd hOwned hBefore h (hGrowing.block _ _) (hGrowing.block _ _)
      ?_ ?_
    · intro later t hAt
      exact ih.block hYesFuel hYes hHolds.2 (fun _ => hEnd) hOwned hBetween hAt
    · intro later t hAt
      have hNone : Stmt.BlockHasCode I.functions (v.assignAll (Stmt.blockTargets yes))
          (pc + test.length + 3 + yesCode.length) [] [] := .nil _ _
      have hBlock := ih.block hNoFuel hNone trivial (fun _ => hEnd) (hOwned.after_block yes) hWithin hAt
      exact hBlock
  | @branch _ _ _ _ _ test yesCode noCode skip leave _ hElse hTest hYes hNo hSkip hLeave =>
    rw [Program.holds_append, Program.holds_append, Program.holds_append] at hHolds
    obtain ⟨⟨⟨hFirst, hYesHolds⟩, hJump⟩, hNoHolds⟩ := hHolds
    simp only [List.length_append, length_jumpCode, ← Nat.add_assoc] at hEnd hYesHolds hJump hNoHolds ⊢
    refine ih.test hTestFuel hTest hFirst hSkip (by omega) hOwned hBefore h (hGrowing.block _ _)
      (hGrowing.block _ _) ?_ ?_
    · intro later t hAt
      refine (ih.block hYesFuel hYes hYesHolds (fun _ => by omega) hOwned hBetween hAt).andThen ?_
      intro flow last u hEnds
      exact hEnds.jump hJump hLeave hEnd
    · intro later t hAt
      exact ih.block hNoFuel hNo hNoHolds (fun _ => hEnd) (hOwned.after_block yes) hWithin hAt

/-! ## Loops -/

theorem Following.loop_succ (ih : Following I fuel) {c : Expr} {body step : List Stmt} {code : List Cell}
    (hFuel : I.Fuels rounds (fuel + 1) (sizeOf c + sizeOf body + sizeOf step))
    (hCode : Stmt.LoopHasCode I.functions v pc c body step code) (hHolds : I.program.Holds I.places pc code)
    (hEnd : pc + code.length < I.program.words.size) (hOwned : Variables.Owned own v)
    (hInside : Variables.Owned inside (v.assignAll (Stmt.blockTargets body)))
    (hWithin : ((v.assignAll (Stmt.blockTargets body)).assignAll (Stmt.blockTargets step)).Within full)
    (h : At I full home pc [] store s) :
    Follows I.toSetting rounds s (Eval.loop I.declarations own inside (fuel + 1) c body step) store
      (Ends I full home.caller? (pc + code.length)) := by
  have hGrowing := Eval.growing I.declarations fuel
  have hBodySize := sizeOf_list_pos body
  have hStepSize := sizeOf_list_pos step
  have hTestFuel : I.Fuels rounds fuel (sizeOf c) := hFuel.sub (by omega)
  have hBodyFuel : I.Fuels rounds fuel (sizeOf body) := hFuel.sub (by omega)
  have hStepFuel : I.Fuels rounds fuel (sizeOf step) := hFuel.sub (by omega)
  have hBetween := (hInside.within_assignAll _).trans hWithin
  have hBefore := (hOwned.within_assignAll _).trans hBetween
  have hAll := hHolds
  have hLoop := hCode
  cases hCode with
  | @mk test bodyCode stepCode leave again hTest hBody hStep hLeave hAgain =>
    rw [Program.holds_append, Program.holds_append, Program.holds_append] at hHolds
    obtain ⟨⟨⟨hFirst, hBodyHolds⟩, hStepHolds⟩, hJump⟩ := hHolds
    have hEnough := hEnd
    simp only [List.length_append, length_jumpCode, ← Nat.add_assoc] at hEnough hBodyHolds hStepHolds hJump
    refine ih.test hTestFuel hTest hFirst hLeave hEnough hOwned hBefore h
      ((hGrowing.block own body).bind (hGrowing.behindBody own inside c body step)) (Effect.appends_pure _) ?_ ?_
    · intro later t hAt
      refine (ih.block hBodyFuel hBody hBodyHolds (fun _ => by omega) hOwned hBetween hAt).bind
        (hGrowing.behindBody own inside c body step) ?_
      intro flow later t _ hEnds
      cases flow with
      | ret w => exact .pure hEnds
      | next =>
        obtain ⟨second, hSecond, hAt⟩ := hEnds
        refine (ih.block hStepFuel hStep hStepHolds (fun _ => by omega) hInside hWithin hAt).bind
          (hGrowing.again own inside c body step) ?_
        intro flow later t _ hEnds
        cases flow with
        | ret w => exact .pure (hSecond ▸ hEnds)
        | next =>
          obtain ⟨third, hThird, hAt⟩ := hEnds
          simp only [jumpCode, Program.holds_op, Program.holds_int] at hJump
          obtain ⟨hConst, hArg, hJump, _⟩ := hJump
          obtain ⟨u, hPush, hPushed⟩ := hAt.const hConst hArg
          obtain ⟨last, hBack, hDone⟩ := hPushed.jmp hJump hAgain (by omega)
          have hRest := ih.loop hFuel.again hLoop hAll hEnd hOwned hInside hWithin hDone
          rw [hThird, hSecond] at hRest
          have hNext := hGrowing.loop own inside c body step
          refine .step hPush hAt.output hNext (Nat.le_succ _) ?_
          exact .step hBack hPushed.output hNext (by omega) hRest
    · intro later t hAt
      refine .pure ⟨home, rfl, ?_⟩
      simp only [List.length_append, length_jumpCode, ← Nat.add_assoc]
      exact hAt

/-- A `for` loop is its first statement and a loop that ends each round with its step. -/
theorem Following.for_succ (ih : Following I fuel) {span : Span} {init step : Stmt} {c : Expr} {body : List Stmt}
    {code : List Cell} (hFuel : I.Fuels rounds (fuel + 1) (sizeOf (Stmt.forLoop span init c step body)))
    (hCode : Stmt.HasCode I.functions v pc (.forLoop span init c step body) code)
    (hHolds : I.program.Holds I.places pc code) (hEnd : pc + code.length < I.program.words.size)
    (hOwned : Variables.Owned own v) (hWithin : (v.assignAll (Stmt.forLoop span init c step body).targets).Within full)
    (h : At I full home pc [] store s) :
    Follows I.toSetting rounds s (Eval.stmt I.declarations own (fuel + 1) (.forLoop span init c step body)) store
      (Ends I full home.caller? (pc + code.length)) := by
  have hGrowing := Eval.growing I.declarations fuel
  obtain ⟨initCode, rest, rfl, hInit, hLoop⟩ := hCode.loop_of_for
  have hSpan := sizeOf_span_pos span
  have hInitSize := sizeOf_stmt_pos init
  have hInitFuel : I.Fuels rounds fuel (sizeOf init) := hFuel.sub (by rw [Stmt.forLoop.sizeOf_spec]; omega)
  have hLoopFuel : I.Fuels rounds fuel (sizeOf c + sizeOf body + sizeOf [step]) :=
    hFuel.sub (by rw [Stmt.forLoop.sizeOf_spec, List.cons.sizeOf_spec, List.nil.sizeOf_spec]; omega)
  rw [Program.holds_append] at hHolds
  rw [List.length_append] at hEnd ⊢
  have hTargets : (Stmt.forLoop span init c step body).targets =
      init.targets ++ (Stmt.blockTargets body ++ Stmt.blockTargets [step]) := by
    simp [Stmt.targets, Stmt.blockTargets]
  rw [hTargets, Variables.assignAll_append] at hWithin
  have hInside := hOwned.after_stmt init
  have hInitWithin := (hInside.within_assignAll _).trans hWithin
  rw [Variables.assignAll_append] at hWithin
  refine (ih.stmt hInitFuel hInit hHolds.1 (fun _ => by omega) hOwned hInitWithin h).bind ?_ ?_
  · intro flow
    cases flow with
    | ret w => exact Effect.appends_pure _
    | next => exact hGrowing.loop (Eval.after own [init]) _ c body [step]
  · intro flow later t _ hEnds
    cases flow with
    | ret w => exact .pure hEnds
    | next =>
      obtain ⟨second, hSecond, hAt⟩ := hEnds
      rw [← hSecond, ← Nat.add_assoc]
      exact ih.loop hLoopFuel hLoop hHolds.2 (by omega) hInside (hInside.after_block body) hWithin hAt

/-! ## All statements -/

theorem Following.stmt_succ (ih : Following I fuel) {st : Stmt} {code : List Cell}
    (hFuel : I.Fuels rounds (fuel + 1) (sizeOf st)) (hCode : st.HasCode I.functions v pc code)
    (hHolds : I.program.Holds I.places pc code) (hEnd : st.isReturn = false → pc + code.length < I.program.words.size)
    (hOwned : Variables.Owned own v) (hWithin : (v.assignAll st.targets).Within full)
    (h : At I full home pc [] store s) :
    Follows I.toSetting rounds s (Eval.stmt I.declarations own (fuel + 1) st) store
      (Ends I full home.caller? (pc + code.length)) := by
  have hBefore := (hOwned.within_assignAll _).trans hWithin
  cases st with
  | assign span name e => exact ih.assign_succ hFuel hCode hHolds hOwned hWithin h
  | ret span value => exact ih.ret_succ hFuel hCode hHolds hOwned hBefore h
  | branch span c yes no => exact ih.branch_succ hFuel hCode hHolds (hEnd rfl) hOwned hWithin h
  | function span name params body =>
    cases hCode
    exact .pure ⟨home, rfl, h⟩
  | expr span e =>
    cases hCode with
    | expr span hValue =>
      rw [Program.holds_append, Program.holds_op] at hHolds
      obtain ⟨hFirst, hOp, _⟩ := hHolds
      have hSub : I.Fuels rounds fuel (sizeOf e) := hFuel.sub (by rw [Stmt.expr.sizeOf_spec]; omega)
      have hInside := (Array.getElem?_eq_some_iff.mp hOp).1
      refine (ih.expr hSub hValue hFirst hInside hOwned hBefore h).bind (fun _ => Effect.appends_pure _) ?_
      intro w later t _ hAt
      obtain ⟨u, hStep, hDone⟩ := hAt.drop hOp
      refine .step hStep hAt.output (Effect.appends_pure _) (Nat.le_succ _) (.pure ⟨home, rfl, ?_⟩)
      rwa [List.length_append, ← Nat.add_assoc]
  | print span e =>
    cases hCode with
    | print span hValue =>
      rw [Program.holds_append, Program.holds_op] at hHolds
      obtain ⟨hFirst, hOp, _⟩ := hHolds
      have hSub : I.Fuels rounds fuel (sizeOf e) := hFuel.sub (by rw [Stmt.print.sizeOf_spec]; omega)
      have hInside := (Array.getElem?_eq_some_iff.mp hOp).1
      have hGrows (w : Word) : Eval.Grows (do
          modify fun store : Store => { store with printed := store.printed ++ [w] }
          return Flow.next : Eval.M Flow) :=
        (Effect.appends_modify fun store => List.prefix_append store.printed [w]).bind
          fun _ => Effect.appends_pure _
      refine (ih.expr hSub hValue hFirst hInside hOwned hBefore h).bind hGrows ?_
      intro w later t _ hAt
      obtain ⟨u, hStep, hDone⟩ := hAt.print hOp
      refine .step hStep hAt.output (hGrows w) (Nat.le_succ _) (.silent rfl (.pure ⟨home, rfl, ?_⟩))
      rwa [List.length_append, ← Nat.add_assoc]
  | whileLoop span c body =>
    have hSpan := sizeOf_span_pos span
    have hSub : I.Fuels rounds fuel (sizeOf c + sizeOf body + sizeOf ([] : List Stmt)) :=
      hFuel.sub (by rw [Stmt.whileLoop.sizeOf_spec, List.nil.sizeOf_spec]; omega)
    exact ih.loop hSub hCode.loop_of_while hHolds (hEnd rfl) hOwned (hOwned.after_block body) hWithin h
  | forLoop span init c step body => exact ih.for_succ hFuel hCode hHolds (hEnd rfl) hOwned hWithin h

theorem Following.block_succ (ih : Following I fuel) {body : List Stmt} {code : List Cell}
    (hFuel : I.Fuels rounds (fuel + 1) (sizeOf body)) (hCode : Stmt.BlockHasCode I.functions v pc body code)
    (hHolds : I.program.Holds I.places pc code)
    (hEnd : body.getLast?.any Stmt.isReturn = false → pc + code.length < I.program.words.size)
    (hOwned : Variables.Owned own v) (hWithin : (v.assignAll (Stmt.blockTargets body)).Within full)
    (h : At I full home pc [] store s) :
    Follows I.toSetting rounds s (Eval.block I.declarations own (fuel + 1) body) store
      (Ends I full home.caller? (pc + code.length)) := by
  have hGrowing := Eval.growing I.declarations fuel
  cases hCode with
  | nil => exact .pure ⟨home, rfl, h⟩
  | @cons _ _ st rest code later hFirst hLater =>
    have hStmtFuel : I.Fuels rounds fuel (sizeOf st) := hFuel.sub (by rw [List.cons.sizeOf_spec]; omega)
    have hRestFuel : I.Fuels rounds fuel (sizeOf rest) := hFuel.sub (by rw [List.cons.sizeOf_spec]; omega)
    rw [Program.holds_append] at hHolds
    rw [List.length_append] at hEnd ⊢
    rw [Stmt.blockTargets, Variables.assignAll_append] at hWithin
    have hBehind := hOwned.after_stmt st
    have hStmtWithin := (hBehind.within_assignAll _).trans hWithin
    have hJoint : st.isReturn = false → rest.getLast?.any Stmt.isReturn = false →
        pc + (code.length + later.length) < I.program.words.size := by
      intro hStmt hRest
      refine hEnd ?_
      cases rest with
      | nil => simpa using hStmt
      | cons s' rest => simpa using hRest
    have hStmtEnd : st.isReturn = false → pc + code.length < I.program.words.size := by
      intro hStmt
      cases hRest : rest.getLast?.any Stmt.isReturn with
      | false =>
        have hLt := hJoint hStmt hRest
        omega
      | true =>
        have hPos := hLater.length_pos hRest
        have hLe := hHolds.2.length_le hPos
        omega
    refine (ih.stmt hStmtFuel hFirst hHolds.1 hStmtEnd hOwned hStmtWithin h).bind ?_ ?_
    · intro flow
      cases flow with
      | ret w => exact Effect.appends_pure _
      | next => exact hGrowing.block (Eval.after own [st]) rest
    · intro flow mid t hResult hEnds
      cases flow with
      | ret w => exact .pure hEnds
      | next =>
        obtain ⟨second, hSecond, hAt⟩ := hEnds
        have hStmt := Eval.stmt_next hResult
        have hRestEnd : rest.getLast?.any Stmt.isReturn = false →
            pc + code.length + later.length < I.program.words.size := by
          intro hRest
          have hLt := hJoint hStmt hRest
          omega
        rw [← hSecond, ← Nat.add_assoc]
        exact ih.block hRestFuel hLater hHolds.2 hRestEnd hBehind hWithin hAt

theorem following (I : Image) (fuel : Nat) : Following I fuel := by
  induction fuel with
  | zero =>
    exact ⟨fun h _ _ _ _ _ _ => h.exhausted, fun h _ _ _ _ _ _ => h.exhausted, fun h _ _ _ _ _ _ => h.exhausted,
      fun h _ _ _ _ _ _ _ => h.exhausted, fun h _ _ _ _ _ _ => h.exhausted⟩
  | succ fuel ih => exact ⟨ih.expr_succ, ih.args_succ, ih.stmt_succ, ih.loop_succ, ih.block_succ⟩

end

end Vee.Machine
