import Vee.Proofs.Machine.Instruction

/-! # Frames on the stack

The words that belong to the running code. The main program has none; a call has its arguments, with the first
one on top, three words that lead back to its caller, and its locals. Slots name the arguments and locals, a
call builds the frame and a return takes it down again, whatever lies below.
-/

namespace Vee

set_option autoImplicit false

/-- The word of a count or address, which should be below 2^31. -/
def Word.ofCount (n : Nat) : Word := Int32.ofInt n

theorem Word.ofNat?_eq_ofCount {n : Nat} (h : n < 2147483648) : Word.ofNat? n = some (Word.ofCount n) := by
  rw [Word.ofNat?, Word.ofInt?, if_pos (by omega)]
  rfl

theorem Word.toNat?_ofCount {n : Nat} (h : n < 2147483648) : (Word.ofCount n).toNat? = some n :=
  Word.toNat?_of_ofNat? (Word.ofNat?_eq_ofCount h)

namespace Machine

/-- What lies below the arguments of a call, and where and how its caller goes on. -/
structure Caller where
  stack : List Word
  fp : Nat
  back : Nat
  activations : List Activation

/-- The owner of the top of the stack, with its arguments in their order and its locals. -/
inductive Home where
  | main
  | call (caller : Caller) (args locals : List Word)

namespace Home

def stack : Home → List Word
  | main => []
  | call c args locals =>
    c.stack ++ args.reverse ++ [Word.ofCount args.length, Word.ofCount c.back, Word.ofCount c.fp] ++ locals

def fp : Home → Nat
  | main => 0
  | call c args _ => c.stack.length + args.length + 2

def activations : Home → List Activation
  | main => []
  | call c args locals => ⟨args.length, locals.length⟩ :: c.activations

/-- The word in a slot. -/
def get? : Home → Int → Option Word
  | main, _ => none
  | call _ _ locals, .ofNat n => locals[n]?
  | call _ args _, .negSucc n => args[n]?

/-- Replaces the word in a slot. -/
def set : Home → Int → Word → Home
  | main, _, _ => main
  | call c args locals, .ofNat n, w => call c args (locals.set n w)
  | call c args locals, .negSucc n, w => call c (args.set n w) locals

def caller? : Home → Option Caller
  | main => none
  | call c _ _ => some c

/-- The snapshot of code that runs for a home, with temporaries above its frame. -/
def snapshot (home : Home) (pc : Nat) (temps : List Word) (globals : Memory) (output : String) : Snapshot :=
  { pc := pc
    fp := home.fp
    stack := home.stack ++ temps
    globals := globals
    activations := home.activations
    output := output }

theorem stack_call (c : Caller) (args locals : List Word) :
    (call c args locals).stack =
      c.stack ++ args.reverse ++ [Word.ofCount args.length, Word.ofCount c.back, Word.ofCount c.fp] ++ locals :=
  rfl

theorem fp_call (c : Caller) (args locals : List Word) :
    (call c args locals).fp = c.stack.length + args.length + 2 := rfl

theorem activations_call (c : Caller) (args locals : List Word) :
    (call c args locals).activations = ⟨args.length, locals.length⟩ :: c.activations := rfl

theorem caller?_set (home : Home) (slot : Int) (w : Word) : (home.set slot w).caller? = home.caller? := by
  cases home with
  | main => rfl
  | call c args locals => cases slot <;> rfl

theorem fp_set (home : Home) (slot : Int) (w : Word) : (home.set slot w).fp = home.fp := by
  cases home with
  | main => rfl
  | call c args locals => cases slot <;> simp [set, fp]

theorem activations_set (home : Home) (slot : Int) (w : Word) :
    (home.set slot w).activations = home.activations := by
  cases home with
  | main => rfl
  | call c args locals => cases slot <;> simp [set, activations]

/-- The index on the stack of a slot. -/
def index (home : Home) : Int → Nat
  | .ofNat n => home.fp + n + 1
  | .negSucc n => home.fp - n - 3

theorem set_reverse {words : List Word} {n : Nat} (h : n < words.length) (w : Word) :
    words.reverse.set (words.length - 1 - n) w = (words.set n w).reverse := by
  apply List.ext_getElem
  · simp
  · intro i hLeft hRight
    simp only [List.getElem_set, List.getElem_reverse, List.length_set]
    simp only [List.length_set, List.length_reverse] at hLeft
    have hSame : words.length - 1 - n = i ↔ n = words.length - 1 - i := by omega
    simp only [hSame]

theorem stack_index {home : Home} {slot : Int} {v : Word} (h : home.get? slot = some v) :
    home.stack[home.index slot]? = some v ∧
      ∀ w, home.stack.set (home.index slot) w = (home.set slot w).stack := by
  cases home with
  | main => cases h
  | call c args locals =>
    cases slot with
    | ofNat n =>
      have hIndex : (call c args locals).index (.ofNat n) =
          (c.stack ++ args.reverse ++
            [Word.ofCount args.length, Word.ofCount c.back, Word.ofCount c.fp]).length + n := by
        simp [index, fp]
        omega
      constructor
      · rw [hIndex, stack, List.getElem?_append_right (by omega), Nat.add_sub_cancel_left]
        exact h
      · intro w
        rw [hIndex, stack, List.set_append_right _ _ (by omega), Nat.add_sub_cancel_left]
        rfl
    | negSucc n =>
      obtain ⟨hLt, hGet⟩ := List.getElem?_eq_some_iff.mp h
      have hIndex : (call c args locals).index (.negSucc n) = c.stack.length + (args.length - 1 - n) := by
        simp [index, fp]
        omega
      constructor
      · rw [hIndex, stack, List.append_assoc, List.append_assoc, List.getElem?_append_right (by omega),
          Nat.add_sub_cancel_left, List.getElem?_append_left (by simp; omega),
          List.getElem?_reverse (by omega)]
        rw [show args.length - 1 - (args.length - 1 - n) = n by omega]
        exact h
      · intro w
        rw [hIndex, stack, List.append_assoc, List.append_assoc, List.set_append_right _ _ (by omega),
          Nat.add_sub_cancel_left, List.set_append_left _ _ (by simp; omega), set_reverse hLt]
        simp [set, stack]

theorem slotIndex?_snapshot {S : Setting} {home : Home} {slot : Int} {v w : Word} {pc : Nat} {temps : List Word}
    {globals : Memory} {output : String} (h : home.get? slot = some v) (hWord : w.toInt = slot) :
    ((home.snapshot pc temps globals output).machine S).slotIndex? w = some (home.index slot) := by
  have hLength : home.index slot < home.stack.length := (List.getElem?_eq_some_iff.mp (stack_index h).1).1
  cases home with
  | main => cases h
  | call c args locals =>
    simp only [slotIndex?, Snapshot.machine, snapshot, activations, hWord, Option.bind_eq_bind, List.head?_cons,
      Option.bind_some, List.size_toArray, List.length_append]
    cases slot with
    | ofNat n =>
      have hLt := (List.getElem?_eq_some_iff.mp h).1
      have hSlot : (0 : Int) ≤ .ofNat n := Int.natCast_nonneg n
      simp only [if_pos hSlot]
      simp only [index] at hLength ⊢
      rw [if_pos (by simp; omega)]
      simp
      omega
    | negSucc n =>
      have hLt := (List.getElem?_eq_some_iff.mp h).1
      have hSlot : ¬ (0 : Int) ≤ .negSucc n := by omega
      simp only [if_neg hSlot]
      have hFp : (call c args locals).fp = c.stack.length + args.length + 2 := rfl
      simp only [index] at hLength ⊢
      rw [if_pos (by omega)]
      congr 1
      omega

theorem fp_le (home : Home) : home.fp ≤ home.stack.length := by
  cases home with
  | main => exact Nat.le_refl 0
  | call c args locals =>
    simp only [fp, stack, List.length_append, List.length_reverse, List.length_cons, List.length_nil]
    omega

end Home

/-- The snapshot in which a caller goes on with the value of a call. -/
def Caller.snapshot (c : Caller) (value : Word) (globals : Memory) (output : String) : Snapshot :=
  { pc := c.back
    fp := c.fp
    stack := c.stack ++ [value]
    globals := globals
    activations := c.activations
    output := output }

/-- The words that lead back to the caller can be read as what they stand for. -/
structure Caller.Sound (S : Setting) (c : Caller) : Prop where
  back_lt : c.back < S.program.words.size
  back_small : c.back < 2147483648
  fp_small : c.fp < 2147483648

/-! ## Calls and returns -/

section

variable {S : Setting} {s : Snapshot}

theorem shrink_append (low high : List Word) : (low ++ high).toArray.shrink low.length = low.toArray := by
  simp

theorem leads_drop {rest top : List Word} (h : s.stack = rest ++ top) :
    Leads S (onStack (Stack.drop top.length)) s () { s with stack := rest } := by
  left
  simp [onStack, Stack.drop, Snapshot.machine, h]

theorem exhausted_ofCount (hFp : 2147483648 ≤ s.fp) (hStack : 2147483648 ≤ S.limits.stack) :
    Exhausted S (ofCount s.fp) s := by
  refine ⟨.overflow, s.machine S, ?_, rfl, hStack⟩
  have hNone : Word.ofNat? s.fp = none := by
    rw [Word.ofNat?, Word.ofInt?, if_neg (by omega)]
  rw [ofCount, hNone]
  rfl

section

variable {args locals entry : Nat} {destination nargs nlocals : Word}
    (hEntry : S.program.words[s.pc + 1]? = some destination) (hArgs : S.program.words[s.pc + 2]? = some nargs)
    (hLocals : S.program.words[s.pc + 3]? = some nlocals) (hCount : nargs.toNat? = some args)
    (hZeros : nlocals.toNat? = some locals) (hEnough : args ≤ s.stack.length)

include hEntry hArgs hLocals hCount hZeros hEnough

theorem leads_call_words {back fpWord : Word} (hBack : Word.ofNat? (s.pc + 4) = some back)
    (hFp : Word.ofNat? s.fp = some fpWord) (hDestination : destination.toNat? = some entry)
    (hSize : entry < S.program.words.size) :
    Leads S (call (s.pc + 4)) s entry
      { s with
        fp := s.stack.length + 2
        stack := s.stack ++ [nargs, back, fpWord] ++ List.replicate locals 0
        activations := ⟨args, locals⟩ :: s.activations } := by
  have hRoom : ¬ (s.machine S).stack.items.size < args := by
    simpa [Snapshot.machine] using hEnough
  refine (leads_operand hEntry).bind rfl ((leads_operand hArgs).bind rfl ((leads_count hCount).bind rfl ?_))
  refine (leads_operand hLocals).bind rfl ((leads_count hZeros).bind rfl (leads_get.bind rfl ?_))
  simp only [if_neg hRoom]
  refine (leads_push nargs).bind rfl ((leads_ofCount hBack).bind rfl ((leads_push back).bind rfl ?_))
  refine leads_get.bind rfl ((leads_ofCount hFp).bind rfl ((leads_push fpWord).bind rfl ?_))
  refine Leads.bind (t := { s with fp := s.stack.length + 2, stack := s.stack ++ [nargs, back, fpWord] })
    (leads_modify _ ?_) rfl ((leads_pushZeros locals).bind rfl ?_)
  · simp [Snapshot.machine]
  · refine Leads.bind (leads_modify _ ?_) ?_ (leads_target hDestination hSize)
    · rfl
    · rfl

theorem exhausted_call_words {back : Word} (hBack : Word.ofNat? (s.pc + 4) = some back)
    (hFp : 2147483648 ≤ s.fp) (hStack : s.fp ≤ s.stack.length) : Exhausted S (call (s.pc + 4)) s := by
  have hRoom : ¬ (s.machine S).stack.items.size < args := by
    simpa [Snapshot.machine] using hEnough
  refine (leads_operand hEntry).bind_exhausted rfl ((leads_operand hArgs).bind_exhausted rfl
    ((leads_count hCount).bind_exhausted rfl ?_))
  refine (leads_operand hLocals).bind_exhausted rfl ((leads_count hZeros).bind_exhausted rfl
    (leads_get.bind_exhausted rfl ?_))
  simp only [if_neg hRoom]
  by_cases hLimit : 2147483648 ≤ S.limits.stack
  · refine (leads_push nargs).bind_exhausted rfl ((leads_ofCount hBack).bind_exhausted rfl
      ((leads_push back).bind_exhausted rfl (leads_get.bind_exhausted rfl ?_)))
    exact (exhausted_ofCount (s := { s with stack := s.stack ++ [nargs] ++ [back] }) hFp hLimit).bind _
  · refine Exhausted.bind _ ⟨.stack (.overflow "OPERAND STACK"), s.machine S, ?_, rfl, trivial⟩
    have hFull : ¬ s.stack.length < S.limits.stack := by omega
    simp [push, onStack, Stack.push, Snapshot.machine, hFull]

end

end

section

variable {S : Setting} {home : Home} {pc : Nat} {temps : List Word} {globals : Memory} {output : String}

theorem leads_store_slot {slot : Int} {v w old : Word} (hOp : S.program.words[pc]? = some Opcode.store.word)
    (hArg : S.program.words[pc + 1]? = some w) (hSlot : home.get? slot = some old) (hWord : w.toInt = slot) :
    Leads S step (home.snapshot pc (temps ++ [v]) globals output) ()
      ((home.set slot v).snapshot (pc + 2) temps globals output) := by
  obtain ⟨hRead, hWrite⟩ := Home.stack_index hSlot
  have hLt := (List.getElem?_eq_some_iff.mp hRead).1
  have hLeads := leads_store (s := home.snapshot pc (temps ++ [v]) globals output) hOp hArg
    (List.append_assoc ..).symm (Home.slotIndex?_snapshot hSlot hWord) (by rw [List.length_append]; omega)
  rw [List.set_append_left _ _ hLt, hWrite] at hLeads
  simp only [Home.snapshot, Home.fp_set, Home.activations_set]
  exact hLeads

theorem leads_call {values : List Word} {entry locals : Nat} {destination nargs nlocals : Word}
    (hOp : S.program.words[pc]? = some Opcode.call.word) (hEntry : S.program.words[pc + 1]? = some destination)
    (hArgs : S.program.words[pc + 2]? = some nargs) (hLocals : S.program.words[pc + 3]? = some nlocals)
    (hDestination : destination.toNat? = some entry) (hSize : entry < S.program.words.size)
    (hCount : Word.ofNat? values.length = some nargs) (hZeros : nlocals.toNat? = some locals)
    (hBack : pc + 4 < 2147483648) :
    if home.fp < 2147483648 then
      Leads S step (home.snapshot pc (temps ++ values.reverse) globals output) ()
        ((Home.call ⟨home.stack ++ temps, home.fp, pc + 4, home.activations⟩ values
          (List.replicate locals 0)).snapshot entry [] globals output)
    else Exhausted S step (home.snapshot pc (temps ++ values.reverse) globals output) := by
  have hBackWord := Word.ofNat?_eq_ofCount hBack
  have hNumber := Word.toNat?_of_ofNat? hCount
  have hEnough : values.length ≤ (home.snapshot pc (temps ++ values.reverse) globals output).stack.length := by
    simp only [Home.snapshot, List.length_append, List.length_reverse]
    omega
  split
  · rename_i hFp
    have hFpWord := Word.ofNat?_eq_ofCount hFp
    have hLeads := leads_call_words (s := home.snapshot pc (temps ++ values.reverse) globals output) hEntry hArgs
      hLocals hNumber hZeros hEnough hBackWord hFpWord hDestination hSize
    have hArgsWord : nargs = Word.ofCount values.length :=
      Option.some.inj (hCount.symm.trans (Word.ofNat?_eq_ofCount (Word.lt_of_ofNat? hCount)))
    have hLength : (home.stack ++ temps).length + values.length + 2 =
        (home.stack ++ (temps ++ values.reverse)).length + 2 := by
      simp only [List.length_append, List.length_reverse]
      omega
    refine leads_step hOp ?_
    simp only [Home.snapshot, Home.stack_call, Home.fp_call, Home.activations_call, List.append_nil,
      List.length_replicate, hLength]
    simp only [Home.snapshot, hArgsWord, List.append_assoc] at hLeads ⊢
    exact hLeads
  · rename_i hFp
    obtain ⟨fault, m, hFail, hRest⟩ := exhausted_call_words
      (s := home.snapshot pc (temps ++ values.reverse) globals output) hEntry hArgs hLocals hNumber hZeros hEnough
      hBackWord (Nat.le_of_not_lt hFp) (Nat.le_trans home.fp_le (by simp [Home.snapshot]))
    exact ⟨fault, m, step_of_error hOp hFail, hRest⟩

theorem leads_ret {c : Caller} {args locals : List Word} {value : Word}
    (hOp : S.program.words[pc]? = some Opcode.ret.word) (hCaller : c.Sound S) (hArgs : args.length < 2147483648) :
    Leads S step ((Home.call c args locals).snapshot pc [value] globals output) ()
      (c.snapshot value globals output) := by
  let opened (stack : List Word) : Snapshot :=
    Snapshot.mk pc (c.stack.length + args.length + 2) stack globals c.activations output
  let closed (stack : List Word) : Snapshot := Snapshot.mk pc c.fp stack globals c.activations output
  have hValue : Leads S pop ((Home.call c args locals).snapshot pc [value] globals output) value
      { (Home.call c args locals).snapshot pc [value] globals output with
        stack := (Home.call c args locals).stack } := leads_pop rfl
  refine leads_step hOp (hValue.bind rfl (leads_get.bind rfl ?_))
  have hCut : Leads S (modify fun m =>
        { m with activations := c.activations, stack := m.stack.truncate (m.fp + 1) })
      { (Home.call c args locals).snapshot pc [value] globals output with
        stack := (Home.call c args locals).stack } ()
      (opened (c.stack ++ args.reverse ++ [Word.ofCount args.length] ++ [Word.ofCount c.back] ++
        [Word.ofCount c.fp])) := by
    refine leads_modify _ ?_
    have hLength : c.stack.length + args.length + 2 + 1 =
        (c.stack ++ args.reverse ++ [Word.ofCount args.length] ++ [Word.ofCount c.back] ++
          [Word.ofCount c.fp]).length := by
      simp only [List.length_append, List.length_reverse, List.length_singleton]
    have hStack : (Home.call c args locals).stack =
        c.stack ++ args.reverse ++ [Word.ofCount args.length] ++ [Word.ofCount c.back] ++ [Word.ofCount c.fp] ++
          locals := by
      simp [Home.stack_call]
    simp only [Snapshot.machine, Home.snapshot, Home.fp_call, Stack.truncate, opened, hStack, hLength,
      shrink_append]
  refine hCut.bind rfl (Leads.bind (leads_pop rfl) rfl ?_)
  refine Leads.bind (leads_pop rfl) rfl (Leads.bind (leads_pop rfl) rfl ?_)
  refine (leads_count (Word.toNat?_ofCount hCaller.fp_small)).bind rfl ?_
  refine Leads.bind (t := closed (c.stack ++ args.reverse)) (leads_modify _ rfl) rfl ?_
  refine (leads_target (Word.toNat?_ofCount hCaller.back_small) hCaller.back_lt).bind rfl ?_
  refine (leads_count (Word.toNat?_ofCount hArgs)).bind rfl ?_
  have hLength : args.length = args.reverse.length := List.length_reverse.symm
  rw [hLength]
  refine (leads_drop rfl).bind ?_ ((leads_push value).bind ?_ (leads_pure _))
  · rfl
  · rfl

end

end Machine

end Vee
