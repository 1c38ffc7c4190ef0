import Vee.Proofs.Machine.Session

/-! # Bounds that no program breaks

The words of a program may be anything, and a program may write its return addresses and saved registers itself. Still
the stack keeps within its capacity, every index is in range where it is used, and no number that the machine computes
leaves 64 bits.
-/

namespace Vee

set_option autoImplicit false

open Effect

namespace Effect

variable {ε σ α β : Type} {s : σ} {good : α → σ → Prop} {bad : ε → σ → Prop}

theorem yields_pure {a : α} (h : good a s) : Yields (pure a : EStateM ε σ α) s good bad := h

theorem yields_throw {e : ε} (h : bad e s) : Yields (throw e : EStateM ε σ α) s good bad := h

theorem yields_get_bind {f : σ → EStateM ε σ α} (h : Yields (f s) s good bad) : Yields (get >>= f) s good bad := h

theorem yields_modify_bind {g : σ → σ} {f : PUnit → EStateM ε σ α} (h : Yields (f ()) (g s) good bad) :
    Yields (modify g >>= f) s good bad := h

end Effect

theorem Word.lt_of_toNat? {w : Word} {n : Nat} (h : w.toNat? = some n) : n < 2147483648 := by
  have hLt := w.toInt_lt
  rw [Word.toInt_of_toNat? h] at hLt
  omega

/-- A report that a program can get. -/
structure Report.Allowed (program : Program) (r : Report) : Prop where
  readable : r.fault ≠ .slotUnreadable
  writable : r.fault ≠ .slotUnwritable
  overflow : r.diagnostic.code = .stackOverflow →
    program.words[r.address]? = some Opcode.const.word ∨ program.words[r.address]? = some Opcode.call.word

namespace Machine

variable {α : Type} {m t : Machine} {op : Opcode}

/-- The machine without the top of its stack. -/
def below (m : Machine) : Machine := { m with stack := { m.stack with items := m.stack.items.pop } }

/-- The words that an instruction reads or writes, given the machine behind it, are there. -/
def Accesses (m t : Machine) : Opcode → Prop
  | .load => ∃ slot i v, m.stack.items.back? = some slot ∧ m.below.slotIndex? slot = some i ∧
      m.below.stack.items[i]? = some v ∧ t.stack.items = m.below.stack.items.push v
  | .store => ∃ slot i v, m.program.words[m.pc + 1]? = some slot ∧ m.stack.items.back? = some v ∧
      m.below.slotIndex? slot = some i ∧ t.stack.items.size = m.below.stack.items.size ∧ t.stack.items[i]? = some v
  | .gload => ∃ w i v, m.stack.items.back? = some w ∧ w.toNat? = some i ∧ m.globals.get? i = some v ∧
      t.stack.items = m.below.stack.items.push v
  | .gstore => ∃ w i v, m.program.words[m.pc + 1]? = some w ∧ w.toNat? = some i ∧ m.stack.items.back? = some v ∧
      i < m.globals.size ∧ t.globals.get? i = some v
  | _ => True

/-- A fault that an instruction may stop with. -/
structure Justified (m : Machine) (op : Opcode) (fault : Fault) : Prop where
  readable : fault ≠ .slotUnreadable
  writable : fault ≠ .slotUnwritable
  overflow : ∀ label, fault = .stack (.overflow label) → op = .const ∨ op = .call
  global : ∀ w i, fault = .globalOutOfRange w → w.toNat? = some i → m.globals.size ≤ i

/-- Faults that any instruction may stop with. -/
def ordinary : Fault → Bool
  | .slotUnreadable | .slotUnwritable | .stack (.overflow _) | .globalOutOfRange _ => false
  | _ => true

theorem Justified.ordinary {fault : Fault} (h : ordinary fault = true) : Justified m op fault := by
  constructor
  · rintro rfl
    cases h
  · rintro rfl
    cases h
  · rintro label rfl
    cases h
  · rintro w i rfl
    cases h

theorem Justified.global_of {w : Word} (h : ∀ i, w.toNat? = some i → m.globals.size ≤ i) :
    Justified m op (.globalOutOfRange w) := by
  refine ⟨nofun, nofun, nofun, ?_⟩
  rintro w' i hFault hIndex
  cases hFault
  exact h i hIndex

def Stops (m : Machine) (op : Opcode) (fault : Fault) (_ : Machine) : Prop := Justified m op fault

/-- Where an instruction gets to. -/
structure Lands (m : Machine) (op : Opcode) (next : Nat) (t : Machine) : Prop where
  next : next ≤ m.program.words.size
  fp : t.fp = m.fp ∨ t.fp < t.stack.items.size ∨ t.fp < 2147483648
  accesses : m.Accesses t op

/-- Amid an instruction, with so much room on the stack. -/
structure Within (m : Machine) (room : Nat) (t : Machine) : Prop where
  program : t.program = m.program
  fp : t.fp = m.fp
  fits : t.stack.items.size + room ≤ t.stack.capacity

theorem Within.weaken (h : Within m 1 t) : Within m 0 t := ⟨h.program, h.fp, Nat.le_of_succ_le h.fits⟩

theorem within_self (h : m.stack.items.size ≤ m.stack.capacity) : Within m 0 m := ⟨rfl, rfl, h⟩

theorem size_lt_of_back? {w : Word} (h : m.stack.items.back? = some w) :
    m.below.stack.items.size < m.stack.items.size := by
  have hPos : 0 < m.stack.items.size := by
    rw [Array.back?] at h
    obtain ⟨hLt, _⟩ := Array.getElem?_eq_some_iff.mp h
    exact Nat.lt_of_le_of_lt (Nat.zero_le _) hLt
  rw [below, Array.size_pop]
  exact Nat.sub_lt hPos Nat.one_pos

section

variable {β : Type} {good : β → Machine → Prop} {bad : Fault → Machine → Prop}

theorem yields_orFault {fault : Fault} {o : Option α} {good : α → Machine → Prop} (hSome : ∀ a, o = some a → good a m)
    (hNone : o = none → bad fault m) : Yields (orFault fault o) m good bad := by
  cases o with
  | none => exact hNone rfl
  | some a => exact hSome a rfl

theorem yields_orFault_bind {fault : Fault} {o : Option α} {f : α → Action β}
    (hSome : ∀ a, o = some a → Yields (f a) m good bad) (hNone : o = none → bad fault m) :
    Yields (orFault fault o >>= f) m good bad := by
  cases o with
  | none => exact hNone rfl
  | some a => exact hSome a rfl

theorem yields_pop_bind {f : Word → Action β}
    (hTop : ∀ w, m.stack.items.back? = some w → Yields (f w) m.below good bad) (hBad : bad (.stack .underflow) m) :
    Yields (pop >>= f) m good bad := by
  have hPop := pop_eq m
  cases hBack : m.stack.items.back? with
  | none =>
    rw [hBack] at hPop
    rw [Yields, bind_of_error hPop]
    exact hBad
  | some w =>
    rw [hBack] at hPop
    rw [Yields, bind_of_ok hPop]
    exact hTop w hBack

theorem yields_operand_bind {offset : Nat} {f : Word → Action β}
    (hSome : ∀ w, m.program.words[m.pc + offset]? = some w → Yields (f w) m good bad) (hNone : bad .missingOperand m) :
    Yields (operand offset >>= f) m good bad := yields_orFault_bind hSome fun _ => hNone

theorem yields_count_bind {w : Word} {f : Nat → Action β} (hSome : ∀ n, w.toNat? = some n → Yields (f n) m good bad)
    (hNone : bad .negativeCount m) : Yields (count w >>= f) m good bad := yields_orFault_bind hSome fun _ => hNone

theorem yields_slotIndex_bind {slot : Word} {f : Nat → Action β}
    (hSome : ∀ i, m.slotIndex? slot = some i → Yields (f i) m good bad) (hNone : bad (.slotOutOfRange slot) m) :
    Yields (slotIndex slot >>= f) m good bad := yields_orFault_bind hSome fun _ => hNone

theorem yields_globalIndex_bind {w : Word} {f : Nat → Action β}
    (hSome : ∀ i, w.toNat? = some i → i < m.globals.size → Yields (f i) m good bad)
    (hNone : (∀ i, w.toNat? = some i → m.globals.size ≤ i) → bad (.globalOutOfRange w) m) :
    Yields (globalIndex w >>= f) m good bad := by
  refine yields_orFault_bind (fun i hIndex => ?_) fun hIndex => ?_
  · obtain ⟨hNumber, hLt⟩ := Option.filter_eq_some_iff.mp hIndex
    exact hSome i hNumber (of_decide_eq_true hLt)
  · apply hNone
    intro i hNumber
    simpa [hNumber, Option.filter] using hIndex

theorem yields_push {w : Word} {good : Unit → Machine → Prop}
    (hGood : good () { m with stack := { m.stack with items := m.stack.items.push w } })
    (hBad : m.stack.capacity ≤ m.stack.items.size → bad (.stack (.overflow m.stack.label)) m) :
    Yields (push w) m good bad := by
  rw [Yields, push, onStack]
  by_cases hRoom : m.stack.items.size < m.stack.capacity
  · simp only [Stack.push, if_pos hRoom]
    exact hGood
  · simp only [Stack.push, if_neg hRoom]
    exact hBad (Nat.le_of_not_lt hRoom)

end

namespace Within

variable {k : Machine}

theorem pop (h : Within m 0 t) : Yields Machine.pop t (fun _ => Within m 1) (Stops k op) := by
  rw [← bind_pure Machine.pop]
  refine yields_pop_bind (fun w hTop => yields_pure ?_) (Justified.ordinary rfl)
  exact ⟨h.program, h.fp, Nat.le_trans (size_lt_of_back? hTop) h.fits⟩

theorem push (h : Within m 1 t) (w : Word) : Yields (Machine.push w) t (fun _ => Within m 0) (Stops k op) := by
  apply yields_push
  · refine ⟨h.program, h.fp, ?_⟩
    simp only [Array.size_push]
    exact h.fits
  · exact fun hFull => absurd h.fits (Nat.not_le.mpr (Nat.lt_succ_of_le hFull))

theorem target (h : Within m 0 t) (w : Word) :
    Yields (Machine.target w) t (fun next u => next ≤ m.program.words.size ∧ u = t) (Stops k op) := by
  apply yields_orFault
  · intro next hSome
    obtain ⟨_, hLt⟩ := Option.filter_eq_some_iff.mp hSome
    rw [h.program] at hLt
    exact ⟨Nat.le_of_lt (of_decide_eq_true hLt), rfl⟩
  · exact fun _ => Justified.ordinary rfl

theorem binary (h : Within m 0 t) {f : Word → Word → Except Fault Word}
    (hFaults : ∀ a b fault, f a b = .error fault → Justified k op fault) :
    Yields (Machine.binary f) t (fun _ => Within m 0) (Stops k op) := by
  have hTwo : Yields popTwo t (fun _ => Within m 1) (Stops k op) := by
    rw [popTwo_eq]
    exact h.pop.bind fun _ _ hu => hu.weaken.pop.bind fun _ _ hv => yields_pure hv
  refine hTwo.bind fun (a, b) u hu => ?_
  simp only
  split
  · exact hu.push _
  · rename_i fault hFault
    exact yields_throw (hFaults a b fault hFault)

theorem drop (h : Within m 1 t) (count : Nat) :
    Yields (onStack (Stack.drop count)) t (fun _ => Within m 1) (Stops k op) := by
  rw [Yields, onStack]
  simp only [Stack.drop]
  by_cases hCount : count ≤ t.stack.items.size
  · rw [if_pos hCount]
    refine ⟨h.program, h.fp, Nat.le_trans (Nat.add_le_add_right ?_ 1) h.fits⟩
    simp only [Array.size_shrink]
    exact Nat.min_le_right ..
  · rw [if_neg hCount]
    exact Justified.ordinary rfl

end Within

theorem Lands.of_within {next : Nat} (h : Within m 0 t) (hNext : next ≤ m.program.words.size)
    (hAccesses : m.Accesses t op) : Lands m op next t := ⟨hNext, .inl h.fp, hAccesses⟩

theorem Within.jump (h : Within m 0 t) (w : Word) (hAccesses : m.Accesses t op) :
    Yields (Machine.target w) t (Lands m op) (Stops m op) := by
  apply (h.target w).mono
  · rintro next _ ⟨hNext, rfl⟩
    exact .of_within h hNext hAccesses
  · exact fun _ _ hBad => hBad

theorem Within.jumpIf {next : Nat} (h : Within m 0 t) (expected : Word) (hNext : next ≤ m.program.words.size)
    (hAccesses : ∀ t, m.Accesses t op) : Yields (Machine.jumpIf expected next) t (Lands m op) (Stops m op) := by
  refine h.pop.bind fun destination a ha => ha.weaken.pop.bind fun condition b hb => ?_
  split
  · exact hb.weaken.jump destination (hAccesses b)
  · exact yields_pure (.of_within hb.weaken hNext (hAccesses b))

theorem yields_operators {next : Nat} {f : Word → Word → Except Fault Word} (h : Within m 0 m)
    (hNext : next ≤ m.program.words.size) (hAccesses : ∀ t, m.Accesses t op)
    (hFaults : ∀ a b fault, f a b = .error fault → Justified m op fault) :
    Yields (binary f >>= fun _ => pure next) m (Lands m op) (Stops m op) :=
  (h.binary hFaults).bind fun _ _ hu => yields_pure (.of_within hu hNext (hAccesses _))

theorem slotIndex?_lt {slot : Word} {i : Nat} (h : t.slotIndex? slot = some i) : i < t.stack.items.size := by
  simp only [slotIndex?, Option.bind_eq_bind, Option.bind_eq_some_iff, Option.ite_none_right_eq_some] at h
  obtain ⟨activation, _, hIn, hIndex⟩ := h
  cases hIndex
  omega

theorem lt_of_word {i : Nat} {w : Word} (h : m.program.words[i]? = some w) : i < m.program.words.size :=
  (Array.getElem?_eq_some_iff.mp h).1

theorem yields_push_pure {next : Nat} {w : Word} (hFits : t.stack.items.size < t.stack.capacity)
    (hLands : Lands m op next { t with stack := { t.stack with items := t.stack.items.push w } }) :
    Yields (push w >>= fun _ => pure next) t (Lands m op) (Stops m op) := by
  have hPush : Yields (push w) t (fun _ => Lands m op next) (Stops m op) :=
    yields_push hLands fun hFull => absurd hFits (Nat.not_lt.mpr hFull)
  exact hPush.bind fun _ _ hu => yields_pure hu

theorem yields_load {next : Nat} (h : m.stack.items.size ≤ m.stack.capacity) (hNext : next ≤ m.program.words.size) :
    Yields (perform next .load) m (Lands m .load) (Stops m .load) := by
  refine yields_pop_bind (fun slot hTop => ?_) (Justified.ordinary rfl)
  refine yields_slotIndex_bind (fun i hIndex => yields_get_bind ?_) (Justified.ordinary rfl)
  refine yields_orFault_bind (fun v hValue => ?_) fun hNone => ?_
  · exact yields_push_pure (Nat.lt_of_lt_of_le (size_lt_of_back? hTop) h)
      ⟨hNext, .inl rfl, slot, i, v, hTop, hIndex, hValue, rfl⟩
  · rw [Array.getElem?_eq_getElem (slotIndex?_lt hIndex)] at hNone
    cases hNone

theorem yields_store {next : Nat} (hNext : m.pc + 1 < m.program.words.size → next ≤ m.program.words.size) :
    Yields (perform next .store) m (Lands m .store) (Stops m .store) := by
  refine yields_operand_bind (fun slot hSlot => ?_) (Justified.ordinary rfl)
  refine yields_pop_bind (fun v hTop => ?_) (Justified.ordinary rfl)
  refine yields_slotIndex_bind (fun i hIndex => yields_get_bind ?_) (Justified.ordinary rfl)
  rw [if_pos (slotIndex?_lt hIndex)]
  refine yields_modify_bind (yields_pure ⟨hNext (lt_of_word hSlot), .inl rfl, ?_⟩)
  refine ⟨slot, i, v, hSlot, hTop, hIndex, Array.size_setIfInBounds, ?_⟩
  exact Array.getElem?_setIfInBounds_self_of_lt (slotIndex?_lt hIndex)

theorem yields_gload {next : Nat} (h : m.stack.items.size ≤ m.stack.capacity) (hNext : next ≤ m.program.words.size) :
    Yields (perform next .gload) m (Lands m .gload) (Stops m .gload) := by
  refine yields_pop_bind (fun w hTop => ?_) (Justified.ordinary rfl)
  refine yields_globalIndex_bind (fun i hIndex hLt => yields_get_bind ?_) fun hOut => Justified.global_of hOut
  refine yields_orFault_bind (fun v hValue => ?_) fun hNone => ?_
  · exact yields_push_pure (Nat.lt_of_lt_of_le (size_lt_of_back? hTop) h)
      ⟨hNext, .inl rfl, w, i, v, hTop, hIndex, hValue, rfl⟩
  · rw [Memory.get?, if_pos hLt] at hNone
    cases hNone

theorem yields_gstore {next : Nat} (hNext : m.pc + 1 < m.program.words.size → next ≤ m.program.words.size) :
    Yields (perform next .gstore) m (Lands m .gstore) (Stops m .gstore) := by
  refine yields_operand_bind (fun w hWord => ?_) (Justified.ordinary rfl)
  refine yields_pop_bind (fun v hTop => ?_) (Justified.ordinary rfl)
  refine yields_globalIndex_bind (fun i hIndex hLt => ?_) fun hOut => Justified.global_of hOut
  refine yields_modify_bind (yields_pure ⟨hNext (lt_of_word hWord), .inl rfl, w, i, v, hWord, hIndex, hTop, hLt, ?_⟩)
  exact (Memory.get?_set ..).trans (if_pos ⟨rfl, hLt⟩)

theorem yields_ret (h : m.stack.items.size ≤ m.stack.capacity) : Yields ret m (Lands m .ret) (Stops m .ret) := by
  refine (within_self h).pop.bind fun value t ht => yields_get_bind ?_
  split
  · exact yields_throw (Justified.ordinary rfl)
  · rename_i rest _
    have hCut : Within m 0 { t with activations := rest, stack := t.stack.truncate (t.fp + 1) } := by
      refine ⟨ht.program, ht.fp, Nat.le_trans ?_ ht.weaken.fits⟩
      simp only [Stack.truncate, Array.size_shrink]
      exact Nat.min_le_right ..
    refine yields_modify_bind (hCut.pop.bind fun fp a ha => ha.weaken.pop.bind fun back b hb => ?_)
    refine hb.weaken.pop.bind fun nargs c hc => ?_
    refine yields_count_bind (fun n hNumber => yields_modify_bind ?_) (Justified.ordinary rfl)
    -- From here on `fp` is a word that was on the stack, whatever it is.
    have hMoved : Within { m with fp := n } 1 { c with fp := n } := ⟨hc.program, rfl, hc.fits⟩
    refine (hMoved.weaken.target back).bind fun next d hd => ?_
    rw [hd.2]
    refine yields_count_bind (fun args _ => ?_) (Justified.ordinary rfl)
    refine (hMoved.drop args).bind fun _ d' hd' => (hd'.push value).bind fun _ e he => yields_pure ?_
    exact ⟨hd.1, .inr (.inr (by rw [he.fp]; exact Word.lt_of_toNat? hNumber)), trivial⟩

/-- Amid a call, with so many words pushed. -/
structure Pushed (m : Machine) (count : Nat) (t : Machine) : Prop where
  program : t.program = m.program
  pc : t.pc = m.pc
  fp : t.fp = m.fp
  size : t.stack.items.size = m.stack.items.size + count

/-- Amid a call, with `fp` on the word of the caller's. -/
structure Entered (m t : Machine) : Prop where
  program : t.program = m.program
  fp : t.fp + 1 = m.stack.items.size + 3
  size : m.stack.items.size + 3 ≤ t.stack.items.size

/-- How a call fails: `fp` has not moved, or has been set to the index of the third word. -/
def CallStops (m : Machine) (fault : Fault) (t : Machine) : Prop :=
  Justified m .call fault ∧ (t.fp = m.fp ∨ t.fp + 1 = m.stack.items.size + 3)

theorem Pushed.push {count : Nat} (h : Pushed m count t) (w : Word) :
    Yields (Machine.push w) t (fun _ => Pushed m (count + 1)) (CallStops m) := by
  apply yields_push
  · refine ⟨h.program, h.pc, h.fp, ?_⟩
    simp only [Array.size_push, h.size, Nat.add_assoc]
  · exact fun _ => ⟨⟨nofun, nofun, fun _ _ => .inr rfl, nofun⟩, .inl h.fp⟩

theorem Entered.pushZeros (h : Entered m t) (n : Nat) :
    Yields (Machine.pushZeros n) t (fun _ => Entered m) (CallStops m) := by
  induction n generalizing t with
  | zero => exact yields_pure h
  | succ n ih =>
    have hPush : Yields (Machine.push 0) t (fun _ => Entered m) (CallStops m) := by
      apply yields_push
      · refine ⟨h.program, h.fp, ?_⟩
        simp only [Array.size_push]
        exact Nat.le_succ_of_le h.size
      · exact fun _ => ⟨⟨nofun, nofun, fun _ _ => .inr rfl, nofun⟩, .inr h.fp⟩
    exact hPush.bind fun _ _ hu => ih hu

theorem yields_call (next : Nat) (m : Machine) :
    Yields (call next) m (fun next t => Lands m .call next t ∧ t.fp + 1 = m.stack.items.size + 3) (CallStops m) := by
  have hFirst : Pushed m 0 m := ⟨rfl, rfl, rfl, rfl⟩
  refine yields_operand_bind (fun destination _ => ?_) ⟨.ordinary rfl, .inl rfl⟩
  refine yields_operand_bind (fun nargs _ => ?_) ⟨.ordinary rfl, .inl rfl⟩
  refine yields_count_bind (fun args _ => ?_) ⟨.ordinary rfl, .inl rfl⟩
  refine yields_operand_bind (fun w _ => ?_) ⟨.ordinary rfl, .inl rfl⟩
  refine yields_count_bind (fun locals _ => yields_get_bind ?_) ⟨.ordinary rfl, .inl rfl⟩
  split
  · exact yields_throw ⟨.ordinary rfl, .inl rfl⟩
  · refine (hFirst.push nargs).bind fun _ a ha => ?_
    refine yields_orFault_bind (fun back _ => ?_) fun _ => ⟨.ordinary rfl, .inl ha.fp⟩
    refine (ha.push back).bind fun _ b hb => yields_get_bind ?_
    refine yields_orFault_bind (fun fp _ => ?_) fun _ => ⟨.ordinary rfl, .inl hb.fp⟩
    refine (hb.push fp).bind fun _ c hc => ?_
    have hEntered : Entered m { c with fp := c.stack.items.size - 1 } := by
      have hSize := hc.size
      exact ⟨hc.program, by simp only; omega, by simp only; omega⟩
    refine yields_modify_bind ((hEntered.pushZeros locals).bind fun _ d hd => yields_modify_bind ?_)
    have hBelow : d.fp < d.stack.items.size := by
      have hSize := hd.size
      have hFp := hd.fp
      omega
    refine yields_orFault ?_ fun _ => ⟨.ordinary rfl, .inr hd.fp⟩
    intro next hNext
    obtain ⟨_, hLt⟩ := Option.filter_eq_some_iff.mp hNext
    refine ⟨⟨?_, .inr (.inl hBelow), trivial⟩, hd.fp⟩
    rw [← hd.program]
    exact Nat.le_of_lt (of_decide_eq_true hLt)

theorem yields_perform (h : m.stack.items.size ≤ m.stack.capacity) (hPc : m.pc < m.program.words.size) (op : Opcode) :
    Yields (perform (m.pc + 1 + op.operands) op) m (Lands m op) (Stops m op) := by
  have hSelf := within_self h
  have hExact : ∀ {f : Word → Word → Option Word} {op : Opcode} (a b : Word) (fault : Fault),
      exact f a b = .error fault → Justified m op fault := by
    intro f op a b fault hError
    rw [exact] at hError
    split at hError
    · cases hError
    · cases hError
      exact Justified.ordinary rfl
  have hDivided : ∀ {f : Word → Word → Option Word} {op : Opcode} (a b : Word) (fault : Fault),
      divided f a b = .error fault → Justified m op fault := by
    intro f op a b fault hError
    rw [divided] at hError
    split at hError
    · cases hError
      exact Justified.ordinary rfl
    · exact hExact a b fault hError
  cases op with
  | add | sub | mul => exact yields_operators hSelf hPc (fun _ => trivial) hExact
  | div | mod => exact yields_operators hSelf hPc (fun _ => trivial) hDivided
  | lt | gt | leq | geq | eq | and | or => exact yields_operators hSelf hPc (fun _ => trivial) nofun
  | not => exact hSelf.pop.bind fun _ _ ha => (ha.push _).bind fun _ _ hb => yields_pure (.of_within hb hPc trivial)
  | neg =>
    refine hSelf.pop.bind fun w t ht => ?_
    refine yields_orFault_bind (fun v _ => ?_) fun _ => Justified.ordinary rfl
    exact (ht.push v).bind fun _ _ hu => yields_pure (.of_within hu hPc trivial)
  | jmp => exact hSelf.pop.bind fun w _ ha => ha.weaken.jump w trivial
  | jmpt => exact hSelf.jumpIf 1 hPc fun _ => trivial
  | jmpf => exact hSelf.jumpIf 0 hPc fun _ => trivial
  | const =>
    refine yields_operand_bind (fun w hWord => ?_) (Justified.ordinary rfl)
    have hPush : Yields (push w) m (fun _ => Lands m .const (m.pc + 2)) (Stops m .const) := by
      apply yields_push
      · exact ⟨lt_of_word hWord, .inl rfl, trivial⟩
      · exact fun _ => ⟨nofun, nofun, fun _ _ => .inl rfl, nofun⟩
    exact hPush.bind fun _ _ hu => yields_pure hu
  | load => exact yields_load h hPc
  | store => exact yields_store id
  | gload => exact yields_gload h hPc
  | gstore => exact yields_gstore id
  | print => exact hSelf.pop.bind fun _ _ ha => yields_modify_bind (yields_pure ⟨hPc, .inl ha.fp, trivial⟩)
  | pop => exact hSelf.pop.bind fun _ _ ha => yields_pure (.of_within ha.weaken hPc trivial)
  | halt => exact ⟨Nat.le_of_lt hPc, .inl rfl, trivial⟩
  | call => exact (yields_call _ m).mono (fun _ _ hGood => hGood.1) fun _ _ hBad => hBad.1
  | ret => exact yields_ret h

/-! ## Whole instructions -/

theorem lands_of_step (h : m.stack.items.size ≤ m.stack.capacity) (hStep : step m = .ok () t) :
    ∃ op : Opcode, m.program.words[m.pc]? = some op.word ∧ Lands m op t.pc t := by
  obtain ⟨op, next, t', hOp, hPerform, rfl⟩ := exists_of_step hStep
  have hLands := (yields_perform h (lt_of_word hOp) op).of_ok hPerform
  refine ⟨op, hOp, hLands.next, hLands.fp, ?_⟩
  have hAccesses := hLands.accesses
  cases op <;> exact hAccesses

theorem Justified.allowed {fault : Fault} (hOp : m.program.words[m.pc]? = some op.word) (h : Justified m op fault) :
    Report.Allowed m.program ⟨fault, m.pc⟩ := by
  refine ⟨h.readable, h.writable, fun hCode => ?_⟩
  obtain ⟨label, hFault⟩ : ∃ label, fault = .stack (.overflow label) := by
    cases fault with
    | stack fault =>
      cases fault with
      | overflow label => exact ⟨label, rfl⟩
      | underflow => cases hCode
    | _ => cases hCode
  rw [hOp]
  rcases h.overflow label hFault with rfl | rfl
  · exact .inl rfl
  · exact .inr rfl

theorem allowed_of_step_error {fault : Fault} (h : m.stack.items.size ≤ m.stack.capacity)
    (hStep : step m = .error fault t) :
    Report.Allowed m.program ⟨fault, m.pc⟩ ∧
      ∀ w i, fault = .globalOutOfRange w → w.toNat? = some i → m.globals.size ≤ i := by
  rcases exists_of_step_error hStep with ⟨_, rfl | ⟨w, rfl⟩⟩ | ⟨op, hOp, hPerform⟩
  · exact ⟨⟨nofun, nofun, nofun⟩, nofun⟩
  · exact ⟨⟨nofun, nofun, nofun⟩, nofun⟩
  · have hJustified := (yields_perform h (lt_of_word hOp) op).of_error hPerform
    exact ⟨hJustified.allowed hOp, hJustified.global⟩

theorem fp_call (hOp : m.program.words[m.pc]? = some Opcode.call.word) :
    (state (step m)).fp = m.fp ∨ (state (step m)).fp + 1 = m.stack.items.size + 3 := by
  have hCall := yields_call (m.pc + 1 + Opcode.call.operands) m
  rcases step_cases m with ⟨hNone, _⟩ | ⟨w, hWord, hNone, _⟩ | ⟨w, op, hWord, hSome, hStep⟩
  · cases hNone.symm.trans hOp
  · cases hWord.symm.trans hOp
    cases (Opcode.ofWord?_word .call).symm.trans hNone
  · cases hWord.symm.trans hOp
    cases (Opcode.ofWord?_word .call).symm.trans hSome
    rw [hStep]
    cases hPerform : call (m.pc + 1 + Opcode.call.operands) m with
    | ok next t =>
      right
      rw [bind_of_ok (x := perform _ .call) hPerform]
      exact (hCall.of_ok hPerform).2
    | error fault t =>
      rw [bind_of_error (x := perform _ .call) hPerform]
      exact (hCall.of_error hPerform).2

/-! ## Whole sessions -/

/-- What no program breaks. -/
structure Bounded (program : Program) (limits : Limits) (m : Machine) : Prop where
  program : m.program = program
  capacity : m.stack.capacity = limits.stack
  fits : m.stack.items.size ≤ m.stack.capacity
  globals : m.globals.size = limits.globals
  pc : m.pc ≤ m.program.words.size
  fault : ∀ r, m.fault = some r → r.Allowed m.program

/-- `fp` is an index of the stack or has been read from a word. -/
def Anchored (m : Machine) : Prop := m.halted = true ∨ m.fp < 2 ^ 61 ∨ m.fp < m.stack.items.size

/-- Every index that the next instruction uses is in range. -/
structure Indexed (m : Machine) : Prop where
  opcode : ∀ w, m.program.words[m.pc]? = some w →
    (∃ (n : Nat) (op : Opcode), w.toInt = n + 1 ∧ Opcode.all[n]? = some op ∧
        step m = (perform (m.pc + 1 + op.operands) op >>= fun next => modify fun m => { m with pc := next }) m) ∨
      ((w.toInt < 1 ∨ (Opcode.all.size : Int) < w.toInt) ∧ step m = .error (.unknownOpcode w) m)
  accesses : ∀ op t, m.program.words[m.pc]? = some op.word → step m = .ok () t → m.Accesses t op
  global : ∀ w i t, step m = .error (.globalOutOfRange w) t → w.toNat? = some i → m.globals.size ≤ i

/-- No number that the next instruction computes leaves 64 bits, and a call takes 1 from a positive length. -/
structure Computes (m : Machine) : Prop where
  pc : ∀ op : Opcode, m.pc + 1 + op.operands < 2 ^ 64
  fp : m.fp + 1 < 2 ^ 64
  slot : ∀ slot : Word, -2 ^ 63 ≤ (m.fp : Int) + slot.toInt - 2 ∧ (m.fp : Int) + slot.toInt + 1 < 2 ^ 63
  call : m.program.words[m.pc]? = some Opcode.call.word →
    (state (step m)).fp = m.fp ∨ (state (step m)).fp + 1 = m.stack.items.size + 3

variable {program : Program} {limits : Limits}

theorem keptBetween_bounded : KeptBetween (Bounded program limits) where
  output _ h := ⟨h.program, h.capacity, h.fits, h.globals, h.pc, h.fault⟩
  fault _ h := ⟨h.program, h.capacity, h.fits, h.globals, h.pc, nofun⟩
  interrupted _ _ h := ⟨h.program, h.capacity, h.fits, h.globals, h.pc, h.fault⟩
  halted _ h := ⟨h.program, h.capacity, h.fits, h.globals, h.pc, h.fault⟩

theorem keptBetween_anchored : KeptBetween Anchored where
  output _ h := h
  fault _ h := h
  interrupted _ _ h := h
  halted _ _ := .inl rfl

theorem Bounded.step (h : m.Bounded program limits) (hStep : Machine.step m = .ok () t) :
    t.Bounded program limits := by
  obtain ⟨hSteady, _⟩ := steady_of_step hStep
  obtain ⟨op, _, hLands⟩ := lands_of_step h.fits hStep
  have hProgram : t.program = m.program := hSteady.program
  refine
    { program := hProgram.trans h.program
      capacity := hSteady.stack.capacity.trans h.capacity
      fits := hSteady.stack.fits h.fits
      globals := hSteady.globals.size.trans h.globals
      pc := by rw [hProgram]; exact hLands.next
      fault := ?_ }
  intro r hFault
  rw [hProgram]
  exact h.fault r (hSteady.fault.symm.trans hFault)

theorem Bounded.step_error {fault : Fault} (h : m.Bounded program limits)
    (hStep : Machine.step m = .error fault t) :
    Bounded program limits { t with halted := true, fault := some ⟨fault, t.pc⟩ } := by
  have hSteady := steady_of_step_error hStep
  have hAllowed := (allowed_of_step_error h.fits hStep).1
  refine
    { program := hSteady.program.trans h.program
      capacity := hSteady.stack.capacity.trans h.capacity
      fits := hSteady.stack.fits h.fits
      globals := hSteady.globals.size.trans h.globals
      pc := by rw [hSteady.pc, hSteady.program]; exact h.pc
      fault := ?_ }
  rintro r hFault
  cases hFault
  rw [hSteady.pc, hSteady.program]
  exact hAllowed

theorem bounded_start (program : Program) (limits : Limits) : (start program limits).Bounded program limits :=
  ⟨rfl, rfl, Nat.zero_le _, rfl, Nat.zero_le _, nofun⟩

theorem Bounded.indexed (h : m.Bounded program limits) : m.Indexed where
  opcode := by
    intro w hWord
    rcases step_cases m with ⟨hNone, _⟩ | ⟨w', hWord', hNone, hStep⟩ | ⟨w', op, hWord', hSome, hStep⟩
    · cases hNone.symm.trans hWord
    · cases hWord'.symm.trans hWord
      exact .inr ⟨Opcode.toInt_of_ofWord?_none hNone, hStep⟩
    · cases hWord'.symm.trans hWord
      obtain ⟨n, hNumber, hIndex⟩ := Opcode.index_of_ofWord? hSome
      exact .inl ⟨n, op, by rw [Word.toInt_of_toNat? hNumber]; rfl, hIndex, hStep⟩
  accesses := by
    intro op t hOp hStep
    obtain ⟨op', hOp', hLands⟩ := lands_of_step h.fits hStep
    have hSame : op' = op := Opcode.eq_of_word_eq (Option.some.inj (hOp'.symm.trans hOp))
    rw [← hSame]
    exact hLands.accesses
  global := fun w i _ hStep => (allowed_of_step_error h.fits hStep).2 w i rfl

theorem Bounded.computes (h : m.Bounded program limits) (hProgram : program.words.size < 2 ^ 61)
    (hFp : m.fp < 2 ^ 61) : m.Computes where
  pc := by
    intro op
    have hPc := h.pc
    rw [h.program] at hPc
    have hOperands : op.operands ≤ 3 := by cases op <;> decide
    omega
  fp := by omega
  slot := by
    intro slot
    have hLow := slot.le_toInt
    have hHigh := slot.toInt_lt
    omega
  call := fp_call

theorem Anchored.fp_lt (h : m.Anchored) (hRunning : m.halted = false) (hStack : m.stack.items.size < 2 ^ 61) :
    m.fp < 2 ^ 61 := by
  rcases h with hHalted | hFp | hFp
  · cases hRunning.symm.trans hHalted
  · exact hFp
  · exact Nat.lt_trans hFp hStack

/-- No words of a program and no words on its stack break the machine. The stack keeps within its capacity and there are
as many global slots as before. A failed slot check is the only reason why a slot is not read or written, and only a
constant or a call overflows the stack. Indices are in range, and with fewer than 2 ^ 61 words in the program and on the
stack, as in any array of words, numbers stay within 64 bits. -/
theorem bounds_of_session (program : Program) (limits : Limits) (calls : List Call) :
    let first := start program limits
    (first.after calls).stack.items.size ≤ limits.stack ∧ (first.after calls).globals.size = limits.globals ∧
      (∀ r ∈ Event.reports (first.events calls), r.Allowed program) ∧
      (∀ s ∈ first.tried calls, s.Indexed) ∧
      (program.words.size < 2 ^ 61 → (∀ s ∈ first.tried calls, s.stack.items.size < 2 ^ 61) →
        ∀ s ∈ first.tried calls, s.Computes) := by
  intro first
  have hFirst : first.Settled := settled_start program limits
  obtain ⟨hLast, hTried, hReports⟩ := hFirst.session_invariant keptBetween_bounded (bounded_start program limits) calls
    (fun s _ hs t hStep => hs.step hStep) (fun s _ hs fault t hStep => hs.step_error hStep)
  refine ⟨?_, hLast.globals, ?_, fun s hMem => (hTried s hMem).indexed, ?_⟩
  · rw [← hLast.capacity]
    exact hLast.fits
  · intro r hMem
    rcases hReports r hMem with hInterrupted | ⟨s, hs, hFault⟩
    · obtain ⟨fault, address⟩ := r
      cases hInterrupted
      exact ⟨nofun, nofun, nofun⟩
    · rw [← hs.program]
      exact hs.fault r hFault
  · intro hProgram hStack
    obtain ⟨_, hAnchored, _⟩ := hFirst.session_invariant keptBetween_anchored (.inr (.inl (Nat.two_pow_pos 61))) calls
      (by
        intro s hMem hs t hStep
        have hFp := hs.fp_lt (running_of_mem_tried hMem) (hStack s hMem)
        obtain ⟨op, _, hLands⟩ := lands_of_step (hTried s hMem).fits hStep
        rcases hLands.fp with hSame | hIndex | hWord
        · exact .inr (.inl (by omega))
        · exact .inr (.inr hIndex)
        · exact .inr (.inl (by omega)))
      (fun _ _ _ _ _ _ => .inl rfl)
    intro s hMem
    exact (hTried s hMem).computes hProgram ((hAnchored s hMem).fp_lt (running_of_mem_tried hMem) (hStack s hMem))

end Machine

end Vee
