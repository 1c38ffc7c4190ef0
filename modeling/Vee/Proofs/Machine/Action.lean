import Vee.Machine.Run
import Vee.Proofs.Effect

/-! # Actions on running machines

A snapshot is what changes while a machine runs. An action leads from one snapshot to another unless the
machine runs out of what its limits grant: room on the stack, words for stack indices, global slots. No other
failure is allowed for here, so that a proof that an action leads somewhere excludes all of them.
-/

namespace Vee

set_option autoImplicit false

theorem Word.toInt_of_ofInt? {n : Int} {w : Word} (h : Word.ofInt? n = some w) : w.toInt = n := by
  rw [Word.ofInt?] at h
  split at h
  · cases h
    exact Int32.toInt_ofInt_of_le (by omega) (by omega)
  · cases h

theorem Word.toNat?_of_ofNat? {n : Nat} {w : Word} (h : Word.ofNat? n = some w) : w.toNat? = some n := by
  rw [Word.toNat?, Word.toInt_of_ofInt? h]

theorem Word.text_of_toNat? {w : Word} {n : Nat} (h : w.toNat? = some n) : w.text = n.repr := by
  rw [Word.text, Word.toInt_of_toNat? h]
  rfl

theorem Word.lt_of_ofNat? {n : Nat} {w : Word} (h : Word.ofNat? n = some w) : n < 2147483648 := by
  rw [Word.ofNat?, Word.ofInt?] at h
  split at h
  · omega
  · cases h

/-- A program, the limits of the machine that runs it, and the names of its global variables by slot. -/
structure Setting where
  program : Program
  limits : Limits
  globals : List String

/-- The faults of a machine whose limits do not suffice. A stack index is no word only on a stack of more than
2^31 words. -/
def Fault.Exhausts (S : Setting) : Fault → Prop
  | .stack (.overflow _) => True
  | .overflow => 2147483648 ≤ S.limits.stack
  | .globalOutOfRange w => ∃ index, w.toNat? = some index ∧ S.limits.globals ≤ index ∧ index < S.globals.length
  | _ => False

namespace Machine

open Effect

theorem of_orFault_ok {α : Type} {o : Option α} {fault : Fault} {a : α} {m t : Machine}
    (h : orFault fault o m = .ok a t) : o = some a ∧ t = m := by
  cases o with
  | none => cases h
  | some b =>
    cases h
    exact ⟨rfl, rfl⟩

/-- What changes while a machine runs. The stack stands with its bottom first. -/
structure Snapshot where
  pc : Nat
  fp : Nat
  stack : List Word
  globals : Memory
  activations : List Activation
  output : String

/-- The running machine of a snapshot. -/
def Snapshot.machine (S : Setting) (s : Snapshot) : Machine :=
  { program := S.program
    limits := S.limits
    stack := { capacity := S.limits.stack, label := "OPERAND STACK", items := s.stack.toArray }
    globals := s.globals
    activations := s.activations
    pc := s.pc
    fp := s.fp
    output := s.output }

/-- An action fails since the limits do not suffice, and prints nothing. -/
def Exhausted (S : Setting) {α : Type} (action : Action α) (s : Snapshot) : Prop :=
  ∃ fault m, action (s.machine S) = .error fault m ∧ m.output = s.output ∧ fault.Exhausts S

/-- An action gives a result and a snapshot, unless the limits do not suffice. -/
def Leads (S : Setting) {α : Type} (action : Action α) (s : Snapshot) (a : α) (t : Snapshot) : Prop :=
  action (s.machine S) = .ok a (t.machine S) ∨ Exhausted S action s

section

variable {S : Setting} {α β : Type} {s t u : Snapshot}

theorem Exhausted.bind {x : Action α} (f : α → Action β) (h : Exhausted S x s) :
    Exhausted S (x >>= f) s := by
  obtain ⟨fault, m, hFail, hRest⟩ := h
  exact ⟨fault, m, bind_of_error hFail, hRest⟩

theorem Leads.bind {x : Action α} {f : α → Action β} {a : α} {b : β} (hFirst : Leads S x s a t)
    (hOutput : t.output = s.output) (hSecond : Leads S (f a) t b u) : Leads S (x >>= f) s b u := by
  rcases hFirst with hFirst | hFirst
  · rw [Leads, Exhausted, bind_of_ok hFirst, ← hOutput]
    exact hSecond
  · exact .inr (hFirst.bind f)

theorem Leads.bind_exhausted {x : Action α} {f : α → Action β} {a : α} (hFirst : Leads S x s a t)
    (hOutput : t.output = s.output) (hSecond : Exhausted S (f a) t) : Exhausted S (x >>= f) s := by
  rcases hFirst with hFirst | hFirst
  · rw [Exhausted, bind_of_ok hFirst, ← hOutput]
    exact hSecond
  · exact hFirst.bind f

theorem leads_pure (a : α) : Leads S (pure a) s a s := .inl rfl

theorem leads_orFault {a : α} {fault : Fault} {o : Option α} (h : o = some a) :
    Leads S (orFault fault o) s a s := by
  subst h
  exact .inl rfl

theorem leads_push (w : Word) : Leads S (push w) s () { s with stack := s.stack ++ [w] } := by
  by_cases hRoom : s.stack.length < S.limits.stack
  · left
    simp [push, onStack, Stack.push, Snapshot.machine, hRoom]
  · right
    refine ⟨.stack (.overflow "OPERAND STACK"), s.machine S, ?_, rfl, trivial⟩
    simp [push, onStack, Stack.push, Snapshot.machine, hRoom]

theorem pop_machine {rest : List Word} {w : Word} (h : s.stack = rest ++ [w]) :
    pop (s.machine S) = .ok w ({ s with stack := rest }.machine S) := by
  simp [pop, onStack, Stack.pop, Snapshot.machine, h]

theorem leads_pop {rest : List Word} {w : Word} (h : s.stack = rest ++ [w]) :
    Leads S pop s w { s with stack := rest } := .inl (pop_machine h)

theorem popTwo_machine {rest : List Word} {a b : Word} (h : s.stack = rest ++ [a, b]) :
    popTwo (s.machine S) = .ok (a, b) ({ s with stack := rest }.machine S) := by
  have hPop : (rest ++ [a, b]).toArray.pop = (rest ++ [a]).toArray := by
    rw [List.pop_toArray, List.dropLast_append_of_ne_nil (by simp)]
    rfl
  simp [popTwo, onStack, Stack.popTwo, Stack.pop, Snapshot.machine, h, hPop, Bind.bind, EStateM.bind, Pure.pure,
    EStateM.pure]

theorem leads_get : Leads S get s (s.machine S) s := .inl rfl

theorem leads_operand {offset : Nat} {w : Word} (h : S.program.words[s.pc + offset]? = some w) :
    Leads S (operand offset) s w s := leads_orFault h

theorem leads_count {w : Word} {n : Nat} (h : w.toNat? = some n) : Leads S (count w) s n s := leads_orFault h

theorem leads_ofCount {n : Nat} {w : Word} (h : Word.ofNat? n = some w) : Leads S (ofCount n) s w s :=
  leads_orFault h

theorem leads_target {w : Word} {n : Nat} (h : w.toNat? = some n) (hSize : n < S.program.words.size) :
    Leads S (target w) s n s := by
  refine leads_orFault ?_
  simp [Snapshot.machine, h, hSize]

theorem leads_modify (f : Machine → Machine) (h : f (s.machine S) = t.machine S) :
    Leads S (modify f) s () t := by
  left
  change EStateM.Result.ok () (f (s.machine S)) = _
  rw [h]

theorem leads_pushZeros (n : Nat) :
    Leads S (pushZeros n) s () { s with stack := s.stack ++ List.replicate n 0 } := by
  induction n generalizing s with
  | zero =>
    rw [List.replicate_zero, List.append_nil]
    exact leads_pure ()
  | succ n ih =>
    rw [List.replicate_succ, List.append_cons]
    exact (leads_push 0).bind rfl ih

end

end Machine

end Vee
