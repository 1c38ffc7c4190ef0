import Vee.Proofs.Machine.Frame

/-! # Machines that follow an evaluation

A machine follows an evaluation if it comes to a state that fits the result: where the evaluation gives a
value, the machine reaches a snapshot that holds it; where the evaluation faults, the machine faults alike; and
where the evaluation runs out of fuel, the machine runs for a number of steps. In all three cases the machine may
stop before, since its limits do not suffice, and has then printed a part of what the evaluation prints. The
rules below follow the evaluator from one action to the next.
-/

namespace Vee

set_option autoImplicit false

namespace Eval

/-- The text that a machine prints for words. -/
def text (printed : List Word) : String := String.join (printed.map fun w => w.text ++ "\n")

theorem text_concat (printed : List Word) (w : Word) : text (printed ++ [w]) = text printed ++ w.text ++ "\n" := by
  rw [text, text, List.map_append, String.join_append]
  simp [String.join, String.append_assoc]

theorem unary_fault {op : UnaryOp} {a : Word} {fault : Fault} (h : unary op a = .error fault) :
    fault = .overflow ∨ fault = .divisionByZero := by
  cases op with
  | not => cases h
  | neg =>
    rw [unary] at h
    split at h
    · cases h
    · cases h
      exact .inl rfl

theorem checked_fault {result : Option Word} {fault : Fault} (h : checked result = .error fault) :
    fault = .overflow := by
  cases result with
  | none => exact (Except.error.inj h).symm
  | some w => cases h

theorem binary_fault {op : BinaryOp} {a b : Word} {fault : Fault} (h : binary op a b = .error fault) :
    fault = .overflow ∨ fault = .divisionByZero := by
  cases op
  case add | sub | mul => exact .inl (checked_fault h)
  case div | mod =>
    rw [binary] at h
    split at h
    · cases h
      exact .inr rfl
    · exact .inl (checked_fault h)
  all_goals cases h

/-- An action takes back nothing that was printed. -/
abbrev Grows {α : Type} (x : M α) : Prop := Effect.Appends Store.printed x

end Eval

namespace Machine

open Eval (Store Stuck M)

/-- So many instructions lead from one snapshot to another. -/
inductive Steps (S : Setting) : Nat → Snapshot → Snapshot → Prop
  | refl (s : Snapshot) : Steps S 0 s s
  | step {n : Nat} {s t u : Snapshot} (hStep : step (s.machine S) = .ok () (t.machine S)) (hRest : Steps S n t u) :
      Steps S (n + 1) s u

section

variable {S : Setting} {s t u : Snapshot}

theorem Steps.trans {m n : Nat} (hFirst : Steps S m s t) (hSecond : Steps S n t u) : Steps S (m + n) s u := by
  induction hFirst with
  | refl => simpa using hSecond
  | step hStep _ ih =>
    rw [Nat.add_right_comm]
    exact .step hStep (ih hSecond)

theorem Steps.shorten {m n : Nat} (h : Steps S n s u) (hLe : m ≤ n) : ∃ t, Steps S m s t := by
  induction h generalizing m with
  | refl s =>
    obtain rfl : m = 0 := by omega
    exact ⟨s, .refl s⟩
  | step hStep _ ih =>
    cases m with
    | zero => exact ⟨_, .refl _⟩
    | succ m =>
      obtain ⟨t, hSteps⟩ := ih (Nat.le_of_succ_le_succ hLe)
      exact ⟨t, .step hStep hSteps⟩

/-- The machine stops, since its limits do not suffice, after it has printed a part of the words. -/
def StopsShort (S : Setting) (s : Snapshot) (printed : List Word) : Prop :=
  ∃ n t part, Steps S n s t ∧ Exhausted S step t ∧ t.output = Eval.text part ∧ part <+: printed

/-- The machine comes to a state that fits the result of an evaluation. -/
def Reaches (S : Setting) (rounds : Nat) (s : Snapshot) {α : Type} (post : α → Store → Snapshot → Prop) :
    EStateM.Result Stuck Store α → Prop
  | .ok a store => ∃ n t, Steps S n s t ∧ post a store t
  | .error (.fault fault) store =>
    ∃ n t m, Steps S n s t ∧ step (t.machine S) = .error fault m ∧ m.output = t.output ∧
      t.output = Eval.text store.printed ∧ (fault = .overflow ∨ fault = .divisionByZero)
  | .error .outOfFuel _ => ∃ t, Steps S rounds s t
  | .error (.undefined _) _ => False

/-- The machine follows an action of the evaluator from a store. An evaluation that runs out of fuel is followed
for so many rounds. -/
def Follows (S : Setting) (rounds : Nat) (s : Snapshot) {α : Type} (x : M α) (store : Store)
    (post : α → Store → Snapshot → Prop) : Prop :=
  StopsShort S s (Effect.state (x store)).printed ∨ Reaches S rounds s post (x store)

section

variable {α β : Type} {post : α → Store → Snapshot → Prop} {m n : Nat}

theorem StopsShort.before {printed longer : List Word} (hSteps : Steps S n s t) (h : StopsShort S t printed)
    (hPrefix : printed <+: longer) : StopsShort S s longer := by
  obtain ⟨k, u, part, hMore, hStop, hOutput, hPart⟩ := h
  exact ⟨n + k, u, part, hSteps.trans hMore, hStop, hOutput, hPart.trans hPrefix⟩

theorem Reaches.before {rounds : Nat} {result : EStateM.Result Stuck Store α} (hSteps : Steps S n s t)
    (h : Reaches S m t post result) (hLe : rounds ≤ n + m) : Reaches S rounds s post result := by
  cases result with
  | ok a store =>
    obtain ⟨k, u, hMore, hPost⟩ := h
    exact ⟨n + k, u, hSteps.trans hMore, hPost⟩
  | error e store =>
    cases e with
    | fault fault =>
      obtain ⟨k, u, machine, hMore, hRest⟩ := h
      exact ⟨n + k, u, machine, hSteps.trans hMore, hRest⟩
    | undefined name => exact h
    | outOfFuel =>
      obtain ⟨u, hMore⟩ := h
      exact (hSteps.trans hMore).shorten hLe

theorem Follows.before {rounds : Nat} {x : M α} {store : Store} (hSteps : Steps S n s t)
    (h : Follows S m t x store post) (hLe : rounds ≤ n + m) : Follows S rounds s x store post := by
  rcases h with hStops | hReaches
  · exact .inl (hStops.before hSteps List.prefix_rfl)
  · exact .inr (hReaches.before hSteps hLe)

theorem Follows.bind {x : M β} {f : β → M α} {store : Store} {mid : β → Store → Snapshot → Prop}
    (hFirst : Follows S n s x store mid) (hGrows : ∀ b, Eval.Grows (f b))
    (hSecond : ∀ b later t, x store = .ok b later → mid b later t → Follows S n t (f b) later post) :
    Follows S n s (x >>= f) store post := by
  rw [Follows] at hFirst ⊢
  cases hResult : x store with
  | ok b later =>
    rw [hResult] at hFirst
    rw [Effect.bind_of_ok hResult]
    rcases hFirst with hStops | ⟨k, t, hSteps, hMid⟩
    · exact .inl (hStops.before (.refl s) (hGrows b later))
    · exact (hSecond b later t hResult hMid).before hSteps (Nat.le_add_left n k)
  | error e later =>
    rw [hResult] at hFirst
    rw [Effect.bind_of_error hResult]
    rcases hFirst with hStops | hReaches
    · exact .inl hStops
    · right
      cases e <;> exact hReaches

/-- Instructions behind an action that the evaluator does not know of. -/
theorem Follows.andThen {x : M α} {store : Store} {mid : α → Store → Snapshot → Prop}
    (hFirst : Follows S n s x store mid)
    (hSecond : ∀ a later t, mid a later t → Follows S n t (Pure.pure a) later post) : Follows S n s x store post := by
  have hBind : Follows S n s (x >>= Pure.pure) store post :=
    hFirst.bind (fun a => Effect.appends_pure a) fun a later t _ => hSecond a later t
  rwa [bind_pure] at hBind

theorem Follows.pure {a : α} {store : Store} (h : post a store s) : Follows S n s (Pure.pure a) store post :=
  .inr ⟨0, s, .refl s, h⟩

theorem Follows.of_ok {x : M α} {a : α} {store later : Store} (h : x store = .ok a later) (hPost : post a later s) :
    Follows S n s x store post := by
  rw [Follows, h]
  exact .inr ⟨0, s, .refl s, hPost⟩

/-- What the evaluator does without the machine. -/
theorem Follows.silent {x : M β} {f : β → M α} {b : β} {store later : Store} (h : x store = .ok b later)
    (hRest : Follows S n s (f b) later post) : Follows S n s (x >>= f) store post := by
  rw [Follows, Effect.bind_of_ok h]
  exact hRest

theorem Follows.stop {x : M α} {store : Store} (hStop : Exhausted S Machine.step s)
    (hOutput : s.output = Eval.text store.printed) (hGrows : Eval.Grows x) : Follows S n s x store post :=
  .inl ⟨0, s, store.printed, .refl s, hStop, hOutput, hGrows store⟩

/-- An instruction in front of what follows the action counts as a round. -/
theorem Follows.step {x : M α} {store : Store} (hStep : Leads S step s () t)
    (hOutput : s.output = Eval.text store.printed) (hGrows : Eval.Grows x) (hLe : n ≤ m + 1)
    (h : Follows S m t x store post) : Follows S n s x store post := by
  rcases hStep with hStep | hStop
  · exact h.before (.step hStep (.refl t)) (by omega)
  · exact .stop hStop hOutput hGrows

/-- An instruction that computes what the evaluator computes, or faults alike. -/
theorem Follows.lift {x : Except Fault Word} {store : Store} {post : Word → Store → Snapshot → Prop}
    (hOutput : s.output = Eval.text store.printed)
    (hValue : ∀ w, x = .ok w → ∃ t, Leads S Machine.step s () t ∧ Follows S n t (Pure.pure w) store post)
    (hFault : ∀ fault, x = .error fault → (fault = .overflow ∨ fault = .divisionByZero) ∧
      ∃ m, Machine.step (s.machine S) = .error fault m ∧ m.output = s.output) :
    Follows S n s (Eval.lift x) store post := by
  cases x with
  | ok w =>
    obtain ⟨t, hStep, hRest⟩ := hValue w rfl
    exact .step hStep hOutput (Effect.appends_pure w) (Nat.le_succ n) hRest
  | error fault =>
    obtain ⟨hKind, m, hStep, hSame⟩ := hFault fault rfl
    exact .inr ⟨0, s, m, .refl s, hStep, hSame, hOutput, hKind⟩

end

end

end Machine

end Vee
