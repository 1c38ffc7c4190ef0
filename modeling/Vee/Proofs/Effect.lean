import Mathlib

/-! # Actions with state and failure

How a sequence of two actions succeeds or fails, actions that take their state along a relation, also where they
fail, actions to which a part of their state makes no difference, and pairs of actions that go the same way from
related states.
-/

namespace Vee.Effect

set_option autoImplicit false

variable {ε σ α β γ : Type}

section

variable {x : EStateM ε σ α} {f : α → EStateM ε σ β} {a : α} {b : β} {s t u : σ} {e : ε}

theorem bind_of_ok (h : x s = .ok a t) : (x >>= f) s = f a t := by
  simp only [Bind.bind, EStateM.bind, h]

theorem bind_of_error (h : x s = .error e t) : (x >>= f) s = .error e t := by
  simp only [Bind.bind, EStateM.bind, h]

theorem exists_of_bind_ok (h : (x >>= f) s = .ok b u) : ∃ a t, x s = .ok a t ∧ f a t = .ok b u := by
  cases hFirst : x s with
  | ok a t => exact ⟨a, t, rfl, (bind_of_ok hFirst).symm.trans h⟩
  | error e t => cases (bind_of_error hFirst).symm.trans h

theorem modifyGet_eq {f : σ → α × σ} (h : f s = (a, t)) : (modifyGet f : EStateM ε σ α) s = .ok a t := by
  change EStateM.Result.ok (f s).1 (f s).2 = _
  rw [h]

theorem exists_of_modifyGet_bind {g : σ → α × σ} (h : (modifyGet g >>= f) s = .ok b u) :
    ∃ a t, g s = (a, t) ∧ f a t = .ok b u := by
  obtain ⟨a, t, hFirst, hSecond⟩ := exists_of_bind_ok h
  change EStateM.Result.ok (g s).1 (g s).2 = _ at hFirst
  injection hFirst with hValue hState
  exact ⟨a, t, Prod.ext hValue hState, hSecond⟩

end

theorem exists_of_except_bind {x : Except ε α} {f : α → Except ε β} {b : β} (h : (x >>= f) = .ok b) :
    ∃ a, x = .ok a ∧ f a = .ok b := by
  cases x with
  | error e => cases h
  | ok a => exact ⟨a, rfl, h⟩

theorem exists_of_mem_mapM {f : α → Except ε β} {xs : List α} {ys : List β} {y : β} (h : xs.mapM f = .ok ys)
    (hMem : y ∈ ys) : ∃ x ∈ xs, f x = .ok y := by
  induction xs generalizing ys with
  | nil =>
    cases h
    cases hMem
  | cons x xs ih =>
    rw [List.mapM_cons] at h
    obtain ⟨first, hFirst, h⟩ := exists_of_except_bind h
    obtain ⟨rest, hRest, h⟩ := exists_of_except_bind h
    cases h
    rcases List.mem_cons.mp hMem with rfl | hLater
    · exact ⟨x, List.mem_cons_self, hFirst⟩
    · obtain ⟨z, hSource, hValue⟩ := ih hRest hLater
      exact ⟨z, List.mem_cons_of_mem _ hSource, hValue⟩

/-- The state behind an action. -/
def state : EStateM.Result ε σ α → σ
  | .ok _ s => s
  | .error _ s => s

/-! ## Actions along a relation -/

/-- A relation that can be followed for any number of steps. -/
class Chain (R : σ → σ → Prop) : Prop where
  refl (s : σ) : R s s
  trans {s t u : σ} (hFirst : R s t) (hSecond : R t u) : R s u

/-- An action takes its state along a relation, also where it fails. -/
def Along (R : σ → σ → Prop) (x : EStateM ε σ α) : Prop := ∀ s, R s (state (x s))

section

variable {R : σ → σ → Prop} [Chain R]

theorem along_pure (a : α) : Along R (pure a : EStateM ε σ α) := Chain.refl

theorem along_throw (e : ε) : Along R (throw e : EStateM ε σ α) := Chain.refl

theorem along_get : Along R (get : EStateM ε σ σ) := Chain.refl

theorem Along.bind {x : EStateM ε σ α} {f : α → EStateM ε σ β} (hFirst : Along R x)
    (hSecond : ∀ a, Along R (f a)) : Along R (x >>= f) := by
  intro s
  have hStep := hFirst s
  cases hResult : x s with
  | ok a t =>
    rw [hResult] at hStep
    rw [bind_of_ok hResult]
    exact Chain.trans hStep (hSecond a t)
  | error e t =>
    rw [hResult] at hStep
    rw [bind_of_error hResult]
    exact hStep

end

/-- An action takes nothing back from a list in its state. -/
def Appends (list : σ → List γ) (x : EStateM ε σ α) : Prop := ∀ s, list s <+: list (state (x s))

section

variable {list : σ → List γ}

instance : Chain fun s t => list s <+: list t := ⟨fun _ => List.prefix_rfl, List.IsPrefix.trans⟩

theorem appends_pure (a : α) : Appends list (pure a : EStateM ε σ α) := fun _ => List.prefix_rfl

theorem appends_throw (e : ε) : Appends list (throw e : EStateM ε σ α) := fun _ => List.prefix_rfl

theorem appends_get : Appends list (get : EStateM ε σ σ) := fun _ => List.prefix_rfl

theorem appends_modify {f : σ → σ} (h : ∀ s, list s <+: list (f s)) :
    Appends list (modify f : EStateM ε σ PUnit) := h

theorem appends_modifyGet {f : σ → α × σ} (h : ∀ s, list s <+: list (f s).2) :
    Appends list (modifyGet f : EStateM ε σ α) := by
  intro s
  exact h s

theorem Appends.bind {x : EStateM ε σ α} {f : α → EStateM ε σ β} (hFirst : Appends list x)
    (hSecond : ∀ a, Appends list (f a)) : Appends list (x >>= f) :=
  Along.bind (R := fun s t => list s <+: list t) hFirst hSecond

end

/-! ## What an action yields -/

/-- An action ends with a value and a state that are good, or fails with a reason and a state that are bad. -/
def Yields (x : EStateM ε σ α) (s : σ) (good : α → σ → Prop) (bad : ε → σ → Prop) : Prop :=
  match x s with
  | .ok a t => good a t
  | .error e t => bad e t

section

variable {x : EStateM ε σ α} {f : α → EStateM ε σ β} {s : σ} {good better : α → σ → Prop} {bad worse : ε → σ → Prop}
    {final : β → σ → Prop}

theorem Yields.of_ok {a : α} {t : σ} (h : Yields x s good bad) (hResult : x s = .ok a t) : good a t := by
  rw [Yields, hResult] at h
  exact h

theorem Yields.of_error {e : ε} {t : σ} (h : Yields x s good bad) (hResult : x s = .error e t) : bad e t := by
  rw [Yields, hResult] at h
  exact h

theorem Yields.mono (h : Yields x s good bad) (hGood : ∀ a t, good a t → better a t)
    (hBad : ∀ e t, bad e t → worse e t) : Yields x s better worse := by
  rw [Yields] at h ⊢
  split
  · rename_i a t hResult
    rw [hResult] at h
    exact hGood a t h
  · rename_i e t hResult
    rw [hResult] at h
    exact hBad e t h

theorem Yields.bind (hFirst : Yields x s good bad) (hSecond : ∀ a t, good a t → Yields (f a) t final bad) :
    Yields (x >>= f) s final bad := by
  cases hResult : x s with
  | ok a t =>
    rw [Yields, bind_of_ok hResult]
    exact hSecond a t (hFirst.of_ok hResult)
  | error e t =>
    rw [Yields, bind_of_error hResult]
    exact hFirst.of_error hResult

end

/-! ## Actions that do not see part of the state -/

/-- The result of an action with its state changed. -/
def mapState (g : σ → σ) : EStateM.Result ε σ α → EStateM.Result ε σ α
  | .ok a s => .ok a (g s)
  | .error e s => .error e (g s)

/-- It makes no difference whether the state is changed before an action or behind it, unless the action fails for a
reason that is excused. -/
def Commutes (excused : ε → Prop) (g : σ → σ) (x : EStateM ε σ α) : Prop :=
  ∀ s, x (g s) = mapState g (x s) ∨ ∃ e t, x s = .error e t ∧ excused e

section

variable {excused : ε → Prop} {g : σ → σ}

theorem commutes_pure (a : α) : Commutes excused g (pure a : EStateM ε σ α) := fun _ => .inl rfl

theorem commutes_throw (e : ε) : Commutes excused g (throw e : EStateM ε σ α) := fun _ => .inl rfl

theorem Commutes.bind_of {x : EStateM ε σ α} {f : α → EStateM ε σ β} (hFirst : Commutes excused g x)
    (hSecond : ∀ s a t, x s = .ok a t →
      f a (g t) = mapState g (f a t) ∨ ∃ e u, f a t = .error e u ∧ excused e) : Commutes excused g (x >>= f) := by
  intro s
  rcases hFirst s with hStep | ⟨e, t, hError, hExcused⟩
  · cases hResult : x s with
    | ok a t =>
      rw [hResult] at hStep
      rw [bind_of_ok hResult, bind_of_ok hStep]
      exact hSecond s a t hResult
    | error e t =>
      rw [hResult] at hStep
      rw [bind_of_error hResult, bind_of_error hStep]
      exact .inl rfl
  · exact .inr ⟨e, t, bind_of_error hError, hExcused⟩

theorem Commutes.bind {x : EStateM ε σ α} {f : α → EStateM ε σ β} (hFirst : Commutes excused g x)
    (hSecond : ∀ a, Commutes excused g (f a)) : Commutes excused g (x >>= f) :=
  hFirst.bind_of fun _ a t _ => hSecond a t

theorem commutes_modify {f : σ → σ} (h : ∀ s, f (g s) = g (f s)) :
    Commutes excused g (modify f : EStateM ε σ PUnit) := by
  intro s
  exact .inl (congrArg (EStateM.Result.ok ()) (h s))

theorem commutes_get_bind {f : σ → EStateM ε σ β} (hSame : ∀ s, f (g s) = f s) (h : ∀ s, Commutes excused g (f s)) :
    Commutes excused g (get >>= f) := by
  intro s
  change f (g s) (g s) = mapState g (f s s) ∨ ∃ e t, f s s = .error e t ∧ excused e
  rw [hSame]
  exact h s s

end

/-! ## Actions that mirror each other -/

/-- Two results in related states: of one value, or of failures for related reasons. -/
inductive Corresponds (S : σ → σ → Prop) (E : ε → ε → Prop) : EStateM.Result ε σ α → EStateM.Result ε σ α → Prop where
  | ok {a : α} {s t : σ} (hState : S s t) : Corresponds S E (.ok a s) (.ok a t)
  | error {d e : ε} {s t : σ} (hReason : E d e) (hState : S s t) : Corresponds S E (.error d s) (.error e t)

/-- From related states two actions have corresponding results. -/
def Mirrors (S : σ → σ → Prop) (E : ε → ε → Prop) (x y : EStateM ε σ α) : Prop :=
  ∀ s t, S s t → Corresponds S E (x s) (y t)

section

variable {S : σ → σ → Prop} {E : ε → ε → Prop}

theorem mirrors_pure (a : α) : Mirrors S E (pure a) (pure a) := fun _ _ h => .ok h

theorem mirrors_throw {d e : ε} (h : E d e) : Mirrors S E (throw d : EStateM ε σ α) (throw e) :=
  fun _ _ hState => .error h hState

theorem Mirrors.bind {x y : EStateM ε σ α} {f g : α → EStateM ε σ β} (hFirst : Mirrors S E x y)
    (hSecond : ∀ a, Mirrors S E (f a) (g a)) : Mirrors S E (x >>= f) (y >>= g) := by
  intro s t hState
  have hStep := hFirst s t hState
  cases hLeft : x s with
  | ok a s' =>
    cases hRight : y t with
    | ok b t' =>
      rw [hLeft, hRight] at hStep
      rw [bind_of_ok hLeft, bind_of_ok hRight]
      cases hStep with
      | ok hNext => exact hSecond a s' t' hNext
    | error e t' =>
      rw [hLeft, hRight] at hStep
      cases hStep
  | error d s' =>
    cases hRight : y t with
    | ok b t' =>
      rw [hLeft, hRight] at hStep
      cases hStep
    | error e t' =>
      rw [hLeft, hRight] at hStep
      rw [bind_of_error hLeft, bind_of_error hRight]
      cases hStep with
      | error hReason hNext => exact .error hReason hNext

theorem mirrors_modifyGet {f g : σ → α × σ} (h : ∀ s t, S s t → (g t).1 = (f s).1 ∧ S (f s).2 (g t).2) :
    Mirrors S E (modifyGet f : EStateM ε σ α) (modifyGet g) := by
  intro s t hState
  obtain ⟨hValue, hNext⟩ := h s t hState
  change Corresponds S E (.ok (f s).1 (f s).2) (.ok (g t).1 (g t).2)
  rw [hValue]
  exact .ok hNext

theorem mirrors_get_bind {f g : σ → EStateM ε σ β} (h : ∀ s t, S s t → Mirrors S E (f s) (g t)) :
    Mirrors S E (get >>= f) (get >>= g) := fun s t hState => h s t hState s t hState

end

/-- A change of reasons goes through a sequence. -/
theorem mapError_bind {δ : Type} (h : ε → δ) (x : Except ε α) (f : α → Except ε β) :
    (x >>= f).mapError h = x.mapError h >>= fun a => (f a).mapError h := by
  cases x <;> rfl

theorem eq_ok_of_mapError {δ : Type} {f : ε → δ} {x : Except ε α} {a : α} (h : x.mapError f = .ok a) :
    x = .ok a := by
  cases x with
  | error e => cases h
  | ok b =>
    cases h
    rfl

/-- The second of two results has the value of the first, changed, or both are errors. -/
inductive Carries {δ : Type} (g : α → β) : Except ε α → Except δ β → Prop where
  | ok (a : α) : Carries g (.ok a) (.ok (g a))
  | error (d : ε) (e : δ) : Carries g (.error d) (.error e)

section

variable {δ : Type} {g : α → β} {x : Except ε α} {y : Except δ β}

theorem Carries.bind {ζ η : Type} {h : ζ → η} {f : α → Except ε ζ} {k : β → Except δ η} (hFirst : Carries g x y)
    (hSecond : ∀ a, Carries h (f a) (k (g a))) : Carries h (x >>= f) (y >>= k) := by
  cases hFirst with
  | ok a => exact hSecond a
  | error d e => exact .error d e

theorem Carries.exists_of_ok {b : β} (h : Carries g x y) (hOk : y = .ok b) : ∃ a, x = .ok a ∧ g a = b := by
  cases h with
  | ok a =>
    cases hOk
    exact ⟨a, rfl, rfl⟩
  | error d e => cases hOk

end

end Vee.Effect
