import Mathlib
import Vee.Functions

/-! # Names and slots

The code of statements allots slots in the order in which it assigns: a loop's step comes behind its body. The
table of variables after a piece of code is the table before it with the names assigned there added in that
order. What a table allots it keeps, and which names it knows does not depend on the order.
-/

namespace Vee

set_option autoImplicit false

mutual

/-- The names that a statement assigns, in the order of its code. -/
def Stmt.targets : Stmt → List String
  | .assign _ x _ => [x]
  | .forLoop _ init _ step body => init.targets ++ Stmt.blockTargets body ++ step.targets
  | .branch _ _ yes no => Stmt.blockTargets yes ++ Stmt.blockTargets no
  | .whileLoop _ _ body => Stmt.blockTargets body
  | _ => []

def Stmt.blockTargets : List Stmt → List String
  | [] => []
  | s :: rest => s.targets ++ Stmt.blockTargets rest

end

/-! ## Lists of distinct names -/

/-- Adds a name at the end unless it is there or known elsewhere. -/
def enlist (known seen : List String) (x : String) : List String :=
  if x ∈ known ∨ x ∈ seen then seen else seen ++ [x]

theorem prefix_enlist (known seen : List String) (x : String) : seen <+: enlist known seen x := by
  rw [enlist]
  split
  · exact List.prefix_rfl
  · exact List.prefix_append _ _

theorem mem_enlist {known seen : List String} {x y : String} :
    y ∈ enlist known seen x ↔ y ∈ seen ∨ y = x ∧ y ∉ known := by
  rw [enlist]
  split
  · rename_i hKnown
    constructor
    · exact .inl
    · rintro (hSeen | ⟨rfl, hNew⟩)
      · exact hSeen
      · exact hKnown.resolve_left hNew
  · rename_i hNew
    rw [List.mem_append, List.mem_singleton]
    constructor
    · rintro (hSeen | rfl)
      · exact .inl hSeen
      · exact .inr ⟨rfl, fun h => hNew (.inl h)⟩
    · rintro (hSeen | ⟨rfl, _⟩)
      · exact .inl hSeen
      · exact .inr rfl

theorem nodup_enlist {known seen : List String} {x : String} (h : seen.Nodup) : (enlist known seen x).Nodup := by
  rw [enlist]
  split
  · exact h
  · rename_i hNew
    rw [List.nodup_append]
    refine ⟨h, by simp, ?_⟩
    intro a hSeen b hb hEq
    rw [List.mem_singleton] at hb
    exact hNew (.inr (hb ▸ hEq ▸ hSeen))

theorem length_enlist_le (known seen : List String) (x : String) :
    (enlist known seen x).length ≤ seen.length + 1 := by
  rw [enlist]
  split
  · exact Nat.le_succ _
  · exact Nat.le_of_eq List.length_append

theorem length_enlistAll_le (known seen names : List String) :
    (names.foldl (enlist known) seen).length ≤ seen.length + names.length := by
  induction names generalizing seen with
  | nil => exact Nat.le_refl _
  | cons x names ih =>
    have hFirst := length_enlist_le known seen x
    have hRest := ih (enlist known seen x)
    rw [List.foldl_cons, List.length_cons]
    omega

section

variable {known seen names : List String}

theorem prefix_enlistAll : seen <+: names.foldl (enlist known) seen := by
  induction names generalizing seen with
  | nil => exact List.prefix_rfl
  | cons x names ih => exact (prefix_enlist known seen x).trans ih

theorem mem_enlistAll {y : String} :
    y ∈ names.foldl (enlist known) seen ↔ y ∈ seen ∨ y ∈ names ∧ y ∉ known := by
  induction names generalizing seen with
  | nil => simp
  | cons x names ih =>
    rw [List.foldl_cons, ih, mem_enlist, List.mem_cons]
    constructor
    · rintro ((hSeen | ⟨hEq, hNew⟩) | ⟨hNames, hNew⟩)
      · exact .inl hSeen
      · exact .inr ⟨.inl hEq, hNew⟩
      · exact .inr ⟨.inr hNames, hNew⟩
    · rintro (hSeen | ⟨hEq | hNames, hNew⟩)
      · exact .inl (.inl hSeen)
      · exact .inl (.inr ⟨hEq, hNew⟩)
      · exact .inr ⟨hNames, hNew⟩

theorem nodup_enlistAll (h : seen.Nodup) : (names.foldl (enlist known) seen).Nodup := by
  induction names generalizing seen with
  | nil => exact h
  | cons x names ih => exact ih (nodup_enlist h)

/-- How many names there are in the end does not depend on their order. -/
theorem length_enlistAll_congr {others : List String} (hSame : ∀ x, x ∈ names ↔ x ∈ others) (h : seen.Nodup) :
    (names.foldl (enlist known) seen).length = (others.foldl (enlist known) seen).length := by
  refine List.Perm.length_eq ((List.perm_ext_iff_of_nodup (nodup_enlistAll h) (nodup_enlistAll h)).mpr ?_)
  intro x
  rw [mem_enlistAll, mem_enlistAll, hSame]

end

/-! ## Assigned names -/

mutual

theorem Expr.walk_assigned (e : Expr) : e.walk.filterMap Phrase.assigned? = [] := by
  cases e with
  | int span n => rfl
  | var span x => rfl
  | call span f args => simp [Expr.walk, Expr.walkList_assigned args, Phrase.assigned?]
  | unary op span a => simp [Expr.walk, a.walk_assigned, Phrase.assigned?]
  | binary op span l r => simp [Expr.walk, l.walk_assigned, r.walk_assigned, Phrase.assigned?]

theorem Expr.walkList_assigned (es : List Expr) : (Expr.walkList es).filterMap Phrase.assigned? = [] := by
  cases es with
  | nil => rfl
  | cons e es => simp [Expr.walkList, e.walk_assigned, Expr.walkList_assigned es]

end

theorem Stmt.assignedNames_cons (s : Stmt) (rest : List Stmt) :
    Stmt.assignedNames (s :: rest) = Stmt.assignedNames [s] ++ Stmt.assignedNames rest := by
  simp [Stmt.assignedNames, Stmt.walkList]

mutual

theorem Stmt.mem_targets {x : String} (s : Stmt) : x ∈ s.targets ↔ x ∈ Stmt.assignedNames [s] := by
  cases s with
  | assign span y e => simp [Stmt.targets, Stmt.assignedNames, Stmt.walkList, Stmt.walk, e.walk_assigned, Phrase.assigned?]
  | expr span e => simp [Stmt.targets, Stmt.assignedNames, Stmt.walkList, Stmt.walk, e.walk_assigned, Phrase.assigned?]
  | print span e => simp [Stmt.targets, Stmt.assignedNames, Stmt.walkList, Stmt.walk, e.walk_assigned, Phrase.assigned?]
  | function span f params body => simp [Stmt.targets, Stmt.assignedNames, Stmt.walkList, Stmt.walk, Phrase.assigned?]
  | ret span value =>
    cases value with
    | none => simp [Stmt.targets, Stmt.assignedNames, Stmt.walkList, Stmt.walk, Phrase.assigned?]
    | some e => simp [Stmt.targets, Stmt.assignedNames, Stmt.walkList, Stmt.walk, e.walk_assigned, Phrase.assigned?]
  | branch span c yes no =>
    have hYes := Stmt.mem_blockTargets (x := x) yes
    have hNo := Stmt.mem_blockTargets (x := x) no
    simp only [Stmt.assignedNames] at hYes hNo
    simp [Stmt.targets, Stmt.assignedNames, Stmt.walkList, Stmt.walk, c.walk_assigned, Phrase.assigned?, hYes, hNo]
  | whileLoop span c body =>
    have hBody := Stmt.mem_blockTargets (x := x) body
    simp only [Stmt.assignedNames] at hBody
    simp [Stmt.targets, Stmt.assignedNames, Stmt.walkList, Stmt.walk, c.walk_assigned, Phrase.assigned?, hBody]
  | forLoop span init c step body =>
    have hInit := Stmt.mem_targets (x := x) init
    have hStep := Stmt.mem_targets (x := x) step
    have hBody := Stmt.mem_blockTargets (x := x) body
    simp only [Stmt.assignedNames, Stmt.walkList, List.append_nil] at hInit hStep hBody
    simp [Stmt.targets, Stmt.assignedNames, Stmt.walkList, Stmt.walk, c.walk_assigned, Phrase.assigned?, hInit,
      hStep, hBody]
    grind

theorem Stmt.mem_blockTargets {x : String} (body : List Stmt) :
    x ∈ Stmt.blockTargets body ↔ x ∈ Stmt.assignedNames body := by
  cases body with
  | nil => simp [Stmt.blockTargets, Stmt.assignedNames, Stmt.walkList]
  | cons s rest =>
    rw [Stmt.blockTargets, Stmt.assignedNames_cons, List.mem_append, List.mem_append, Stmt.mem_targets s,
      Stmt.mem_blockTargets rest]

end

end Vee
