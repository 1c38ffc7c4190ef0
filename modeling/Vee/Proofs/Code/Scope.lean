import Vee.Proofs.Code.Names
import Vee.Stmt.Scoped

/-! # Scope by order of access

What statements read, assign, call and return, in the order of their code, and what it takes for a program to be
well-scoped: each variable that is read has been assigned in front, or is known otherwise. The check of a program
decides this.
-/

namespace Vee

set_option autoImplicit false

inductive Access where
  | read (name : String)
  | write (name : String)
  | call (name : String) (count : Nat)
  | ret
  deriving DecidableEq

mutual

def Expr.accesses : Expr → List Access
  | .int _ _ => []
  | .var _ name => [.read name]
  | .call _ name args => Expr.allAccesses args ++ [.call name args.length]
  | .unary _ _ e => e.accesses
  | .binary _ _ l r => l.accesses ++ r.accesses

def Expr.allAccesses : List Expr → List Access
  | [] => []
  | e :: rest => e.accesses ++ Expr.allAccesses rest

end

mutual

/-- The accesses of a statement in the order of its code. The body of a function is not entered. -/
def Stmt.accesses : Stmt → List Access
  | .assign _ name e => e.accesses ++ [.write name]
  | .expr _ e => e.accesses
  | .print _ e => e.accesses
  | .function _ _ _ _ => []
  | .ret _ none => [.ret]
  | .ret _ (some e) => .ret :: e.accesses
  | .branch _ c yes no => c.accesses ++ (Stmt.blockAccesses yes ++ Stmt.blockAccesses no)
  | .whileLoop _ c body => c.accesses ++ Stmt.blockAccesses body
  | .forLoop _ init c step body => init.accesses ++ (c.accesses ++ (Stmt.blockAccesses body ++ step.accesses))

def Stmt.blockAccesses : List Stmt → List Access
  | [] => []
  | s :: rest => s.accesses ++ Stmt.blockAccesses rest

end

/-- Which programs have code: functions have distinct names and distinct parameters, returns stand in functions, calls
fit a declaration, and a variable is read behind an assignment to it. A function also knows its parameters and
everything that is assigned outside functions. -/
structure Stmt.WellScoped (statements : List Stmt) : Prop where
  names : ((Stmt.blockDeclarations statements).map Declaration.name).Nodup
  params : ∀ d ∈ Stmt.blockDeclarations statements, d.params.Nodup
  returns : .ret ∉ Stmt.blockAccesses statements
  calls : ∀ body ∈ statements :: (Stmt.blockDeclarations statements).map Declaration.body,
    ∀ name count, .call name count ∈ Stmt.blockAccesses body →
      ∃ d ∈ Stmt.blockDeclarations statements, d.name = name ∧ d.params.length = count
  main : ∀ before x after, Stmt.blockAccesses statements = before ++ .read x :: after → .write x ∈ before
  functions : ∀ d ∈ Stmt.blockDeclarations statements,
    ∀ before x after, Stmt.blockAccesses d.body = before ++ .read x :: after →
      x ∈ d.params ∨ .write x ∈ before ∨ .write x ∈ Stmt.blockAccesses statements

/-! ## Names that are written -/

namespace Access

def written? : Access → Option String
  | write name => some name
  | _ => none

/-- The names that accesses write, in their order. -/
def writes (accesses : List Access) : List String := accesses.filterMap written?

theorem writes_append (first second : List Access) : writes (first ++ second) = writes first ++ writes second :=
  List.filterMap_append

theorem mem_writes {x : String} {accesses : List Access} : x ∈ writes accesses ↔ .write x ∈ accesses := by
  rw [writes, List.mem_filterMap]
  constructor
  · rintro ⟨a, hMem, hName⟩
    cases a with
    | write name =>
      cases hName
      exact hMem
    | _ => cases hName
  · intro hMem
    exact ⟨_, hMem, rfl⟩

/-- Every access stands behind others as it should. -/
def Each (P : List Access → Access → Prop) (accesses : List Access) : Prop :=
  ∀ before a after, accesses = before ++ a :: after → P before a

section

variable {P Q : List Access → Access → Prop} {first second accesses : List Access}

theorem Each.congr (h : ∀ before a, P before a ↔ Q before a) : Each P accesses ↔ Each Q accesses := by
  simp only [Each, h]

theorem Each.imp (h : Each P accesses)
    (hImp : ∀ before a after, accesses = before ++ a :: after → P before a → Q before a) : Each Q accesses :=
  fun before a after hSplit => hImp before a after hSplit (h before a after hSplit)

theorem each_nil : Each P [] := by
  intro before a after h
  simp at h

theorem each_singleton {a : Access} : Each P [a] ↔ P [] a := by
  constructor
  · exact fun h => h [] a [] rfl
  · intro h before b after hSplit
    cases before with
    | nil =>
      cases hSplit
      exact h
    | cons c before => simp at hSplit

theorem each_append : Each P (first ++ second) ↔ Each P first ∧ Each (fun before => P (first ++ before)) second := by
  constructor
  · intro h
    constructor
    · intro before a after hSplit
      exact h before a (after ++ second) (by rw [hSplit, List.append_assoc, List.cons_append])
    · intro before a after hSplit
      exact h (first ++ before) a after (by rw [hSplit, List.append_assoc])
  · rintro ⟨hFirst, hSecond⟩ before a after hSplit
    rcases List.append_eq_append_iff.mp hSplit with ⟨between, rfl, hRest⟩ | ⟨between, rfl, hRest⟩
    · exact hSecond between a after hRest
    · cases between with
      | nil =>
        rw [List.nil_append] at hRest
        have hHere := hSecond [] a after hRest.symm
        rwa [List.append_nil, List.append_nil] at hHere
      | cons b between =>
        rw [List.cons_append, List.cons.injEq] at hRest
        obtain ⟨rfl, _⟩ := hRest
        exact hFirst before a between rfl

end

end Access

open Access

mutual

theorem Expr.writes_accesses (e : Expr) : writes e.accesses = [] := by
  cases e with
  | int span n => rfl
  | var span x => rfl
  | call span f args => rw [Expr.accesses, writes_append, Expr.writes_allAccesses args]; rfl
  | unary op span e => exact e.writes_accesses
  | binary op span l r => rw [Expr.accesses, writes_append, l.writes_accesses, r.writes_accesses]; rfl

theorem Expr.writes_allAccesses (es : List Expr) : writes (Expr.allAccesses es) = [] := by
  cases es with
  | nil => rfl
  | cons e rest => rw [Expr.allAccesses, writes_append, e.writes_accesses, Expr.writes_allAccesses rest]; rfl

end

mutual

theorem Stmt.writes_accesses (s : Stmt) : writes s.accesses = s.targets := by
  cases s with
  | assign span x e => rw [Stmt.accesses, writes_append, e.writes_accesses]; rfl
  | expr span e => exact e.writes_accesses
  | print span e => exact e.writes_accesses
  | function span f params body => rfl
  | ret span value =>
    cases value with
    | none => rfl
    | some e => exact e.writes_accesses
  | branch span c yes no =>
    rw [Stmt.accesses, writes_append, writes_append, c.writes_accesses, Stmt.writes_blockAccesses yes,
      Stmt.writes_blockAccesses no, Stmt.targets, List.nil_append]
  | whileLoop span c body =>
    rw [Stmt.accesses, writes_append, c.writes_accesses, Stmt.writes_blockAccesses body, Stmt.targets,
      List.nil_append]
  | forLoop span init c step body =>
    rw [Stmt.accesses, writes_append, writes_append, writes_append, c.writes_accesses, init.writes_accesses,
      step.writes_accesses, Stmt.writes_blockAccesses body, Stmt.targets, List.nil_append, List.append_assoc]

theorem Stmt.writes_blockAccesses (body : List Stmt) : writes (Stmt.blockAccesses body) = Stmt.blockTargets body := by
  cases body with
  | nil => rfl
  | cons s rest =>
    rw [Stmt.blockAccesses, writes_append, s.writes_accesses, Stmt.writes_blockAccesses rest, Stmt.blockTargets]

end

/-! ## The check -/

namespace Access

/-- An access that the check lets pass where some names are known. -/
def Allowed (ds : List Declaration) (inFunction : Bool) (known : List String) (before : List Access) : Access → Prop
  | read x => x ∈ known ∨ write x ∈ before
  | write _ => True
  | call name count => Declaration.fits ds name count = true
  | ret => inFunction = true

variable {ds : List Declaration} {inFunction : Bool} {known others : List String} {first second : List Access}

theorem each_allowed_congr (h : ∀ x, x ∈ known ↔ x ∈ others) :
    Each (Allowed ds inFunction known) first ↔ Each (Allowed ds inFunction others) first := by
  apply Each.congr
  intro before a
  cases a with
  | read x => rw [Allowed, Allowed, h]
  | _ => rfl

theorem each_allowed_append : Each (Allowed ds inFunction known) (first ++ second) ↔
    Each (Allowed ds inFunction known) first ∧ Each (Allowed ds inFunction (known ++ writes first)) second := by
  rw [each_append]
  apply and_congr_right
  intro _
  apply Each.congr
  intro before a
  cases a with
  | read x => rw [Allowed, Allowed, List.mem_append, List.mem_append, mem_writes, or_assoc]
  | _ => rfl

theorem each_allowed_append_quiet (h : writes first = []) : Each (Allowed ds inFunction known) (first ++ second) ↔
    Each (Allowed ds inFunction known) first ∧ Each (Allowed ds inFunction known) second := by
  rw [each_allowed_append, h, List.append_nil]

end Access

section

variable {ds : List Declaration} {inFunction : Bool} {known : List String}

mutual

theorem Expr.scoped_iff (e : Expr) : e.scoped ds known = true ↔ Each (Allowed ds inFunction known) e.accesses := by
  cases e with
  | int span n => exact ⟨fun _ => each_nil, fun _ => rfl⟩
  | var span x => simp [Expr.scoped, Expr.accesses, each_singleton, Allowed]
  | call span f args =>
    rw [Expr.scoped, Expr.accesses, Bool.and_eq_true, each_allowed_append_quiet (Expr.writes_allAccesses args),
      each_singleton, Expr.allScoped_iff args, and_comm]
    rfl
  | unary op span e => exact e.scoped_iff
  | binary op span l r =>
    rw [Expr.scoped, Expr.accesses, Bool.and_eq_true, each_allowed_append_quiet l.writes_accesses, l.scoped_iff,
      r.scoped_iff]

theorem Expr.allScoped_iff (es : List Expr) :
    Expr.allScoped ds known es = true ↔ Each (Allowed ds inFunction known) (Expr.allAccesses es) := by
  cases es with
  | nil => exact ⟨fun _ => each_nil, fun _ => rfl⟩
  | cons e rest =>
    rw [Expr.allScoped, Expr.allAccesses, Bool.and_eq_true, each_allowed_append_quiet e.writes_accesses, e.scoped_iff,
      Expr.allScoped_iff rest]

end

end

theorem Stmt.mem_known_block {known : List String} {body : List Stmt} (x : String) :
    x ∈ known ++ Stmt.assignedNames body ↔ x ∈ known ++ writes (Stmt.blockAccesses body) := by
  rw [List.mem_append, List.mem_append, Stmt.writes_blockAccesses, Stmt.mem_blockTargets]

theorem Stmt.mem_known_stmt {known : List String} {s : Stmt} (x : String) :
    x ∈ known ++ Stmt.assignedNames [s] ↔ x ∈ known ++ writes s.accesses := by
  rw [List.mem_append, List.mem_append, Stmt.writes_accesses, Stmt.mem_targets]

section

variable {ds : List Declaration} {inFunction : Bool}

mutual

theorem Stmt.scoped_iff {known : List String} (s : Stmt) :
    s.scoped ds inFunction known = true ↔ Each (Allowed ds inFunction known) s.accesses := by
  cases s with
  | assign span x e =>
    rw [Stmt.scoped, Stmt.accesses, each_allowed_append_quiet e.writes_accesses, each_singleton, ← e.scoped_iff]
    exact (and_iff_left trivial).symm
  | expr span e => exact e.scoped_iff
  | print span e => exact e.scoped_iff
  | function span f params body => exact ⟨fun _ => each_nil, fun _ => rfl⟩
  | ret span value =>
    cases value with
    | none =>
      rw [Stmt.scoped, Stmt.accesses, each_singleton]
      rfl
    | some e =>
      rw [Stmt.scoped, Stmt.accesses, ← List.singleton_append, each_allowed_append_quiet rfl, each_singleton,
        Bool.and_eq_true, ← e.scoped_iff]
      rfl
  | branch span c yes no =>
    rw [Stmt.scoped, Stmt.accesses, Bool.and_eq_true, Bool.and_eq_true, each_allowed_append_quiet c.writes_accesses,
      each_allowed_append, ← c.scoped_iff, Stmt.blockScoped_iff yes, Stmt.blockScoped_iff no, and_assoc,
      each_allowed_congr Stmt.mem_known_block]
  | whileLoop span c body =>
    rw [Stmt.scoped, Stmt.accesses, Bool.and_eq_true, each_allowed_append_quiet c.writes_accesses, ← c.scoped_iff,
      Stmt.blockScoped_iff body]
  | forLoop span init c step body =>
    have hInside : ∀ l, Each (Allowed ds inFunction (known ++ Stmt.assignedNames [init])) l ↔
        Each (Allowed ds inFunction (known ++ writes init.accesses)) l :=
      fun _ => each_allowed_congr Stmt.mem_known_stmt
    have hBehind : ∀ l, Each (Allowed ds inFunction (known ++ Stmt.assignedNames [init] ++ Stmt.assignedNames body)) l ↔
        Each (Allowed ds inFunction (known ++ writes init.accesses ++ writes (Stmt.blockAccesses body))) l := by
      intro l
      apply each_allowed_congr
      intro x
      rw [Stmt.mem_known_block, List.mem_append, Stmt.mem_known_stmt, ← List.mem_append]
    have hTest : c.scoped ds (known ++ Stmt.assignedNames [init]) = true ↔
        Each (Allowed ds inFunction (known ++ Stmt.assignedNames [init])) c.accesses := c.scoped_iff
    rw [Stmt.scoped, Stmt.accesses]
    simp only [Bool.and_eq_true]
    rw [each_allowed_append, each_allowed_append_quiet c.writes_accesses, each_allowed_append, init.scoped_iff, hTest,
      Stmt.blockScoped_iff body, step.scoped_iff, and_assoc, and_assoc, hInside, hInside, hBehind]

theorem Stmt.blockScoped_iff {known : List String} (body : List Stmt) :
    Stmt.blockScoped ds inFunction known body = true ↔
      Each (Allowed ds inFunction known) (Stmt.blockAccesses body) := by
  cases body with
  | nil => exact ⟨fun _ => each_nil, fun _ => rfl⟩
  | cons s rest =>
    rw [Stmt.blockScoped, Stmt.blockAccesses, Bool.and_eq_true, each_allowed_append, s.scoped_iff,
      Stmt.blockScoped_iff rest, each_allowed_congr Stmt.mem_known_stmt]

end

end

theorem Access.each_allowed_iff {ds : List Declaration} {inFunction : Bool} {known : List String}
    {accesses : List Access} : Each (Allowed ds inFunction known) accesses ↔
      (.ret ∈ accesses → inFunction = true) ∧
        (∀ name count, .call name count ∈ accesses → ∃ d ∈ ds, d.name = name ∧ d.params.length = count) ∧
        ∀ before x after, accesses = before ++ .read x :: after → x ∈ known ∨ .write x ∈ before := by
  have hFits : ∀ name count, Declaration.fits ds name count = true ↔
      ∃ d ∈ ds, d.name = name ∧ d.params.length = count := by
    simp [Declaration.fits]
  constructor
  · intro h
    refine ⟨fun hMem => ?_, fun name count hMem => ?_, fun before x after hSplit => h before (.read x) after hSplit⟩
    · obtain ⟨before, after, hSplit⟩ := List.append_of_mem hMem
      exact h before .ret after hSplit
    · obtain ⟨before, after, hSplit⟩ := List.append_of_mem hMem
      exact (hFits name count).mp (h before (.call name count) after hSplit)
  · rintro ⟨hReturns, hCalls, hReads⟩ before a after hSplit
    have hMem : a ∈ accesses := by simp [hSplit]
    cases a with
    | read x => exact hReads before x after hSplit
    | write x => trivial
    | call name count => exact (hFits name count).mpr (hCalls name count hMem)
    | ret => exact hReturns hMem

theorem Stmt.wellScoped_iff_each (statements : List Stmt) :
    Stmt.WellScoped statements ↔
      ((Stmt.blockDeclarations statements).map Declaration.name).Nodup ∧
        (∀ d ∈ Stmt.blockDeclarations statements, d.params.Nodup) ∧
        Each (Allowed (Stmt.blockDeclarations statements) false []) (Stmt.blockAccesses statements) ∧
        ∀ d ∈ Stmt.blockDeclarations statements,
          Each (Allowed (Stmt.blockDeclarations statements) true (d.params ++ Stmt.assignedNames statements))
            (Stmt.blockAccesses d.body) := by
  simp only [each_allowed_iff]
  constructor
  · intro h
    refine ⟨h.names, h.params, ⟨fun hMem => absurd hMem h.returns, ?_, ?_⟩, ?_⟩
    · exact h.calls statements List.mem_cons_self
    · exact fun before x after hSplit => .inr (h.main before x after hSplit)
    · intro d hDeclared
      refine ⟨fun _ => trivial, h.calls d.body (List.mem_cons_of_mem _ (List.mem_map_of_mem hDeclared)), ?_⟩
      intro before x after hSplit
      rw [List.mem_append, ← Stmt.mem_blockTargets, ← Stmt.writes_blockAccesses, mem_writes]
      exact or_assoc.mpr ((h.functions d hDeclared before x after hSplit).imp_right Or.symm)
  · rintro ⟨hNames, hParams, ⟨hReturns, hCalls, hMain⟩, hFunctions⟩
    refine ⟨hNames, hParams, fun hMem => Bool.false_ne_true (hReturns hMem), ?_, ?_, ?_⟩
    · intro body hBody
      rcases List.mem_cons.mp hBody with rfl | hBody
      · exact hCalls
      · obtain ⟨d, hDeclared, rfl⟩ := List.mem_map.mp hBody
        exact (hFunctions d hDeclared).2.1
    · intro before x after hSplit
      exact (hMain before x after hSplit).resolve_left List.not_mem_nil
    · intro d hDeclared before x after hSplit
      have hRead := (hFunctions d hDeclared).2.2 before x after hSplit
      rw [List.mem_append, ← Stmt.mem_blockTargets, ← Stmt.writes_blockAccesses, mem_writes] at hRead
      exact or_assoc.mp hRead |>.imp_right Or.symm

/-- The check of a program says whether it is well-scoped. -/
theorem Stmt.programScoped_iff (statements : List Stmt) :
    Stmt.programScoped statements = true ↔ Stmt.WellScoped statements := by
  simp only [Stmt.programScoped, Bool.and_eq_true, decide_eq_true_eq, List.all_eq_true, Stmt.blockScoped_iff,
    Stmt.wellScoped_iff_each, and_assoc]

instance (statements : List Stmt) : Decidable (Stmt.WellScoped statements) :=
  decidable_of_iff _ (Stmt.programScoped_iff statements)

end Vee
